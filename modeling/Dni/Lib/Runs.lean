import Mathlib.Data.Option.Basic

namespace Runs

variable {σ ε : Type} (step : σ → ε → Option σ)

/-- Every state of the run has the property. -/
def Always (P : σ → Prop) : σ → List ε → Prop
  | s, [] => P s
  | s, e :: es => P s ∧ ∀ t, step s e = some t → Always P t es

/-- Every step of the run meets the condition, which is about the state before it. -/
def Meets (C : σ → ε → Prop) : σ → List ε → Prop
  | _, [] => True
  | s, e :: es => ∀ t, step s e = some t → C s e ∧ Meets C t es

variable {step}

theorem meets_of_forall {C : σ → ε → Prop} (h : ∀ s e, C s e) {s : σ} {es : List ε} : Meets step C s es := by
  induction es generalizing s with
  | nil => trivial
  | cons e es ih => exact fun t _ => ⟨h s e, ih⟩

/-- What one step preserves under the condition, a run preserves whose steps all meet it. -/
theorem always_of_meets {Inv : σ → Prop} {C : σ → ε → Prop}
    (hstep : ∀ s e t, Inv s → step s e = some t → C s e → Inv t) {s : σ} (h : Inv s) {es : List ε}
    (hmeets : Meets step C s es) : Always step Inv s es := by
  induction es generalizing s with
  | nil => exact h
  | cons e es ih =>
    refine ⟨h, fun t ht => ?_⟩
    obtain ⟨hc, hrest⟩ := hmeets t ht
    exact ih (hstep s e t h ht hc) hrest

theorem Always.imp {P Q : σ → Prop} (himp : ∀ s, P s → Q s) {s : σ} {es : List ε}
    (h : Always step P s es) : Always step Q s es := by
  induction es generalizing s with
  | nil => exact himp s h
  | cons e es ih => exact ⟨himp s h.1, fun t ht => ih (h.2 t ht)⟩

theorem Always.head {P : σ → Prop} {s : σ} {es : List ε} (h : Always step P s es) : P s := by
  cases es with
  | nil => exact h
  | cons e es => exact h.1

/-- A condition that the invariant needs, and that every step into a good state meets, is exact. -/
theorem always_iff_meets {Inv Good : σ → Prop} {C : σ → ε → Prop} (hgood : ∀ s, Inv s → Good s)
    (hstep : ∀ s e t, Inv s → step s e = some t → C s e → Inv t)
    (hneeds : ∀ s e t, Inv s → step s e = some t → Good t → C s e) {s : σ} (h : Inv s) {es : List ε} :
    Always step Good s es ↔ Meets step C s es := by
  apply Iff.intro
  · intro halways
    induction es generalizing s with
    | nil => trivial
    | cons e es ih =>
      intro t ht
      have hrest := halways.2 t ht
      have hc := hneeds s e t h ht hrest.head
      exact ⟨hc, ih (hstep s e t h ht hc) hrest⟩
  · intro hmeets
    exact (always_of_meets hstep h hmeets).imp hgood

theorem Always.last {P : σ → Prop} {s t : σ} {es : List ε} (h : Always step P s es)
    (ht : es.foldlM step s = some t) : P t := by
  induction es generalizing s with
  | nil =>
    cases ht
    exact h
  | cons e es ih =>
    rw [List.foldlM_cons] at ht
    obtain ⟨u, hu, ht⟩ := Option.bind_eq_some_iff.mp ht
    exact ih (h.2 u hu) ht

/-- What every step preserves, a run preserves. -/
theorem run_preserves {Inv : σ → Prop} (hstep : ∀ s e t, Inv s → step s e = some t → Inv t) {s t : σ} (h : Inv s)
    {es : List ε} (ht : es.foldlM step s = some t) : Inv t := by
  induction es generalizing s with
  | nil =>
    cases ht
    exact h
  | cons e es ih =>
    rw [List.foldlM_cons] at ht
    obtain ⟨u, hu, ht⟩ := Option.bind_eq_some_iff.mp ht
    exact ih (hstep s e u h hu) ht

/-- A run whose steps all leave less to do has at most as many as there was to do. -/
theorem length_le_of_less {Inv : σ → Prop} {C : σ → ε → Prop} {left : σ → Nat}
    (hstep : ∀ s e t, Inv s → step s e = some t → C s e → Inv t ∧ left t < left s) {s t : σ} (h : Inv s)
    {es : List ε} (hmeets : Meets step C s es) (ht : es.foldlM step s = some t) : es.length ≤ left s := by
  induction es generalizing s with
  | nil => exact Nat.zero_le _
  | cons e es ih =>
    rw [List.foldlM_cons] at ht
    obtain ⟨u, hu, ht⟩ := Option.bind_eq_some_iff.mp ht
    obtain ⟨hc, hrest⟩ := hmeets u hu
    obtain ⟨hinv, hlt⟩ := hstep s e u h hu hc
    exact Nat.le_trans (Nat.succ_le_succ (ih hinv hrest ht)) hlt

instance decidableMeets (C : σ → ε → Prop) [∀ s e, Decidable (C s e)] :
    ∀ s es, Decidable (Meets step C s es)
  | _, [] => isTrue trivial
  | s, e :: es =>
    match h : step s e with
    | none => isTrue fun t ht => by
      rw [h] at ht
      cases ht
    | some t =>
      have := decidableMeets C t es
      decidable_of_iff (C s e ∧ Meets step C t es) (by simp [Meets, h])

end Runs
