import Dni.Lib.Runs
import Mathlib.Data.List.Perm.Basic

namespace Runs

variable {σ ε : Type} (step : σ → ε → Option σ)

/-- Two events that are both possible can be taken one after the other, and either order ends in one state. -/
def Commutes (Inv : σ → Prop) : Prop :=
  ∀ s e f t u, Inv s → e ≠ f → step s e = some t → step s f = some u →
    ∃ v, step t f = some v ∧ step u e = some v

/-- No event is possible. -/
def Stuck (s : σ) : Prop := ∀ e, step s e = none

variable {step} {Inv : σ → Prop}

theorem Stuck.run {s t : σ} (h : Stuck step s) {es : List ε} (ht : es.foldlM step s = some t) : es = [] ∧ t = s := by
  cases es with
  | nil =>
    cases ht
    exact ⟨rfl, rfl⟩
  | cons e es =>
    rw [List.foldlM_cons, h e] at ht
    cases ht

/-- Where the length of the runs is bounded, a run comes to an end. -/
theorem exists_stuck {n : Nat} {s : σ} (h : ∀ (es : List ε) t, es.foldlM step s = some t → es.length ≤ n) :
    ∃ (es : List ε) (t : σ), es.foldlM step s = some t ∧ Stuck step t := by
  induction n generalizing s with
  | zero =>
    refine ⟨[], s, rfl, fun e => ?_⟩
    cases ht : step s e with
    | none => rfl
    | some t =>
      have hle := h [e] t (by rw [List.foldlM_cons, ht]; rfl)
      cases hle
  | succ n ih =>
    by_cases hstuck : Stuck step s
    · exact ⟨[], s, rfl, hstuck⟩
    · obtain ⟨e, he⟩ := not_forall.mp hstuck
      obtain ⟨t, ht⟩ := Option.ne_none_iff_exists'.mp he
      obtain ⟨es, u, hes, hend⟩ := ih fun fs u hu => by
        have hle := h (e :: fs) u (by rw [List.foldlM_cons, ht]; exact hu)
        exact Nat.le_of_succ_le_succ hle
      exact ⟨e :: es, u, by rw [List.foldlM_cons, ht]; exact hes, hend⟩

section Complete

variable (hstep : ∀ s e t, Inv s → step s e = some t → Inv t) (hcomm : Commutes step Inv)
include hstep hcomm

/-- A run to the end takes every event that is possible at its start, and might have taken it first. -/
theorem run_front {s t u : σ} (h : Inv s) {e : ε} (hu : step s e = some u) {es : List ε}
    (ht : es.foldlM step s = some t) (hend : Stuck step t) :
    ∃ es', es'.foldlM step u = some t ∧ es.Perm (e :: es') := by
  classical
  induction es generalizing s u with
  | nil =>
    cases ht
    rw [hend e] at hu
    cases hu
  | cons f es ih =>
    rw [List.foldlM_cons] at ht
    obtain ⟨w, hw, ht⟩ := Option.bind_eq_some_iff.mp ht
    by_cases hef : e = f
    · subst hef
      rw [hu] at hw
      cases hw
      exact ⟨es, ht, List.Perm.refl _⟩
    · obtain ⟨v, huv, hwv⟩ := hcomm s e f u w h hef hu hw
      obtain ⟨es', hes', hperm⟩ := ih (hstep s f w h hw) hwv ht
      refine ⟨f :: es', ?_, (hperm.cons f).trans (List.Perm.swap e f es')⟩
      rw [List.foldlM_cons, huv]
      exact hes'

/-- When one run comes to an end, every run can be continued to that end, and takes the same events. -/
theorem run_completes {s t u : σ} (h : Inv s) {es fs : List ε} (ht : es.foldlM step s = some t)
    (hend : Stuck step t) (hu : fs.foldlM step s = some u) :
    ∃ gs, gs.foldlM step u = some t ∧ es.Perm (fs ++ gs) := by
  induction fs generalizing s es with
  | nil =>
    cases hu
    exact ⟨es, ht, List.Perm.refl _⟩
  | cons f fs ih =>
    rw [List.foldlM_cons] at hu
    obtain ⟨w, hw, hu⟩ := Option.bind_eq_some_iff.mp hu
    obtain ⟨es', hes', hperm⟩ := run_front hstep hcomm h hw ht hend
    obtain ⟨gs, hgs, hrest⟩ := ih (hstep s f w h hw) hes' hu
    exact ⟨gs, hgs, hperm.trans (hrest.cons f)⟩

end Complete

end Runs
