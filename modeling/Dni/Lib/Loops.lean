import Mathlib.Data.List.Forall2
import Mathlib.Data.List.Nodup

namespace Loops

section Together

theorem forall₂_exists_right {α β : Type*} {R : α → β → Prop} {xs : List α} {ys : List β}
    (h : List.Forall₂ R xs ys) {x : α} (hx : x ∈ xs) : ∃ y ∈ ys, R x y := by
  induction h with
  | nil => simp at hx
  | @cons a b as bs hab _ ih =>
    rcases List.mem_cons.mp hx with rfl | hx
    · exact ⟨b, by simp, hab⟩
    · obtain ⟨y, hy, hr⟩ := ih hx
      exact ⟨y, by simp [hy], hr⟩

theorem forall₂_pairwise {α β : Type*} {R : α → β → Prop} {P : β → β → Prop} {Q : α → α → Prop}
    {xs : List α} {ys : List β} (h : List.Forall₂ R xs ys) (hp : ys.Pairwise P)
    (imp : ∀ {a a' b b'}, R a b → R a' b' → P b b' → Q a a') : xs.Pairwise Q := by
  induction h with
  | nil => exact List.Pairwise.nil
  | @cons a b as bs hab ht ih =>
    obtain ⟨h1, h2⟩ := List.pairwise_cons.mp hp
    refine List.pairwise_cons.mpr ⟨fun a' ha' => ?_, ih h2⟩
    obtain ⟨b', hb', hr⟩ := forall₂_exists_right ht ha'
    exact imp hab hr (h1 b' hb')

/-- The rounds of a loop over distinct keys are told apart by the key of their results. -/
theorem filter_flatten_key {α β κ : Type} [DecidableEq κ] {k : α → κ} {key : β → κ}
    {P : α → List β → Prop} {xs : List α} {yss : List (List β)}
    (h : List.Forall₂ (fun x ys => (∀ y ∈ ys, key y = k x) ∧ P x ys) xs yss)
    (hn : (xs.map k).Nodup) : ∀ x ∈ xs, P x (yss.flatten.filter (key · = k x)) := by
  have hnone : ∀ {xs : List α} {yss : List (List β)} {c : κ},
      List.Forall₂ (fun x ys => (∀ y ∈ ys, key y = k x) ∧ P x ys) xs yss → c ∉ xs.map k →
      yss.flatten.filter (key · = c) = [] := by
    intro xs yss c h hc
    apply List.filter_eq_nil_iff.mpr
    intro y hy hk
    obtain ⟨ys, hys, hmem⟩ := List.mem_flatten.mp hy
    obtain ⟨x, hx, hkey, _⟩ := forall₂_exists_right h.flip hys
    have hyc : key y = c := by simpa using hk
    exact hc (List.mem_map.mpr ⟨x, hx, (hkey y hmem).symm.trans hyc⟩)
  induction h with
  | nil => simp
  | @cons x ys xs yss hx ht ih =>
    rw [List.map_cons] at hn
    obtain ⟨hfresh, hn'⟩ := List.nodup_cons.mp hn
    intro z hz
    simp only [List.flatten_cons, List.filter_append]
    rcases List.mem_cons.mp hz with he | he
    · subst he
      have hall : ys.filter (key · = k z) = ys := List.filter_eq_self.mpr fun y hy => by
        simpa using hx.1 y hy
      rw [hall, hnone ht hfresh, List.append_nil]
      exact hx.2
    · have hne : k x ≠ k z := fun e => hfresh (e ▸ List.mem_map_of_mem he)
      have hnil : ys.filter (key · = k z) = [] := List.filter_eq_nil_iff.mpr fun y hy => by
        simpa [hx.1 y hy] using hne
      rw [hnil, List.nil_append]
      exact ih hn' z he

end Together

section Collect

variable {α β : Type} {f : α → Option β} {xs : List α} {ys : List β}

theorem mapM_eq_some_iff : xs.mapM f = some ys ↔ List.Forall₂ (fun x y => f x = some y) xs ys := by
  induction xs generalizing ys with
  | nil =>
    rw [List.mapM_nil, List.forall₂_nil_left_iff, Option.pure_def, Option.some.injEq, eq_comm]
  | cons x xs ih =>
    rw [List.mapM_cons, List.forall₂_cons_left_iff]
    apply Iff.intro
    · intro h
      obtain ⟨y, hy, h⟩ := Option.bind_eq_some_iff.mp h
      obtain ⟨rest, hrest, h⟩ := Option.bind_eq_some_iff.mp h
      exact ⟨y, rest, hy, ih.mp hrest, (Option.some.inj h).symm⟩
    · intro ⟨y, rest, hy, hrest, hys⟩
      rw [hy, ih.mpr hrest, hys]
      rfl

/-- A loop whose rounds all succeed collects what each of them gives. -/
theorem mapM_forall₂ {P : α → β → Prop} (h : ∀ x ∈ xs, ∃ y, f x = some y ∧ P x y) :
    ∃ ys, xs.mapM f = some ys ∧ List.Forall₂ P xs ys := by
  induction xs with
  | nil => exact ⟨[], rfl, .nil⟩
  | cons x xs ih =>
    obtain ⟨y, hy, hp⟩ := h x (by simp)
    obtain ⟨ys, hys, hps⟩ := ih fun z hz => h z (by simp [hz])
    exact ⟨y :: ys, by simp [List.mapM_cons, hy, hys], .cons hp hps⟩

theorem exists_mapM_some (h : ∀ x ∈ xs, ∃ y, f x = some y) : ∃ ys, xs.mapM f = some ys := by
  have hrounds : ∀ x ∈ xs, ∃ y, f x = some y ∧ True := by
    intro x hx
    obtain ⟨y, hy⟩ := h x hx
    exact ⟨y, hy, trivial⟩
  obtain ⟨ys, hys, _⟩ := mapM_forall₂ hrounds
  exact ⟨ys, hys⟩

theorem mapM_eq_some_map {g : α → β} (h : ∀ x ∈ xs, f x = some (g x)) : xs.mapM f = some (xs.map g) := by
  rw [mapM_eq_some_iff, List.forall₂_map_right_iff, List.forall₂_same]
  exact h

theorem mem_of_mapM_some (h : xs.mapM f = some ys) :
    (∀ x ∈ xs, ∃ y, f x = some y) ∧ ∀ y, y ∈ ys ↔ ∃ x ∈ xs, f x = some y := by
  have hall := mapM_eq_some_iff.mp h
  have hright : ∀ x ∈ xs, ∃ y ∈ ys, f x = some y := fun x hx => forall₂_exists_right hall hx
  refine ⟨?_, fun y => ⟨fun hy => forall₂_exists_right hall.flip hy, ?_⟩⟩
  · intro x hx
    obtain ⟨y, _, hy⟩ := hright x hx
    exact ⟨y, hy⟩
  · intro ⟨x, hx, hxy⟩
    obtain ⟨z, hz, hxz⟩ := hright x hx
    rw [Option.some.inj (hxy.symm.trans hxz)]
    exact hz

end Collect

section Append

variable {α β : Type} {f : α → Option (List β)} {xs : List α}

theorem mem_mapM_flatten {yss : List (List β)} (h : xs.mapM f = some yss) (y : β) :
    y ∈ yss.flatten ↔ ∃ x ∈ xs, ∃ ys, f x = some ys ∧ y ∈ ys := by
  rw [List.mem_flatten]
  apply Iff.intro
  · intro ⟨ys, hys, hy⟩
    obtain ⟨x, hx, hf⟩ := ((mem_of_mapM_some h).2 ys).mp hys
    exact ⟨x, hx, ys, hf, hy⟩
  · intro ⟨x, hx, ys, hf, hy⟩
    exact ⟨ys, ((mem_of_mapM_some h).2 ys).mpr ⟨x, hx, hf⟩, hy⟩

theorem mapM_flatten_iff {Q : β → Prop} {C : α → Prop}
    (h : ∀ x ∈ xs, ∃ ys, f x = some ys ∧ ((∀ y ∈ ys, Q y) ↔ C x)) :
    ∃ ys, (xs.mapM f).map List.flatten = some ys ∧ ((∀ y ∈ ys, Q y) ↔ ∀ x ∈ xs, C x) := by
  obtain ⟨yss, hyss, hf⟩ := mapM_forall₂ h
  refine ⟨yss.flatten, by rw [hyss]; rfl, ?_⟩
  clear hyss h
  induction hf with
  | nil => simp
  | @cons x ys xs yss hx _ ih =>
    simp only [List.flatten_cons, List.mem_append, List.mem_cons, or_imp, forall_and, forall_eq,
      hx, ih]

/-- A loop whose rounds each append one result or none. -/
theorem mapM_flatten_filter {p : α → Bool} {R : α → β → Prop} {l : List α}
    (hyes : ∀ x ∈ l, p x = true → ∃ y, f x = some [y] ∧ R x y)
    (hno : ∀ x ∈ l, p x = false → f x = some []) :
    ∃ ys, (l.mapM f).map List.flatten = some ys ∧ List.Forall₂ R (l.filter p) ys := by
  induction l with
  | nil => exact ⟨[], rfl, .nil⟩
  | cons x xs ih =>
    obtain ⟨ys, hys, hf⟩ := ih (fun z hz => hyes z (List.mem_cons_of_mem x hz))
      (fun z hz => hno z (List.mem_cons_of_mem x hz))
    obtain ⟨yss, hm, hfl⟩ := Option.map_eq_some_iff.mp hys
    by_cases hp : p x = true
    · obtain ⟨y, hy, hr⟩ := hyes x (by simp) hp
      refine ⟨y :: ys, by simp [List.mapM_cons, hy, hm, hfl], ?_⟩
      simpa [hp] using ⟨hr, hf⟩
    · have hp : p x = false := by simpa using hp
      refine ⟨ys, by simp [List.mapM_cons, hno x (by simp) hp, hm, hfl], ?_⟩
      simpa [hp] using hf

end Append

section Fold

variable {α β : Type} {f : β → α → Option β} {xs : List α}

/-- A loop whose rounds all succeed is the loop without failures. -/
theorem foldlM_eq_some {g : β → α → β} (h : ∀ x ∈ xs, ∀ b, f b x = some (g b x)) (b : β) :
    xs.foldlM f b = some (xs.foldl g b) := by
  induction xs generalizing b with
  | nil => rfl
  | cons x xs ih =>
    rw [List.foldlM_cons, h x (by simp), List.foldl_cons]
    exact ih (fun y hy => h y (by simp [hy])) (g b x)

/-- A loop succeeds where each of its rounds does. -/
theorem exists_foldlM_iff {p : α → Prop} (h : ∀ x ∈ xs, ∀ b, (∃ b', f b x = some b') ↔ p x) (b : β) :
    (∃ b', xs.foldlM f b = some b') ↔ ∀ x ∈ xs, p x := by
  induction xs generalizing b with
  | nil => exact iff_of_true ⟨b, rfl⟩ (by simp)
  | cons x xs ih =>
    have hrest := ih fun y hy => h y (by simp [hy])
    rw [List.foldlM_cons, List.forall_mem_cons, ← h x (by simp) b]
    cases hf : f b x with
    | none => exact iff_of_false (fun ⟨_, he⟩ => by cases he) fun ⟨⟨_, he⟩, _⟩ => by cases he
    | some b' =>
      rw [and_iff_right ⟨b', rfl⟩]
      exact hrest b'

end Fold

end Loops
