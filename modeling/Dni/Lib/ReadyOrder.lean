import Mathlib.Data.Fintype.EquivFin
import Mathlib.Data.List.Basic
import Mathlib.Logic.Relation
import Mathlib.Order.WellFounded
import Mathlib.Order.WellFoundedSet

namespace ReadyOrder

variable {α : Type*} {Edge : α → α → Prop}

/-- Everything that points at an element of the list stands before it. -/
def Ordered (Edge : α → α → Prop) (l : List α) : Prop :=
  ∀ pre x post, l = pre ++ x :: post → ∀ a, Edge a x → a ∈ pre

theorem Ordered.nil : Ordered Edge [] := fun pre x post h => by simp at h

theorem Ordered.concat {l : List α} (h : Ordered Edge l) {x : α} (hx : ∀ a, Edge a x → a ∈ l) :
    Ordered Edge (l ++ [x]) := by
  intro pre y post heq a ha
  rcases List.eq_nil_or_concat post with rfl | ⟨post, z, rfl⟩
  · obtain ⟨rfl, hy⟩ := List.append_inj' heq rfl
    cases hy
    exact hx a ha
  · rw [List.concat_eq_append, ← List.cons_append, ← List.append_assoc] at heq
    obtain ⟨rfl, _⟩ := List.append_inj' heq rfl
    exact h pre y post rfl a ha

theorem Ordered.before {l : List α} (h : Ordered Edge l) {a b : α} (hab : Relation.TransGen Edge a b)
    {pre post : List α} (hl : l = pre ++ b :: post) : a ∈ pre := by
  induction hab generalizing pre post with
  | single hab => exact h pre _ post hl a hab
  | @tail b c _ hbc ih =>
    obtain ⟨p, q, rfl⟩ := List.append_of_mem (h pre c post hl b hbc)
    have := @ih p (q ++ c :: post) (by simpa using hl)
    simp [this]

/-- A list in such an order that holds every target excludes a cycle. -/
theorem Ordered.acyclic {l : List α} (h : Ordered Edge l) (hn : l.Nodup)
    (hmem : ∀ a b, Edge a b → b ∈ l) : ¬ ∃ a, Relation.TransGen Edge a a := by
  rintro ⟨a, ha⟩
  obtain ⟨b, _, hb⟩ := Relation.TransGen.tail'_iff.mp ha
  obtain ⟨pre, post, hl⟩ := List.append_of_mem (hmem b a hb)
  have hpre := h.before ha hl
  subst hl
  exact (List.nodup_append.mp hn).2.2 a hpre a (by simp) rfl

/-- Where every element of a finite set has a source in the set, some element reaches itself. -/
theorem exists_cycle {s : Set α} (hf : s.Finite) (hne : s.Nonempty)
    (hpred : ∀ x ∈ s, ∃ y ∈ s, Edge y x) : ∃ a, Relation.TransGen Edge a a := by
  by_contra hcon
  have hirr : ∀ a, ¬ Relation.TransGen Edge a a := fun a ha => hcon ⟨a, ha⟩
  have : Finite s := hf
  let r : s → s → Prop := fun a b => Relation.TransGen Edge a b
  have : IsTrans s r := ⟨fun _ _ _ hab hbc => Relation.TransGen.trans hab hbc⟩
  have : Std.Irrefl r := ⟨fun a ha => hirr a ha⟩
  have hwf : WellFounded r := Finite.wellFounded_of_trans_of_irrefl r
  obtain ⟨x, hx⟩ := hne
  obtain ⟨m, _, hmin⟩ := hwf.has_min Set.univ ⟨⟨x, hx⟩, trivial⟩
  obtain ⟨y, hy, hyx⟩ := hpred m m.2
  exact hmin ⟨y, hy⟩ trivial (Relation.TransGen.single hyx)

end ReadyOrder
