import Mathlib.Data.List.Dedup
import Mathlib.Data.List.Perm.Subperm
import Mathlib.Algebra.BigOperators.Group.List.Basic
import Mathlib.Algebra.Order.BigOperators.Group.List
import Mathlib.Algebra.Order.Group.Int
import Mathlib.Algebra.Ring.Int.Defs

namespace Sieve

variable {α κ : Type}

/-- The total weight of a list of weighted items. -/
def mass (xs : List (α × Int)) : Int := (xs.map Prod.snd).sum

/-- One level of a sieve: items are grouped by a key, and a group is taken out or not by its weight
and by how many groups there are. -/
structure Tier (α κ : Type) where
  key : α → κ
  hot : Nat → Int → Bool

theorem mass_perm {xs ys : List (α × Int)} (h : xs.Perm ys) : mass xs = mass ys :=
  (h.map _).sum_eq

/-- Two parts apart weigh together what they weigh each. -/
theorem mass_filter_or {p q : α × Int → Bool} {es : List (α × Int)}
    (hpq : ∀ e ∈ es, ¬ (p e = true ∧ q e = true)) :
    mass (es.filter fun e => p e || q e) = mass (es.filter p) + mass (es.filter q) := by
  induction es with
  | nil => rfl
  | cons e es ih =>
    have hrest := ih fun x hx => hpq x (by simp [hx])
    have hone := hpq e (by simp)
    cases hp : p e with
    | true =>
      have hq : q e = false := by
        cases hq : q e with
        | true => exact absurd ⟨hp, hq⟩ hone
        | false => rfl
      simp only [mass, List.filter_cons, hp, hq, Bool.or_false, if_true, Bool.false_eq_true, if_false,
        List.map_cons, List.sum_cons] at hrest ⊢
      omega
    | false =>
      cases hq : q e <;>
        simp only [mass, List.filter_cons, hp, hq, Bool.or_false, Bool.or_true, if_true, Bool.false_eq_true, if_false,
          List.map_cons, List.sum_cons] at hrest ⊢ <;> omega

namespace Tier

variable [DecidableEq κ] (t : Tier α κ)

def group (xs : List (α × Int)) (k : κ) : List (α × Int) := xs.filter fun x => t.key x.1 = k

def groups (xs : List (α × Int)) : Nat := (xs.map fun x => t.key x.1).dedup.length

def Hot (xs : List (α × Int)) (k : κ) : Prop := t.hot (t.groups xs) (mass (t.group xs k)) = true

instance (xs : List (α × Int)) (k : κ) : Decidable (t.Hot xs k) :=
  inferInstanceAs (Decidable (_ = true))

/-- What falls through the level: the items of the groups that are not taken out. -/
def rest (xs : List (α × Int)) : List (α × Int) := xs.filter fun x => ¬ t.Hot xs (t.key x.1)

variable {t} {xs ys : List (α × Int)} {k : κ} {x : α × Int}

theorem mem_group : x ∈ t.group xs k ↔ x ∈ xs ∧ t.key x.1 = k := by simp [group]

theorem mem_rest : x ∈ t.rest xs ↔ x ∈ xs ∧ ¬ t.Hot xs (t.key x.1) := by simp [rest]

theorem group_perm (h : xs.Perm ys) (k : κ) : (t.group xs k).Perm (t.group ys k) := h.filter _

theorem groups_perm (h : xs.Perm ys) : t.groups xs = t.groups ys := by
  refine List.Perm.length_eq ?_
  rw [List.perm_ext_iff_of_nodup (List.nodup_dedup _) (List.nodup_dedup _)]
  intro k
  rw [List.mem_dedup, List.mem_dedup]
  exact (h.map _).mem_iff

theorem hot_perm (h : xs.Perm ys) (k : κ) : t.Hot xs k ↔ t.Hot ys k := by
  unfold Hot
  rw [groups_perm h, mass_perm (group_perm h k)]

theorem rest_perm (h : xs.Perm ys) : (t.rest xs).Perm (t.rest ys) := by
  have hf : t.rest ys = ys.filter fun x => ¬ t.Hot xs (t.key x.1) :=
    List.filter_congr fun x _ => by simp only [hot_perm h]
  rw [hf]
  exact h.filter _

theorem rest_sublist : (t.rest xs).Sublist xs := List.filter_sublist

end Tier

end Sieve
