import Mathlib.Data.Nat.Basic
import Mathlib.Algebra.Group.Nat.Defs
import Mathlib.Algebra.Group.Int.Defs

namespace Words

section Exact

variable {a b : UInt64}

theorem add_exact_iff : (a + b).toNat = a.toNat + b.toNat ↔ a.toNat + b.toNat < 2 ^ 64 := by
  rw [UInt64.toNat_add, Nat.mod_eq_iff_lt (by omega)]

theorem mul_exact_iff : (a * b).toNat = a.toNat * b.toNat ↔ a.toNat * b.toNat < 2 ^ 64 := by
  rw [UInt64.toNat_mul, Nat.mod_eq_iff_lt (by omega)]

theorem sub_exact_iff : ((a - b).toNat : Int) = a.toNat - b.toNat ↔ b.toNat ≤ a.toNat := by
  have ha := a.toNat_lt
  have hb := b.toNat_lt
  rw [UInt64.toNat_sub]
  omega

theorem ofInt_exact_iff {n : Int} : ((UInt64.ofInt n).toNat : Int) = n ↔ 0 ≤ n ∧ n < 2 ^ 64 := by
  have hof : (UInt64.ofInt n).toNat = (n % 2 ^ 64).toNat := by
    rw [UInt64.ofInt, UInt64.toNat_ofNat']
    omega
  rw [hof]
  omega

end Exact

section Flags

/-- The words have a bit in common. -/
def Has (u f : UInt64) : Prop := u &&& f ≠ 0

instance (u f : UInt64) : Decidable (Has u f) := inferInstanceAs (Decidable (_ ≠ _))

variable {u v f : UInt64}

@[simp] theorem not_has_zero : ¬ Has 0 f := by simp [Has]

@[simp] theorem has_or : Has (u ||| v) f ↔ Has u f ∨ Has v f := by
  have hzero : ∀ x y : UInt64, x ||| y = 0 ↔ x = 0 ∧ y = 0 := by
    intro x y
    simp [← UInt64.toBitVec_inj, BitVec.or_eq_zero_iff]
  have hdistrib : (u ||| v) &&& f = u &&& f ||| v &&& f := by
    simp [← UInt64.toBitVec_inj, BitVec.and_or_distrib_right]
  rw [Has, hdistrib, Ne, hzero, Has, Has]
  exact not_and_or

/-- `if c { u |= v }`. -/
@[simp] theorem has_raise {c : Prop} [Decidable c] : Has (if c then u ||| v else u) f ↔ Has u f ∨ c ∧ Has v f := by
  split
  next h => simp [h]
  next h => simp [h]

/-- The union of flags. -/
def union (us : List UInt64) : UInt64 := us.foldr (· ||| ·) 0

theorem foldl_or {α : Type} (g : α → UInt64) (xs : List α) (u : UInt64) :
    xs.foldl (fun u x => u ||| g x) u = u ||| union (xs.map g) := by
  induction xs generalizing u with
  | nil => simp [union]
  | cons x xs ih =>
    rw [List.foldl_cons, ih, UInt64.or_assoc]
    rfl

theorem union_cons (u : UInt64) (us : List UInt64) : union (u :: us) = u ||| union us := rfl

theorem union_perm {us vs : List UInt64} (h : us.Perm vs) : union us = union vs := by
  induction h with
  | nil => rfl
  | cons u _ ih => rw [union_cons, union_cons, ih]
  | swap u v us =>
    rw [union_cons, union_cons, union_cons, union_cons, ← UInt64.or_assoc, UInt64.or_comm v u, UInt64.or_assoc]
  | trans _ _ ih₁ ih₂ => exact ih₁.trans ih₂

end Flags

end Words
