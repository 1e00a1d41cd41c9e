import Mathlib.Data.Rat.Floor
import Mathlib.Tactic.Positivity
import Mathlib.Tactic.SplitIfs

namespace Dni

/-- The float64 operations of the code. Their rounding is left open. -/
class FloatArith (F : Type) where
  ofInt : Int → F
  add : F → F → F
  mul : F → F → F
  div : F → F → F
  floor : F → F
  toInt : F → Int

/-- The literals 0.1 to 0.9. -/
def FloatArith.tenths {F : Type} [FloatArith F] (n : Int) : F := div (ofInt n) (ofInt 10)

/-- Conversion of a floating-point value to an integer type: towards zero. -/
def toInt (q : ℚ) : Int := q.num.tdiv q.den

instance : FloatArith ℚ where
  ofInt n := n
  add := (· + ·)
  mul := (· * ·)
  div := (· / ·)
  floor x := ⌊x⌋
  toInt := toInt

/-- The binary64 operations; a value out of range is converted to the nearest end of `int64`. -/
instance : FloatArith Float where
  ofInt n := ⟨.ofInt n⟩
  add := (· + ·)
  mul := (· * ·)
  div := (· / ·)
  floor := Float.floor
  toInt x := x.toModel.toInt64.toInt

theorem toInt_of_nonneg {q : ℚ} (h : 0 ≤ q) : toInt q = ⌊q⌋ := by
  rw [toInt, Rat.floor_def', Int.tdiv_eq_ediv_of_nonneg (Rat.num_nonneg.mpr h)]

theorem toInt_neg (q : ℚ) : toInt (-q) = -toInt q := by
  rw [toInt, toInt, Rat.num_neg_eq_neg_num, Rat.den_neg_eq_den, Int.neg_tdiv]

theorem toInt_mono {x y : ℚ} (hxy : x ≤ y) : toInt x ≤ toInt y := by
  rcases le_total 0 x with hx | hx
  · rw [toInt_of_nonneg hx, toInt_of_nonneg (hx.trans hxy)]
    exact Int.floor_le_floor hxy
  · have hnx := toInt_of_nonneg (neg_nonneg.mpr hx)
    have hfx := Int.floor_nonneg.mpr (neg_nonneg.mpr hx)
    rw [toInt_neg] at hnx
    rcases le_total 0 y with hy | hy
    · have hfy := Int.floor_nonneg.mpr hy
      rw [toInt_of_nonneg hy]
      omega
    · have hny := toInt_of_nonneg (neg_nonneg.mpr hy)
      have hle := Int.floor_le_floor (neg_le_neg hxy)
      rw [toInt_neg] at hny
      omega

theorem toInt_le_iff (q : ℚ) (n : Nat) : toInt q ≤ (n : Int) ↔ q < n + 1 := by
  obtain h | h := le_total 0 q
  · rw [toInt_of_nonneg h, ← Int.lt_add_one_iff, Int.floor_lt]
    norm_cast
  · have hn := toInt_of_nonneg (neg_nonneg.mpr h)
    have hf := Int.floor_nonneg.mpr (neg_nonneg.mpr h)
    rw [toInt_neg] at hn
    have hpos : (0 : ℚ) < n + 1 := by positivity
    exact iff_of_true (by omega) (h.trans_lt hpos)

theorem toInt_nonpos_iff (q : ℚ) : toInt q ≤ 0 ↔ q < 1 := by
  have h := toInt_le_iff q 0
  rwa [Nat.cast_zero, Nat.cast_zero, zero_add] at h

theorem lt_toInt_iff (q : ℚ) (n : Nat) : (n : Int) < toInt q ↔ (n : ℚ) + 1 ≤ q := by
  rw [← not_le, toInt_le_iff, not_lt]

/-- Truncation lets zero stand for a negative fraction. -/
theorem le_toInt_iff (q : ℚ) (d : Nat) : (d : Int) ≤ toInt q ↔ (d : ℚ) ≤ q ∨ d = 0 ∧ -1 < q := by
  cases d with
  | zero =>
    have hneg := toInt_nonpos_iff (-q)
    rw [toInt_neg, neg_lt] at hneg
    have hzero : (0 : Int) ≤ toInt q ↔ -1 < q := by
      rw [← hneg]
      omega
    rw [Nat.cast_zero, Nat.cast_zero, hzero, and_iff_right rfl]
    apply Iff.symm
    apply or_iff_right_of_imp
    intro h
    exact neg_one_lt_zero.trans_le h
  | succ d =>
    have hlt := lt_toInt_iff q d
    rw [Nat.cast_succ, Int.add_one_le_iff, hlt, Nat.cast_succ]
    simp

end Dni
