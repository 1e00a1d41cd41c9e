import Mathlib.Data.List.Basic
import Mathlib.Data.Nat.Bitwise
import Mathlib.Tactic.Ring
import Mathlib.Tactic.Linarith

namespace Bytes

/-- The number a byte string spells, most significant byte first. -/
def val : List UInt8 → Nat
  | [] => 0
  | b :: bs => b.toNat * 256 ^ bs.length + val bs

/-- Three-way lexicographic comparison of byte strings; a proper prefix is smaller. -/
def compare : List UInt8 → List UInt8 → Int
  | [], [] => 0
  | [], _ :: _ => -1
  | _ :: _, [] => 1
  | a :: as, b :: bs => if a < b then -1 else if b < a then 1 else compare as bs

@[simp] theorem val_nil : val [] = 0 := rfl

@[simp] theorem val_cons (b : UInt8) (bs : List UInt8) :
    val (b :: bs) = b.toNat * 256 ^ bs.length + val bs := rfl

theorem val_lt (bs : List UInt8) : val bs < 256 ^ bs.length := by
  induction bs with
  | nil => simp
  | cons b bs ih =>
    have hb : b.toNat + 1 ≤ 256 := UInt8.toNat_lt b
    have hm := Nat.mul_le_mul_right (256 ^ bs.length) hb
    simp only [val_cons, List.length_cons, pow_succ]
    linarith

theorem val_append (as bs : List UInt8) :
    val (as ++ bs) = val as * 256 ^ bs.length + val bs := by
  induction as with
  | nil => simp
  | cons a as ih =>
    simp only [List.cons_append, val_cons, List.length_append, ih, pow_add]
    ring

theorem val_concat (bs : List UInt8) (b : UInt8) : val (bs ++ [b]) = val bs * 256 + b.toNat := by
  simp [val_append]

/-- Every number below the bound is spelled by some byte string of the length. -/
theorem exists_val {n x : Nat} (h : x < 256 ^ n) : ∃ bs : List UInt8, bs.length = n ∧ val bs = x := by
  induction n generalizing x with
  | zero => exact ⟨[], rfl, by simp at h; simp [h]⟩
  | succ n ih =>
    obtain ⟨bs, hl, hv⟩ := ih (x := x / 256) (Nat.div_lt_of_lt_mul (by rw [pow_succ] at h; linarith))
    refine ⟨bs ++ [UInt8.ofNat (x % 256)], by simp [hl], ?_⟩
    have hm : x % 256 < UInt8.size := Nat.mod_lt x (by decide)
    rw [val_concat, hv, UInt8.toNat_ofNat_of_lt' hm]
    omega

theorem digit_lt {a b m x y : Nat} (hx : x < m) (h : a < b) : a * m + x < b * m + y := by
  have hm : (a + 1) * m ≤ b * m := Nat.mul_le_mul_right m h
  have hs : (a + 1) * m = a * m + m := by ring
  omega

theorem compare_eq {as bs : List UInt8} (h : as.length = bs.length) :
    compare as bs = if val as < val bs then -1 else if val bs < val as then 1 else 0 := by
  induction as generalizing bs with
  | nil =>
    cases bs with
    | nil => simp [compare]
    | cons b bs => simp at h
  | cons a as ih =>
    cases bs with
    | nil => simp at h
    | cons b bs =>
      have hl : as.length = bs.length := by simpa using h
      have ha := val_lt as
      have hb := val_lt bs
      rw [hl] at ha
      simp only [compare, val_cons, hl]
      by_cases hab : a < b
      · have hlt : a.toNat < b.toNat := hab
        simp [hab, digit_lt (y := val bs) ha hlt]
      · by_cases hba : b < a
        · have hlt : b.toNat < a.toNat := hba
          have hv := digit_lt (y := val as) hb hlt
          simp [hab, hba, hv, Nat.not_lt_of_lt hv]
        · have he : a.toNat = b.toNat := by
            have h1 : ¬ a.toNat < b.toNat := hab
            have h2 : ¬ b.toNat < a.toNat := hba
            omega
          simp [hab, hba, ih hl, he]

theorem compare_neg_iff {as bs : List UInt8} (h : as.length = bs.length) :
    compare as bs < 0 ↔ val as < val bs := by
  rw [compare_eq h]
  split_ifs <;> omega

theorem compare_nonpos_iff {as bs : List UInt8} (h : as.length = bs.length) :
    compare as bs ≤ 0 ↔ val as ≤ val bs := by
  rw [compare_eq h]
  split_ifs <;> omega

theorem compare_nonneg_iff {as bs : List UInt8} (h : as.length = bs.length) :
    0 ≤ compare as bs ↔ val bs ≤ val as := by
  rw [compare_eq h]
  split_ifs <;> omega

theorem compare_pos_iff {as bs : List UInt8} (h : as.length = bs.length) :
    0 < compare as bs ↔ val bs < val as := by
  rw [compare_eq h]
  split <;> [omega; split <;> omega]

theorem val_inj {as bs : List UInt8} (h : as.length = bs.length) (hv : val as = val bs) :
    as = bs := by
  induction as generalizing bs with
  | nil =>
    cases bs with
    | nil => rfl
    | cons b bs => simp at h
  | cons a as ih =>
    cases bs with
    | nil => simp at h
    | cons b bs =>
      have hl : as.length = bs.length := by simpa using h
      have ha := val_lt as
      have hb := val_lt bs
      simp only [val_cons, hl] at hv
      rw [hl] at ha
      have hd : a.toNat = b.toNat := by
        rcases Nat.lt_trichotomy a.toNat b.toNat with hlt | he | hlt
        · have := digit_lt (y := val bs) ha hlt; omega
        · exact he
        · have := digit_lt (y := val as) hb hlt; omega
      have he : a = b := UInt8.toNat_inj.mp hd
      subst he
      rw [ih hl (by omega)]

/-- Increment of a little-endian byte string: the carry stops at the first byte that does not
wrap, and all bytes wrap to zero when none stops it. -/
def incr : List UInt8 → List UInt8
  | [] => []
  | b :: bs => if b + 1 ≠ 0 then (b + 1) :: bs else (b + 1) :: incr bs

@[simp] theorem length_incr (bs : List UInt8) : (incr bs).length = bs.length := by
  induction bs with
  | nil => rfl
  | cons b bs ih =>
    unfold incr
    split <;> simp [ih]

theorem toNat_succ_of_ne {b : UInt8} (h : b + 1 ≠ 0) : (b + 1).toNat = b.toNat + 1 := by
  have hb := UInt8.toNat_lt b
  have hs : (b + 1).toNat = (b.toNat + 1) % 256 := by simp [UInt8.toNat_add]
  by_cases he : b.toNat = 255
  · exact absurd (UInt8.toNat_inj.mp (by simp [hs, he])) h
  · omega

theorem toNat_of_succ_eq {b : UInt8} (h : b + 1 = 0) : b.toNat = 255 := by
  have hb := UInt8.toNat_lt b
  have hs : (b + 1).toNat = (b.toNat + 1) % 256 := by simp [UInt8.toNat_add]
  rw [h] at hs
  have h0 : (0 : UInt8).toNat = 0 := rfl
  omega

theorem val_reverse_incr (bs : List UInt8) :
    val (incr bs).reverse = (val bs.reverse + 1) % 256 ^ bs.length := by
  induction bs with
  | nil => simp [incr]
  | cons b bs ih =>
    have hv := val_lt bs.reverse
    rw [List.length_reverse] at hv
    have hpos : 0 < 256 ^ bs.length := by positivity
    unfold incr
    split
    next h =>
      have hs := toNat_succ_of_ne h
      have hb := UInt8.toNat_lt (b + 1)
      simp only [List.reverse_cons, val_concat, List.length_cons, pow_succ, hs]
      rw [Nat.mod_eq_of_lt (by omega)]
      omega
    next h =>
      have h0 : b + 1 = 0 := not_not.mp h
      have hb := toNat_of_succ_eq h0
      have hz : (b + 1).toNat = 0 := by rw [h0]; rfl
      simp only [List.reverse_cons, val_concat, List.length_cons, pow_succ, hz, ih, hb]
      rw [show val bs.reverse * 256 + 255 + 1 = (val bs.reverse + 1) * 256 by ring,
        Nat.mul_mod_mul_right, Nat.add_zero]

/-- Bytewise combination of two strings combines their values bit by bit. -/
theorem testBit_val_cons (b : UInt8) (bs : List UInt8) (i : Nat) :
    (val (b :: bs)).testBit i =
      if i < 8 * bs.length then (val bs).testBit i else b.toNat.testBit (i - 8 * bs.length) := by
  have hv := val_lt bs
  have hp : 256 ^ bs.length = 2 ^ (8 * bs.length) := by rw [pow_mul]; norm_num
  rw [val_cons, hp, Nat.mul_comm]
  rw [hp] at hv
  exact Nat.testBit_two_pow_mul_add b.toNat hv i

theorem val_zipWith_xor {as bs : List UInt8} (h : as.length = bs.length) :
    val (List.zipWith (· ^^^ ·) as bs) = val as ^^^ val bs := by
  induction as generalizing bs with
  | nil =>
    cases bs with
    | nil => simp
    | cons b bs => simp at h
  | cons a as ih =>
    cases bs with
    | nil => simp at h
    | cons b bs =>
      have hl : as.length = bs.length := by simpa using h
      have hz : (List.zipWith (· ^^^ ·) as bs).length = bs.length := by simp [hl]
      apply Nat.eq_of_testBit_eq
      intro i
      rw [List.zipWith_cons_cons, testBit_val_cons, hz, Nat.testBit_xor, testBit_val_cons,
        testBit_val_cons, ih hl, hl, UInt8.toNat_xor]
      split <;> simp [Nat.testBit_xor]

theorem val_zipWith_or {as bs : List UInt8} (h : as.length = bs.length) :
    val (List.zipWith (· ||| ·) as bs) = val as ||| val bs := by
  induction as generalizing bs with
  | nil =>
    cases bs with
    | nil => simp
    | cons b bs => simp at h
  | cons a as ih =>
    cases bs with
    | nil => simp at h
    | cons b bs =>
      have hl : as.length = bs.length := by simpa using h
      have hz : (List.zipWith (· ||| ·) as bs).length = bs.length := by simp [hl]
      apply Nat.eq_of_testBit_eq
      intro i
      rw [List.zipWith_cons_cons, testBit_val_cons, hz, Nat.testBit_or, testBit_val_cons,
        testBit_val_cons, ih hl, hl, UInt8.toNat_or]
      split <;> simp [Nat.testBit_or]

theorem val_zipWith_and {as bs : List UInt8} (h : as.length = bs.length) :
    val (List.zipWith (· &&& ·) as bs) = val as &&& val bs := by
  induction as generalizing bs with
  | nil =>
    cases bs with
    | nil => simp
    | cons b bs => simp at h
  | cons a as ih =>
    cases bs with
    | nil => simp at h
    | cons b bs =>
      have hl : as.length = bs.length := by simpa using h
      have hz : (List.zipWith (· &&& ·) as bs).length = bs.length := by simp [hl]
      apply Nat.eq_of_testBit_eq
      intro i
      rw [List.zipWith_cons_cons, testBit_val_cons, hz, Nat.testBit_and, testBit_val_cons,
        testBit_val_cons, ih hl, hl, UInt8.toNat_and]
      split <;> simp [Nat.testBit_and]

end Bytes
