import Mathlib

namespace Binary64

open Float.Model Float.Model.UnpackedFloat

theorem shiftRight_exact (m s : Nat) :
    (⟨m * 2 ^ s, false, false⟩ : ExtendedMantissa) >>> s = ⟨m, false, false⟩ := by
  induction s generalizing m with
  | zero => simp [HShiftRight.hShiftRight, Nat.repeat]
  | succ s ih =>
    have hs : m * 2 ^ (s + 1) = m * 2 * 2 ^ s := by ring
    rw [hs]
    change ((⟨m * 2 * 2 ^ s, false, false⟩ : ExtendedMantissa) >>> s).shiftRightOne = _
    rw [ih]
    simp [ExtendedMantissa.shiftRightOne]

theorem log2_mul_two_pow {n : Nat} (hn : 0 < n) (k : Nat) : (n * 2 ^ k).log2 = n.log2 + k := by
  have htwo := Nat.two_pow_pos k
  rw [Nat.log2_eq_iff (Nat.mul_pos hn htwo).ne', Nat.add_right_comm, pow_add, pow_add]
  exact ⟨Nat.mul_le_mul_right _ (Nat.log2_self_le hn.ne'), Nat.mul_lt_mul_of_pos_right Nat.lt_log2_self htwo⟩

/-- The 53 bits of an integer, the highest of which is set. -/
def significand (n : Nat) : Nat := n * 2 ^ 52 / 2 ^ n.log2

section Significand

variable {n : Nat} (hpos : 0 < n) (hle : n ≤ 2 ^ 53)

include hpos hle

theorem log2_le : n.log2 ≤ 53 := by
  have hlow := Nat.log2_self_le hpos.ne'
  exact (Nat.pow_le_pow_iff_right (by decide)).mp (hlow.trans hle)

theorem significand_mul : significand n * 2 ^ n.log2 = n * 2 ^ 52 := by
  apply Nat.div_mul_cancel
  by_cases h : n.log2 ≤ 52
  · exact Dvd.dvd.mul_left (pow_dvd_pow 2 h) n
  · have hn : n.log2 = 53 := by
      have := log2_le hpos hle
      omega
    have htop : n = 2 ^ 53 := by
      have hlow := Nat.log2_self_le hpos.ne'
      rw [hn] at hlow
      omega
    rw [hn, htop]
    exact ⟨2 ^ 52, by norm_num⟩

theorem significand_bounds : 2 ^ 52 ≤ significand n ∧ significand n < 2 ^ 53 := by
  have hmul := significand_mul hpos hle
  have hlow := Nat.log2_self_le hpos.ne'
  have hhigh := Nat.lt_log2_self (n := n)
  have htwo : 0 < 2 ^ n.log2 := Nat.two_pow_pos _
  constructor
  · refine Nat.le_of_mul_le_mul_right ?_ htwo
    rw [hmul, Nat.mul_comm]
    exact Nat.mul_le_mul_right _ hlow
  · refine Nat.lt_of_mul_lt_mul_right (a := 2 ^ n.log2) ?_
    rw [hmul]
    calc n * 2 ^ 52 < 2 ^ (n.log2 + 1) * 2 ^ 52 := Nat.mul_lt_mul_of_pos_right hhigh (Nat.two_pow_pos _)
      _ = 2 ^ 53 * 2 ^ n.log2 := by ring

theorem significand_pos : 0 < significand n :=
  (Nat.two_pow_pos 52).trans_le (significand_bounds hpos hle).1

theorem log2_significand : (significand n).log2 = 52 :=
  (Nat.log2_eq_iff (significand_pos hpos hle).ne').mpr (significand_bounds hpos hle)

/-- Rounding keeps a float that is in canonical form. -/
theorem roundWithAccuracy_shifted {m : Nat} (s : Nat) (e : Int) (hm : m = significand n * 2 ^ s)
    (he : e + s = n.log2 - 52) : roundWithAccuracy Format.binary64 .positive m e .exact =
      .finite .positive (significand n) (n.log2 - 52) (significand_pos hpos hle) := by
  have hlog : m.log2 = 52 + s := by
    rw [hm, log2_mul_two_pow (significand_pos hpos hle), log2_significand hpos hle]
  have htarget : Format.binary64.targetExponent (totalExponent m e) = n.log2 - 52 := by
    simp only [Format.targetExponent, totalExponent, Format.mantissaBits, Format.minExponent, hlog]
    omega
  have hfirst : shiftToTargetExponent Format.binary64 m e .exact =
      (⟨significand n, false, false⟩, (n.log2 : Int) - 52) := by
    have hs : ((n.log2 : Int) - 52 - e).toNat = s := by omega
    simp only [shiftToTargetExponent, htarget, shiftToExponent, hs, ExtendedMantissa.ofMantissaAndAccuracy, he]
    rw [hm, shiftRight_exact]
  have hagain : Format.binary64.targetExponent (totalExponent (significand n) (n.log2 - 52)) = n.log2 - 52 := by
    simp only [Format.targetExponent, totalExponent, Format.mantissaBits, Format.minExponent,
      log2_significand hpos hle]
    omega
  have hsecond : shiftToTargetExponent Format.binary64 (significand n) (n.log2 - 52) .exact =
      (⟨significand n, false, false⟩, (n.log2 : Int) - 52) := by
    have h := shiftRight_exact (significand n) 0
    rw [pow_zero, Nat.mul_one] at h
    simp only [shiftToTargetExponent, hagain, shiftToExponent, Int.sub_self, Int.toNat_zero,
      ExtendedMantissa.ofMantissaAndAccuracy, h, Int.natCast_zero, Int.add_zero]
  unfold roundWithAccuracy
  rw [hfirst]
  dsimp only [ExtendedMantissa.roundedMantissa, ExtendedMantissa.accuracy, Accuracy.roundToNearestEven]
  rw [hsecond]
  exact dif_neg (significand_pos hpos hle).ne'

/-- An integer written with `k` binary places is rounded to its 53 bits. -/
theorem round_places (k : Nat) : UnpackedFloat.round Format.binary64 .positive (n * 2 ^ k) (-k) =
    .finite .positive (significand n) (n.log2 - 52) (significand_pos hpos hle) := by
  have hlog : (n * 2 ^ k).log2 = n.log2 + k := log2_mul_two_pow hpos k
  have htarget : Format.binary64.targetExponent (totalExponent (n * 2 ^ k) (-k)) = n.log2 - 52 := by
    simp only [Format.targetExponent, totalExponent, Format.mantissaBits, Format.minExponent, hlog]
    omega
  have hmul := significand_mul hpos hle
  unfold UnpackedFloat.round
  simp only [htarget, decreaseExponent]
  by_cases hk : k + n.log2 ≤ 52
  · refine roundWithAccuracy_shifted hpos hle 0 _ ?_ (by omega)
    have hs : (-(k : Int) - (n.log2 - 52)).toNat = 52 - n.log2 - k := by omega
    rw [hs, Nat.shiftLeft_eq, pow_zero, Nat.mul_one]
    refine Nat.eq_of_mul_eq_mul_right (Nat.two_pow_pos n.log2) ?_
    rw [hmul, Nat.mul_assoc, Nat.mul_assoc, ← pow_add, ← pow_add]
    congr 2
    omega
  · have hs : (-(k : Int) - (n.log2 - 52)).toNat = 0 := by omega
    rw [hs, Nat.shiftLeft_zero]
    refine roundWithAccuracy_shifted hpos hle (k + n.log2 - 52) _ ?_ (by omega)
    refine Nat.eq_of_mul_eq_mul_right (Nat.two_pow_pos 52) ?_
    have hplaces : 2 ^ (k + n.log2 - 52) * 2 ^ 52 = 2 ^ n.log2 * 2 ^ k := by
      rw [← pow_add, ← pow_add]
      congr 1
      omega
    rw [Nat.mul_assoc, Nat.mul_assoc, hplaces, ← Nat.mul_assoc, ← Nat.mul_assoc, hmul, Nat.mul_right_comm]

end Significand

/-- A positive float in canonical form survives packing. -/
theorem unpack_pack {m : Nat} {e : Int} (hpos : 0 < m) (hlow : 2 ^ 52 ≤ m) (hhigh : m < 2 ^ 53)
    (hmin : -1074 ≤ e) (hmax : e ≤ 971) :
    (Float.Model.pack (.finite .positive m e hpos)).unpack = .finite .positive m e hpos := by
  have hlog : m.log2 = 52 := (Nat.log2_eq_iff hpos.ne').mpr ⟨hlow, hhigh⟩
  obtain ⟨b, hb⟩ : ∃ b : Nat, (b : Int) = e + 1075 := ⟨(e + 1075).toNat, by omega⟩
  have hpack : UnpackedFloat.pack Format.binary64 (.finite .positive m e hpos) =
      packComponents Format.binary64 .positive (BitVec.ofNat 11 b) (BitVec.ofNat 52 m) := by
    have hbias : (e + (Format.binary64.exponentBias : Int) + (Format.binary64.mantissaBitsWithoutImplicit : Int)).toNat =
        b := by
      simp only [Format.exponentBias]
      omega
    unfold UnpackedFloat.pack
    simp only [hbias, hlog]
    rw [if_neg (by omega), if_pos (by rfl)]
  have hvec : (BitVec.ofNat 11 b).toNat = b := by
    rw [BitVec.toNat_ofNat]
    omega
  have htop : BitVec.ofNat 11 b ≠ -1#11 := by
    intro h
    have hval := congrArg BitVec.toNat h
    rw [hvec] at hval
    have : (-1#11).toNat = 2047 := by decide
    omega
  have hzero : BitVec.ofNat 11 b ≠ 0#11 := by
    intro h
    have hval := congrArg BitVec.toNat h
    rw [hvec] at hval
    have : (0#11).toNat = 0 := by decide
    omega
  have hmant : (1#1 ++ BitVec.ofNat 52 m).toNat = m := by
    have hlt := Nat.mod_lt m (Nat.two_pow_pos 52)
    rw [BitVec.toNat_append, Nat.shiftLeft_eq, Nat.mul_comm, BitVec.toNat_ofNat m 52,
      show (1#1).toNat = 1 by rfl, ← Nat.two_pow_add_eq_or_of_lt hlt]
    omega
  change UnpackedFloat.unpack Format.binary64 (UnpackedFloat.pack Format.binary64 (.finite .positive m e hpos)) = _
  rw [hpack]
  unfold UnpackedFloat.unpack
  simp only [unpackExponent_packComponents, unpackMantissa_packComponents, unpackSign_packComponents,
    Sign.ofBitVec_toBitVec]
  rw [if_neg htop, if_neg hzero]
  simp only [hvec, hmant, hb]
  congr 1
  simp only [Format.exponentBias]
  omega

/-- The float of an integer. -/
def ofInt (n : Int) : Float := ⟨.ofInt n⟩

theorem normalize_places {n : Nat} (hpos : 0 < n) (hle : n ≤ 2 ^ 53) (k : Nat) :
    UnpackedFloat.normalize Format.binary64 ((n * 2 ^ k : Nat) : Int) (-k) .positive =
      .finite .positive (significand n) (n.log2 - 52) (significand_pos hpos hle) := by
  have hcmp : compare ((n * 2 ^ k : Nat) : Int) 0 = .gt :=
    compare_gt_iff_gt.mpr (Int.natCast_pos.mpr (Nat.mul_pos hpos (Nat.two_pow_pos k)))
  rw [UnpackedFloat.normalize, hcmp]
  exact round_places hpos hle k

theorem ofInt_pos {n : Nat} (hpos : 0 < n) (hle : n ≤ 2 ^ 53) : UnpackedFloat.ofInt Format.binary64 n =
    .finite .positive (significand n) (n.log2 - 52) (significand_pos hpos hle) := by
  have h := normalize_places hpos hle 0
  rwa [pow_zero, Nat.mul_one, Int.natCast_zero, Int.neg_zero] at h

theorem ofInt_zero : UnpackedFloat.ofInt Format.binary64 (0 : Nat) = .zero .positive := rfl

theorem unpack_ofInt {n : Nat} (hle : n ≤ 2 ^ 53) :
    (Float.Model.ofInt n).unpack = UnpackedFloat.ofInt Format.binary64 n := by
  obtain rfl | hpos := Nat.eq_zero_or_pos n
  · rfl
  · have hlog := log2_le hpos hle
    obtain ⟨hlow, hhigh⟩ := significand_bounds hpos hle
    rw [Float.Model.ofInt, ofInt_pos hpos hle]
    exact unpack_pack _ hlow hhigh (by omega) (by omega)

/-- The significand of an integer, moved to an exponent below its own. -/
theorem decreaseExponent_significand {n k : Nat} (hpos : 0 < n) (hle : n ≤ 2 ^ 53) (hk : 52 ≤ n.log2 + k) :
    (decreaseExponent (significand n) (n.log2 - 52) (-k)).1 = n * 2 ^ k := by
  have hs : ((n.log2 : Int) - 52 - -(k : Int)).toNat = n.log2 + k - 52 := by omega
  simp only [decreaseExponent, hs, Nat.shiftLeft_eq]
  refine Nat.eq_of_mul_eq_mul_right (Nat.two_pow_pos 52) ?_
  have hplaces : 2 ^ (n.log2 + k - 52) * 2 ^ 52 = 2 ^ n.log2 * 2 ^ k := by
    rw [← pow_add, ← pow_add]
    congr 1
    omega
  rw [Nat.mul_assoc, hplaces, ← Nat.mul_assoc, significand_mul hpos hle, Nat.mul_right_comm]

theorem add_ofInt {a b : Nat} (h : a + b ≤ 2 ^ 53) : UnpackedFloat.add Format.binary64
    (UnpackedFloat.ofInt Format.binary64 a) (UnpackedFloat.ofInt Format.binary64 b) =
      UnpackedFloat.ofInt Format.binary64 (a + b : Nat) := by
  obtain rfl | ha := Nat.eq_zero_or_pos a
  · rw [ofInt_zero, Nat.zero_add]
    obtain rfl | hb := Nat.eq_zero_or_pos b
    · rfl
    · rw [ofInt_pos hb (by omega)]
      rfl
  obtain rfl | hb := Nat.eq_zero_or_pos b
  · rw [ofInt_zero, Nat.add_zero, ofInt_pos ha (by omega)]
    rfl
  have hla := log2_le ha (by omega)
  have hlb := log2_le hb (by omega)
  have hsmall : a.log2 ≤ 52 ∨ b.log2 ≤ 52 := by
    by_contra hlarge
    have ha' := Nat.log2_self_le ha.ne'
    rw [show a.log2 = 53 by omega] at ha'
    omega
  obtain ⟨k, hk⟩ : ∃ k : Nat, min ((a.log2 : Int) - 52) (b.log2 - 52) = -(k : Int) :=
    ⟨(-min ((a.log2 : Int) - 52) (b.log2 - 52)).toNat, by omega⟩
  rw [ofInt_pos ha (by omega), ofInt_pos hb (by omega), ofInt_pos (by omega) h]
  simp only [UnpackedFloat.add, hk]
  rw [decreaseExponent_significand ha (by omega) (by omega), decreaseExponent_significand hb (by omega) (by omega)]
  have hsum : Sign.positive.apply ((a * 2 ^ k : Nat) : Int) + Sign.positive.apply ((b * 2 ^ k : Nat) : Int) =
      (((a + b) * 2 ^ k : Nat) : Int) := by
    rw [Nat.add_mul]
    rfl
  rw [hsum]
  exact normalize_places (by omega) h k

/-- Sums of natural numbers up to 2^53 are not rounded. -/
theorem ofInt_add {a b : Int} (ha : 0 ≤ a) (hb : 0 ≤ b) (h : a + b ≤ 2 ^ 53) : ofInt a + ofInt b = ofInt (a + b) := by
  lift a to Nat using ha
  lift b to Nat using hb
  have hadd : ofInt a + ofInt b = ⟨.pack (UnpackedFloat.add Format.binary64 (Float.Model.ofInt a).unpack
      (Float.Model.ofInt b).unpack)⟩ := rfl
  rw [hadd, unpack_ofInt (by omega), unpack_ofInt (by omega), add_ofInt (by omega)]
  rfl

end Binary64
