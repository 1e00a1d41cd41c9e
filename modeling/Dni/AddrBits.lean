import Dni.Addr

namespace Dni

open Bytes Dyadic

theorem two_pow_eight_mul (n : Nat) : 256 ^ n = 2 ^ (8 * n) := by rw [pow_mul]; norm_num

/-- The position of the highest set bit is found from the top byte that is not zero. -/
theorem prefixLengthFrom_eq (index : Nat) (ip : IP) :
    prefixLengthFrom index ip =
      if val ip = 0 then 0 else 8 * (index + ip.length) - Nat.log2 (val ip) := by
  induction ip generalizing index with
  | nil => simp [prefixLengthFrom]
  | cons c cs ih =>
    have hpos : 0 < 2 ^ (8 * cs.length) := Nat.two_pow_pos _
    unfold prefixLengthFrom
    split
    next h =>
      have hc : c.toNat ≠ 0 := fun he => h (UInt8.toNat_inj.mp he)
      have hb := UInt8.toNat_lt c
      have hv := val_lt cs
      rw [two_pow_eight_mul] at hv
      have hlog : Nat.log2 (val (c :: cs)) = Nat.log2 c.toNat + 8 * cs.length := by
        rw [val_cons, two_pow_eight_mul]
        have hlo := Nat.log2_self_le hc
        have hhi : c.toNat < 2 ^ (Nat.log2 c.toNat + 1) := Nat.lt_log2_self
        rw [Nat.log2_eq_iff (by positivity)]
        constructor
        · rw [pow_add]
          exact (Nat.mul_le_mul_right _ hlo).trans (Nat.le_add_right _ _)
        · have hm := Nat.mul_le_mul_right (2 ^ (8 * cs.length)) hhi
          rw [show Nat.log2 c.toNat + 8 * cs.length + 1 = Nat.log2 c.toNat + 1 + 8 * cs.length by omega,
            pow_add]
          have hs := Nat.succ_mul c.toNat (2 ^ (8 * cs.length))
          omega
      have hl8 : Nat.log2 c.toNat < 8 := (Nat.log2_lt hc).mpr hb
      have hne : val (c :: cs) ≠ 0 := by rw [val_cons, two_pow_eight_mul]; positivity
      rw [if_neg hne, hlog]
      simp only [leadingZeros8, if_neg h, List.length_cons]
      omega
    next h =>
      have h0 : c = 0 := not_not.mp h
      have hval : val (c :: cs) = val cs := by simp [h0]
      rw [ih, hval, List.length_cons, show index + 1 + cs.length = index + (cs.length + 1) by omega]

theorem prefixLength_eq (ip : IP) :
    prefixLength ip = if val ip = 0 then 0 else 8 * ip.length - Nat.log2 (val ip) := by
  simpa [prefixLength] using prefixLengthFrom_eq 0 ip

theorem trailingZeros8_spec : ∀ c : UInt8, c ≠ 0 →
    2 ^ trailingZeros8 c ∣ c.toNat ∧ ¬ 2 ^ (trailingZeros8 c + 1) ∣ c.toNat ∧ trailingZeros8 c < 8 := by
  have h : ∀ n : Fin 256, UInt8.ofNat n ≠ 0 →
      2 ^ trailingZeros8 (UInt8.ofNat n) ∣ (UInt8.ofNat n).toNat ∧
      ¬ 2 ^ (trailingZeros8 (UInt8.ofNat n) + 1) ∣ (UInt8.ofNat n).toNat ∧
      trailingZeros8 (UInt8.ofNat n) < 8 := by decide +kernel
  intro c hc
  have hn := h ⟨c.toNat, UInt8.toNat_lt c⟩
  simp only [UInt8.ofNat_toNat] at hn
  exact hn hc

/-- The count reaches the lowest set bit, read from the low end of the reversed bytes. -/
theorem trailingZerosFrom_spec (n : Nat) (bs : List UInt8) (h : val bs.reverse ≠ 0) :
    ∃ t, trailingZerosFrom n bs = n * 8 + t ∧ 2 ^ t ∣ val bs.reverse ∧ ¬ 2 ^ (t + 1) ∣ val bs.reverse := by
  induction bs generalizing n with
  | nil => simp at h
  | cons c cs ih =>
    have hrev : val (c :: cs).reverse = val cs.reverse * 256 + c.toNat := by simp [val_concat]
    unfold trailingZerosFrom
    split
    next hc =>
      obtain ⟨hd, hnd, h8⟩ := trailingZeros8_spec c hc
      have hdvd : ∀ j ≤ 8, 2 ^ j ∣ val cs.reverse * 256 := fun j hj =>
        ((pow_dvd_pow 2 hj).trans (by norm_num)).mul_left _
      refine ⟨_, rfl, ?_, fun hcon => hnd ?_⟩
      · rw [hrev]
        exact Nat.dvd_add (hdvd (trailingZeros8 c) (by omega)) hd
      · rw [hrev] at hcon
        exact (Nat.dvd_add_right (hdvd (trailingZeros8 c + 1) (by omega))).mp hcon
    next hc =>
      have h0 : c.toNat = 0 := by rw [not_not.mp hc]; rfl
      rw [hrev, h0, Nat.add_zero] at h
      obtain ⟨t, ht, hd, hnd⟩ := ih (n + 1) (by simpa using h)
      have hval : val (c :: cs).reverse = val cs.reverse * 2 ^ 8 := by
        rw [hrev, h0, Nat.add_zero, show 2 ^ 8 = 256 from rfl]
      rw [hval]
      refine ⟨t + 8, by rw [ht]; ring, ?_, ?_⟩
      · rw [pow_add]
        exact Nat.mul_dvd_mul_right hd _
      · rw [Nat.add_right_comm, pow_add]
        exact fun hcon => hnd (Nat.dvd_of_mul_dvd_mul_right (Nat.two_pow_pos 8) hcon)

theorem trailingZeros_of_zero {ip : IP} (h : val ip = 0) : trailingZeros ip = 8 * ip.length := by
  have key : ∀ n (bs : List UInt8), val bs.reverse = 0 → trailingZerosFrom n bs = (n + bs.length) * 8 := by
    intro n bs
    induction bs generalizing n with
    | nil => simp [trailingZerosFrom]
    | cons c cs ih =>
      intro hz
      simp only [List.reverse_cons, val_concat] at hz
      have hc : c = 0 := UInt8.toNat_inj.mp (by simpa using (by omega : c.toNat = 0))
      simp only [trailingZerosFrom, hc, ne_eq, not_true_eq_false, if_false]
      rw [ih (n + 1) (by omega), List.length_cons]
      ring
  rw [trailingZeros, key 0 ip.reverse (by simpa using h), List.length_reverse]
  ring

theorem trailingZeros_spec {ip : IP} (h : val ip ≠ 0) :
    2 ^ trailingZeros ip ∣ val ip ∧ ¬ 2 ^ (trailingZeros ip + 1) ∣ val ip := by
  obtain ⟨t, ht, hd⟩ := trailingZerosFrom_spec 0 ip.reverse (by simpa using h)
  rw [trailingZeros, ht]
  simpa using hd

theorem length_cidrMaskBytes (l n : Nat) : (cidrMaskBytes l n).length = l := by
  induction l generalizing n with
  | zero => rfl
  | succ l ih =>
    unfold cidrMaskBytes
    split <;> simp [ih]

/-- Complementing a mask leaves the ones of the host part. -/
theorem val_not_cidrMaskBytes {l n : Nat} (h : n ≤ 8 * l) :
    val ((cidrMaskBytes l n).map (~~~·)) + 1 = 2 ^ (8 * l - n) := by
  have hbyte : ∀ j < 8, (~~~(~~~((0xff : UInt8) >>> UInt8.ofNat j))).toNat + 1 = 2 ^ (8 - j) := by
    decide
  have hzero : ∀ l, val ((cidrMaskBytes l 0).map (~~~·)) + 1 = 2 ^ (8 * l) := by
    intro l
    induction l with
    | zero => rfl
    | succ l ih =>
      have hb := hbyte 0 (by omega)
      simp only [cidrMaskBytes]
      rw [if_neg (by omega), List.map_cons, val_cons, List.length_map, length_cidrMaskBytes,
        two_pow_eight_mul, show 8 * (l + 1) = 8 + 8 * l by ring, pow_add]
      have h255 : (~~~(~~~((0xff : UInt8) >>> UInt8.ofNat 0))).toNat = 255 := by omega
      rw [h255]
      omega
  induction l generalizing n with
  | zero =>
    have : n = 0 := by omega
    subst this; rfl
  | succ l ih =>
    unfold cidrMaskBytes
    split
    next h8 =>
      simp only [List.map_cons, val_cons, List.length_map, length_cidrMaskBytes]
      have h0 : (~~~(0xff : UInt8)).toNat = 0 := rfl
      rw [h0, Nat.zero_mul, Nat.zero_add, ih (by omega)]
      congr 1; omega
    next h8 =>
      have hb := hbyte n (by omega)
      have hz := hzero l
      simp only [List.map_cons, val_cons, List.length_map, length_cidrMaskBytes, two_pow_eight_mul]
      rw [show 8 * (l + 1) - n = 8 - n + 8 * l by omega, pow_add, ← hb]
      have hs : ((~~~(~~~((0xff : UInt8) >>> UInt8.ofNat n))).toNat + 1) * 2 ^ (8 * l) =
        (~~~(~~~((0xff : UInt8) >>> UInt8.ofNat n))).toNat * 2 ^ (8 * l) + 2 ^ (8 * l) := by ring
      omega

theorem val_cidrMaskBytes {l k : Nat} (h : k ≤ 8 * l) :
    val (cidrMaskBytes l (8 * l - k)) = (2 ^ (8 * l - k) - 1) * 2 ^ k := by
  have compl : ∀ bs : List UInt8, val (bs.map (~~~·)) + val bs + 1 = 2 ^ (8 * bs.length) := by
    intro bs
    induction bs with
    | nil => rfl
    | cons b bs ih =>
      have hb : (~~~b).toNat = 255 - b.toNat := by simp [UInt8.toNat_not]
      have hlt := UInt8.toNat_lt b
      rw [List.map_cons, val_cons, val_cons, List.length_map, two_pow_eight_mul, List.length_cons,
        show 8 * (bs.length + 1) = 8 + 8 * bs.length by ring, pow_add, hb, Nat.sub_mul]
      have hm : b.toNat * 2 ^ (8 * bs.length) ≤ 255 * 2 ^ (8 * bs.length) :=
        Nat.mul_le_mul_right _ (by omega)
      omega
  have hc := compl (cidrMaskBytes l (8 * l - k))
  have hv := val_not_cidrMaskBytes (Nat.sub_le (8 * l) k)
  have hp : 2 ^ (8 * l - k) * 2 ^ k = 2 ^ (8 * l) := by rw [← pow_add]; congr 1; omega
  rw [length_cidrMaskBytes] at hc
  rw [show 8 * l - (8 * l - k) = k by omega] at hv
  rw [Nat.sub_mul, hp]
  omega

/-- Masking keeps exactly the bits above the host part. -/
theorem zipWith_and_mask_iff {a b : IP} {k : Nat} (hl : a.length = b.length) (hk : k ≤ 8 * b.length) :
    List.zipWith (· &&& ·) a (cidrMaskBytes b.length (8 * b.length - k)) =
      List.zipWith (· &&& ·) b (cidrMaskBytes b.length (8 * b.length - k)) ↔
    val a / 2 ^ k = val b / 2 ^ k := by
  have hml := length_cidrMaskBytes b.length (8 * b.length - k)
  have ha := val_lt a
  have hb := val_lt b
  rw [hl] at ha
  rw [two_pow_eight_mul] at ha hb
  have hval : List.zipWith (· &&& ·) a (cidrMaskBytes b.length (8 * b.length - k)) =
      List.zipWith (· &&& ·) b (cidrMaskBytes b.length (8 * b.length - k)) ↔
      val a &&& val (cidrMaskBytes b.length (8 * b.length - k)) =
        val b &&& val (cidrMaskBytes b.length (8 * b.length - k)) := by
    rw [← val_zipWith_and (by rw [hml, hl]), ← val_zipWith_and (by rw [hml])]
    exact ⟨fun h => by rw [h], fun h => val_inj (by simp [hl]) h⟩
  rw [hval, val_cidrMaskBytes hk, and_mask_iff hk ha hb]

/-- The two address families of the code, by length in bytes. -/
def Family (n : Nat) : Prop := n = 4 ∨ n = 16

theorem cidrMask_eq {n ones : Nat} (hf : Family n) (h : ones ≤ 8 * n) :
    cidrMask ones (8 * n) = cidrMaskBytes n ones := by
  have hb : 8 * n / 8 = n := by omega
  rcases hf with rfl | rfl <;> simp [cidrMask, hb, Nat.not_lt.mpr h]

/-- With an aligned address the last address of the network closes its block. -/
theorem lastIP_spec {ip : IP} {k : Nat} (hf : Family ip.length) (hk : k ≤ 8 * ip.length)
    (ha : 2 ^ k ∣ val ip) :
    ∃ last, lastIP ⟨ip, cidrMask (8 * ip.length - k) (8 * ip.length)⟩ = some last ∧
      last.length = ip.length ∧ val last + 1 = val ip + 2 ^ k := by
  have hm := cidrMask_eq hf (Nat.sub_le (8 * ip.length) k)
  have hl := length_cidrMaskBytes ip.length (8 * ip.length - k)
  refine ⟨List.zipWith (fun a m => a ||| ~~~m) ip (cidrMaskBytes ip.length (8 * ip.length - k)),
    by simp [lastIP, hm, hl], by simp only [List.length_zipWith, hl, Nat.min_self], ?_⟩
  have hz : List.zipWith (fun a m => a ||| ~~~m) ip (cidrMaskBytes ip.length (8 * ip.length - k)) =
      List.zipWith (· ||| ·) ip ((cidrMaskBytes ip.length (8 * ip.length - k)).map (~~~·)) := by
    rw [List.zipWith_map_right]
  have hv := val_not_cidrMaskBytes (Nat.sub_le (8 * ip.length) k)
  rw [show 8 * ip.length - (8 * ip.length - k) = k by omega] at hv
  rw [hz, val_zipWith_or (by simp [hl])]
  obtain ⟨m, hm⟩ := ha
  have hlt : val ((cidrMaskBytes ip.length (8 * ip.length - k)).map (~~~·)) < 2 ^ k := by omega
  rw [hm, ← Nat.two_pow_add_eq_or_of_lt hlt]
  omega

end Dni
