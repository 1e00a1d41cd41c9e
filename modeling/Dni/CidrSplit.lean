import Dni.Cidr

namespace Dni

open Bytes Dyadic

theorem prefixLength_le (ip : IP) : prefixLength ip ≤ 8 * ip.length := by
  rw [prefixLength_eq]
  split <;> omega

/-- Whatever the end of the range is, the chosen network starts at an aligned address. -/
theorem cidr_aligned {s stop : IP} (hl : stop.length = s.length) :
    ∃ k ≤ 8 * s.length, max (prefixLength (xor (addOne stop) s)) (s.length * 8 - trailingZeros s) =
      8 * s.length - k ∧ 2 ^ k ∣ val s ∧
      (k = trailingZeros s ∨ 8 * s.length - k = prefixLength (xor (addOne stop) s)) := by
  have hpl := prefixLength_le (xor (addOne stop) s)
  rw [length_xor (by simp [hl]), length_addOne, hl] at hpl
  have htz : trailingZeros s ≤ 8 * s.length := by
    by_cases h0 : val s = 0
    · rw [trailingZeros_of_zero h0]
    · by_contra hgt
      have hdvd := (pow_dvd_pow 2 (Nat.le_of_not_le hgt)).trans (trailingZeros_spec h0).1
      have hlt := val_lt s
      rw [two_pow_eight_mul] at hlt
      exact h0 (Nat.eq_zero_of_dvd_of_lt hdvd hlt)
  have hdvd : 2 ^ trailingZeros s ∣ val s := by
    by_cases h0 : val s = 0
    · simp [h0]
    · exact (trailingZeros_spec h0).1
  rcases Nat.le_total (prefixLength (xor (addOne stop) s)) (s.length * 8 - trailingZeros s) with h | h
  · exact ⟨trailingZeros s, htz, by omega, hdvd, Or.inl rfl⟩
  · exact ⟨8 * s.length - prefixLength (xor (addOne stop) s), by omega, by omega,
      (pow_dvd_pow 2 (by omega)).trans hdvd, Or.inr (by omega)⟩

/-- The highest bit in which two numbers differ splits them. -/
theorem log2_xor_split {a b : Nat} (h : b < a) :
    b / 2 ^ (Nat.log2 (a ^^^ b)) < a / 2 ^ (Nat.log2 (a ^^^ b)) ∧
      b / 2 ^ (Nat.log2 (a ^^^ b) + 1) = a / 2 ^ (Nat.log2 (a ^^^ b) + 1) := by
  have hne : a ^^^ b ≠ 0 := by
    intro he
    have := Nat.xor_eq_zero_iff.mp he
    omega
  have hdiv : ∀ j, (a ^^^ b) / 2 ^ j = a / 2 ^ j ^^^ b / 2 ^ j := fun j => Nat.xor_div_two_pow
  have hlow : a / 2 ^ (Nat.log2 (a ^^^ b)) ≠ b / 2 ^ (Nat.log2 (a ^^^ b)) := by
    intro he
    have hd := hdiv (Nat.log2 (a ^^^ b))
    rw [he, Nat.xor_self] at hd
    have := Nat.div_pos (Nat.log2_self_le hne) (Nat.two_pow_pos _)
    omega
  have hhigh : a / 2 ^ (Nat.log2 (a ^^^ b) + 1) = b / 2 ^ (Nat.log2 (a ^^^ b) + 1) := by
    have hd := hdiv (Nat.log2 (a ^^^ b) + 1)
    rw [Nat.div_eq_of_lt Nat.lt_log2_self] at hd
    exact Nat.xor_eq_zero_iff.mp hd.symm
  have hle := Nat.div_le_div_right (c := 2 ^ Nat.log2 (a ^^^ b)) h.le
  exact ⟨by omega, hhigh.symm⟩

theorem add_le_of_dvd_of_div_lt {s a j h : Nat} (hj : j ≤ h) (hd : 2 ^ j ∣ s)
    (hlt : s / 2 ^ h < a / 2 ^ h) : s + 2 ^ j ≤ a := by
  have hp := Nat.two_pow_pos h
  have hs : s < (s / 2 ^ h + 1) * 2 ^ h := by
    have := Nat.lt_div_mul_add (a := s) hp
    rw [Nat.add_mul, Nat.one_mul]
    exact this
  have ha : (s / 2 ^ h + 1) * 2 ^ h ≤ a :=
    (Nat.mul_le_mul_right _ hlt).trans (Nat.div_mul_le_self a _)
  obtain ⟨m, hm⟩ := hd
  obtain ⟨c, hc⟩ := (pow_dvd_pow 2 hj).mul_left (s / 2 ^ h + 1)
  have hs' : 2 ^ j * m < 2 ^ j * c := by rw [← hm, ← hc]; exact hs
  have hmc : m + 1 ≤ c := Nat.lt_of_mul_lt_mul_left hs'
  have hmul := Nat.mul_le_mul_left (2 ^ j) hmc
  rw [Nat.mul_add, Nat.mul_one, ← hm, ← hc] at hmul
  exact hmul.trans ha

/-- The prefix length of one round of ToIPNets is that of the longest block that fits. -/
theorem cidr_longest {s stop : IP} (hl : stop.length = s.length) (hle : val s ≤ val stop) :
    ∃ k ≤ 8 * s.length, max (prefixLength (xor (addOne stop) s)) (s.length * 8 - trailingZeros s) =
      8 * s.length - k ∧ Longest (val s) (val stop) k := by
  obtain ⟨k, hk, hmax, hdvd, hor⟩ := cidr_aligned hl
  refine ⟨k, hk, hmax, hdvd, ?_⟩
  have hs := val_lt s
  have hb := val_lt stop
  have hxor := val_xor (a := addOne stop) (b := s) (by simp [hl])
  have hone := val_addOne stop
  have hpl := prefixLength_eq (xor (addOne stop) s)
  have hxl : (xor (addOne stop) s).length = s.length := by rw [length_xor (by simp [hl])]; simp [hl]
  rw [hxl] at hpl
  rw [hl] at hb hone
  rw [two_pow_eight_mul] at hs hb hone
  have htz : trailingZeros s ≤ k → val s ≠ 0 → ¬ 2 ^ (k + 1) ∣ val s := fun hle h0 hcon =>
    (trailingZeros_spec h0).2 ((pow_dvd_pow 2 (by omega)).trans hcon)
  rcases Nat.lt_or_ge (val stop + 1) (2 ^ (8 * s.length)) with hlt | hge
  · rw [Nat.mod_eq_of_lt hlt] at hone
    rw [hone] at hxor
    have hsplit := log2_xor_split (a := val stop + 1) (b := val s) (by omega)
    have hne : val (xor (addOne stop) s) ≠ 0 := by
      rw [hxor]
      intro he
      have := Nat.xor_eq_zero_iff.mp he
      omega
    have hlog : Nat.log2 ((val stop + 1) ^^^ val s) < 8 * s.length := by
      rw [Nat.log2_lt (by rw [← hxor]; exact hne)]
      exact Nat.xor_lt_two_pow hlt hs
    rw [if_neg hne, hxor] at hpl
    have hkh : k ≤ Nat.log2 ((val stop + 1) ^^^ val s) := by omega
    refine ⟨add_le_of_dvd_of_div_lt hkh hdvd hsplit.1, ?_⟩
    intro h
    rcases h with ⟨hd, hover⟩
    by_cases hkt : k = trailingZeros s ∧ val s ≠ 0
    · exact htz hkt.1.ge hkt.2 hd
    · have hkeq : k = Nat.log2 ((val stop + 1) ^^^ val s) := by
        by_cases h0 : val s = 0
        · have := trailingZeros_of_zero h0
          omega
        · have hkn : k ≠ trailingZeros s := fun he => hkt ⟨he, h0⟩
          omega
      have hdl := Nat.div_le_div_right (c := 2 ^ (k + 1)) hover
      have hsame := hsplit.2
      rw [← hkeq] at hsame
      rw [Nat.add_div_right _ (Nat.two_pow_pos _)] at hdl
      omega
  · have htop : val stop + 1 = 2 ^ (8 * s.length) := by omega
    rw [htop, Nat.mod_self] at hone
    rw [hone, Nat.zero_xor] at hxor
    rw [hxor] at hpl
    rw [htop]
    by_cases h0 : val s = 0
    · have hkt : k = 8 * s.length := by
        have := trailingZeros_of_zero h0
        rw [if_pos h0] at hpl
        omega
      rw [h0, hkt, Nat.zero_add]
      exact ⟨le_rfl, fun h => absurd h.2 (by rw [pow_succ]; have := Nat.two_pow_pos (8 * s.length); omega)⟩
    · have hkt : trailingZeros s ≤ k := by
        have hlog := (Nat.le_log2 h0).mpr (Nat.le_of_dvd (by omega) (trailingZeros_spec h0).1)
        have hll : Nat.log2 (val s) < 8 * s.length := (Nat.log2_lt h0).mpr hs
        rw [if_neg h0] at hpl
        omega
      refine ⟨?_, fun h => htz hkt h0 h.1⟩
      have hlt0 : val s / 2 ^ (8 * s.length) < 2 ^ (8 * s.length) / 2 ^ (8 * s.length) := by
        rw [Nat.div_eq_of_lt hs, Nat.div_self (Nat.two_pow_pos _)]
        omega
      exact add_le_of_dvd_of_div_lt hk hdvd hlt0

/-- The network written for a block of one family. -/
def IsBlock (len : Nat) (n : NetIPNet) (b : Block) : Prop :=
  n.ip.length = len ∧ val n.ip = b.base ∧ b.k ≤ 8 * len ∧ n.mask = cidrMask (8 * len - b.k) (8 * len)

theorem IsBlock.canonical {len : Nat} {n : NetIPNet} {b : Block} (hf : Family len)
    (h : IsBlock len n b) : n.Canonical := by
  obtain ⟨rfl, hv, hk, hm⟩ := h
  exact ⟨hf, b.k, hk, hm, hv ▸ b.aligned⟩

theorem NetIPNet.Canonical.block {n : NetIPNet} (h : n.Canonical) :
    ∃ b, IsBlock n.ip.length n b := by
  obtain ⟨_, k, hk, hm, ha⟩ := h
  exact ⟨⟨val n.ip, k, ha⟩, rfl, rfl, hk, hm⟩

theorem IsBlock.covers_iff {len : Nat} {n : NetIPNet} {b : Block} (hf : Family len)
    (h : IsBlock len n b) (a : IP) : n.Covers a ↔ a.length = len ∧ val a ∈ b := by
  obtain ⟨rfl, hv, hk, hm⟩ := h
  unfold NetIPNet.Covers
  refine and_congr_right fun hl => ?_
  rw [hm, cidrMask_eq hf (Nat.sub_le _ _), zipWith_and_mask_iff hl hk, mem_iff_div, hv]

theorem toIPNetsLoop_step {fuel k : Nat} {s stop last : IP}
    (hcidr : max (prefixLength (xor (addOne stop) s)) (s.length * 8 - trailingZeros s) =
      8 * s.length - k)
    (hlast : lastIP ⟨s, cidrMask (8 * s.length - k) (8 * s.length)⟩ = some last) :
    toIPNetsLoop (fuel + 1) s stop =
      if !lessThan last stop then some [⟨s, cidrMask (8 * s.length - k) (8 * s.length)⟩]
      else (toIPNetsLoop fuel (addOne last) stop).map
        (⟨s, cidrMask (8 * s.length - k) (8 * s.length)⟩ :: ·) := by
  rw [toIPNetsLoop]
  simp only [hcidr]
  rw [Nat.mul_comm s.length 8, hlast, Option.bind_some]

theorem toIPNetsLoop_greedy {len : Nat} (hf : Family len) {stop : IP} (hstop : stop.length = len)
    {fuel : Nat} {s : IP} (hs : s.length = len) (hle : val s ≤ val stop)
    (hfuel : val stop - val s < fuel) :
    ∃ nets bs, toIPNetsLoop fuel s stop = some nets ∧ Greedy (val stop) (val s) bs ∧
      List.Forall₂ (IsBlock len) nets bs := by
  induction fuel generalizing s with
  | zero => omega
  | succ fuel ih =>
    obtain ⟨k, hk, hcidr, hlong⟩ := cidr_longest (hstop.trans hs.symm) hle
    obtain ⟨last, hlast, hll, hlv⟩ := lastIP_spec (hs.symm ▸ hf) hk hlong.1
    have hp := Nat.two_pow_pos k
    have hb : IsBlock len ⟨s, cidrMask (8 * s.length - k) (8 * s.length)⟩ ⟨val s, k, hlong.1⟩ :=
      ⟨hs, rfl, hs ▸ hk, by rw [hs]⟩
    have hlt := lessThan_iff (a := last) (b := stop) (by omega)
    rw [toIPNetsLoop_step hcidr hlast]
    by_cases hmore : lessThan last stop = true
    · have hvl := hlt.mp hmore
      have hroom := val_lt last
      have hbound := val_lt stop
      rw [hstop] at hbound
      rw [hll, hs] at hroom
      have hnext : val (addOne last) = val s + 2 ^ k := by
        rw [val_addOne_of_lt (by rw [hll, hs]; omega), hlv]
      obtain ⟨nets, bs, hn, hg, hf2⟩ := ih (s := addOne last) (by simp [hll, hs])
        (by omega) (by omega)
      rw [hnext] at hg
      refine ⟨⟨s, cidrMask (8 * s.length - k) (8 * s.length)⟩ :: nets, _ :: bs, by simp [hmore, hn],
        Greedy.step hlong (by omega) hg, List.Forall₂.cons hb hf2⟩
    · have hge : val stop ≤ val last := by
        by_contra hc
        exact hmore (hlt.mpr (by omega))
      have := hlong.2.1
      exact ⟨[⟨s, cidrMask (8 * s.length - k) (8 * s.length)⟩], [_], by simp [hmore],
        Greedy.last hlong (by omega), List.Forall₂.cons hb .nil⟩

theorem Range.toIPNets_greedy {r : Range IP} (h : r.Valid) :
    ∃ nets bs, r.toIPNets = some nets ∧ Greedy (val r.stop) (val r.start) bs ∧
      List.Forall₂ (IsBlock r.start.length) nets bs :=
  toIPNetsLoop_greedy h.1 h.2.1 rfl h.2.2 (by omega)

/-- The loop returns for every range of one family, also for one whose end lies before its start. -/
theorem Range.toIPNets_terminates {r : Range IP} (hf : Family r.start.length)
    (hl : r.stop.length = r.start.length) : ∃ nets, r.toIPNets = some nets := by
  rcases Nat.lt_or_ge (val r.stop) (val r.start) with hlt | hge
  · obtain ⟨k, hk, hcidr, hdvd, _⟩ := cidr_aligned hl
    obtain ⟨last, hlast, hll, hlv⟩ := lastIP_spec hf hk hdvd
    have hp := Nat.two_pow_pos k
    have hstop : lessThan last r.stop = false := by
      rw [Bool.eq_false_iff]
      intro hc
      have := (lessThan_iff (by omega)).mp hc
      omega
    rw [Range.toIPNets, toIPNetsLoop_step hcidr hlast, hstop]
    exact ⟨_, rfl⟩
  · obtain ⟨nets, _, h, _⟩ := Range.toIPNets_greedy ⟨hf, hl, hge⟩
    exact ⟨nets, h⟩

end Dni
