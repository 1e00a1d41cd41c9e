import Dni.IPNetSet
import Dni.CidrSplit

namespace Dni

open Bytes Dyadic

theorem val_uiton (i : UInt32) : val (uiton i) = i.toNat := by
  have hi := UInt32.toNat_lt i
  simp only [uiton, val_cons, val_nil, List.length_cons, List.length_nil, UInt32.toNat_toUInt8,
    UInt32.toNat_shiftRight, Nat.shiftRight_eq_div_pow, UInt32.reduceToNat, Nat.reduceMod,
    Nat.reducePow, Nat.reduceAdd]
  omega

theorem uiton_inj {a b : UInt32} : uiton a = uiton b ↔ a = b := by
  refine ⟨fun h => ?_, fun h => by rw [h]⟩
  have hv := congrArg val h
  rw [val_uiton, val_uiton] at hv
  exact UInt32.toNat_inj.mp hv

theorem or_shift_eq {a b j : Nat} (h : b < 2 ^ j) : b ||| a * 2 ^ j = a * 2 ^ j + b := by
  rw [Nat.or_comm, Nat.mul_comm, Nat.two_pow_add_eq_or_of_lt h]

/-- Putting four bytes together spells the number that the bytes spell. -/
theorem ntoui_spec {ip : IP} (h : ip.length = 4) : ∃ i, ntoui ip = some i ∧ i.toNat = val ip := by
  match ip, h with
  | [b0, b1, b2, b3], _ =>
    have h0 := UInt8.toNat_lt b0
    have h1 := UInt8.toNat_lt b1
    have h2 := UInt8.toNat_lt b2
    have h3 := UInt8.toNat_lt b3
    refine ⟨_, rfl, ?_⟩
    simp only [UInt32.toNat_or, UInt32.toNat_shiftLeft, UInt8.toNat_toUInt32, Nat.shiftLeft_eq,
      UInt32.reduceToNat, Nat.reduceMod]
    rw [Nat.mod_eq_of_lt (a := b2.toNat * 2 ^ 8) (by omega),
      Nat.mod_eq_of_lt (a := b1.toNat * 2 ^ 16) (by omega),
      Nat.mod_eq_of_lt (a := b0.toNat * 2 ^ 24) (by omega),
      or_shift_eq h3, or_shift_eq (a := b1.toNat) (b := b2.toNat * 2 ^ 8 + b3.toNat) (j := 16) (by omega),
      or_shift_eq (a := b0.toNat) (j := 24) (by omega)]
    simp only [val_cons, val_nil, List.length_cons, List.length_nil, Nat.reducePow, Nat.reduceAdd]
    omega

namespace IPNet

def first (n : IPNet) : Nat := (n.ipAddr &&& n.mask).toNat

def last (n : IPNet) : Nat := (n.ipAddr ||| ~~~n.mask).toNat

theorem val_range_start (n : IPNet) : val (ipNetToRange n).start = n.first := val_uiton _

theorem val_range_stop (n : IPNet) : val (ipNetToRange n).stop = n.last := val_uiton _

/-- A canonical net is a dyadic block of the 32-bit addresses. -/
theorem Canonical.block {n : IPNet} (h : n.Canonical) :
    ∃ b : Block, b.k ≤ 32 ∧ b.next ≤ 2 ^ 32 ∧ n.first = b.base ∧ n.last + 1 = b.next ∧
      n.ipAddr.toNat = b.base ∧ n.mask.toNat = 2 ^ 32 - 2 ^ b.k ∧
      ∀ a : UInt32, n.Covers a ↔ a.toNat ∈ b := by
  obtain ⟨⟨k, hk, hm⟩, hip⟩ := h
  have hpk : 2 ^ k ≤ 2 ^ 32 := Nat.pow_le_pow_right (by omega) hk
  have hp := Nat.two_pow_pos k
  have hmask : n.mask.toNat = (2 ^ (32 - k) - 1) * 2 ^ k := by
    rw [hm, Nat.sub_mul, ← pow_add, Nat.sub_add_cancel hk, Nat.one_mul]
  have hand : n.ipAddr.toNat &&& n.mask.toNat = n.ipAddr.toNat := by
    rw [← UInt32.toNat_and, hip]
  have hdvd : 2 ^ k ∣ n.ipAddr.toNat := by
    rw [Nat.dvd_iff_mod_eq_zero, ← hand, hmask, Nat.and_mod_two_pow, Nat.mul_mod_left, Nat.and_zero]
  have hlt := UInt32.toNat_lt n.ipAddr
  have hfirst : n.first = n.ipAddr.toNat := by rw [first, hip]
  have hnot : (~~~n.mask).toNat = 2 ^ k - 1 := by
    rw [UInt32.toNat_not, hm]
    unfold UInt32.size
    omega
  have hlast : n.last + 1 = n.ipAddr.toNat + 2 ^ k := by
    obtain ⟨m, hd⟩ := hdvd
    rw [last, UInt32.toNat_or, hnot, hd, ← Nat.two_pow_add_eq_or_of_lt (by omega)]
    omega
  have hnext : n.ipAddr.toNat + 2 ^ k ≤ 2 ^ 32 := by
    have := UInt32.toNat_lt (n.ipAddr ||| ~~~n.mask)
    rw [← hlast]
    exact this
  refine ⟨⟨n.ipAddr.toNat, k, hdvd⟩, hk, hnext, hfirst, hlast, rfl, hm, fun a => ?_⟩
  rw [Covers, ← UInt32.toNat_inj, UInt32.toNat_and, UInt32.toNat_and, hmask, mem_iff_div]
  exact and_mask_iff hk (UInt32.toNat_lt a) hlt

theorem Canonical.covers_iff {n : IPNet} (h : n.Canonical) (a : UInt32) :
    n.Covers a ↔ n.first ≤ a.toNat ∧ a.toNat ≤ n.last := by
  obtain ⟨b, _, _, hf, hl, _, _, hc⟩ := h.block
  rw [hc]
  change b.base ≤ a.toNat ∧ a.toNat < b.next ↔ _
  omega

theorem first_covered (n : IPNet) : n.Covers (n.ipAddr &&& n.mask) := by
  rw [Covers, UInt32.and_assoc, UInt32.and_self]

theorem and_bit (a m : UInt32) {i : Nat} (hi : i < 32) :
    (a &&& m).toBitVec[i] = (a.toBitVec[i] && m.toBitVec[i]) := by
  rw [UInt32.toBitVec_and, BitVec.getElem_and]

theorem or_not_bit (a m : UInt32) {i : Nat} (hi : i < 32) :
    (a ||| ~~~m).toBitVec[i] = (a.toBitVec[i] || !m.toBitVec[i]) := by
  rw [UInt32.toBitVec_or, BitVec.getElem_or, UInt32.toBitVec_not, BitVec.getElem_not]

theorem or_not_mask (a m : UInt32) : a ||| ~~~m = a &&& m ||| ~~~m := by
  rw [← UInt32.toBitVec_inj]
  ext i hi
  rw [or_not_bit a m hi, or_not_bit (a &&& m) m hi, and_bit a m hi]
  cases m.toBitVec[i] <;> simp

theorem last_covered (n : IPNet) : n.Covers (n.ipAddr ||| ~~~n.mask) := by
  rw [Covers, ← UInt32.toBitVec_inj]
  ext i hi
  rw [and_bit _ _ hi, or_not_bit _ _ hi, and_bit _ _ hi]
  cases n.mask.toBitVec[i] <;> simp

theorem Covers.bounds {n : IPNet} {a : UInt32} (h : n.Covers a) : n.first ≤ a.toNat ∧ a.toNat ≤ n.last := by
  have hlast : a ||| ~~~n.mask = n.ipAddr ||| ~~~n.mask := by
    rw [or_not_mask a, or_not_mask n.ipAddr, h]
  rw [first, last, ← h, ← hlast, UInt32.toNat_and, UInt32.toNat_or]
  exact ⟨Nat.and_le_left, Nat.left_le_or⟩

theorem first_le_last (n : IPNet) : n.first ≤ n.last := n.last_covered.bounds.1

/-- Any net lies within a canonical one by its bounds. -/
theorem Canonical.within_iff {n : IPNet} (h : n.Canonical) (m : IPNet) :
    m.Within n ↔ n.first ≤ m.first ∧ m.last ≤ n.last := by
  apply Iff.intro
  · intro hw
    exact ⟨((h.covers_iff _).mp (hw _ m.first_covered)).1, ((h.covers_iff _).mp (hw _ m.last_covered)).2⟩
  · intro ⟨hfirst, hlast⟩ a ha
    have hbounds := ha.bounds
    rw [h.covers_iff]
    omega

/-- Two canonical nets lie apart or one lies within the other. -/
theorem Canonical.apart_or_nested {m n : IPNet} (hm : m.Canonical) (hn : n.Canonical) :
    m.last < n.first ∨ n.last < m.first ∨ (n.first ≤ m.first ∧ m.last ≤ n.last) ∨
      (m.first ≤ n.first ∧ n.last ≤ m.last) := by
  obtain ⟨b, _, _, hf, hl, _⟩ := hm.block
  obtain ⟨c, _, _, hf', hl', _⟩ := hn.block
  have hb := b.base_lt_next
  have hc := c.base_lt_next
  rcases disjoint_or_nested b c with h | h | h
  · by_contra hcon
    have h1 := h (max b.base c.base) ⟨le_max_left _ _, by omega⟩
    exact h1 ⟨le_max_right _ _, by omega⟩
  · have := subset_iff.mp h
    omega
  · have := subset_iff.mp h
    omega

theorem Canonical.ext_bounds {m n : IPNet} (hm : m.Canonical) (hn : n.Canonical)
    (hf : m.first = n.first) (hl : m.last = n.last) : m = n := by
  obtain ⟨b, hb, _, hbf, hbl, hbi, hbm, _⟩ := hm.block
  obtain ⟨c, hc, _, hcf, hcl, hci, hcm, _⟩ := hn.block
  have hpow : 2 ^ b.k = 2 ^ c.k := by unfold Block.next at *; omega
  have h1 : m.ipAddr = n.ipAddr := UInt32.toNat_inj.mp (by omega)
  have h2 : m.mask = n.mask := UInt32.toNat_inj.mp (by omega)
  cases m; cases n
  simp_all

theorem Canonical.eq_of_within {m n : IPNet} (hm : m.Canonical) (hn : n.Canonical)
    (h : m.Within n) (h' : n.Within m) : m = n := by
  rw [hn.within_iff] at h
  rw [hm.within_iff] at h'
  exact hm.ext_bounds hn (by omega) (by omega)

theorem Canonical.single_iff {n : IPNet} (h : n.Canonical) :
    n.mask = uint32Max ↔ n.first = n.last := by
  obtain ⟨b, hb, _, hbf, hbl, hbi, hbm, _⟩ := h.block
  have hp : 2 ^ b.k ≤ 2 ^ 32 := Nat.pow_le_pow_right (by omega) hb
  have hp0 := Nat.two_pow_pos b.k
  unfold Block.next at hbl
  rw [← UInt32.toNat_inj, show uint32Max.toNat = 2 ^ 32 - 1 from rfl]
  omega

/-- A net of one address has no other mask. -/
theorem mask_of_first_eq_last {n : IPNet} (h : n.first = n.last) : n.mask = uint32Max := by
  have hbounds := UInt32.toNat_inj.mp h
  rw [← UInt32.toBitVec_inj]
  ext i hi
  have hbit : (n.ipAddr &&& n.mask).toBitVec[i] = (n.ipAddr ||| ~~~n.mask).toBitVec[i] := by rw [hbounds]
  rw [and_bit _ _ hi, or_not_bit _ _ hi] at hbit
  have hmax : uint32Max.toBitVec[i] = true := by
    change (BitVec.allOnes 32)[i] = true
    exact BitVec.getElem_allOnes i hi
  rw [hmax]
  cases hm : n.mask.toBitVec[i] <;> simp [hm] at hbit ⊢

/-- Only a single address itself lies within it. -/
theorem Canonical.eq_of_within_single {m n : IPNet} (hm : m.Canonical) (hmask : m.mask = uint32Max)
    (h : n.Within m) : n = m := by
  have hsingle := hm.single_iff.mp hmask
  obtain ⟨hfirst, hlast⟩ := (hm.within_iff n).mp h
  have hle := n.first_le_last
  have hnmask : n.mask = uint32Max := mask_of_first_eq_last (by omega)
  have hall : ∀ a : UInt32, a &&& uint32Max = a := fun a => UInt32.and_neg_one
  have hip : n.ipAddr.toNat = m.ipAddr.toNat := by
    rw [← hall n.ipAddr, ← hall m.ipAddr, ← hnmask]
    change n.first = _
    rw [hnmask, ← hmask]
    change n.first = m.first
    omega
  cases m
  cases n
  exact congrArg₂ IPNet.mk (UInt32.toNat_inj.mp hip) (hnmask.trans hmask.symm)

theorem range_start_length (n : IPNet) : (ipNetToRange n).start.length = 4 := rfl

theorem range_stop_length (n : IPNet) : (ipNetToRange n).stop.length = 4 := rfl

theorem range_contains_iff (n : IPNet) (a : UInt32) :
    (ipNetToRange n).contains a = true ↔ n.first ≤ a.toNat ∧ a.toNat ≤ n.last := by
  rw [Range.contains, Bool.and_eq_true, decide_eq_true_eq, decide_eq_true_eq,
    compare_nonpos_iff (by rw [range_start_length, length_uiton]),
    compare_nonpos_iff (by rw [range_stop_length, length_uiton]), val_range_start, val_range_stop, val_uiton]

/-- The range of a canonical net splits into that one net again. -/
theorem Canonical.toIPNets {n : IPNet} (h : n.Canonical) :
    ∃ x, (ipNetToRange n).toIPNets = some [x] ∧ x.toIPNet = some n := by
  obtain ⟨b, hb, hn32, hbf, hbl, hbi, hbm, _⟩ := h.block
  have hp := Nat.two_pow_pos b.k
  have hpk : 2 ^ b.k ≤ 2 ^ 32 := Nat.pow_le_pow_right (by omega) hb
  have hstart := n.val_range_start
  have hstop := n.val_range_stop
  unfold Block.next at hbl
  have hv : (ipNetToRange n).Valid := ⟨Or.inl n.range_start_length,
    n.range_start_length.trans n.range_stop_length.symm, by rw [hstart, hstop]; omega⟩
  obtain ⟨nets, bs, hnets, hg, hf⟩ := Range.toIPNets_greedy hv
  rw [hstart, hstop, hbf] at hg
  have hlong : Longest b.base n.last b.k := by
    refine ⟨b.aligned, by omega, fun hcon => ?_⟩
    have := hcon.2
    rw [pow_succ] at this
    omega
  have hbs := hg.unique (Greedy.last hlong (by omega))
  subst hbs
  obtain ⟨x, y, hx, hy, rfl⟩ := List.forall₂_cons_right_iff.mp hf
  have hy0 : y = [] := List.forall₂_nil_right_iff.mp hy
  subst hy0
  obtain ⟨hxl, hxv, _, hxm⟩ := hx
  refine ⟨x, hnets, ?_⟩
  change _ = 4 at hxl
  obtain ⟨i, hi, hiv⟩ := ntoui_spec hxl
  have hxm : x.mask = cidrMaskBytes 4 (8 * 4 - b.k) :=
    hxm.trans (cidrMask_eq (Or.inl rfl) (Nat.sub_le _ _))
  have hml : x.mask.length = 4 := by rw [hxm, length_cidrMaskBytes]
  obtain ⟨j, hj, hjv⟩ := ntoui_spec hml
  have hbits : 8 * 4 - b.k + b.k = 32 := Nat.sub_add_cancel hb
  rw [hxm, val_cidrMaskBytes hb, Nat.sub_mul, ← pow_add, Nat.one_mul, hbits] at hjv
  have h1 : i = n.ipAddr := UInt32.toNat_inj.mp (by rw [hiv, hxv, hbi])
  have h2 : j = n.mask := UInt32.toNat_inj.mp (by rw [hjv, hbm])
  simp [NetIPNet.toIPNet, hi, hj, h1, h2]

end IPNet

end Dni
