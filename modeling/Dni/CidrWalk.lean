import Dni.SplitExact
import Dni.Lib.Cover
import Dni.Lib.GoMap

namespace Dni.Cpp

open Dyadic GoMap SortSearch

/-- Whether the match set of `b` is part of that of `a`. -/
def isChildCollection (a b : CIDR) : Bool :=
  if b.len < a.len then false
  else (a.ip ^^^ b.ip) >>> UInt32.ofNat (32 - a.len) = 0

/-- Whether `a` and `b` are one block together: the same length, and only the last bit of the prefix differs. -/
def unionCollection (a b : CIDR) : Bool :=
  if a.len ≠ b.len then false
  else (a.ip ^^^ b.ip) >>> UInt32.ofNat (32 - a.len) = 1

/-- The walk of `first_step_merge` with the iterator at `i`; the list from `j` on. -/
def firstStepLoop (i : CIDR) : List CIDR → List CIDR
  | [] => [i]
  | j :: rest => if isChildCollection i j then firstStepLoop i rest else i :: firstStepLoop j rest

/-- Moving `j` on from the start of an empty list is undefined. -/
def firstStepMerge : List CIDR → Option (List CIDR)
  | [] => none
  | i :: rest => some (firstStepLoop i rest)

/-- The walk of `second_step_merge` with the iterator at `i`: the elements before it, the last one first, and
the list from `j` on. After a merge both iterators step back, unless `i` is at the start. -/
def secondStepLoop (before : List CIDR) (i : CIDR) (rest : List CIDR) : List CIDR :=
  match rest with
  | [] => before.reverse ++ [i]
  | j :: rest =>
    if unionCollection i j then
      match before with
      | [] => secondStepLoop [] { i with len := i.len - 1 } rest
      | p :: before => secondStepLoop before p ({ i with len := i.len - 1 } :: rest)
    else secondStepLoop (i :: before) j rest
termination_by 2 * rest.length + before.length

def secondStepMerge : List CIDR → Option (List CIDR)
  | [] => none
  | i :: rest => some (secondStepLoop [] i rest)

/-- The comparison of `ipl.sort`. -/
def cidrLess (a b : CIDR) : Bool := if a.ip ≠ b.ip then a.ip < b.ip else a.len < b.len

def cidrMerge (ord : Order UInt32 Int) (sort : Sorter cidrLess) (ipMap : GoMap UInt32 Int) : Option (List CIDR) :=
  (firstStepMerge (sort.run ((ord.run ipMap).map fun ip => ⟨ip.1, 32⟩))).bind secondStepMerge

/-- Two different networks that are one together. -/
def Mergeable (c d : CIDR) : Prop := ∃ e : CIDR, e.len ≤ 32 ∧ ∀ a, e.Covers a ↔ c.Covers a ∨ d.Covers a

/-- The one shortest list of networks for a set of addresses. -/
structure MinimalCover (cs : List CIDR) (ips : UInt32 → Prop) : Prop where
  aligned : ∀ c ∈ cs, c.len ≤ 32 ∧ c.First c.ip
  ascending : cs.Pairwise fun c d => ∀ a b, c.Covers a → d.Covers b → a < b
  disjoint : cs.Pairwise fun c d => ∀ a, ¬ (c.Covers a ∧ d.Covers a)
  covers : ∀ a, (∃ c ∈ cs, c.Covers a) ↔ ips a
  apart : cs.Pairwise fun c d => ¬ Mergeable c d
  minimal : ∀ ds : List CIDR, (∀ d ∈ ds, d.len ≤ 32) → (∀ a, (∃ d ∈ ds, d.Covers a) ↔ ips a) → cs.length ≤ ds.length
  unique : ∀ ds : List CIDR, (∀ d ∈ ds, d.len ≤ 32 ∧ d.First d.ip) → (∀ a, (∃ d ∈ ds, d.Covers a) ↔ ips a) →
    ds.length ≤ cs.length → cs.Perm ds

/-- Numbers that differ in their last bit alone are an even one and the next. -/
theorem xor_eq_one_iff {x y : Nat} (h : x < y) : x ^^^ y = 1 ↔ 2 ∣ x ∧ x + 1 = y := by
  apply Iff.intro
  · intro hxor
    have hy : y = x ^^^ 1 := by rw [← hxor, ← Nat.xor_assoc, Nat.xor_self, Nat.zero_xor]
    obtain heven | hodd := Nat.even_or_odd x
    · rw [Nat.xor_one_of_even heven] at hy
      exact ⟨heven.two_dvd, hy.symm⟩
    · rw [Nat.xor_one_of_odd hodd] at hy
      omega
  · intro ⟨heven, hy⟩
    rw [← hy, ← Nat.xor_one_of_even (even_iff_two_dvd.mpr heven), ← Nat.xor_assoc, Nat.xor_self, Nat.zero_xor]

/-- A network without host bits is the block at its address. -/
def CIDR.Aligned (c : CIDR) : Prop := c.len ≤ 32 ∧ c.block.base = c.ip.toNat

/-- What holds of the list from the sort on: networks in ascending order, with the addresses of the map. -/
structure Ascends (ips : Nat → Prop) (cs : List CIDR) : Prop where
  aligned : ∀ c ∈ cs, c.Aligned
  ascending : cs.Pairwise fun c d => c.block.next ≤ d.block.base
  covers : ∀ x, (∃ c ∈ cs, x ∈ c.block) ↔ ips x

@[simp] theorem CIDR.block_k (c : CIDR) : c.block.k = 32 - c.len := rfl

theorem CIDR.block_base (c : CIDR) : c.block.base = c.ip.toNat / 2 ^ (32 - c.len) * 2 ^ (32 - c.len) := rfl

section Pair

variable {a b : CIDR}

theorem len_ne_zero (hb : b.Aligned) (hab : a.block.next ≤ b.block.base) : a.len ≠ 0 := by
  intro h0
  have hlt := UInt32.toNat_lt b.ip
  have hbase := hb.2
  rw [Block.next, CIDR.block_k, h0] at hab
  omega

/-- The test of the second step finds the lower and the upper half of a network. -/
theorem unionCollection_iff (ha : a.Aligned) (hb : b.Aligned) (hab : a.block.next ≤ b.block.base) :
    unionCollection a b = true ↔ Siblings a.block b.block := by
  have hlen0 := len_ne_zero hb hab
  have hal : a.len ≤ 32 := ha.1
  have hbl : b.len ≤ 32 := hb.1
  by_cases hlen : a.len = b.len
  · have hp := Nat.two_pow_pos (32 - a.len)
    obtain ⟨x, hx⟩ := a.block.aligned
    obtain ⟨y, hy⟩ := b.block.aligned
    rw [ha.2, CIDR.block_k] at hx
    rw [hb.2, CIDR.block_k, ← hlen] at hy
    rw [Block.next, ha.2, hb.2, CIDR.block_k, hx, hy, ← Nat.mul_succ] at hab
    have hxy : x < y := Nat.lt_of_succ_le (Nat.le_of_mul_le_mul_left hab hp)
    have hshift : ((a.ip ^^^ b.ip) >>> UInt32.ofNat (32 - a.len)).toNat = x ^^^ y := by
      rw [UInt32.toNat_shiftRight, UInt32.toNat_xor, UInt32.toNat_ofNat',
        Nat.mod_eq_of_lt (show 32 - a.len < 2 ^ 32 by omega), Nat.mod_eq_of_lt (show 32 - a.len < 32 by omega),
        Nat.shiftRight_eq_div_pow, Nat.xor_div_two_pow, hx, hy, Nat.mul_div_cancel_left _ hp,
        Nat.mul_div_cancel_left _ hp]
    rw [unionCollection, if_neg (not_not_intro hlen), decide_eq_true_iff, ← UInt32.toNat_inj, hshift,
      show (1 : UInt32).toNat = 1 from rfl, xor_eq_one_iff hxy]
    have hdvd : 2 ^ (32 - a.len + 1) ∣ a.ip.toNat ↔ 2 ∣ x := by
      rw [hx, pow_succ]
      exact Nat.mul_dvd_mul_iff_left hp
    have hnext : a.ip.toNat + 2 ^ (32 - a.len) = b.ip.toNat ↔ x + 1 = y := by
      rw [hx, hy, ← Nat.mul_succ]
      exact Nat.mul_right_inj hp.ne'
    apply Iff.intro
    · intro h
      rcases h with ⟨heven, hsucc⟩
      refine ⟨?_, ?_, ?_⟩
      · rw [CIDR.block_k, CIDR.block_k, hlen]
      · rw [Block.next, ha.2, hb.2]
        exact hnext.mpr hsucc
      · rw [ha.2]
        exact hdvd.mpr heven
    · intro h
      have hn := h.next
      have hw := h.whole
      rw [Block.next, ha.2, hb.2] at hn
      rw [ha.2] at hw
      exact ⟨hdvd.mp hw, hnext.mp hn⟩
  · rw [unionCollection, if_pos hlen]
    apply iff_of_false
    · intro h
      exact Bool.false_ne_true h
    · intro h
      have hk : 32 - a.len = 32 - b.len := h.k
      omega

/-- The list element that the second step keeps is the block of the two. -/
theorem merged_spec (ha : a.Aligned) (hlen0 : a.len ≠ 0) (hs : Siblings a.block b.block) :
    (⟨a.ip, a.len - 1⟩ : CIDR).Aligned ∧ ∀ x, x ∈ (⟨a.ip, a.len - 1⟩ : CIDR).block ↔ x ∈ a.block ∨ x ∈ b.block := by
  have hk : 32 - (a.len - 1) = 32 - a.len + 1 := by
    have := ha.1
    omega
  have hbase : (⟨a.ip, a.len - 1⟩ : CIDR).block.base = a.ip.toNat := by
    rw [CIDR.block_base, hk]
    have hw := hs.whole
    rw [ha.2] at hw
    exact Nat.div_mul_cancel hw
  refine ⟨⟨(Nat.sub_le _ _).trans ha.1, hbase⟩, ?_⟩
  intro x
  have hn := hs.next
  have hkk : 32 - a.len = b.block.k := hs.k
  rw [Block.next, ha.2, CIDR.block_k] at hn
  rw [mem_def, mem_def, mem_def, hbase, ha.2, ← hn, ← hkk, CIDR.block_k, CIDR.block_k, hk, pow_succ]
  have hp := Nat.two_pow_pos (32 - a.len)
  omega

end Pair

variable {ips : Nat → Prop}

/-- One merge in the middle of the list keeps the order and the addresses. -/
theorem Ascends.merge {pre rest : List CIDR} {i j : CIDR} (h : Ascends ips (pre ++ i :: j :: rest))
    (hu : unionCollection i j = true) : Ascends ips (pre ++ ⟨i.ip, i.len - 1⟩ :: rest) := by
  have hi := h.aligned i (by simp)
  have hj := h.aligned j (by simp)
  obtain ⟨hpre, hrest, hcross⟩ := List.pairwise_append.mp h.ascending
  obtain ⟨hifirst, hjrest⟩ := List.pairwise_cons.mp hrest
  obtain ⟨hjfirst, hrest⟩ := List.pairwise_cons.mp hjrest
  have hij := hifirst j List.mem_cons_self
  have hs := (unionCollection_iff hi hj hij).mp hu
  obtain ⟨hal, hmem⟩ := merged_spec hi (len_ne_zero hj hij) hs
  have hmbase : (⟨i.ip, i.len - 1⟩ : CIDR).block.base = i.block.base := hal.2.trans hi.2.symm
  have hmnext : (⟨i.ip, i.len - 1⟩ : CIDR).block.next = j.block.next := by
    have hlt := j.block.base_lt_next
    have hlast := (hmem (j.block.next - 1)).mpr (Or.inr ⟨by omega, by omega⟩)
    have hend := (hmem ((⟨i.ip, i.len - 1⟩ : CIDR).block.next - 1)).mp ⟨by
      have := (⟨i.ip, i.len - 1⟩ : CIDR).block.base_lt_next
      omega, by
      have := (⟨i.ip, i.len - 1⟩ : CIDR).block.base_lt_next
      omega⟩
    have h1 := hlast.2
    have h2 : (⟨i.ip, i.len - 1⟩ : CIDR).block.next - 1 < j.block.next := by
      obtain hin | hin := hend
      · exact hin.2.trans (hs.next ▸ hlt)
      · exact hin.2
    omega
  refine ⟨?_, ?_, ?_⟩
  · intro c hc
    obtain hc | hc := List.mem_append.mp hc
    · exact h.aligned c (List.mem_append.mpr (Or.inl hc))
    · obtain hc | hc := List.mem_cons.mp hc
      · exact hc ▸ hal
      · exact h.aligned c (by simp [hc])
  · rw [List.pairwise_append]
    refine ⟨hpre, List.pairwise_cons.mpr ⟨?_, hrest⟩, ?_⟩
    · intro d hd
      rw [hmnext]
      exact hjfirst d hd
    · intro c hc d hd
      obtain hd | hd := List.mem_cons.mp hd
      · rw [hd, hmbase]
        exact hcross c hc i List.mem_cons_self
      · exact hcross c hc d (by simp [hd])
  · intro x
    rw [← h.covers x]
    simp only [List.mem_append, List.mem_cons, or_and_right, exists_or, exists_eq_left, hmem, or_assoc]

theorem secondStepLoop_advance {before : List CIDR} {i j : CIDR} {rest : List CIDR}
    (hu : ¬ unionCollection i j = true) :
    secondStepLoop before i (j :: rest) = secondStepLoop (i :: before) j rest := by
  cases before with
  | nil => rw [secondStepLoop, if_neg hu]
  | cons p before => rw [secondStepLoop, if_neg hu]

/-- A walk with the pairs up to `i` done ends with no pair left. -/
theorem secondStepLoop_spec (before : List CIDR) (i : CIDR) (rest : List CIDR)
    (h : Ascends ips (before.reverse ++ i :: rest))
    (hdone : (i :: before).IsChain fun d c => unionCollection c d = false) :
    Ascends ips (secondStepLoop before i rest) ∧
      (secondStepLoop before i rest).IsChain fun c d => unionCollection c d = false := by
  induction before, i, rest using secondStepLoop.induct with
  | case1 before i =>
    rw [secondStepLoop]
    refine ⟨h, ?_⟩
    rw [← List.reverse_cons, List.isChain_reverse]
    exact hdone
  | case2 i j rest hu ih =>
    rw [secondStepLoop, if_pos hu]
    exact ih (h.merge hu) (List.IsChain.singleton _)
  | case3 i j rest hu p before ih =>
    rw [secondStepLoop, if_pos hu]
    -- the chain up to `p` was there before
    apply ih
    · rw [List.reverse_cons, List.append_assoc] at h
      have hm := (List.append_assoc .. ▸ h : Ascends ips ((before.reverse ++ [p]) ++ i :: j :: rest)).merge hu
      rwa [List.append_assoc] at hm
    · exact hdone.of_cons
  | case4 before i j rest hu ih =>
    rw [secondStepLoop_advance hu]
    apply ih
    · rw [List.reverse_cons, List.append_assoc]
      exact h
    · exact List.isChain_cons_cons.mpr ⟨Bool.eq_false_iff.mpr hu, hdone⟩

/-- Among single addresses only equal ones contain each other. -/
theorem firstStepLoop_eq {i : CIDR} {rest : List CIDR} (hlen : ∀ c ∈ i :: rest, c.len = 32)
    (hne : (i :: rest).Pairwise fun c d => c.ip ≠ d.ip) : firstStepLoop i rest = i :: rest := by
  induction rest generalizing i with
  | nil => rfl
  | cons j rest ih =>
    obtain ⟨hfirst, hrest⟩ := List.pairwise_cons.mp hne
    have hij : isChildCollection i j = false := by
      have hi := hlen i List.mem_cons_self
      have hj := hlen j (List.mem_cons_of_mem _ List.mem_cons_self)
      rw [isChildCollection, if_neg (by omega), decide_eq_false_iff_not, hi]
      intro hxor
      rw [show UInt32.ofNat (32 - 32) = 0 from rfl, UInt32.shiftRight_zero, UInt32.xor_eq_zero_iff] at hxor
      exact hfirst j List.mem_cons_self hxor
    rw [firstStepLoop, hij, if_neg Bool.false_ne_true, ih (fun c hc => hlen c (List.mem_cons_of_mem _ hc)) hrest]

/-- The sorted addresses of the map, one network each. -/
theorem sorted_ascends (ord : Order UInt32 Int) (sort : Sorter cidrLess) (ipMap : GoMap UInt32 Int) :
    (∀ c ∈ sort.run ((ord.run ipMap).map fun ip => ⟨ip.1, 32⟩), c.len = 32) ∧
      Ascends (fun x => ∃ a ∈ ipMap, a.toNat = x) (sort.run ((ord.run ipMap).map fun ip => ⟨ip.1, 32⟩)) := by
  have hperm := sort.perm ((ord.run ipMap).map fun ip => (⟨ip.1, 32⟩ : CIDR))
  have hmem : ∀ c : CIDR, c ∈ sort.run ((ord.run ipMap).map fun ip => ⟨ip.1, 32⟩) ↔ c.ip ∈ ipMap ∧ c.len = 32 := by
    intro c
    rw [hperm.mem_iff, List.mem_map]
    apply Iff.intro
    · intro h
      rcases h with ⟨e, he, hc⟩
      subst hc
      exact ⟨(ord.mem_keys ipMap).mp (List.mem_map.mpr ⟨e, he, rfl⟩), rfl⟩
    · intro h
      rcases h with ⟨hip, hlen⟩
      obtain ⟨e, he, hc⟩ := List.mem_map.mp ((ord.mem_keys ipMap).mpr hip)
      refine ⟨e, he, ?_⟩
      cases c
      simp_all
  have hlen : ∀ c ∈ sort.run ((ord.run ipMap).map fun ip => ⟨ip.1, 32⟩), c.len = 32 := fun c hc => ((hmem c).mp hc).2
  have hnodup : (sort.run ((ord.run ipMap).map fun ip => (⟨ip.1, 32⟩ : CIDR))).Pairwise fun c d => c.ip ≠ d.ip := by
    rw [← List.pairwise_map, ← List.nodup_iff_pairwise_ne, (hperm.map CIDR.ip).nodup_iff, List.map_map]
    exact ord.keys_nodup ipMap
  have hblock : ∀ c : CIDR, c.len = 32 → c.block.base = c.ip.toNat ∧ c.block.next = c.ip.toNat + 1 := by
    intro c hc
    have hb : c.block.base = c.ip.toNat := by rw [CIDR.block_base, hc, Nat.sub_self, pow_zero, Nat.div_one, Nat.mul_one]
    refine ⟨hb, ?_⟩
    rw [Block.next, hb, CIDR.block_k, hc]
    rfl
  refine ⟨hlen, ?_, ?_, ?_⟩
  · intro c hc
    exact ⟨(hlen c hc).le, (hblock c (hlen c hc)).1⟩
  · have hboth := (sort.sorted ((ord.run ipMap).map fun ip => (⟨ip.1, 32⟩ : CIDR))).and hnodup
    apply hboth.imp_of_mem
    rintro c d hc hd ⟨hless, hne⟩
    rw [(hblock c (hlen c hc)).2, (hblock d (hlen d hd)).1]
    rw [cidrLess, if_pos hne.symm, decide_eq_false_iff_not, UInt32.lt_iff_toNat_lt] at hless
    have hval : c.ip.toNat ≠ d.ip.toNat := fun h => hne (UInt32.toNat_inj.mp h)
    omega
  · intro x
    apply Iff.intro
    · intro h
      rcases h with ⟨c, hc, hx⟩
      obtain ⟨hlo, hhi⟩ := hx
      rw [(hblock c (hlen c hc)).1] at hlo
      rw [(hblock c (hlen c hc)).2] at hhi
      exact ⟨c.ip, ((hmem c).mp hc).1, by omega⟩
    · intro h
      rcases h with ⟨a, ha, hx⟩
      have hb := hblock ⟨a, 32⟩ rfl
      refine ⟨⟨a, 32⟩, (hmem _).mpr ⟨ha, rfl⟩, ?_, ?_⟩
      · rw [hb.1, ← hx]
      · rw [hb.2, ← hx]
        exact Nat.lt_succ_self _

/-- A network without host bits, from its block. -/
theorem ofBlocks_eq {cs : List CIDR} (h : ∀ c ∈ cs, c.Aligned) :
    (cs.map CIDR.block).map (fun b => ⟨UInt32.ofNat b.base, 32 - b.k⟩) = cs := by
  rw [List.map_map, List.map_congr_left, List.map_id]
  intro c hc
  obtain ⟨hlen, hbase⟩ := h c hc
  have hip : UInt32.ofNat c.block.base = c.ip := by rw [hbase, UInt32.ofNat_toNat]
  have hl : 32 - c.block.k = c.len := by
    rw [CIDR.block_k]
    omega
  cases c
  exact congrArg₂ CIDR.mk hip hl

theorem CIDR.aligned_of_first {c : CIDR} (h : c.len ≤ 32 ∧ c.First c.ip) : c.Aligned := by
  refine ⟨h.1, ?_⟩
  have hip : c.ip.toNat = (network c.ip c.len).toNat := congrArg UInt32.toNat (h.2.eq h.1)
  rw [hip, toNat_network _ h.1, CIDR.block_base]

section Cover

variable {cs : List CIDR} {ips : UInt32 → Prop} (h : Ascends (fun x => ∃ a, ips a ∧ a.toNat = x) cs)

include h

theorem Ascends.len_le : ∀ c ∈ cs, c.len ≤ 32 := fun c hc => (h.aligned c hc).1

theorem Ascends.covers_iff (a : UInt32) : (∃ c ∈ cs, c.Covers a) ↔ ips a := by
  have hiff : (∃ c ∈ cs, c.Covers a) ↔ ∃ c ∈ cs, a.toNat ∈ c.block := by
    apply exists_congr
    intro c
    exact and_congr_right fun hc => c.covers_iff_mem_block (h.len_le c hc) a
  rw [hiff, h.covers]
  apply Iff.intro
  · intro ⟨b, hb, hab⟩
    exact UInt32.toNat_inj.mp hab ▸ hb
  · intro ha
    exact ⟨a, ha, rfl⟩

theorem Ascends.before : cs.Pairwise fun c d => ∀ a b, c.Covers a → d.Covers b → a < b := by
  apply h.ascending.imp_of_mem
  intro c d hc hd hcd a b ha hb
  have ha' := ((c.covers_iff_mem_block (h.len_le c hc) a).mp ha).2
  have hb' := ((d.covers_iff_mem_block (h.len_le d hd) b).mp hb).1
  rw [UInt32.lt_iff_toNat_lt]
  omega

theorem Ascends.disjoint : cs.Pairwise fun c d => ∀ a, ¬ (c.Covers a ∧ d.Covers a) := by
  apply h.before.imp
  intro c d hcd a ⟨hc, hd⟩
  exact absurd (hcd a a hc hd) (UInt32.lt_irrefl a)

theorem Ascends.coarsest (hdone : cs.IsChain fun c d => unionCollection c d = false) : Coarsest (cs.map CIDR.block) := by
  apply coarsest_of_chain (List.pairwise_map.mpr h.ascending)
  rw [List.isChain_map]
  have hnext := List.isChain_iff_getElem.mp h.ascending.isChain
  rw [List.isChain_iff_getElem] at hdone ⊢
  intro i hi hs
  have hu := (unionCollection_iff (h.aligned _ (List.getElem_mem _)) (h.aligned _ (List.getElem_mem _)) (hnext i hi)).mpr hs
  exact Bool.false_ne_true ((hdone i hi).symm.trans hu)

/-- The network of two members would lie in one of the list. -/
theorem Ascends.not_mergeable (hcoarse : Coarsest (cs.map CIDR.block)) {c d : CIDR} (hc : c ∈ cs) (hd : d ∈ cs)
    (hcd : ∀ a, ¬ (c.Covers a ∧ d.Covers a)) : ¬ Mergeable c d := by
  intro ⟨e, hel, he⟩
  have hsub : ∀ x ∈ e.block, ∃ b ∈ cs.map CIDR.block, x ∈ b := by
    intro x hx
    have hof : (UInt32.ofNat x).toNat = x := by rw [UInt32.toNat_ofNat', Nat.mod_eq_of_lt (e.mem_block_lt hx)]
    have hex : e.Covers (UInt32.ofNat x) := by rwa [e.covers_iff_mem_block hel, hof]
    rw [mem_blocks_iff h.len_le h.covers_iff]
    refine ⟨UInt32.ofNat x, (h.covers_iff _).mp ?_, hof⟩
    obtain hx | hx := (he _).mp hex
    · exact ⟨c, hc, hx⟩
    · exact ⟨d, hd, hx⟩
  obtain ⟨b, hb, hin⟩ := hcoarse.absorb e.block hsub
  have hpart : ∀ c' ∈ cs, e.Covers c'.ip → c'.block = b := by
    intro c' hc' hec
    apply hcoarse.eq_of_meet (List.mem_map.mpr ⟨c', hc', rfl⟩) hb c'.ip_mem_block
    exact hin _ ((e.covers_iff_mem_block hel _).mp hec)
  have hcb := hpart c hc ((he _).mpr (Or.inl rfl))
  have hdb := hpart d hd ((he _).mpr (Or.inr rfl))
  apply hcd c.ip
  refine ⟨rfl, ?_⟩
  rw [d.covers_iff_mem_block (h.len_le d hd), hdb, ← hcb]
  exact c.ip_mem_block

/-- An ascending list without a pair left to merge is the shortest cover. -/
theorem Ascends.minimalCover (hdone : cs.IsChain fun c d => unionCollection c d = false) : MinimalCover cs ips := by
  have hcoarse := h.coarsest hdone
  have hmem : ∀ {ds : List CIDR}, (∀ d ∈ ds, d.len ≤ 32) → (∀ a, (∃ d ∈ ds, d.Covers a) ↔ ips a) →
      ∀ x, (∃ d ∈ ds.map CIDR.block, x ∈ d) ↔ ∃ b ∈ cs.map CIDR.block, x ∈ b := by
    intro ds hds hcov x
    rw [mem_blocks_iff hds hcov, mem_blocks_iff h.len_le h.covers_iff]
  refine ⟨?_, h.before, h.disjoint, h.covers_iff, ?_, ?_, ?_⟩
  · intro c hc
    obtain ⟨hl, hbase⟩ := h.aligned c hc
    refine ⟨hl, rfl, ?_⟩
    intro a ha
    rw [UInt32.le_iff_toNat_le, ← hbase]
    exact ((c.covers_iff_mem_block hl a).mp ha).1
  · exact h.disjoint.imp_of_mem fun hc hd hcd => h.not_mergeable hcoarse hc hd hcd
  · intro ds hds hcov
    have hle := hcoarse.length_le (hmem hds hcov)
    rwa [List.length_map, List.length_map] at hle
  · intro ds hds hcov hle
    have hdl : ∀ d ∈ ds, d.len ≤ 32 := fun d hd => (hds d hd).1
    have hperm := hcoarse.perm_of_length_le (hmem hdl hcov) (by rwa [List.length_map, List.length_map])
    rw [← ofBlocks_eq h.aligned, ← ofBlocks_eq fun d hd => CIDR.aligned_of_first (hds d hd)]
    exact hperm.map _

end Cover

/-- The networks of a map are the one shortest list for its keys, whatever the order of the map. -/
theorem cidrMerge_minimal (ord : Order UInt32 Int) (sort : Sorter cidrLess) (ipMap : GoMap UInt32 Int)
    (hne : ipMap ≠ ∅) : ∃ cs, cidrMerge ord sort ipMap = some cs ∧ MinimalCover cs (· ∈ ipMap) := by
  obtain ⟨hlen, hasc⟩ := sorted_ascends ord sort ipMap
  rw [cidrMerge]
  generalize hl : sort.run ((ord.run ipMap).map fun ip => (⟨ip.1, 32⟩ : CIDR)) = ipl at hlen hasc
  match ipl with
  | [] =>
    have hnone : ∀ a, a ∉ ipMap := by
      intro a ha
      obtain ⟨c, hc, -⟩ := (hasc.covers a.toNat).mpr ⟨a, ha, rfl⟩
      exact List.not_mem_nil hc
    exact absurd (AList.ext (List.eq_nil_iff_forall_not_mem.mpr fun e he => hnone e.1 (List.mem_keys_of_mem he))) hne
  | i :: rest =>
    have hdistinct : (i :: rest).Pairwise fun c d => c.ip ≠ d.ip := by
      apply hasc.ascending.imp_of_mem
      intro c d hc hd hcd heq
      have hb := (hasc.aligned c hc).2
      have hb' := (hasc.aligned d hd).2
      have := c.block.base_lt_next
      rw [heq] at hb
      omega
    obtain ⟨hwalk, hdone⟩ := secondStepLoop_spec [] i rest hasc (List.IsChain.singleton _)
    refine ⟨secondStepLoop [] i rest, ?_, hwalk.minimalCover hdone⟩
    rw [firstStepMerge, firstStepLoop_eq hlen hdistinct, Option.bind_some, secondStepMerge]

/-- Insertion sort by address. -/
def cidrSorter : Sorter cidrLess :=
  .insertionSort
    (by
      intro a b c hab hbc
      simp only [cidrLess, ne_eq, ite_not] at *
      grind)
    (by
      intro a b
      simp only [cidrLess, ne_eq, ite_not]
      grind)

theorem cidrMerge_minimal_pair : ∃ cs, cidrMerge Order.stored cidrSorter
    (AList.insert 0x0A000001 3 (AList.insert 0x0A000000 5 ∅)) = some cs ∧
      MinimalCover cs (· ∈ AList.insert 0x0A000001 3 (AList.insert 0x0A000000 5 (∅ : GoMap UInt32 Int))) :=
  cidrMerge_minimal Order.stored cidrSorter _ fun h => absurd (congrArg AList.keys h) (by decide)

end Dni.Cpp
