import Dni.SipDedupRules

namespace Dni

theorem insertionSort_eq_of_perm {xs ys : List UInt32} (h : xs.Perm ys) :
    xs.insertionSort (· ≤ ·) = ys.insertionSort (· ≤ ·) := by
  have : Std.Total (α := UInt32) (· ≤ ·) := ⟨UInt32.le_total⟩
  have : IsTrans UInt32 (· ≤ ·) := ⟨fun _ _ _ => UInt32.le_trans⟩
  have : Std.Antisymm (α := UInt32) (· ≤ ·) := ⟨fun _ _ => UInt32.le_antisymm⟩
  apply List.Perm.eq_of_pairwise' (List.pairwise_insertionSort (· ≤ ·) xs)
    (List.pairwise_insertionSort (· ≤ ·) ys)
  exact (List.perm_insertionSort _ xs).trans (h.trans (List.perm_insertionSort _ ys).symm)

/-- The differences do not depend on the order in which the keys were collected. -/
theorem diffTypeNum_perm {xs ys : List UInt32} (h : xs.Perm ys) : diffTypeNum xs = diffTypeNum ys := by
  rw [diffTypeNum, diffTypeNum, getDiff, getDiff, insertionSort_eq_of_perm h]

theorem keys_perm_dedup {ν : Type} {m : GoMap UInt32 ν} {vals : List UInt32} (h : ∀ x, x ∈ m ↔ x ∈ vals) :
    m.keys.Perm vals.dedup := by
  apply (List.perm_ext_iff_of_nodup m.nodupKeys (List.nodup_dedup vals)).mpr
  intro x
  rw [List.mem_dedup, ← h]
  exact AList.mem_keys.symm

namespace Cpp

open GoMap

/-- What a result holds after the packets of a list were added to it. -/
structure SIPBaseMergeResult.Holds (ret : SIPBaseMergeResult) (ps : List Packet) : Prop where
  sport : ∀ x, x ∈ ret.sport ↔ x ∈ ps.map Packet.sport
  dport : ∀ x, x ∈ ret.dport ↔ x ∈ ps.map Packet.dport
  length : ∀ x, x ∈ ret.length ↔ x ∈ ps.map Packet.length
  protocol : ∀ x, x ∈ ret.protocol ↔ x ∈ ps.map Packet.protocol

theorem SIPBaseMergeResult.Holds.empty : ({} : SIPBaseMergeResult).Holds [] := by
  constructor <;> simp [AList.mem_keys, AList.keys_empty]

theorem SIPBaseMergeResult.Holds.add {ret : SIPBaseMergeResult} {ps : List Packet} (h : ret.Holds ps)
    (p : Packet) : (ret.add p).Holds (p :: ps) := by
  refine ⟨fun x => ?_, fun x => ?_, fun x => ?_, fun x => ?_⟩ <;>
    rw [SIPBaseMergeResult.add, AList.mem_insert, List.map_cons, List.mem_cons]
  · rw [h.sport]
  · rw [h.dport]
  · rw [h.length]
  · rw [h.protocol]

theorem SIPBaseMergeResult.Holds.foldl {ret : SIPBaseMergeResult} {ps : List Packet} (h : ret.Holds ps)
    (qs : List Packet) : (qs.foldl SIPBaseMergeResult.add ret).Holds (qs.reverse ++ ps) := by
  induction qs generalizing ret ps with
  | nil => exact h
  | cons q qs ih =>
    rw [List.foldl_cons, List.reverse_cons, List.append_assoc]
    exact ih (h.add q)

theorem SIPBaseMergeResult.Holds.congr {ret : SIPBaseMergeResult} {ps qs : List Packet} (h : ret.Holds ps)
    (hmem : ∀ p, p ∈ ps ↔ p ∈ qs) : ret.Holds qs := by
  have hmap : ∀ (f : Packet → UInt32) (x : UInt32), x ∈ ps.map f ↔ x ∈ qs.map f := by
    intro f x
    simp only [List.mem_map, hmem]
  exact ⟨fun x => (h.sport x).trans (hmap _ x), fun x => (h.dport x).trans (hmap _ x),
    fun x => (h.length x).trans (hmap _ x), fun x => (h.protocol x).trans (hmap _ x)⟩

namespace SndSIPBaseMergeDeDupTask

variable {F : Type} [FloatArith F] [LE F] [DecidableLE F] (t : SndSIPBaseMergeDeDupTask F) (o : DedupOrders) (packets : List Packet)
  (r : AttackerIPMergeResult) (hostNicName : String)

theorem numberStatIndex_perm {xs ys : List UInt32} (h : xs.Perm ys) :
    t.numberStatIndex xs = t.numberStatIndex ys := by
  rw [numberStatIndex, numberStatIndex, diffTypeNum_perm h, h.length_eq]

/-- The label for the values of a feature in a list of packets. -/
def labelOf (vals : List UInt32) : String := t.numLabel[t.numberStatIndex vals.dedup]

/-- The packets that the statistics of a group are taken from. -/
def population (key : String) : List Packet :=
  if key = "RANDOM" then packets.filter fun p => p.sip ∈ r.randomIPs
  else packets.filter fun p => groupKey r.attackerIPs p = key

theorem mergeRandom_eq (ipPositions : GoMap UInt32 (List Nat)) (randomIPs : List UInt32)
    (ret : SIPBaseMergeResult) : mergeRandom packets ipPositions randomIPs ret =
      ((randomIPs.flatMap fun ip => (ipPositions.lookup ip).getD []).filterMap (packets[·]?)).foldl
        SIPBaseMergeResult.add ret := by
  have hat : ∀ (is : List Nat) (ret : SIPBaseMergeResult),
      is.foldl (mergeAt packets) ret = (is.filterMap (packets[·]?)).foldl SIPBaseMergeResult.add ret := by
    intro is
    induction is with
    | nil => intro ret; rfl
    | cons i is ih =>
      intro ret
      rw [List.foldl_cons, ih, List.filterMap_cons, mergeAt]
      cases packets[i]? <;> rfl
  unfold mergeRandom
  induction randomIPs generalizing ret with
  | nil => rfl
  | cons ip ips ih =>
    rw [List.foldl_cons, ih, List.flatMap_cons, List.filterMap_append, List.foldl_append, hat]

/-- The results of the loop over the packets: none is the random one. -/
theorem lookup_mergePackets {key : String} {ret : SIPBaseMergeResult}
    (h : (mergePackets r.attackerIPs packets).allMergeRet.lookup key = some ret) :
    key ≠ "RANDOM" ∧ ret.Holds (packets.filter fun p => groupKey r.attackerIPs p = key) := by
  rw [mergePackets, foldl_mergePacket] at h
  dsimp only at h
  rw [lookup_accumulate] at h
  split at h
  next hex =>
    obtain ⟨pk, hpk, hkey⟩ := hex
    have hcov := of_decide_eq_true (List.mem_filter.mp hpk).2
    obtain ⟨c, _, _, hc⟩ := groupKey_of_covered hcov
    have hne : key ≠ "RANDOM" := by
      rw [← hkey, hc]
      exact cidrString_ne_random c
    refine ⟨hne, ?_⟩
    rw [← Option.some.inj h, AList.lookup_empty, Option.getD_none, ← List.foldl_map]
    apply (SIPBaseMergeResult.Holds.empty.foldl _).congr
    intro p
    rw [List.append_nil, List.mem_reverse, List.mem_map, List.mem_filter, decide_eq_true_eq]
    apply Iff.intro
    · intro h
      rcases h with ⟨qk, hqk, hq⟩
      obtain ⟨hin, hqkey⟩ := List.mem_filter.mp hqk
      have hmem := List.fst_mem_of_mem_zipIdx (List.mem_filter.mp hin).1
      rw [hq] at hmem
      rw [decide_eq_true_eq, hq] at hqkey
      exact ⟨hmem, hqkey⟩
    · intro h
      rcases h with ⟨hp, hpkey⟩
      obtain ⟨i, hi⟩ := List.mem_iff_getElem?.mp hp
      have hpcov : Covered r.attackerIPs p := by
        by_contra hno
        exact hne (hpkey.symm.trans (groupKey_eq_random_iff.mpr hno))
      exact ⟨(p, i), List.mem_filter.mpr ⟨List.mem_filter.mpr
        ⟨List.mk_mem_zipIdx_iff_getElem?.mpr hi, decide_eq_true hpcov⟩, decide_eq_true hpkey⟩, rfl⟩
  next => cases h

/-- The random merge adds the packets at the positions of the random addresses. -/
theorem holds_mergeRandom : (mergeRandom packets (mergePackets r.attackerIPs packets).ipPositions
    (o.randomIPs r.randomIPs) {}).Holds (packets.filter fun p => p.sip ∈ r.randomIPs) := by
  rw [mergeRandom_eq]
  apply (SIPBaseMergeResult.Holds.empty.foldl _).congr
  intro p
  rw [List.append_nil, List.mem_reverse, List.mem_filterMap, List.mem_filter, decide_eq_true_eq,
    mergePackets, foldl_mergePacket]
  dsimp only
  apply Iff.intro
  · intro h
    rcases h with ⟨i, hi, hp⟩
    obtain ⟨ip, hip, hpos⟩ := List.mem_flatMap.mp hi
    obtain ⟨q, hq, hsip⟩ := mem_positions.mp hpos
    cases hp.symm.trans hq
    rw [(o.randomIPs_perm _).mem_iff, List.mem_dedup] at hip
    exact ⟨List.mem_of_getElem? hp, hsip ▸ hip⟩
  · intro h
    rcases h with ⟨hp, hip⟩
    obtain ⟨i, hi⟩ := List.mem_iff_getElem?.mp hp
    rw [← List.mem_dedup, ← (o.randomIPs_perm _).mem_iff] at hip
    exact ⟨i, List.mem_flatMap.mpr ⟨_, hip, mem_positions.mpr ⟨p, hi, rfl⟩⟩, hi⟩

/-- A group's result holds the packets of its population. -/
theorem lookup_allMergeRet {key : String} {ret : SIPBaseMergeResult}
    (h : (allMergeRet o packets r).lookup key = some ret) : ret.Holds (population packets r key) := by
  have hnone : (mergePackets r.attackerIPs packets).allMergeRet.lookup "RANDOM" = none := by
    cases hl : (mergePackets r.attackerIPs packets).allMergeRet.lookup "RANDOM" with
    | none => rfl
    | some ret => exact absurd rfl (lookup_mergePackets packets r hl).1
  have hother : ∀ ret, (mergePackets r.attackerIPs packets).allMergeRet.lookup key = some ret →
      ret.Holds (population packets r key) := by
    intro ret hl
    obtain ⟨hne, hholds⟩ := lookup_mergePackets packets r hl
    rw [population, if_neg hne]
    exact hholds
  unfold allMergeRet at h
  dsimp only at h
  split at h
  next =>
    by_cases hkey : key = "RANDOM"
    · subst hkey
      rw [AList.lookup_insert, hnone, Option.getD_none] at h
      rw [← Option.some.inj h, population, if_pos rfl]
      exact holds_mergeRandom o packets r
    · rw [AList.lookup_insert_ne hkey] at h
      exact hother ret h
  next => exact hother ret h

/-- The labels of a group, from the packets that its statistics are taken from. -/
structure Labelled (key : String) (stat : SIPBaseMergeStats) : Prop where
  hostNicSign : stat.hostNicSign = hostNicName
  isSrcIPRandom : stat.isSrcIPRandom = true ↔ key = "RANDOM"
  srcPort : stat.srcPort.statType = t.labelOf ((population packets r key).map Packet.sport)
  dstPort : stat.dstPort.statType = t.labelOf ((population packets r key).map Packet.dport)
  length : stat.length.statType = t.labelOf ((population packets r key).map Packet.length)

theorem labelled_of_lookup {key : String} {stat : SIPBaseMergeStats}
    (h : (t.allStat o packets r hostNicName).lookup key = some stat) :
    t.Labelled packets r hostNicName key stat := by
  obtain ⟨ret, hret, hstat⟩ := (t.lookup_allStat o packets r hostNicName).mp h
  have hholds := lookup_allMergeRet o packets r hret
  have hlabel : ∀ (uset : UIntSet) (vals : List UInt32), (∀ x, x ∈ uset ↔ x ∈ vals) →
      (t.numberStats uset).statType = t.labelOf vals := by
    intro uset vals hx
    exact congrArg (fun i : Fin 4 => t.numLabel[i]) (t.numberStatIndex_perm (keys_perm_dedup hx))
  rw [← hstat]
  refine ⟨rfl, decide_eq_true_iff, hlabel _ _ hholds.sport, hlabel _ _ hholds.dport, hlabel _ _ hholds.length⟩

end SndSIPBaseMergeDeDupTask

end Cpp

end Dni
