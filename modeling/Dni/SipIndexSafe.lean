import Dni.SipBaseMerge
import Dni.SipDedupStats
import Dni.SipDedupRandom

namespace Dni

/-- The fields that the C++ task reads of a packet; a missing one is zero. -/
def PacketInfo.row (info : PacketInfo) : Cpp.Packet where
  sip := info.field "SIP"
  sport := info.field "SPort"
  dport := info.field "DPort"
  protocol := info.field "Protocol"
  length := info.field "Length"
  dip := info.field "DIP"

namespace Cpp

open GoMap Loops
open FloatArith (tenths)

/-- The opened task. -/
structure SndSIPBaseMergeTask (F : Type) where
  numRatioMin : F
  numRatioMax : F
  numLabel : List String
  protoRatioMin : F
  protoRatioMax : F
  protoLabel : List String
  numLabel_size : numLabel.length = 4
  protoLabel_size : protoLabel.length = 3

/-- `Open`; another number of labels is its error return. -/
def SndSIPBaseMergeTaskOptions.openMerge {F : Type} (o : SndSIPBaseMergeTaskOptions F) :
    Option (SndSIPBaseMergeTask F) :=
  if hn : o.numLabel.length = 4 then
    if hp : o.protoLabel.length = 3 then
      some ⟨o.numRatioMin, o.numRatioMax, o.numLabel, o.protoRatioMin, o.protoRatioMax, o.protoLabel, hn, hp⟩
    else none
  else none

/-- `size() - 1` of a size_t; `none` is the wrap below zero. -/
def sizeMinusOne (size : Nat) : Option Nat := if size = 0 then none else some (size - 1)

namespace SndSIPBaseMergeTask

/-- The loop over the networks, from the index that is left; it ends at the first that the packet belongs to. -/
def mergeSource (attackerIPs : List CIDR) (cidrStringVec : List String)
    (allMergeRet : GoMap String SIPBaseMergeResult) (packet : Packet) :
    List Nat → Option (GoMap String SIPBaseMergeResult)
  | [] => some allMergeRet
  | i :: is => do
    let cidr ← attackerIPs[i]?
    if belongs cidr packet.sip then
      let key ← cidrStringVec[i]?
      return allMergeRet.insert key (((allMergeRet.lookup key).getD {}).add packet)
    else mergeSource attackerIPs cidrStringVec allMergeRet packet is

def mergePacket (attackerIPs : List CIDR) (st : GoMap String SIPBaseMergeResult × GoMap UInt32 (List Nat))
    (pk : Packet × Nat) : Option (GoMap String SIPBaseMergeResult × GoMap UInt32 (List Nat)) := do
  let allMergeRet ← mergeSource attackerIPs (attackerIPs.map cidrString) st.1 pk.1 (List.range attackerIPs.length)
  return (allMergeRet, pushBack st.2 pk.1.sip pk.2)

def mergeAt (packets : List Packet) (randomMerge : SIPBaseMergeResult) (index : Nat) : Option SIPBaseMergeResult :=
  packets[index]?.map randomMerge.add

/-- Step 2, random merge. -/
def mergeRandom (packets : List Packet) (ipPositions : GoMap UInt32 (List Nat)) (randomIPs : List UInt32)
    (randomMerge : SIPBaseMergeResult) : Option SIPBaseMergeResult :=
  randomIPs.foldlM (fun ret randomIp => ((ipPositions.lookup randomIp).getD []).foldlM (mergeAt packets) ret)
    randomMerge

variable {F : Type} [FloatArith F] [LE F] [DecidableLE F] [LT F] [DecidableLT F] (t : SndSIPBaseMergeTask F)

/-- One round of the loop over the sorted keys. -/
def addDiff (keys : List UInt32) (keyDiffs : UIntSet) (i : Nat) : Option UIntSet := do
  let next ← keys[i + 1]?
  let key ← keys[i]?
  return keyDiffs.insert (next - key) ()

def calcNumberStatType (uset : UIntSet) (numValueSum : Int) : Option String := do
  let numKeyLen := uset.keys.length
  let keys := uset.keys.insertionSort (· ≤ ·)
  let last ← sizeMinusOne keys.length
  let keyDiffs ← (List.range last).foldlM (addDiff keys) ∅
  let keySeriesDiffTypeNum := keyDiffs.keys.length
  let min := FloatArith.mul (FloatArith.ofInt numValueSum) t.numRatioMin
  let max := FloatArith.mul (FloatArith.ofInt numValueSum) t.numRatioMax
  if FloatArith.ofInt numKeyLen < min then t.numLabel[0]?
  else if FloatArith.ofInt keySeriesDiffTypeNum ≤ min then t.numLabel[1]?
  else if max ≤ FloatArith.ofInt keySeriesDiffTypeNum then t.numLabel[2]?
  else t.numLabel[3]?

def calcProtoStatType (ord : Order UInt32 Int) (protoMap : GoMap UInt32 Int) (numValueSum : Int) :
    Option (GoMap UInt32 String) :=
  (ord.run protoMap).foldlM (fun stats proto => do
    let statType ← t.protoLabel[2]?
    let statType ←
      if FloatArith.mul (FloatArith.ofInt numValueSum) t.protoRatioMax ≤ FloatArith.ofInt proto.2 then t.protoLabel[0]?
      else if FloatArith.mul (FloatArith.ofInt numValueSum) t.protoRatioMin ≤ FloatArith.ofInt proto.2 then t.protoLabel[1]?
      else some statType
    return stats.insert proto.1 statType) ∅

/-- The values are kept where the type is the first label. -/
def numberStats (uset : UIntSet) (numValueSum : Int) : Option SIPBaseMergeNumberStats := do
  let statType ← t.calcNumberStatType uset numValueSum
  let first ← t.numLabel[0]?
  return { statType := statType, value := if statType = first then uset else ∅ }

def mergeStats (ord : Order UInt32 Int) (hostNicName : String) (convertMap : GoMap String CIDR) (first : String)
    (ret : SIPBaseMergeResult) : Option SIPBaseMergeStats := do
  let srcPort ← t.numberStats ret.sport ret.packetTotal
  let dstPort ← t.numberStats ret.dport ret.packetTotal
  let length ← t.numberStats ret.length ret.packetTotal
  let protocol ← t.calcProtoStatType ord ret.protocol ret.packetTotal
  return {
    hostNicSign := hostNicName
    isSrcIPRandom := first = "RANDOM"
    srcIP := if first = "RANDOM" then ⟨0, 32⟩ else (convertMap.lookup first).getD ⟨0, 32⟩
    dstIP := { value := ret.dstIP }
    srcPort := srcPort
    dstPort := dstPort
    length := length
    protocol := protocol }

/-- Steps 1 and 2: the merged results of all groups. -/
def merge (o : DedupOrders) (packets : List Packet) (attackerIpMerge : AttackerIPMergeResult) :
    Option (GoMap String SIPBaseMergeResult) := do
  let (allMergeRet, ipPositions) ← packets.zipIdx.foldlM (mergePacket attackerIpMerge.attackerIPs) (∅, ∅)
  if attackerIpMerge.containRandomAttack then
    let randomMerge ← mergeRandom packets ipPositions (o.randomIPs attackerIpMerge.randomIPs)
      ((allMergeRet.lookup "RANDOM").getD {})
    return allMergeRet.insert "RANDOM" randomMerge
  else return allMergeRet

def process (o : DedupOrders) (packets : List PacketInfo) (attackerIpMerge : AttackerIPMergeResult)
    (hostNicName : String) : Option (GoMap String SIPBaseMergeStats) := do
  let allMergeRet ← merge o (packets.map PacketInfo.row) attackerIpMerge
  let convertMap := attackerIpMerge.attackerIPs.foldl (fun m ip => m.insert (cidrString ip) ip) ∅
  (o.merged.run allMergeRet).foldlM (fun allStat mergeRet => do
    let stat ← t.mergeStats o.protocols hostNicName convertMap mergeRet.1 mergeRet.2
    return allStat.insert mergeRet.1 stat) ∅

section Merge

/-- The indices of the networks and of their texts go together. -/
theorem mergeSource_eq (front attackerIPs : List CIDR) (allMergeRet : GoMap String SIPBaseMergeResult)
    (packet : Packet) : mergeSource (front ++ attackerIPs) ((front ++ attackerIPs).map cidrString) allMergeRet packet
      (List.range' front.length attackerIPs.length) =
    some (match attackerIPs.find? fun cidr => belongs cidr packet.sip with
      | some cidr => allMergeRet.insert (cidrString cidr)
          (((allMergeRet.lookup (cidrString cidr)).getD {}).add packet)
      | none => allMergeRet) := by
  induction attackerIPs generalizing front with
  | nil => rfl
  | cons cidr attackerIPs ih =>
    have hget : (front ++ cidr :: attackerIPs)[front.length]? = some cidr := by simp
    have hrest := ih (front ++ [cidr])
    rw [List.append_assoc, List.singleton_append, List.length_append, List.length_singleton] at hrest
    have htext : ((front ++ cidr :: attackerIPs).map cidrString)[front.length]? = some (cidrString cidr) := by
      rw [List.getElem?_map, hget, Option.map_some]
    rw [List.length_cons, List.range'_succ, mergeSource, hget, htext, List.find?_cons, Option.bind_eq_bind,
      Option.bind_some]
    cases hb : belongs cidr packet.sip with
    | true =>
      rw [if_pos rfl]
      rfl
    | false =>
      rw [if_neg Bool.false_ne_true]
      exact hrest

/-- The checked loop fills what the loop of the other task fills. -/
theorem foldlM_mergePacket (attackerIPs : List CIDR) (ps : List (Packet × Nat)) (st : MergeState) :
    ps.foldlM (mergePacket attackerIPs) (st.allMergeRet, st.ipPositions) =
      some ((ps.foldl (SndSIPBaseMergeDeDupTask.mergePacket attackerIPs) st).allMergeRet,
        (ps.foldl (SndSIPBaseMergeDeDupTask.mergePacket attackerIPs) st).ipPositions) := by
  induction ps generalizing st with
  | nil => rfl
  | cons pk ps ih =>
    have hsource := mergeSource_eq [] attackerIPs st.allMergeRet pk.1
    have hstep : mergePacket attackerIPs (st.allMergeRet, st.ipPositions) pk =
        some ((SndSIPBaseMergeDeDupTask.mergePacket attackerIPs st pk).allMergeRet,
          (SndSIPBaseMergeDeDupTask.mergePacket attackerIPs st pk).ipPositions) := by
      rw [List.nil_append, List.length_nil, ← List.range_eq_range'] at hsource
      rw [mergePacket, hsource, Option.bind_eq_bind, Option.bind_some, SndSIPBaseMergeDeDupTask.mergePacket]
      cases attackerIPs.find? fun cidr => belongs cidr pk.1.sip <;> rfl
    rw [List.foldlM_cons, hstep, List.foldl_cons]
    exact ih _

variable (o : DedupOrders) (packets : List Packet) (r : AttackerIPMergeResult)

/-- No index of the two merge steps is outside of its vector. -/
theorem merge_eq : merge o packets r = some (SndSIPBaseMergeDeDupTask.allMergeRet o packets r) := by
  have hpositions : ∀ ip, ∀ i ∈ ((SndSIPBaseMergeDeDupTask.mergePackets r.attackerIPs packets).ipPositions.lookup
      ip).getD [], i < packets.length := by
    intro ip i hi
    rw [SndSIPBaseMergeDeDupTask.mergePackets, SndSIPBaseMergeDeDupTask.foldl_mergePacket] at hi
    obtain ⟨p, hp, _⟩ := SndSIPBaseMergeDeDupTask.mem_positions.mp hi
    exact (List.getElem?_eq_some_iff.mp hp).1
  have hrandom : ∀ ret, mergeRandom packets (SndSIPBaseMergeDeDupTask.mergePackets r.attackerIPs packets).ipPositions
      (o.randomIPs r.randomIPs) ret = some (SndSIPBaseMergeDeDupTask.mergeRandom packets
        (SndSIPBaseMergeDeDupTask.mergePackets r.attackerIPs packets).ipPositions (o.randomIPs r.randomIPs) ret) := by
    intro ret
    apply foldlM_eq_some
    intro ip _ ret
    apply foldlM_eq_some
    intro i hi ret
    rw [mergeAt, SndSIPBaseMergeDeDupTask.mergeAt, List.getElem?_eq_getElem (hpositions ip i hi), Option.map_some]
  have hloop := foldlM_mergePacket r.attackerIPs packets.zipIdx {}
  unfold merge
  rw [hloop, Option.bind_eq_bind, Option.bind_some, SndSIPBaseMergeDeDupTask.allMergeRet]
  dsimp only
  split
  next =>
    have hret := hrandom (((SndSIPBaseMergeDeDupTask.mergePackets r.attackerIPs packets).allMergeRet.lookup
      "RANDOM").getD {})
    rw [SndSIPBaseMergeDeDupTask.mergePackets] at hret
    rw [hret]
    rfl
  next => rfl

end Merge

section Stats

variable {F : Type} [FloatArith F] [LE F] [DecidableLE F] [LT F] [DecidableLT F] (t : SndSIPBaseMergeTask F)

theorem exists_getElem? {α : Type} {xs : List α} {i : Nat} (h : i < xs.length) : ∃ x, xs[i]? = some x :=
  ⟨_, List.getElem?_eq_getElem h⟩

/-- The loop over the sorted keys stays inside of them as long as its bound does not wrap. -/
theorem exists_calcNumberStatType_iff (uset : UIntSet) (numValueSum : Int) :
    (∃ s, t.calcNumberStatType uset numValueSum = some s) ↔ uset.keys ≠ [] := by
  have hlen : (uset.keys.insertionSort (· ≤ ·)).length = uset.keys.length := List.length_insertionSort _ _
  unfold calcNumberStatType
  dsimp only
  rw [hlen, sizeMinusOne]
  by_cases hnil : uset.keys.length = 0
  · rw [if_pos hnil]
    exact iff_of_false (fun ⟨s, h⟩ => by cases h) fun h => h (List.length_eq_zero_iff.mp hnil)
  · rw [if_neg hnil]
    apply iff_of_true _ fun h => hnil (by rw [h, List.length_nil])
    have hstep : ∀ i ∈ List.range (uset.keys.length - 1), ∀ keyDiffs : UIntSet,
        (∃ keyDiffs', addDiff (uset.keys.insertionSort (· ≤ ·)) keyDiffs i = some keyDiffs') ↔ True := by
      intro i hi keyDiffs
      have hlast := List.mem_range.mp hi
      have hnext : i + 1 < (uset.keys.insertionSort (· ≤ ·)).length := by omega
      obtain ⟨next, hnext⟩ := exists_getElem? hnext
      have hkey : i < (uset.keys.insertionSort (· ≤ ·)).length := by omega
      obtain ⟨key, hkey⟩ := exists_getElem? hkey
      apply iff_true_intro
      rw [addDiff, hnext, hkey]
      exact ⟨_, rfl⟩
    obtain ⟨keyDiffs, hdiffs⟩ := (exists_foldlM_iff hstep ∅).mpr fun _ _ => trivial
    have hsize := t.numLabel_size
    simp only [Option.bind_eq_bind, Option.bind_some, hdiffs]
    split
    next => exact exists_getElem? (by omega)
    next =>
      split
      next => exact exists_getElem? (by omega)
      next =>
        split
        next => exact exists_getElem? (by omega)
        next => exact exists_getElem? (by omega)

omit [LT F] [DecidableLT F] in
theorem exists_calcProtoStatType (ord : Order UInt32 Int) (protoMap : GoMap UInt32 Int) (numValueSum : Int) :
    ∃ stats, t.calcProtoStatType ord protoMap numValueSum = some stats := by
  have hsize := t.protoLabel_size
  have hround : ∀ e ∈ ord.run protoMap, ∀ stats : GoMap UInt32 String,
      (∃ stats', (do
        let statType ← t.protoLabel[2]?
        let statType ←
          if FloatArith.mul (FloatArith.ofInt numValueSum) t.protoRatioMax ≤ FloatArith.ofInt e.2 then t.protoLabel[0]?
          else if FloatArith.mul (FloatArith.ofInt numValueSum) t.protoRatioMin ≤ FloatArith.ofInt e.2 then t.protoLabel[1]?
          else some statType
        return stats.insert e.1 statType : Option (GoMap UInt32 String)) = some stats') ↔ True := by
    intro e _ stats
    apply iff_true_intro
    rw [List.getElem?_eq_getElem (i := 2) (by omega), List.getElem?_eq_getElem (i := 1) (by omega),
      List.getElem?_eq_getElem (i := 0) (by omega)]
    split
    next => exact ⟨_, rfl⟩
    next => split <;> exact ⟨_, rfl⟩
  exact (exists_foldlM_iff hround ∅).mpr fun _ _ => trivial

theorem exists_numberStats_iff (uset : UIntSet) (numValueSum : Int) :
    (∃ s, t.numberStats uset numValueSum = some s) ↔ uset.keys ≠ [] := by
  have hsize := t.numLabel_size
  rw [← t.exists_calcNumberStatType_iff uset numValueSum, numberStats, List.getElem?_eq_getElem (by omega)]
  cases t.calcNumberStatType uset numValueSum with
  | none => exact iff_of_false (fun ⟨_, h⟩ => by cases h) fun ⟨_, h⟩ => by cases h
  | some statType => exact iff_of_true ⟨_, rfl⟩ ⟨_, rfl⟩

/-- The statistics of a group are computed safely exactly if it has a packet. -/
theorem exists_mergeStats_iff (ord : Order UInt32 Int) (hostNicName : String) (convertMap : GoMap String CIDR)
    (first : String) {ret : SIPBaseMergeResult} {ps : List Packet} (h : ret.Holds ps) :
    (∃ stat, t.mergeStats ord hostNicName convertMap first ret = some stat) ↔ ps ≠ [] := by
  have hkeys : ∀ {uset : UIntSet} {f : Packet → UInt32}, (∀ x, x ∈ uset ↔ x ∈ ps.map f) → (uset.keys ≠ [] ↔ ps ≠ []) := by
    intro uset f hx
    have hlen := (keys_perm_dedup hx).length_eq
    rw [ne_eq, ← List.length_eq_zero_iff, hlen, List.length_eq_zero_iff, List.dedup_eq_nil, List.map_eq_nil_iff]
  have hsport := (t.exists_numberStats_iff ret.sport ret.packetTotal).trans (hkeys h.sport)
  have hdport := (t.exists_numberStats_iff ret.dport ret.packetTotal).trans (hkeys h.dport)
  have hlength := (t.exists_numberStats_iff ret.length ret.packetTotal).trans (hkeys h.length)
  apply Iff.intro
  · intro ⟨stat, hstat⟩
    obtain ⟨srcPort, hsrc, _⟩ := Option.bind_eq_some_iff.mp hstat
    exact hsport.mp ⟨srcPort, hsrc⟩
  · intro hne
    obtain ⟨srcPort, hsrc⟩ := hsport.mpr hne
    obtain ⟨dstPort, hdst⟩ := hdport.mpr hne
    obtain ⟨length, hlen⟩ := hlength.mpr hne
    obtain ⟨protocol, hproto⟩ := t.exists_calcProtoStatType ord ret.protocol ret.packetTotal
    rw [mergeStats, hsrc, hdst, hlen, hproto]
    exact ⟨_, rfl⟩

variable (o : DedupOrders) (packets : List PacketInfo) (r : AttackerIPMergeResult) (hostNicName : String)

/-- Every index of a run is in bounds exactly if a random attack comes with a packet of a random address. -/
theorem process_safe_iff : (∃ allStat, t.process o packets r hostNicName = some allStat) ↔
    (r.containRandomAttack = true → ∃ info ∈ packets, info.field "SIP" ∈ r.randomIPs) := by
  have hround : ∀ e ∈ o.merged.run (SndSIPBaseMergeDeDupTask.allMergeRet o (packets.map PacketInfo.row) r),
      ∀ allStat : GoMap String SIPBaseMergeStats, (∃ allStat', (do
        let stat ← t.mergeStats o.protocols hostNicName
          (r.attackerIPs.foldl (fun m ip => m.insert (cidrString ip) ip) ∅) e.1 e.2
        return allStat.insert e.1 stat : Option (GoMap String SIPBaseMergeStats)) = some allStat') ↔
      SndSIPBaseMergeDeDupTask.population (packets.map PacketInfo.row) r e.1 ≠ [] := by
    intro ⟨key, ret⟩ he allStat
    have hholds := SndSIPBaseMergeDeDupTask.lookup_allMergeRet o (packets.map PacketInfo.row) r
      ((o.merged.mem_run).mp he)
    rw [← t.exists_mergeStats_iff o.protocols hostNicName _ key hholds]
    dsimp only
    cases t.mergeStats o.protocols hostNicName
        (r.attackerIPs.foldl (fun m ip => m.insert (cidrString ip) ip) ∅) key ret with
    | none => exact iff_of_false (fun ⟨_, h⟩ => by cases h) fun ⟨_, h⟩ => by cases h
    | some stat => exact iff_of_true ⟨_, rfl⟩ ⟨stat, rfl⟩
  have hprocess : t.process o packets r hostNicName =
      (o.merged.run (SndSIPBaseMergeDeDupTask.allMergeRet o (packets.map PacketInfo.row) r)).foldlM (fun allStat e => do
        let stat ← t.mergeStats o.protocols hostNicName
          (r.attackerIPs.foldl (fun m ip => m.insert (cidrString ip) ip) ∅) e.1 e.2
        return allStat.insert e.1 stat) ∅ := by
    rw [process, merge_eq]
    rfl
  rw [hprocess, exists_foldlM_iff hround]
  apply Iff.intro
  · intro hall hflag
    have hin := (SndSIPBaseMergeDeDupTask.mem_allMergeRet o (packets.map PacketInfo.row) r).mpr (Or.inr ⟨hflag, rfl⟩)
    obtain ⟨ret, hret⟩ := mem_iff_lookup.mp hin
    obtain ⟨p, hp⟩ := List.exists_mem_of_ne_nil _ (hall ("RANDOM", ret) ((o.merged.mem_run).mpr hret))
    rw [SndSIPBaseMergeDeDupTask.population, if_pos rfl, List.mem_filter, decide_eq_true_eq] at hp
    obtain ⟨info, hinfo, hrow⟩ := List.mem_map.mp hp.1
    exact ⟨info, hinfo, by rw [← hrow] at hp; exact hp.2⟩
  · intro hrandom ⟨key, ret⟩ he
    have hin := mem_iff_lookup.mpr ⟨ret, (o.merged.mem_run).mp he⟩
    obtain ⟨p, hp, hcov, hkey⟩ | ⟨hflag, hkey⟩ :=
      (SndSIPBaseMergeDeDupTask.mem_allMergeRet o (packets.map PacketInfo.row) r).mp hin
    · have hne : key ≠ "RANDOM" := fun h => groupKey_eq_random_iff.mp (hkey.trans h) hcov
      apply List.ne_nil_of_mem (a := p)
      rw [SndSIPBaseMergeDeDupTask.population, if_neg hne, List.mem_filter, decide_eq_true_eq]
      exact ⟨hp, hkey⟩
    · obtain ⟨info, hinfo, hip⟩ := hrandom hflag
      apply List.ne_nil_of_mem (a := info.row)
      rw [SndSIPBaseMergeDeDupTask.population, if_pos hkey, List.mem_filter, decide_eq_true_eq]
      exact ⟨List.mem_map.mpr ⟨info, hinfo, rfl⟩, hip⟩

end Stats

/-- The options of the example configurations. -/
def usual (F : Type) [FloatArith F] : SndSIPBaseMergeTask F :=
  ⟨tenths 1, tenths 6, ["centralize", "regular", "random", "void"], tenths 1, tenths 6, ["flood", "rapid", "void"], rfl, rfl⟩

/-- A random attack without a packet of its addresses leaves the random group empty. -/
theorem empty_random_wraps : ¬ ∃ allStat,
    (usual Float).process DedupOrders.stored [] ⟨[], true, [0x01010101]⟩ "eth0" = some allStat := by
  intro ⟨allStat, h⟩
  have hnone : (usual Float).process DedupOrders.stored [] ⟨[], true, [0x01010101]⟩ "eth0" = none := by rfl
  rw [hnone] at h
  cases h

end SndSIPBaseMergeTask

end Cpp

end Dni
