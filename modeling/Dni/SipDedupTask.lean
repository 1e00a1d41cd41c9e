import Dni.SipBaseMerge
import Dni.SipDedup

namespace Dni

open GoMap

structure NumberThreshLabels (F : Type) where
  keyLenThreshold : Int
  ratioMin : F
  ratioMax : F
  labels : List String

structure ProtoThreshLabels (F : Type) where
  ratioMin : F
  ratioMax : F
  labels : List String

structure SndSIPBaseMergeDedupOptions (F : Type) where
  numStats : NumberThreshLabels F
  protoStats : ProtoThreshLabels F

variable {F : Type} [FloatArith F]

/-- Number Statistics. The values are counts of packets in memory, whose float64 sum is exact. -/
def getNumStatisticScore (ord : Order UInt32 Int) (numFeatureMap : IPCount) (condthreshold : Int)
    (numTypeRatioMin numTypeRatioMax : F) : Nat :=
  let numKeyLen := numFeatureMap.keys.length
  let numKeys := ord.keys numFeatureMap
  let numValueSum : Int := (ord.run numFeatureMap).foldl (fun c e => c + e.2) 0
  let keyDiffSeriesTypeNum := diffTypeNum numKeys
  if (numKeyLen : Int) < condthreshold then 0
  else if keyDiffSeriesTypeNum ≤ FloatArith.toInt (FloatArith.mul (FloatArith.ofInt numValueSum) numTypeRatioMin) then 1
  else if FloatArith.toInt (FloatArith.mul (FloatArith.ofInt numValueSum) numTypeRatioMax) ≤ keyDiffSeriesTypeNum then 2
  else 3

/-- Proto Statistics. -/
def getProtoStatisticScore {T : Type} (ord : Order UInt32 Int) (protoFeatureMap : IPCount)
    (protoCountSum protoTypeRatioMin protoTypeRatioMax : F) (scores : List T) : Option (GoMap UInt32 T) :=
  (ord.run protoFeatureMap).foldlM (fun protoScoreMap e =>
    (if FloatArith.toInt (FloatArith.mul protoCountSum protoTypeRatioMax) ≤ e.2 then scores[0]?
      else if FloatArith.toInt (FloatArith.mul protoCountSum protoTypeRatioMin) ≤ e.2 then scores[1]?
      else scores[2]?).map fun score => protoScoreMap.insert e.1 score) ∅

/-- A source group with the labels that the task fills in. -/
structure LabelledStat where
  stat : SIPBaseMergedStat
  sport : String
  dport : String
  length : String
  proto : GoMap UInt32 String

/-- A port or length in a rule: the number, or the label that stands for it. -/
def ruleText (stat : String) (value : UInt32) : String :=
  if stat = "centralize" then Nat.repr value.toNat else stat

namespace LabelledStat

variable (mergedStat : LabelledStat) (pinfo : PacketInfo)

def fiveTupleKey : String :=
  mergedStat.stat.sip ++ "-" ++ uitoa (pinfo.field "DIP") ++ "-" ++
    ruleText mergedStat.sport (pinfo.field "SPort") ++ "-" ++
    ruleText mergedStat.dport (pinfo.field "DPort") ++ "-" ++ Nat.repr (pinfo.field "Proto").toNat ++ "-" ++
    ruleText mergedStat.length (pinfo.field "Length")

def fiveTuple : RuleStat where
  sip := mergedStat.stat.sip
  dip := uitoa (pinfo.field "DIP")
  sport := ruleText mergedStat.sport (pinfo.field "SPort")
  dport := ruleText mergedStat.dport (pinfo.field "DPort")
  proto := Nat.repr (pinfo.field "Proto").toNat
  hostNicSign := mergedStat.stat.hostNicSign
  length := ruleText mergedStat.length (pinfo.field "Length")

/-- The loop over the packets of a group; the indices are those of the table. -/
def dedup (pinfos : List PacketInfo) (fiveTupleMap : GoMap String RuleStat) : GoMap String RuleStat :=
  mergedStat.stat.ipIdxs.foldl (fun m ipIdx =>
    match pinfos[ipIdx]? with
    | some pinfo => m.insert (mergedStat.fiveTupleKey pinfo) (mergedStat.fiveTuple pinfo)
    | none => m) fiveTupleMap

end LabelledStat

/-- The orders in which one run ranges over its maps. -/
structure SipDedupOrders where
  groups : Order String SIPBaseMergedStat
  counts : Order UInt32 Int

namespace SndSIPBaseMergeDedupTask

variable (t : SndSIPBaseMergeDedupOptions F) (o : SipDedupOrders)

def numLabel (counts : IPCount) : Option String :=
  t.numStats.labels[getNumStatisticScore o.counts counts t.numStats.keyLenThreshold t.numStats.ratioMin
    t.numStats.ratioMax]?

/-- The labels of a group; a missing label is an index out of range. -/
def label (mergedStat : SIPBaseMergedStat) : Option LabelledStat := do
  let sport ← numLabel t o mergedStat.sport
  let dport ← numLabel t o mergedStat.dport
  let length ← numLabel t o mergedStat.length
  let protoCountSum : Int := (o.counts.run mergedStat.proto).foldl (fun c e => c + e.2) 0
  let proto ← getProtoStatisticScore o.counts mergedStat.proto (FloatArith.ofInt protoCountSum) t.protoStats.ratioMin
    t.protoStats.ratioMax t.protoStats.labels
  return ⟨mergedStat, sport, dport, length, proto⟩

/-- `Process`: the labelled groups and the five-tuple rules; `none` is a panic. -/
def process (hostNicSign : String) (pinfos : List PacketInfo) (attackIPMergeResult : AttackerIPMergeResult) :
    Option (GoMap String LabelledStat × GoMap String RuleStat) :=
  let mergedStats := sipBaseMerge hostNicSign attackIPMergeResult.attackerIPNets attackIPMergeResult.isRand
    attackIPMergeResult.randIPCountDF pinfos
  ((o.groups.run mergedStats).mapM fun e => (label t o e.2).map (e.1, ·)).map fun labelled =>
    (labelled.foldl (fun m e => m.insert e.1 e.2) ∅,
      labelled.foldl (fun m e => e.2.dedup pinfos m) ∅)

end SndSIPBaseMergeDedupTask

end Dni
