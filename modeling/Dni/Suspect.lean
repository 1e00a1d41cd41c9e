import Dni.Cidr
import Dni.FloatArith
import Dni.IPGroups
import Dni.IPNetSet

namespace Dni

open GoMap

/-- Uitoin convets a uint32 and a mask to net.IPNet. -/
def uitoin (ip mask : UInt32) : NetIPNet := ⟨uiton ip, uiton mask⟩

def uint24Max : UInt32 := 0xFFFFFF00

def uint16Max : UInt32 := 0xFFFF0000

def getMinMax (vals : List UInt32) : UInt32 × UInt32 :=
  vals.foldl (fun r val => (if val < r.1 then val else r.1, if r.2 < val then val else r.2)) (uint32Max, 0)

def ipRangeToCIDR (start stop : UInt32) : Option (List NetIPNet) :=
  Range.toIPNets ⟨uiton start, uiton stop⟩

/-- ip merge 1. -/
def ipSuspectFW4 (ord : Order UInt32 Int) (ipCountDF : IPCount) (ipNumThreshold : Int) :
    List NetIPNet × IPCount :=
  let ipFW4 := ((ord.run ipCountDF).filter fun e => ipNumThreshold ≤ e.2).map Prod.fst
  (ipFW4.map fun ip => uitoin ip uint32Max, eraseAll ipFW4 ipCountDF)

/-- The groups that ip merge 2 and 3 select: above the threshold, or above half of it where there
are many groups. -/
def suspectKeys (ord : Order UInt32 Int) (counts : IPCount) (ipNumThreshold : Int) : List UInt32 :=
  let bar := if ipNumThreshold ≤ counts.keys.length then ipNumThreshold.tdiv 2 else ipNumThreshold
  ((ord.run counts).filter fun e => bar < e.2).map Prod.fst

def fw3Nets (ipSegCoverThreshold : Int) (ipList : List UInt32) (ipfw3 : UInt32) :
    Option (List NetIPNet) :=
  let (ipMin, ipMax) := getMinMax ipList
  if 200 ≤ ipMax - ipMin then some [uitoin ipfw3 uint24Max]
  else if ipSegCoverThreshold ≤ ipList.length then some [uitoin ipfw3 uint24Max]
  else ipRangeToCIDR ipMin ipMax

/-- ip merge 2. -/
def ipSuspectFW3 (ord : Nat → Order UInt32 Int) (ipCountDF : IPCount)
    (ipNumThreshold ipSegCoverThreshold : Int) : Option (List NetIPNet × IPCount) :=
  let es := (ord 0).run ipCountDF
  let ipSusIPFw3DF := groupMembers 0xFFFFFF00 es
  let ips ipfw3 := (ipSusIPFw3DF.lookup ipfw3).getD []
  let ipFW3 := suspectKeys (ord 1) (groupCounts 64 0xFFFFFF00 es) ipNumThreshold
  (ipFW3.mapM fun ipfw3 => fw3Nets ipSegCoverThreshold (ips ipfw3) ipfw3).map fun nets =>
    (nets.flatten, eraseAll (ipFW3.flatMap ips) ipCountDF)

def fw2Nets (ipSegCoverThreshold : Int) (ipList ipp3List : List UInt32) (ipfw2 : UInt32) :
    Option (List NetIPNet) :=
  let (ipp3Min, ipp3Max) := getMinMax ipp3List
  if ipSegCoverThreshold ≤ ipList.length ∧ ipSegCoverThreshold ≤ ipp3List.length then
    some [uitoin ipfw2 uint16Max]
  else ipRangeToCIDR (ipp3Min + ipfw2) (ipp3Max + ipfw2)

/-- ip merge 3; the list of third octets is built along with the list of addresses. -/
def ipSuspectFW2 (ord : Nat → Order UInt32 Int) (ipCountDF : IPCount)
    (ipNumThreshold ipSegCoverThreshold : Int) : Option (List NetIPNet × IPCount) :=
  let es := (ord 0).run ipCountDF
  let ipSusIPFw2P3DF := groupValues 0xFFFF0000 (· &&& 0xFF00) es
  let ipSusIPFw2DF := groupMembers 0xFFFF0000 es
  let ips ipfw2 := (ipSusIPFw2DF.lookup ipfw2).getD []
  let ipp3s ipfw2 := (ipSusIPFw2P3DF.lookup ipfw2).getD []
  let ipFW2 := suspectKeys (ord 1) (groupCounts 64 0xFFFF0000 es) ipNumThreshold
  (ipFW2.mapM fun ipfw2 => fw2Nets ipSegCoverThreshold (ips ipfw2) (ipp3s ipfw2) ipfw2).map fun nets =>
    (nets.flatten, eraseAll (ipFW2.flatMap ips) ipCountDF)

/-- ip random: the addresses counted too often join the normal ones, which leave the histogram. -/
def ipSuspectRand (ord : Nat → Order UInt32 Int) (nord : Order UInt32 Unit)
    (normalIps : GoMap UInt32 Unit) (ipCountDF : IPCount)
    (ipRandCountThreshold ipRandNumThreshold : Int) : Bool × IPCount :=
  let frequent := (((ord 0).run ipCountDF).filter fun e => ipRandCountThreshold < e.2).map Prod.fst
  let normalIps := frequent.foldl (fun m ip => m.insert ip ()) normalIps
  let ipCountDF := eraseAll (nord.keys normalIps) ipCountDF
  let ipUnknownRandCountSum := sumInts 64 (((ord 1).run ipCountDF).map Prod.snd)
  (ipRandNumThreshold ≤ ipUnknownRandCountSum, ipCountDF)

structure SndAttackerIPMergeOptions (F : Type) where
  ipFw4CountRatio : F
  ipFw3CountRatio : F
  ipFw2CountRatio : F
  ipRandCountRatio : F
  ipSegCoverThreshold : Int
  ipRandCountThreshold : Int

structure AttackerIPMergeResult where
  attackerIPNets : List NetIPNet
  isRand : Bool
  randIPCountDF : IPCount

/-- What each of the three steps returns, and the histogram it leaves. -/
structure SuspectSteps where
  nets32 : List NetIPNet
  df1 : IPCount
  nets24 : List NetIPNet
  df2 : IPCount
  nets16 : List NetIPNet
  df3 : IPCount

namespace SndAttackerIPMergeTask

variable {F : Type} [FloatArith F] (t : SndAttackerIPMergeOptions F) (ord : Nat → Order UInt32 Int)

/-- The sum of the counts, in the order in which the map is read. -/
def ipCountSum (o : Order UInt32 Int) (ipCountDF : IPCount) : F :=
  (o.run ipCountDF).foldl (fun c e => FloatArith.add c (FloatArith.ofInt e.2)) (FloatArith.ofInt 0)

/-- The share of the sum that a ratio stands for, without its fraction. -/
def numThreshold (ipCountSum ratio : F) : Int := FloatArith.toInt (FloatArith.mul ipCountSum ratio)

/-- The three steps as `Process` chains them. -/
def steps (ipCountDF : IPCount) : Option SuspectSteps :=
  let ipCountSum : F := ipCountSum (ord 0) ipCountDF
  let (nets32, df1) := ipSuspectFW4 (ord 1) ipCountDF (numThreshold ipCountSum t.ipFw4CountRatio)
  (ipSuspectFW3 (fun i => ord (2 + i)) df1 (numThreshold ipCountSum t.ipFw3CountRatio)
    t.ipSegCoverThreshold).bind fun (nets24, df2) =>
      (ipSuspectFW2 (fun i => ord (4 + i)) df2 (numThreshold ipCountSum t.ipFw2CountRatio)
        t.ipSegCoverThreshold).map fun (nets16, df3) => ⟨nets32, df1, nets24, df2, nets16, df3⟩

def process (nord : Order UInt32 Unit) (ipCountDF : IPCount) (normalIps : GoMap UInt32 Unit) :
    Option AttackerIPMergeResult :=
  (steps t ord ipCountDF).map fun r =>
    let (isRand, ipCountDF) := ipSuspectRand (fun i => ord (6 + i)) nord normalIps r.df3
      t.ipRandCountThreshold (numThreshold (ipCountSum (ord 0) ipCountDF) t.ipRandCountRatio)
    ⟨r.nets32 ++ r.nets24 ++ r.nets16, isRand, if isRand then ∅ else ipCountDF⟩

end SndAttackerIPMergeTask

end Dni
