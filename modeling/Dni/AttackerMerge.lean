import Dni.SplitRange
import Dni.FloatArith
import Dni.IPGroups
import Mathlib.Data.List.Sort

namespace Dni.Cpp

open GoMap

/-- The optional fields of the task's options message. -/
structure SndAttackerIPMergeTaskOptions (F : Type) where
  ipFw4CountRatio : Option F
  ipFw3CountRatio : Option F
  ipSegCoverThreshold : Option F
  ipFw2CountRatio : Option F
  ipRandCountThreshold : Option Int
  ipRandCountRatio : Option F

structure SndAttackerIPMergeTask (F : Type) [FloatArith F] where
  ipFw4CountRatio : F := FloatArith.tenths 1
  ipFw3CountRatio : F := FloatArith.tenths 2
  ipSegCoverThreshold : F := FloatArith.ofInt 100
  ipFw2CountRatio : F := FloatArith.tenths 4
  ipRandCountThreshold : Int := 2
  ipRandCountRatio : F := FloatArith.tenths 5

/-- `Open`: an option that is not set keeps its default. -/
def SndAttackerIPMergeTaskOptions.open {F : Type} [FloatArith F] (o : SndAttackerIPMergeTaskOptions F) :
    SndAttackerIPMergeTask F :=
  let t : SndAttackerIPMergeTask F := {}
  { ipFw4CountRatio := o.ipFw4CountRatio.getD t.ipFw4CountRatio
    ipFw3CountRatio := o.ipFw3CountRatio.getD t.ipFw3CountRatio
    ipSegCoverThreshold := o.ipSegCoverThreshold.getD t.ipSegCoverThreshold
    ipFw2CountRatio := o.ipFw2CountRatio.getD t.ipFw2CountRatio
    ipRandCountThreshold := o.ipRandCountThreshold.getD t.ipRandCountThreshold
    ipRandCountRatio := o.ipRandCountRatio.getD t.ipRandCountRatio }

structure AttackerIPMergeResult where
  attackerIPs : List CIDR
  containRandomAttack : Bool := false
  randomIPs : List UInt32 := []
deriving DecidableEq

def belongs24 (cidr24 ip : UInt32) : Bool := (cidr24 ^^^ ip) >>> 8 = 0

def belongs16 (cidr16 ip : UInt32) : Bool := (cidr16 ^^^ ip) >>> 16 = 0

def minElement : List UInt8 → Option UInt8
  | [] => none
  | x :: xs => some (xs.foldl (fun m y => if y < m then y else m) x)

def maxElement : List UInt8 → Option UInt8
  | [] => none
  | x :: xs => some (xs.foldl (fun m y => if m < y then y else m) x)

/-- An `int` on one side of a comparison with a `size_t` is converted to it. -/
def toSizeT (n : Int) : Int := if n < 0 then n + 2 ^ 64 else n

/-- The keys whose count reaches the full threshold, or the half one where there are many keys. -/
def selectKeys (ord : Order UInt32 Int) (counts : IPCount) (full half : Int) : List UInt32 :=
  let bar := if toSizeT full ≤ counts.keys.length then half else full
  ((ord.run counts).filter fun e => bar ≤ e.2).map Prod.fst

def eraseMembers (origInputIPs : GoMap UInt32 (List UInt32)) (sel : List UInt32) (ipCountDF : IPCount) :
    IPCount :=
  eraseAll (sel.flatMap fun g => (origInputIPs.lookup g).getD []) ipCountDF

namespace SndAttackerIPMergeTask

variable {F : Type} [FloatArith F] (t : SndAttackerIPMergeTask F) (ord : Nat → Order UInt32 Int)
  (ipCountSum : Int)

/-- The share of the sum that a ratio stands for, and half of it, without their fractions. -/
def fullShare (ratio : F) : Int := FloatArith.toInt (FloatArith.mul (FloatArith.ofInt ipCountSum) ratio)

def halfShare (ratio : F) : Int :=
  FloatArith.toInt (FloatArith.div (FloatArith.mul (FloatArith.ofInt ipCountSum) ratio) (FloatArith.ofInt 2))

/-- Program1, ip_suspect_fw4, process mask=32. -/
def program1 (ipCountDF : IPCount) : List CIDR × IPCount :=
  let bar := fullShare ipCountSum t.ipFw4CountRatio
  let ipFw4 := (((ord 1).run ipCountDF).filter fun e => bar ≤ e.2).map Prod.fst
  (ipFw4.map fun ip => ⟨ip, 32⟩, eraseAll ipFw4 ipCountDF)

section Cidrs

variable [LE F] [DecidableLE F]

/-- The networks program2 writes for one selected /24; the octets are held in bytes. -/
def fw3Cidrs (es : List (UInt32 × Int)) (ipSusFw3IP : UInt32) : List CIDR :=
  let ipFw3P4List := (es.filter fun e => belongs24 ipSusFw3IP e.1).map fun e => (e.1 &&& 0xFF).toUInt8
  match minElement ipFw3P4List, maxElement ipFw3P4List with
  | some ipSusFw3Min, some ipSusFw3Max =>
    let ipFw3Range : Int := ipSusFw3Max.toNat - ipSusFw3Min.toNat
    if 200 ≤ ipFw3Range then [⟨ipSusFw3IP, 24⟩]
    else if t.ipSegCoverThreshold ≤ FloatArith.ofInt ipFw3P4List.length then [⟨ipSusFw3IP, 24⟩]
    else
      iprangeToCidrs ⟨ipSusFw3IP + ipSusFw3Min.toUInt32, 32⟩ ⟨ipSusFw3IP + ipSusFw3Max.toUInt32, 32⟩
  | _, _ => []

/-- Program2, ip_suspect_fw3, process 24<=mask<32. -/
def program2 (ipCountDF : IPCount) : List CIDR × IPCount :=
  let es := (ord 2).run ipCountDF
  let ipSusFw3IPs := selectKeys (ord 3) (groupCounts 32 0xFFFFFF00 es)
    (fullShare ipCountSum t.ipFw3CountRatio) (halfShare ipCountSum t.ipFw3CountRatio)
  (ipSusFw3IPs.flatMap (t.fw3Cidrs ((ord 4).run ipCountDF)),
    eraseMembers (groupMembers 0xFFFFFF00 es) ipSusFw3IPs ipCountDF)

/-- The networks program3 writes for one selected /16; the third octet is cut to a byte before it is
shifted down. -/
def fw2Cidrs (es : List (UInt32 × Int)) (ipSusFw2IP : UInt32) : List CIDR :=
  let ips := es.filter fun e => belongs16 ipSusFw2IP e.1
  let ipFw2P3List := ips.map fun e => (e.1 &&& 0xFF00).toUInt8
  let ipFw2P4List := ips.map fun e => (e.1 &&& 0xFF).toUInt8
  match minElement ipFw2P3List, maxElement ipFw2P3List with
  | some minPos, some maxPos =>
    if t.ipSegCoverThreshold ≤ FloatArith.ofInt ipFw2P3List.length ∧
        t.ipSegCoverThreshold ≤ FloatArith.ofInt ipFw2P4List.length then
      [⟨ipSusFw2IP, 16⟩]
    else
      iprangeToCidrs ⟨ipSusFw2IP + minPos.toUInt32 <<< 8, 24⟩ ⟨ipSusFw2IP + maxPos.toUInt32 <<< 8, 24⟩
  | _, _ => []

/-- Program3, ip_suspect_fw2, process 16<=mask<24. -/
def program3 (ipCountDF : IPCount) : List CIDR × IPCount :=
  let es := (ord 5).run ipCountDF
  let ipSusFw2IPs := selectKeys (ord 6) (groupCounts 32 0xFFFF0000 es)
    (fullShare ipCountSum t.ipFw2CountRatio) (halfShare ipCountSum t.ipFw2CountRatio)
  (ipSusFw2IPs.flatMap (t.fw2Cidrs ((ord 7).run ipCountDF)),
    eraseMembers (groupMembers 0xFFFF0000 es) ipSusFw2IPs ipCountDF)

end Cidrs

end SndAttackerIPMergeTask

/-- `std::set_difference`: of the second list, what is below the next element is passed over. -/
def setDifference : List UInt32 → List UInt32 → List UInt32
  | [], _ => []
  | x :: xs, ys =>
    match ys.dropWhile (· < x) with
    | [] => x :: setDifference xs []
    | y :: ys => if x < y then x :: setDifference xs (y :: ys) else setDifference xs ys

namespace SndAttackerIPMergeTask

variable {F : Type} [FloatArith F] [LE F] [DecidableLE F] (t : SndAttackerIPMergeTask F)
  (ord : Nat → Order UInt32 Int)

/-- Program4, ip_suspect_rand; the known addresses are taken in the order they came. -/
def program4 (ipCountSum : Int) (ipCountDF : IPCount) (allKnownIps : List UInt32)
    (attackerIPs : List CIDR) : AttackerIPMergeResult :=
  let allDF3Ips := (((ord 8).run ipCountDF).map Prod.fst).insertionSort (· ≤ ·)
  let allUnknownIps := setDifference allDF3Ips allKnownIps
  let count ip := (ipCountDF.lookup ip).getD 0
  let randomIPs := allUnknownIps.filter fun ip => count ip ≤ t.ipRandCountThreshold
  let ipUnknownRandCountSum := sumInts 32 (randomIPs.map count)
  if FloatArith.mul (FloatArith.ofInt ipCountSum) t.ipRandCountRatio ≤ FloatArith.ofInt ipUnknownRandCountSum then
    ⟨attackerIPs, true, randomIPs⟩
  else ⟨attackerIPs, false, []⟩

/-- `Process`: the emitted result, and the histogram as it is left. -/
def process (ipCountDF : IPCount) (allKnownIps : List UInt32) : AttackerIPMergeResult × IPCount :=
  let ipCountSum := sumInts 32 (((ord 0).run ipCountDF).map Prod.snd)
  let (attackerIp32, df1) := t.program1 ord ipCountSum ipCountDF
  if df1.keys.length = 0 then ({ attackerIPs := attackerIp32 }, df1)
  else
    let (attackerIp24, df2) := t.program2 ord ipCountSum df1
    if df2.keys.length = 0 then ({ attackerIPs := attackerIp32 ++ attackerIp24 }, df2)
    else
      let (attackerIp16, df3) := t.program3 ord ipCountSum df2
      let attackerIPs := attackerIp32 ++ attackerIp24 ++ attackerIp16
      if df3.keys.length = 0 then ({ attackerIPs }, df3)
      else (t.program4 ord ipCountSum df3 allKnownIps attackerIPs, df3)

end SndAttackerIPMergeTask

end Dni.Cpp
