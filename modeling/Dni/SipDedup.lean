import Dni.AttackerMerge

namespace Dni

/-- The differences of neighbours among the sorted keys. -/
def getDiff (vals : List UInt32) : List UInt32 :=
  let vals := vals.insertionSort (· ≤ ·)
  List.zipWith (fun a b => b - a) vals (vals.drop 1)

/-- keySeriesDiffTypeNum, keyDiffSeriesTypeNum: how many different differences there are. -/
def diffTypeNum (keys : List UInt32) : Nat := (getDiff keys).dedup.length

/-- The seven texts of a five-tuple rule. -/
structure RuleStat where
  sip : String
  dip : String
  sport : String
  dport : String
  proto : String
  hostNicSign : String
  length : String
deriving DecidableEq

namespace Cpp

open GoMap

/-- A row of the packet table: 0:SIP, 1:SPort, 2:DPort, 3:Protocol, 4:Length, 5:DIP. -/
structure Packet where
  sip : UInt32
  sport : UInt32
  dport : UInt32
  protocol : UInt32
  length : UInt32
  dip : UInt32
deriving DecidableEq

/-- `std::unordered_set<uint32_t>`. -/
abbrev UIntSet := GoMap UInt32 Unit

/-- The statistics of the packets of one group. The keys of `protocol` are ints of the same bits. -/
structure SIPBaseMergeResult where
  packetTotal : Int := 0
  sport : UIntSet := ∅
  dport : UIntSet := ∅
  length : UIntSet := ∅
  protocol : GoMap UInt32 Int := ∅
  dstIP : UIntSet := ∅

def SIPBaseMergeResult.add (ret : SIPBaseMergeResult) (packet : Packet) : SIPBaseMergeResult where
  packetTotal := ret.packetTotal + 1
  sport := ret.sport.insert packet.sport ()
  dport := ret.dport.insert packet.dport ()
  length := ret.length.insert packet.length ()
  protocol := ret.protocol.insert packet.protocol ((ret.protocol.lookup packet.protocol).getD 0 + 1)
  dstIP := ret.dstIP.insert packet.dip ()

structure SIPBaseMergeNumberStats where
  statType : String := ""
  value : UIntSet := ∅

structure SIPBaseMergeStats where
  hostNicSign : String := ""
  isSrcIPRandom : Bool := false
  srcIP : CIDR := ⟨0, 32⟩
  dstIP : SIPBaseMergeNumberStats := {}
  srcPort : SIPBaseMergeNumberStats := {}
  dstPort : SIPBaseMergeNumberStats := {}
  length : SIPBaseMergeNumberStats := {}
  protocol : GoMap UInt32 String := ∅

/-- The options as they are parsed. -/
structure SndSIPBaseMergeTaskOptions (F : Type) where
  numRatioMin : F
  numRatioMax : F
  keyLenThresh : Int
  numLabel : List String
  protoRatioMin : F
  protoRatioMax : F
  protoLabel : List String

/-- The opened task: four labels for numbers and three for protocols. -/
structure SndSIPBaseMergeDeDupTask (F : Type) where
  numRatioMin : F
  numRatioMax : F
  numKeyLenThresh : Int
  numLabel : Vector String 4
  protoRatioMin : F
  protoRatioMax : F
  protoLabel : Vector String 3

/-- `Open`; another number of labels is its error return. -/
def SndSIPBaseMergeTaskOptions.open {F : Type} (o : SndSIPBaseMergeTaskOptions F) :
    Option (SndSIPBaseMergeDeDupTask F) :=
  if hn : o.numLabel.length = 4 then
    if hp : o.protoLabel.length = 3 then
      some ⟨o.numRatioMin, o.numRatioMax, o.keyLenThresh, ⟨o.numLabel.toArray, hn⟩,
        o.protoRatioMin, o.protoRatioMax, ⟨o.protoLabel.toArray, hp⟩⟩
    else none
  else none

/-- A shift by all 32 bits is left to the machine, which takes the count modulo 32. -/
def belongs (cidr : CIDR) (ip : UInt32) : Bool :=
  if 32 < cidr.len then false
  else if (cidr.ip ^^^ ip) >>> UInt32.ofNat (32 - cidr.len) ≠ 0 then false
  else true

def cidrString (cidr : CIDR) : String := Nat.repr cidr.ip.toNat ++ "/" ++ Nat.repr cidr.len

/-- What the loop over the packets builds. -/
structure MergeState where
  allMergeRet : GoMap String SIPBaseMergeResult := ∅
  ipPositions : GoMap UInt32 (List Nat) := ∅
  cidrIncludePositions : GoMap String (List Nat) := ∅

/-- `m[key].push_back(index)`. -/
def pushBack {κ : Type} [DecidableEq κ] (m : GoMap κ (List Nat)) (key : κ) (index : Nat) : GoMap κ (List Nat) :=
  m.insert key ((m.lookup key).getD [] ++ [index])

/-- The orders in which one run reads its unordered containers. -/
structure DedupOrders where
  merged : Order String SIPBaseMergeResult
  stats : Order String SIPBaseMergeStats
  protocols : Order UInt32 Int
  randomIPs : List UInt32 → List UInt32
  randomIPs_perm : ∀ ips, (randomIPs ips).Perm ips.dedup

/-- The text of a number in a rule, or the label that stands for all of them. -/
def featureText (statType : String) (value : UInt32) : String :=
  if statType = "centralize" then Nat.repr value.toNat else statType

def ruleStat (first : String) (stat : SIPBaseMergeStats) (p : Packet) : RuleStat where
  sip := first
  dip := Nat.repr p.dip.toNat
  sport := featureText stat.srcPort.statType p.sport
  dport := featureText stat.dstPort.statType p.dport
  proto := Nat.repr p.protocol.toNat
  hostNicSign := stat.hostNicSign
  length := featureText stat.length.statType p.length

def ruleElements (first : String) (stat : SIPBaseMergeStats) (p : Packet) : String :=
  first ++ "--" ++ Nat.repr p.dip.toNat ++ "--" ++ featureText stat.srcPort.statType p.sport ++ "--" ++
    featureText stat.dstPort.statType p.dport ++ "--" ++ Nat.repr p.protocol.toNat ++ "--" ++
    featureText stat.length.statType p.length

namespace SndSIPBaseMergeDeDupTask

section Merge

variable (attackerIPs : List CIDR)

/-- One packet: the first network it belongs to, or the list for all other packets. -/
def mergePacket (st : MergeState) (pk : Packet × Nat) : MergeState :=
  let (packet, index) := pk
  let found := attackerIPs.find? fun cidr => belongs cidr packet.sip
  let st := match found with
    | some cidr =>
      { st with
        allMergeRet := st.allMergeRet.insert (cidrString cidr)
          (((st.allMergeRet.lookup (cidrString cidr)).getD {}).add packet)
        cidrIncludePositions := pushBack st.cidrIncludePositions (cidrString cidr) index }
    | none => st
  let st := { st with ipPositions := pushBack st.ipPositions packet.sip index }
  if found.isNone then
    { st with cidrIncludePositions := pushBack st.cidrIncludePositions "RANDOM" index }
  else st

def mergePackets (packets : List Packet) : MergeState := packets.zipIdx.foldl (mergePacket attackerIPs) {}

end Merge

section Stats

variable (packets : List Packet)

/-- `at` throws on an index outside the table; the positions are indices of it. -/
def mergeAt (ret : SIPBaseMergeResult) (index : Nat) : SIPBaseMergeResult :=
  match packets[index]? with
  | some p => ret.add p
  | none => ret

/-- Step 2, random merge. -/
def mergeRandom (ipPositions : GoMap UInt32 (List Nat)) (randomIPs : List UInt32)
    (randomMerge : SIPBaseMergeResult) : SIPBaseMergeResult :=
  randomIPs.foldl (fun ret randomIp =>
    ((ipPositions.lookup randomIp).getD []).foldl (mergeAt packets) ret) randomMerge

/-- The original packet of a position, under the statistics of its group. -/
def addRule (rules : GoMap String RuleStat) (round : String × SIPBaseMergeStats × Nat) :
    GoMap String RuleStat :=
  match packets[round.2.2]? with
  | some p => rules.insert (ruleElements round.1 round.2.1 p) (ruleStat round.1 round.2.1 p)
  | none => rules

variable {F : Type} [FloatArith F] [LE F] [DecidableLE F] (t : SndSIPBaseMergeDeDupTask F)

/-- calc_number_stat_type, as the number of the label. -/
def numberStatIndex (keys : List UInt32) : Fin 4 :=
  let numKeyLen := keys.length
  let keySeriesDiffTypeNum := diffTypeNum keys
  if (numKeyLen : Int) < toSizeT t.numKeyLenThresh then 0
  else if FloatArith.ofInt keySeriesDiffTypeNum ≤ FloatArith.mul (FloatArith.ofInt numKeyLen) t.numRatioMin then 1
  else if FloatArith.mul (FloatArith.ofInt numKeyLen) t.numRatioMax ≤ FloatArith.ofInt keySeriesDiffTypeNum then 2
  else 3

def calcNumberStatType (uset : UIntSet) : String := t.numLabel[t.numberStatIndex uset.keys]

def protoStatType (numValueSum protoCountValue : Int) : String :=
  if FloatArith.mul (FloatArith.ofInt numValueSum) t.protoRatioMax ≤ FloatArith.ofInt protoCountValue then
    t.protoLabel.get 0
  else if FloatArith.mul (FloatArith.ofInt numValueSum) t.protoRatioMin ≤ FloatArith.ofInt protoCountValue then
    t.protoLabel.get 1
  else t.protoLabel.get 2

def calcProtoStatType (ord : Order UInt32 Int) (protoMap : GoMap UInt32 Int) (numValueSum : Int) :
    GoMap UInt32 String :=
  (ord.run protoMap).foldl (fun stats proto => stats.insert proto.1 (t.protoStatType numValueSum proto.2)) ∅

/-- The values are kept where the type is the first label. -/
def numberStats (uset : UIntSet) : SIPBaseMergeNumberStats :=
  let statType := t.calcNumberStatType uset
  { statType := statType, value := if statType = t.numLabel.get 0 then uset else ∅ }

def mergeStats (ord : Order UInt32 Int) (hostNicName : String) (convertMap : GoMap String CIDR)
    (first : String) (ret : SIPBaseMergeResult) : SIPBaseMergeStats where
  hostNicSign := hostNicName
  isSrcIPRandom := first = "RANDOM"
  srcIP := if first = "RANDOM" then ⟨0, 32⟩ else (convertMap.lookup first).getD ⟨0, 32⟩
  dstIP := { value := ret.dstIP }
  srcPort := t.numberStats ret.sport
  dstPort := t.numberStats ret.dport
  length := t.numberStats ret.length
  protocol := t.calcProtoStatType ord ret.protocol ret.packetTotal

end Stats

variable {F : Type} [FloatArith F] [LE F] [DecidableLE F] (t : SndSIPBaseMergeDeDupTask F) (o : DedupOrders) (packets : List Packet)
  (attackerIpMerge : AttackerIPMergeResult) (hostNicName : String)

def allMergeRet : GoMap String SIPBaseMergeResult :=
  let st := mergePackets attackerIpMerge.attackerIPs packets
  if attackerIpMerge.containRandomAttack then
    st.allMergeRet.insert "RANDOM" (mergeRandom packets st.ipPositions
      (o.randomIPs attackerIpMerge.randomIPs) ((st.allMergeRet.lookup "RANDOM").getD {}))
  else st.allMergeRet

def convertMap : GoMap String CIDR :=
  attackerIpMerge.attackerIPs.foldl (fun m ip => m.insert (cidrString ip) ip) ∅

/-- The first output, CIDR:0. -/
def allStat : GoMap String SIPBaseMergeStats :=
  (o.merged.run (allMergeRet o packets attackerIpMerge)).foldl (fun m mergeRet =>
    m.insert mergeRet.1 (t.mergeStats o.protocols hostNicName (convertMap attackerIpMerge) mergeRet.1
      mergeRet.2)) ∅

/-- The rounds of the loop that writes the rules: a group, its statistics and a packet of it. -/
def rounds : List (String × SIPBaseMergeStats × Nat) :=
  let positions := (mergePackets attackerIpMerge.attackerIPs packets).cidrIncludePositions
  (o.stats.run (t.allStat o packets attackerIpMerge hostNicName)).flatMap fun stat =>
    ((positions.lookup stat.1).getD []).map fun index => (stat.1, stat.2, index)

/-- The second output, CIDR:1. -/
def rules : GoMap String RuleStat :=
  (t.rounds o packets attackerIpMerge hostNicName).foldl (addRule packets) ∅

/-- `Process`: both outputs. -/
def process : GoMap String SIPBaseMergeStats × GoMap String RuleStat :=
  (t.allStat o packets attackerIpMerge hostNicName, t.rules o packets attackerIpMerge hostNicName)

end SndSIPBaseMergeDeDupTask

end Cpp

end Dni
