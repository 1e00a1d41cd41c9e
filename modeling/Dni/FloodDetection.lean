import Dni.FloodSources

namespace Dni.Dms

inductive AT
  | noAttack
  | icmp
  | tcp
  | tcpSyn
  | tcpAck
  | tcpFin
  | tcpRst
  | udp
  | tcpSemi
  | tcpFull
  | httpSlowRead
  | reflectUdp
  | reflectDns
  | reflectNtp
deriving DecidableEq

/-- A flag that the map does not hold reads as the zero value. -/
def flagmap (flag : UInt8) : AT :=
  if flag = tcpFlagSyn ∨ flag = tcpFlagSynPsh then .tcpSyn
  else if flag = tcpFlagFin then .tcpFin
  else if flag = tcpFlagRst then .tcpRst
  else if flag ∈ [tcpFlagSynAck, tcpFlagAck, tcpFlagAckPsh, tcpFlagFinAck, tcpFlagRstAck] then .tcpAck
  else .noAttack

/-- What a diagnosis fills in; `type` lists the entries set to one. -/
structure AttackInfo where
  dev : String := ""
  randSrc : Bool := false
  randDstPort : Bool := false
  isDistributed : Bool := false
  type : List AT := []
  pattern : Option RuleSet := none
  riskyPattern : Option RuleSet := none

structure PortInfo where
  listen : GoMap UInt16 Unit

/-- The established peers, by the text of their address. -/
structure CtInfo where
  est : GoMap String Unit

/-- The counters of one device that the flood detector reads. -/
structure ProtoStat (F : Type) where
  icmpType : GoMap UInt8 Int
  tcpTotal : Int
  tcpFlag : GoMap UInt8 Int
  udpTotal : Int
  rawIcmpsrc : GoMap String Nat
  rawTcpFlag : GoMap UInt8 (List PktMeta)
  rawUdpMetas : List PktMeta
  ratio : F

structure ProtoDiag (F : Type) where
  tcp : PortInfo
  udp : PortInfo
  stat : GoMap String (ProtoStat F)

/-- The diagnoses made of one device. -/
inductive Site
  | icmp
  | tcp (flag : UInt8)
  | udp

/-- The choices of a whole detection; every diagnosis has its own. -/
structure Schedule (F : Type) where
  stat : GoMap.Order String (ProtoStat F)
  types : String → GoMap.Order UInt8 Int
  flags : String → GoMap.Order UInt8 Int
  diag : String → Site → Choices

def l3Rules (spoofed : List String) : RuleSet :=
  (RuleSet.new []).add (spoofed.map fun s => genL3Rule s .drop 0)

/-- The rules for the destination ports that pass a test. -/
def portRules (ch : Choices) (proto : String) (dstPort : GoMap UInt16 Nat) (keep : UInt16 → Bool) :
    RuleSet :=
  (RuleSet.new []).add (((ch.port.keys dstPort).filter keep).map fun p => genPortRule proto p false .drop 0)

def icmpv4TypeDestinationUnreachable : UInt8 := 3

def diagICMPAttack (a : AttackInfo) (sip : List IPCount) (normalIPs : GoMap String Unit)
    (cap : Capability) : AttackInfo :=
  let spoofed := (classifySrcIPs normalIPs 0 sip).newhigh
  if isRandSrc0 spoofed cap then { a with isDistributed := true, pattern := some (RuleSet.new []) }
  else { a with pattern := some ((RuleSet.new []).add (spoofed.map fun s =>
    ⟨{ type := "l3", srcIP := s.ip, ipProto := protoStrIcmp }, {}⟩)) }

section Detection

variable {F : Type} [FloatArith F]

def diagTCPFlood (ch : Choices) (a : AttackInfo) (stat : TransStat) (flag : UInt8) (thtcp : Nat)
    (th : ProtoThreshold F) (cap : Capability) (tcp : PortInfo) (normalIPs : GoMap String Unit) :
    Option AttackInfo :=
  let c := classifySrcIPs normalIPs thtcp stat.sip
  let few := (stat.dstPort.keys.length : Int) ≤ cap.n
  (isRandSrc3 ch c.newhigh c.newlow cap).map fun (rand, spoofed) =>
    if !rand && few then
      { a with pattern := some (l3Rules spoofed), riskyPattern := some (RuleSet.new []) }
    else if few then
      { a with
        randSrc := true
        pattern := some (portRules ch protoStrTcp stat.dstPort (· ∉ tcp.listen))
        riskyPattern := some (portRules ch protoStrTcp stat.dstPort (· ∈ tcp.listen)) }
    else if !rand then
      { a with
        randDstPort := true
        pattern := some (l3Rules spoofed)
        riskyPattern := some (RuleSet.new []) }
    else
      { a with
        randSrc := true
        randDstPort := true
        pattern := some (RuleSet.new [])
        riskyPattern := some ((RuleSet.new []).add [genTCPFlagRule (tcpFlagString flag) .limitPps
          (toUint64 (th.getPPSThreshold protoStrTcp false))]) }

/-- The branches that diagTCPSynFlood and diagUDPFlood share: sources if they are few, else ports. -/
def sourcesElsePorts (ch : Choices) (a : AttackInfo) (stat : TransStat) (cap : Capability)
    (proto : String) (listen : GoMap UInt16 Unit) (rand : Bool) (spoofed : List String) : AttackInfo :=
  if !rand then { a with pattern := some (l3Rules spoofed), riskyPattern := some (RuleSet.new []) }
  else if (stat.dstPort.keys.length : Int) ≤ cap.n then
    { a with
      randSrc := true
      pattern := some (portRules ch proto stat.dstPort (· ∉ listen))
      riskyPattern := some (portRules ch proto stat.dstPort (· ∈ listen)) }
  else
    { a with
      randSrc := true
      randDstPort := true
      pattern := some (RuleSet.new [])
      riskyPattern := some (RuleSet.new []) }

def diagTCPSynFlood (ch : Choices) (a : AttackInfo) (stat : TransStat) (cap : Capability)
    (tcp : PortInfo) (normalIPs : GoMap String Unit) : Option AttackInfo :=
  let c := classifySrcIPs normalIPs 1 stat.sip
  (isRandSrc3 ch c.newhigh c.newlow cap).map fun (rand, spoofed) =>
    sourcesElsePorts ch a stat cap protoStrTcp tcp.listen rand spoofed

/-- The normal addresses go unused: classification runs on an empty map. -/
def diagUDPFlood (ch : Choices) (a : AttackInfo) (stat : TransStat) (thudp : Nat) (cap : Capability)
    (udp : PortInfo) (_normalIPs : GoMap String Unit) : Option AttackInfo :=
  let c := classifySrcIPs ∅ thudp stat.sip
  (isRandSrc3 ch c.newhigh c.newlow cap).map fun (rand, spoofed) =>
    sourcesElsePorts ch a stat cap protoStrUdp udp.listen rand spoofed

variable (sch : Schedule F) (th : ProtoThreshold F) (cap : Capability) (ct : CtInfo)

/-- The first ICMP type above the threshold is diagnosed, and the loop is left. -/
def icmpResponds (dev : String) (stat : ProtoStat F) : List AttackInfo :=
  let thicmp := th.getPPSThreshold protoStrIcmp true
  match ((sch.types dev).run stat.icmpType).find? fun e => !decide (estimatedSpeed e.2 stat.ratio < thicmp) with
  | none => []
  | some (k, _) =>
    let sip := sortIPCountMapByCount (sch.diag dev .icmp) stat.rawIcmpsrc (-1)
    let type := if k = icmpv4TypeDestinationUnreachable then AT.reflectUdp else AT.icmp
    [diagICMPAttack { dev := dev, type := [type] } sip ct.est cap]

/-- One round of the loop over the TCP flags. -/
def tcpFlagRespond (tcp : PortInfo) (dev : String) (stat : ProtoStat F) (flag : UInt8) :
    Option (List AttackInfo) :=
  let ch := sch.diag dev (.tcp flag)
  let resp : AttackInfo := { dev := dev, type := [flagmap flag, .tcp] }
  let data := calcTransStat ch ((stat.rawTcpFlag.lookup flag).getD [])
  if flag = 0 then
    some [{ resp with pattern := some (RuleSet.new [genTCPFlagRule "" .drop 0]) }]
  else if flag ∈ [tcpFlagSyn, tcpFlagSynPsh] then
    (diagTCPSynFlood ch resp data cap tcp ct.est).map ([·])
  else if flag ∈ [tcpFlagAck, tcpFlagAckPsh, tcpFlagFin, tcpFlagRst, tcpFlagSynAck, tcpFlagFinAck,
      tcpFlagRstAck] then
    (diagTCPFlood ch resp data flag
      (toUint64 (estimatedThresh (th.getPPSThreshold protoStrTcp true) stat.ratio)) th cap tcp ct.est).map
      ([·])
  else some []

def tcpResponds (tcp : PortInfo) (dev : String) (stat : ProtoStat F) : Option (List AttackInfo) :=
  let thtcp := th.getPPSThreshold protoStrTcp true
  if estimatedSpeed stat.tcpTotal stat.ratio < thtcp then some []
  else
    (((sch.flags dev).run stat.tcpFlag).mapM fun (flag, count) =>
      if estimatedSpeed count stat.ratio < thtcp then some []
      else tcpFlagRespond sch th cap ct tcp dev stat flag).map List.flatten

/-- The speed of UDP is compared with the threshold of TCP, as in the code. -/
def udpResponds (udp : PortInfo) (dev : String) (stat : ProtoStat F) : Option (List AttackInfo) :=
  let thudp := th.getPPSThreshold protoStrUdp true
  let thtcp := th.getPPSThreshold protoStrTcp true
  if estimatedSpeed stat.udpTotal stat.ratio < thtcp then some []
  else
    let ch := sch.diag dev .udp
    (diagUDPFlood ch { dev := dev, type := [.udp] } (calcTransStat ch stat.rawUdpMetas)
      (toUint64 (estimatedThresh thudp stat.ratio)) cap udp ct.est).map ([·])

/-- The responds for one device, in the order of the code. -/
def deviceResponds (protodiag : ProtoDiag F) (dev : String) (stat : ProtoStat F) :
    Option (List AttackInfo) := do
  let tcp ← tcpResponds sch th cap ct protodiag.tcp dev stat
  let udp ← udpResponds sch th cap ct protodiag.udp dev stat
  return icmpResponds sch th cap ct dev stat ++ tcp ++ udp

def floodAttackDetection : Option (ProtoDiag F) → Option (List AttackInfo)
  | none => some []
  | some protodiag =>
    ((sch.stat.run protodiag.stat).mapM fun e => deviceResponds sch th cap ct protodiag e.1 e.2).map
      List.flatten

end Detection

end Dni.Dms
