import Dni.SipDedupStats

namespace Dni.Cpp

open GoMap

/-- A network of a rule, whose length is an int. -/
structure RuleCIDR where
  ip : UInt32 := 0
  len : Int := 32
deriving DecidableEq

structure DMSRule where
  hostNicSign : String := ""
  srcIP : RuleCIDR := {}
  dstIP : RuleCIDR := {}
  sPort : String := ""
  dPort : String := ""
  length : String := ""
  protocol : Int := -1
  action : String := "drop"
  limitMode : String := ""
  limitMaxValue : Int := 0
deriving DecidableEq

/-- A netdev vector: inMbps value, inMbps score, inKpps value, inKpps score. -/
structure Netdev where
  mbps : ℚ
  mbpsScore : ℚ
  kpps : ℚ
  kppsScore : ℚ

/-- Both tasks have this function of their own. -/
def calcLimitRule (netdev : Netdev) : String × Int :=
  if 1 / 1000000 < netdev.mbpsScore - netdev.kppsScore then ("bps", toInt (netdev.mbps / 2))
  else ("pps", toInt (netdev.kpps / 2))

/-- `std::string = int` takes the number as one character. -/
def charText (n : Int) : String := String.singleton (Char.ofNat (n % 256).toNat)

namespace SndGenDMSRulesTask

/-- Quick action judge: the action, limit mode and limit value of a group. -/
def action (stat : SIPBaseMergeStats) (netdev : Netdev) : String × String × Int :=
  if !stat.isSrcIPRandom ∨ stat.srcPort.statType = "centralize" ∨ stat.dstPort.statType = "centralize" then
    ("drop", "", 0)
  else ("limit", calcLimitRule netdev)

def generateDmsRules (ports : Order UInt32 Unit) (protos : Order UInt32 String) (stat : SIPBaseMergeStats)
    (netdev : Netdev) : List DMSRule :=
  let (action, limitMode, limitMaxValue) := action stat netdev
  let dPorts : List Int :=
    if stat.dstPort.statType = "centralize" then (ports.keys stat.dstPort.value).map fun p => p.toInt32.toInt
    else []
  let dPorts := if dPorts.length = 0 then [-1] else dPorts
  let protocols : List Int := (protos.keys stat.protocol).map fun p => p.toInt32.toInt
  let protocols := if protocols.length = 0 then [-1] else protocols
  dPorts.flatMap fun dPort => protocols.map fun protocol =>
    { hostNicSign := stat.hostNicSign
      srcIP := ⟨stat.srcIP.ip, stat.srcIP.len⟩
      dPort := charText dPort
      protocol := protocol
      action := action
      limitMode := limitMode
      limitMaxValue := limitMaxValue }

end SndGenDMSRulesTask

/-- `std::stoul` of a text that starts with a digit; `none` is its exception. -/
def stoul (cs : List Char) : Option Nat :=
  let ds := cs.takeWhile Char.isDigit
  if ds = [] then none
  else if 2 ^ 64 ≤ Nat.ofDigitChars 10 ds 0 then none
  else some (Nat.ofDigitChars 10 ds 0)

def stoi (cs : List Char) : Option Int :=
  let ds := cs.takeWhile Char.isDigit
  if ds = [] then none
  else if 2 ^ 31 ≤ Nat.ofDigitChars 10 ds 0 then none
  else some (Nat.ofDigitChars 10 ds 0)

namespace SndGenDeDupDMSRulesTask

/-- Quick action judge on the texts of a rule. -/
def action (stat : RuleStat) (netdev : Netdev) : String × String × Int :=
  if stat.sip ≠ "RANDOM" ∨ stat.sport ≠ "-1" ∨ stat.dport ≠ "-1" then ("drop", "", 0)
  else ("limit", calcLimitRule netdev)

def srcIP (sip : String) : Option RuleCIDR :=
  if sip = "RANDOM" then some ⟨0, -1⟩
  else
    let cs := sip.toList
    let rest := cs.dropWhile (· ≠ '/')
    (stoul (cs.takeWhile (· ≠ '/'))).bind fun ip =>
      (stoi (if rest = [] then cs else rest.tail)).map fun len => ⟨UInt32.ofNat ip, len⟩

/-- `none` is an exception of a conversion, which leaves the task. -/
def generateDmsRule (stat : RuleStat) (netdev : Netdev) : Option DMSRule := do
  let (action, limitMode, limitMaxValue) := action stat netdev
  let srcIP ← srcIP stat.sip
  let ip ← stoul stat.dip.toList
  let protocol ← stoi stat.proto.toList
  return {
    hostNicSign := stat.hostNicSign
    srcIP := srcIP
    dstIP := ⟨UInt32.ofNat ip, 32⟩
    sPort := stat.sport
    dPort := stat.dport
    length := stat.length
    protocol := protocol
    action := action
    limitMode := limitMode
    limitMaxValue := limitMaxValue }

end SndGenDeDupDMSRulesTask

end Dni.Cpp
