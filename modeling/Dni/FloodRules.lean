import Dni.AddrText
import Dni.FloatArith
import Dni.Lib.GoMap

namespace Dni

/-- `PORT.String`. -/
def portString (p : UInt16) : String := String.ofList (Nat.toDigits 10 p.toNat)

def protoStrTcp : String := "tcp"
def protoStrUdp : String := "udp"
def protoStrIcmp : String := "icmp"

inductive ActionKind
  | drop
  | limitPps
  | limitBps
  | bypass
deriving DecidableEq

/-- What a packet is compared with; an empty field matches everything. -/
structure Match where
  type : String := ""
  srcIP : String := ""
  dstIP : String := ""
  ipProto : String := ""
  srcPort : String := ""
  dstPort : String := ""
  tProto : String := ""
  tcpFlags : String := ""
deriving DecidableEq

structure Action where
  drop : ActionKind := .drop
  rate : Nat := 0
deriving DecidableEq

structure Rule where
  toMatch : Match := {}
  toAction : Action := {}
deriving DecidableEq

/-- Rules by what they match. -/
structure RuleSet where
  rules : GoMap Match Action

namespace RuleSet

def add (rs : RuleSet) (rules : List Rule) : RuleSet :=
  ⟨rules.foldl (fun m r => m.insert r.toMatch r.toAction) rs.rules⟩

def new (rules : List Rule) : RuleSet := add ⟨∅⟩ rules

theorem mem_add {rs : RuleSet} {rules : List Rule} {m : Match} :
    m ∈ (rs.add rules).rules ↔ m ∈ rs.rules ∨ ∃ r ∈ rules, r.toMatch = m := by
  induction rules generalizing rs with
  | nil => simp [add]
  | cons r rules ih =>
    have hstep : rs.add (r :: rules) = add ⟨rs.rules.insert r.toMatch r.toAction⟩ rules := rfl
    rw [hstep, ih, AList.mem_insert]
    simp only [List.mem_cons, exists_eq_or_imp, eq_comm (a := m)]
    tauto

theorem mem_new {rules : List Rule} {m : Match} :
    m ∈ (new rules).rules ↔ ∃ r ∈ rules, r.toMatch = m := by
  simp [new, mem_add]

end RuleSet

/-- The closing lines that the generators share: without a rate the action stays the zero one. -/
def limited (m : Match) (ltype : ActionKind) (lrate : Nat) : Rule :=
  if lrate = 0 then ⟨m, {}⟩ else ⟨m, ⟨ltype, lrate⟩⟩

def genL3Rule (ip : String) (ltype : ActionKind) (lrate : Nat) : Rule :=
  limited { type := "l3", srcIP := ip } ltype lrate

def genTCPFlagRule (flag : String) (ltype : ActionKind) (lrate : Nat) : Rule :=
  limited { type := "l4", ipProto := protoStrTcp, tcpFlags := flag } ltype lrate

def genPortRule (proto : String) (port : UInt16) (isSrcPort : Bool) (ltype : ActionKind)
    (lrate : Nat) : Rule :=
  limited
    (if proto = protoStrIcmp then { type := "l4", ipProto := proto }
    else if isSrcPort then { type := "l4", ipProto := proto, srcPort := portString port }
    else { type := "l4", ipProto := proto, dstPort := portString port }) ltype lrate

@[simp] theorem limited_toMatch (m : Match) (ltype : ActionKind) (lrate : Nat) :
    (limited m ltype lrate).toMatch = m := by
  unfold limited
  split <;> rfl

/-- The names of `TCPFlag.String`, lowest bit first. -/
def tcpFlagNames : List String := ["FIN", "SYN", "RST", "PSH", "ACK", "URG", "ECE", "CWR"]

def tcpFlagString (f : UInt8) : String :=
  if f = 0 then "NULL"
  else String.intercalate "," ((tcpFlagNames.zipIdx.filter fun e => f.toNat.testBit e.2).map Prod.fst)

def tcpFlagFin : UInt8 := 1
def tcpFlagSyn : UInt8 := 2
def tcpFlagRst : UInt8 := 4
def tcpFlagPsh : UInt8 := 8
def tcpFlagAck : UInt8 := 16
def tcpFlagSynAck : UInt8 := tcpFlagSyn ||| tcpFlagAck
def tcpFlagFinAck : UInt8 := tcpFlagFin ||| tcpFlagAck
def tcpFlagRstAck : UInt8 := tcpFlagRst ||| tcpFlagAck
def tcpFlagAckPsh : UInt8 := tcpFlagPsh ||| tcpFlagAck
def tcpFlagSynPsh : UInt8 := tcpFlagPsh ||| tcpFlagSyn

section Thresholds

variable {F : Type} [FloatArith F]

structure ProtoThreshold (F : Type) where
  threshold : Int
  protoThreshold : GoMap String Int
  tolerance : F

structure Capability where
  n : Int
  strict : Int

def ProtoThreshold.getPPSThreshold (pps : ProtoThreshold F) (proto : String) (withTol : Bool) : Int :=
  let th := (pps.protoThreshold.lookup proto).getD pps.threshold
  if withTol then
    FloatArith.toInt (FloatArith.floor
      (FloatArith.mul (FloatArith.ofInt th : F) (FloatArith.add (FloatArith.ofInt 1) pps.tolerance)))
  else th

def estimatedSpeed (val : Int) (ratio : F) : Int :=
  FloatArith.toInt (FloatArith.div (FloatArith.ofInt val) ratio)

def estimatedThresh (val : Int) (ratio : F) : Int :=
  FloatArith.toInt (FloatArith.mul (FloatArith.ofInt val) ratio)

/-- The conversion of an int to uint64 wraps. -/
def toUint64 (n : Int) : Nat := (n % 2 ^ 64).toNat

/-- The product of two ints wraps. -/
def mulInt (a b : Int) : Int := Int.bmod (a * b) (2 ^ 64)

end Thresholds

theorem portString_inj {p q : UInt16} (h : portString p = portString q) : p = q := by
  have hd : Nat.toDigits 10 p.toNat = Nat.toDigits 10 q.toNat := String.ofList_injective h
  have hv := congrArg (fun cs => Nat.ofDigitChars 10 cs 0) hd
  simpa [Nat.ofDigitChars_ten_toDigits, UInt16.toNat_inj] using hv

theorem portString_ne_empty (p : UInt16) : portString p ≠ "" := by
  intro h
  have hd : Nat.toDigits 10 p.toNat = [] := String.ofList_injective h
  exact Nat.toDigits_ne_nil hd

end Dni
