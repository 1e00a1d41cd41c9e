import Dni.FloodDetection

namespace Dni.Dms

open SortSearch

structure ConnInfo where
  src : String
  dst : String
  name : String
  send : Int
  recv : Int
  sPort : Int
  dPort : Int
deriving DecidableEq

structure Flow where
  lip : String
  lport : UInt16
  rip : String
  rport : UInt16
deriving DecidableEq

/-- The source of a connection is its local end. -/
def ConnInfo.flow (ci : ConnInfo) : Flow :=
  ⟨ci.src, UInt16.ofInt ci.sPort, ci.dst, UInt16.ofInt ci.dPort⟩

structure FlowStat where
  key : UInt16
  count : Nat
deriving DecidableEq

/-- `byFlowCount.Less`: larger counts first. -/
def flowCountLess (a b : FlowStat) : Bool := b.count < a.count

structure ConnStat where
  count : Nat
  flows : List FlowStat
  perPort : GoMap UInt16 (List ConnInfo)

structure ConnDiag where
  estab : Option ConnStat

structure Measurement where
  l1 : UInt8
  l2 : UInt8
deriving DecidableEq

def connTcpSyn : UInt8 := 0
def connTcpEstablished : UInt8 := 1
def connAll : UInt8 := 4

def tcpEstablished : UInt8 := 1
def tcpSynRecv : UInt8 := 3

/-- The connections with one host that have the same bytes in both buffers. -/
structure Pattern where
  host : String
  send : Int
  recv : Int
deriving DecidableEq

/-- The choices that the runtime makes in one detection. -/
structure SlowChoices where
  flows : GoMap.Order Flow Unit
  stats : GoMap.Order UInt16 (GoMap Flow Unit)
  byCount : Sorter flowCountLess
  patterns : UInt16 → GoMap.Order Pattern (List ConnInfo)

/-- The states that the measurements ask for. -/
def connStates (msmt : List Measurement) : GoMap String UInt8 :=
  msmt.foldl (fun states m =>
    let states := if m.l2 = connAll ∨ m.l2 = connTcpSyn then states.insert "SEMI" tcpSynRecv
      else states
    if m.l2 = connAll ∨ m.l2 = connTcpEstablished then states.insert "ESTAB" tcpEstablished
    else states) ∅

def groupByLport (ch : SlowChoices) (flowset : GoMap Flow Unit) : Nat × List FlowStat :=
  let stats := GoMap.accumulate Flow.lport ∅ (fun fs f => fs.insert f ()) (ch.flows.keys flowset) ∅
  (flowset.keys.length, ch.byCount.run ((ch.stats.run stats).map fun e => ⟨e.1, e.2.keys.length⟩))

def tcpConnAnalyser (ch : SlowChoices) (states : GoMap String UInt8) (conns : List ConnInfo) :
    Option ConnStat :=
  if states.keys.length = 0 then none
  else
    let ci := GoMap.accumulate (fun c : ConnInfo => c.flow.rport) [] (fun l c => l ++ [c]) conns ∅
    let flowset := GoMap.accumulate ConnInfo.flow () (fun _ _ => ()) conns ∅
    let (n, fs) := groupByLport ch flowset
    some ⟨n, fs, ci⟩

def connAnalyser (ch : SlowChoices) (msmt : List Measurement) (conns : List ConnInfo) : ConnDiag :=
  ⟨tcpConnAnalyser ch (connStates msmt) conns⟩

structure TcpConnUtilThreshold where
  semiConn : Int
  fullConn : Int
  perPortFullConn : Int

def ConnInfo.pattern (ci : ConnInfo) : Pattern := ⟨ci.src, ci.send, ci.recv⟩

def filterCiBySendRecvQ (o : GoMap.Order Pattern (List ConnInfo)) (all : List ConnInfo) (th : Int) :
    GoMap Pattern (List ConnInfo) :=
  let agg := GoMap.accumulate ConnInfo.pattern [] (fun l c => l ++ [c])
    (all.filter fun ci => ¬ (ci.send = 0 ∧ ci.recv = 0)) ∅
  GoMap.eraseAll (((o.run agg).filter fun e => (e.2.length : Int) ≤ th).map Prod.fst) agg

def lookupDev (ip : String) (ipNic : GoMap String String) : String := (ipNic.lookup ip).getD ""

def genL3l4Rule (ip proto : String) (port : UInt16) (isSrcPort : Bool) (ltype : ActionKind)
    (lrate : Nat) : Rule :=
  limited
    (if proto = protoStrIcmp then { type := "l3l4", srcIP := ip, ipProto := proto }
    else if isSrcPort then
      { type := "l3l4", srcIP := ip, ipProto := proto, srcPort := portString port }
    else { type := "l3l4", srcIP := ip, ipProto := proto, dstPort := portString port }) ltype lrate

/-- What the loop over the ports has put together. -/
structure SlowState where
  info : AttackInfo := {}
  conns : List ConnInfo := []
  rs : RuleSet := RuleSet.new []

def AttackInfo.setType (a : AttackInfo) (t : AT) : AttackInfo :=
  if t ∈ a.type then a else { a with type := a.type ++ [t] }

/-- The body of the inner loop. The lists of the map are never empty. -/
def slowPattern (ipNic : GoMap String String) (port : UInt16) (s : SlowState)
    (e : Pattern × List ConnInfo) : SlowState :=
  match e.2 with
  | [] => s
  | ci :: _ =>
    { info := { s.info with dev := lookupDev ci.dst ipNic }
      conns := s.conns ++ [ci]
      rs := s.rs.add [genL3l4Rule e.1.host protoStrTcp port false .drop 0] }

def slowPorts (ch : SlowChoices) (perPort : GoMap UInt16 (List ConnInfo)) (thportconn : Int)
    (ipNic : GoMap String String) : List FlowStat → SlowState → SlowState
  | [], s => s
  | stat :: flows, s =>
    if (stat.count : Int) < thportconn then s
    else
      let s := { s with info := s.info.setType .tcpFull }
      let o := ch.patterns stat.key
      let long := filterCiBySendRecvQ o ((perPort.lookup stat.key).getD []) thportconn
      let s := if long.keys.length = 0 then s
        else (o.run long).foldl (slowPattern ipNic stat.key)
          { s with info := s.info.setType .httpSlowRead }
      slowPorts ch perPort thportconn ipNic flows s

/-- The respond of the slow detection: its attack info, and the connections it names. -/
structure SlowRespond extends AttackInfo where
  tcpConn : List ConnInfo := []

def diagFullConnAttack (ch : SlowChoices) (stats : ConnStat) (connTh : TcpConnUtilThreshold)
    (ipNic : GoMap String String) : SlowRespond :=
  let s := slowPorts ch stats.perPort connTh.perPortFullConn ipNic stats.flows {}
  { s.info with pattern := some s.rs, tcpConn := s.conns }

def slowHttpDetection (ch : SlowChoices) (conndiag : Option ConnDiag)
    (connTh : TcpConnUtilThreshold) (ipNic : GoMap String String) : Option SlowRespond :=
  conndiag.bind fun d => d.estab.bind fun est =>
    if connTh.fullConn ≤ est.count then some (diagFullConnAttack ch est connTh ipNic) else none

end Dni.Dms
