import Dni.DmsDetect
import Dni.GraphConf
import Dni.GraphLockstep

namespace Dni.Dms

open Runs

/-- `dms_graph_with_ss.yaml` without the options of its tasks. -/
def dmsGraphConf : GraphConf where
  graphInputStream := ["AssessorData:assessorData", "Listen:listen", "Packet:packet", "TCPConn:tcpconn",
    "Ratio:0:ratio", "NicIP:nicIP"]
  graphOutputStream := ["fResponds", "sRespond"]
  nodes := [
    { task := "DmsAssessTask", inputStream := ["STAT:0:assessorData"], outputStream := ["assessorInd"] },
    { task := "DmsArbitrateTask", inputStream := ["AssessorInd:0:assessorInd"],
      outputStream := ["Query:0:query", "Intelligence:0:intelli"] },
    { task := "DmsConnDiagTask", inputStream := ["Query:0:query", "TCPConn:0:tcpconn"],
      outputStream := ["ConnDiag:0:conndiag"] },
    { task := "DmsProtoDiagTask",
      inputStream := ["Query:0:query", "Conntrack:0:tcpconn", "Packet:0:packet", "Listen:0:listen", "Ratio:0:ratio",
        "NicIP:nicIP"],
      outputStream := ["ProtoDiag:0:protodiag", "CtInfo:0:ctinfo"] },
    { task := "DmsFloodAttackDetectTask", inputStream := ["ProtoDiag:0:protodiag", "Conntrack:0:ctinfo"],
      outputStream := ["fResponds"] },
    { task := "DmsSlowAttackDetectTask", inputStream := ["ConnDiag:0:conndiag", "NicIP:nicIP"],
      outputStream := ["sRespond"] }]

/-- The data that go through the graph; `nil` is Go's. -/
inductive DmsDatum (P F : Type)
  | nil
  | assessorData (data : AssessorData F)
  | listen (infos : List CtEntry)
  | packet (packets : GoMap String (List P))
  | tcpconn (conns : List ConnInfo)
  | ratio (ratios : GoMap String F)
  | nicIP (nicIP : GoMap String String)
  | assessorInd (ind : AssessorInd)
  | query (query : Option Query)
  | intelli (intelli : Option Intelligence)
  | conndiag (conndiag : ConnDiag)
  | protodiag (protodiag : ProtoDiag F)
  | ctinfo (ct : CtInfo)
  | fResponds (responds : List AttackInfo)
  | sRespond (respond : Option SlowRespond)

namespace DmsDatum

variable {P F : Type}

/-- What is read as the responds to floods. -/
def floods : DmsDatum P F → Option (List AttackInfo)
  | fResponds responds => some responds
  | _ => none

/-- A nil respond and a nil datum are read alike. -/
def slow : DmsDatum P F → Option SlowRespond
  | sRespond respond => respond
  | _ => none

end DmsDatum

section Tasks

variable {P S F : Type} [FloatArith F] (g : Gopacket P S) (isUsable : String → Bool) (ch : DmsChoices S F)
  (o : DmsOptions F)

/-- `DmsAssessTask.Process`. -/
def dmsAssessTask [LE F] [DecidableLE F] [LT F] [DecidableLT F] : Process (DmsDatum P F) := fun inputs => do
  let .assessorData assessorData := inputs "STAT" 0 | none
  let assessorInd ← dmsAssess ch.bw o.assess assessorData
  return [("", 0, .assessorInd assessorInd)]

/-- `DmsArbitrateTask.Process`. -/
def dmsArbitrateTask : Process (DmsDatum P F) := fun inputs => do
  let .assessorInd assessorInd := inputs "AssessorInd" 0 | none
  let answer := getQuery ch.arbiter assessorInd
  return [("Query", 0, .query answer.1), ("Intelligence", 0, .intelli answer.2)]

/-- `DmsConnDiagTask.Process`. -/
def dmsConnDiagTask : Process (DmsDatum P F) := fun inputs => do
  let .tcpconn tcpconns := inputs "TCPConn" 0 | none
  let .query query := inputs "Query" 0 | none
  match dmsConnDiag ch.slow ch.conn tcpconns query with
  | none => return [("ConnDiag", 0, .nil)]
  | some conndiag => return [("ConnDiag", 0, .conndiag conndiag)]

/-- `DmsProtoDiagTask.Process`. -/
def dmsProtoDiagTask : Process (DmsDatum P F) := fun inputs => do
  let .query query := inputs "Query" 0 | none
  if query.isNone then return [("CtInfo", 0, .nil), ("ProtoDiag", 0, .nil)]
  let .packet allDevPackets := inputs "Packet" 0 | none
  let .ratio ratios := inputs "Ratio" 0 | none
  let .listen listenInfos := inputs "Listen" 0 | none
  let .tcpconn conntracks := inputs "Conntrack" 0 | none
  let .nicIP nicIP := inputs "NicIP" 0 | none
  let (ct, protodiag) ← dmsProtoDiag g isUsable ch.diag query allDevPackets ratios listenInfos conntracks nicIP
  return [("CtInfo", 0, .ctinfo ct), ("ProtoDiag", 0, .protodiag protodiag)]

/-- `DmsFloodAttackDetectTask.Process`. -/
def dmsFloodAttackDetectTask : Process (DmsDatum P F) := fun inputs =>
  match inputs "ProtoDiag" 0 with
  | .nil => some [("", 0, .fResponds [])]
  | .protodiag protodiag => do
    let .ctinfo ctInfo := inputs "Conntrack" 0 | none
    let responds ← floodAttackDetection ch.flood o.pps o.cap ctInfo (some protodiag)
    return [("", 0, .fResponds responds)]
  | _ => none

/-- `DmsSlowAttackDetectTask.Process`. -/
def dmsSlowAttackDetectTask : Process (DmsDatum P F) := fun inputs =>
  match inputs "ConnDiag" 0 with
  | .nil => some [("", 0, .nil)]
  | .conndiag conndiag => do
    let .nicIP nicIP := inputs "NicIP" 0 | none
    return [("", 0, .sRespond (slowHttpDetection ch.slow (some conndiag) o.tcpConn nicIP))]
  | _ => none

/-- The registry, as far as the graph uses it. -/
def newTask [LE F] [DecidableLE F] [LT F] [DecidableLT F] : String → Option (Process (DmsDatum P F))
  | "DmsAssessTask" => some (dmsAssessTask ch o)
  | "DmsArbitrateTask" => some (dmsArbitrateTask ch)
  | "DmsConnDiagTask" => some (dmsConnDiagTask ch)
  | "DmsProtoDiagTask" => some (dmsProtoDiagTask g isUsable ch)
  | "DmsFloodAttackDetectTask" => some (dmsFloodAttackDetectTask ch o)
  | "DmsSlowAttackDetectTask" => some (dmsSlowAttackDetectTask ch o)
  | _ => none

/-- The task of a node. The rounds are those in which no step panics. -/
def dmsTask [LE F] [DecidableLE F] [LT F] [DecidableLT F] (a : Nat) (values : List (DmsDatum P F)) :
    TaskResult (DmsDatum P F) :=
  match dmsGraphConf.nodes[a]? with
  | none => ⟨fun j => values.getD j .nil, none⟩
  | some nodeConf => nodeConf.run .nil ((newTask g isUsable ch o nodeConf.task).getD fun _ => none) values

end Tasks

/-- What the service adds to the graph input streams. -/
def DmsInput.data {P F : Type} (input : DmsInput P F) : String → DmsDatum P F
  | "assessorData" => .assessorData input.assessorData
  | "listen" => .listen input.listen
  | "tcpconn" => .tcpconn input.tcpconn
  | "packet" => .packet input.packet
  | "ratio" => .ratio input.ratio
  | "nicIP" => .nicIP input.nicIP
  | _ => .nil

/-- The graph of the configuration. -/
def dmsGraph : GraphUnit where
  graphInputStream := ⟨["assessorData", "listen", "packet", "tcpconn", "ratio", "nicIP"]⟩
  graphOutputStream := ⟨["fResponds", "sRespond"]⟩
  graphInputSideData := ⟨[]⟩
  graphOutputSideData := ⟨[]⟩
  nodes := [
    ⟨⟨["assessorData"]⟩, ⟨["assessorInd"]⟩, ⟨[]⟩, ⟨[]⟩⟩,
    ⟨⟨["assessorInd"]⟩, ⟨["query", "intelli"]⟩, ⟨[]⟩, ⟨[]⟩⟩,
    ⟨⟨["query", "tcpconn"]⟩, ⟨["conndiag"]⟩, ⟨[]⟩, ⟨[]⟩⟩,
    ⟨⟨["query", "tcpconn", "packet", "listen", "ratio", "nicIP"]⟩, ⟨["protodiag", "ctinfo"]⟩, ⟨[]⟩, ⟨[]⟩⟩,
    ⟨⟨["protodiag", "ctinfo"]⟩, ⟨["fResponds"]⟩, ⟨[]⟩, ⟨[]⟩⟩,
    ⟨⟨["conndiag", "nicIP"]⟩, ⟨["sRespond"]⟩, ⟨[]⟩, ⟨[]⟩⟩]

theorem getGraphUnit_dmsGraphConf : getGraphUnit dmsGraphConf = .ok dmsGraph := rfl

/-- The runs of the graph on the data of `rounds` slots, with the choices made in each. -/
def dmsFlow {P S F : Type} [FloatArith F] [LE F] [DecidableLE F] [LT F] [DecidableLT F] (g : Gopacket P S)
    (isUsable : String → Bool) (ch : Nat → DmsChoices S F) (o : DmsOptions F) (input : Nat → DmsInput P F)
    (rounds : Nat) (flow : FlowGraph) : Dni.Flow (DmsDatum P F) where
  toFlowGraph := flow
  rounds := rounds
  stops := false
  given k id := (dmsGraph.graphInputStream.name[id]?).elim .nil (input k).data
  task a k := dmsTask g isUsable (ch (k - 1)) o a
  nil := .nil

/-- The tasks leave their inputs alone. -/
theorem dmsFlow_keeps {P S F : Type} [FloatArith F] [LE F] [DecidableLE F] [LT F] [DecidableLT F] {g : Gopacket P S}
    {isUsable : String → Bool} {ch : Nat → DmsChoices S F} {o : DmsOptions F} {input : Nat → DmsInput P F}
    {rounds : Nat} {flow : FlowGraph} (a k : Nat) (values : List (DmsDatum P F)) (j : Nat) (v : DmsDatum P F)
    (hv : values[j]? = some v) : ((dmsFlow g isUsable ch o input rounds flow).task a k values).inputs j = v := by
  have hget : values.getD j .nil = v := by rw [List.getD, hv]; rfl
  show (dmsTask g isUsable (ch (k - 1)) o a values).inputs j = v
  unfold dmsTask
  split
  next => exact hget
  next => exact hget

section Rounds

variable {P S F : Type} [FloatArith F] [LE F] [DecidableLE F] [LT F] [DecidableLT F] {g : Gopacket P S}
  {isUsable : String → Bool} {ch : DmsChoices S F} {o : DmsOptions F} {input : DmsInput P F}

section Nodes

variable (g isUsable ch o)

theorem dmsTask_assess {ind : AssessorInd} {data : AssessorData F} (h : dmsAssess ch.bw o.assess data = some ind) :
    ∃ out, (dmsTask g isUsable ch o 0 [DmsDatum.assessorData data]).outputs = some out ∧ out 0 = .assessorInd ind := by
  have hin : slotOf ["STAT:0:assessorData"] "STAT" 0 = some 0 := by decide
  have hout : slotOf ["assessorInd"] "" 0 = some 0 := by decide
  simp [dmsTask, dmsGraphConf, newTask, NodeConf.run, dmsAssessTask, hin, hout, h]

theorem dmsTask_arbitrate (ind : AssessorInd) :
    ∃ out, (dmsTask g isUsable ch o 1 [(DmsDatum.assessorInd ind : DmsDatum P F)]).outputs = some out ∧
      out 0 = .query (getQuery ch.arbiter ind).1 := by
  have hin : slotOf ["AssessorInd:0:assessorInd"] "AssessorInd" 0 = some 0 := by decide
  have hquery : slotOf ["Query:0:query", "Intelligence:0:intelli"] "Query" 0 = some 0 := by decide
  simp [dmsTask, dmsGraphConf, newTask, NodeConf.run, dmsArbitrateTask, hin, hquery]

/-- The diagnosis of the connections as a datum. -/
def DmsDatum.ofConnDiag (conndiag : Option ConnDiag) : DmsDatum P F :=
  conndiag.elim .nil .conndiag

theorem dmsTask_connDiag (query : Option Query) (conns : List ConnInfo) :
    ∃ out, (dmsTask g isUsable ch o 2 [(DmsDatum.query query : DmsDatum P F), .tcpconn conns]).outputs = some out ∧
      out 0 = .ofConnDiag (dmsConnDiag ch.slow ch.conn conns query) := by
  have hquery : slotOf ["Query:0:query", "TCPConn:0:tcpconn"] "Query" 0 = some 0 := by decide
  have hconn : slotOf ["Query:0:query", "TCPConn:0:tcpconn"] "TCPConn" 0 = some 1 := by decide
  have hout : slotOf ["ConnDiag:0:conndiag"] "ConnDiag" 0 = some 0 := by decide
  cases hd : dmsConnDiag ch.slow ch.conn conns query <;>
    simp [dmsTask, dmsGraphConf, newTask, NodeConf.run, dmsConnDiagTask, hquery, hconn, hout, hd, DmsDatum.ofConnDiag]

/-- The connections of the suspects as a datum, which is nil where the counters are. -/
def DmsDatum.ofCtInfo (diag : Option (CtInfo × ProtoDiag F)) : DmsDatum P F :=
  diag.elim .nil fun diag => .ctinfo diag.1

/-- The counters as a datum. -/
def DmsDatum.ofProtoDiag (diag : Option (CtInfo × ProtoDiag F)) : DmsDatum P F :=
  diag.elim .nil fun diag => .protodiag diag.2

theorem dmsTask_protoDiag (query : Option Query) (conns : List ConnInfo) (packets : GoMap String (List P))
    (infos : List CtEntry) (ratios : GoMap String F) (nicIP : GoMap String String) :
    ∃ out, (dmsTask g isUsable ch o 3 [.query query, .tcpconn conns, .packet packets, .listen infos, .ratio ratios,
        .nicIP nicIP]).outputs = some out ∧
      out 0 = .ofProtoDiag (dmsProtoDiag g isUsable ch.diag query packets ratios infos conns nicIP) ∧
      out 1 = .ofCtInfo (dmsProtoDiag g isUsable ch.diag query packets ratios infos conns nicIP) := by
  have hslots : ∀ e ∈ [("Query", 0), ("Conntrack", 1), ("Packet", 2), ("Listen", 3), ("Ratio", 4), ("NicIP", 5)],
      slotOf ["Query:0:query", "Conntrack:0:tcpconn", "Packet:0:packet", "Listen:0:listen", "Ratio:0:ratio",
        "NicIP:nicIP"] e.1 0 = some e.2 := by decide
  have hout : ∀ e ∈ [("ProtoDiag", 0), ("CtInfo", 1)],
      slotOf ["ProtoDiag:0:protodiag", "CtInfo:0:ctinfo"] e.1 0 = some e.2 := by decide
  simp only [List.forall_mem_cons] at hslots hout
  cases query <;>
    simp [dmsTask, dmsGraphConf, newTask, NodeConf.run, dmsProtoDiagTask, hslots, hout, dmsProtoDiag,
      DmsDatum.ofProtoDiag, DmsDatum.ofCtInfo]

theorem dmsTask_flood {diag : Option (CtInfo × ProtoDiag F)} {responds : List AttackInfo}
    (h : dmsFloodAttackDetect ch.flood o.pps o.cap diag = some responds) :
    ∃ out, (dmsTask g isUsable ch o 4 [(DmsDatum.ofProtoDiag diag : DmsDatum P F), .ofCtInfo diag]).outputs = some out ∧
      out 0 = .fResponds responds := by
  have hdiag : slotOf ["ProtoDiag:0:protodiag", "Conntrack:0:ctinfo"] "ProtoDiag" 0 = some 0 := by decide
  have hct : slotOf ["ProtoDiag:0:protodiag", "Conntrack:0:ctinfo"] "Conntrack" 0 = some 1 := by decide
  have hout : slotOf ["fResponds"] "" 0 = some 0 := by decide
  cases diag with
  | none =>
    cases h
    simp [dmsTask, dmsGraphConf, newTask, NodeConf.run, dmsFloodAttackDetectTask, hdiag, hout, DmsDatum.ofProtoDiag]
  | some diag =>
    have hresponds : floodAttackDetection ch.flood o.pps o.cap diag.1 (some diag.2) = some responds := h
    simp [dmsTask, dmsGraphConf, newTask, NodeConf.run, dmsFloodAttackDetectTask, hdiag, hct, hout,
      DmsDatum.ofProtoDiag, DmsDatum.ofCtInfo, hresponds]

theorem dmsTask_slow (conndiag : Option ConnDiag) (nicIP : GoMap String String) :
    ∃ out, (dmsTask g isUsable ch o 5 [(DmsDatum.ofConnDiag conndiag : DmsDatum P F), .nicIP nicIP]).outputs =
        some out ∧
      (out 0).slow = slowHttpDetection ch.slow conndiag o.tcpConn nicIP := by
  have hconn : slotOf ["ConnDiag:0:conndiag", "NicIP:nicIP"] "ConnDiag" 0 = some 0 := by decide
  have hnic : slotOf ["ConnDiag:0:conndiag", "NicIP:nicIP"] "NicIP" 0 = some 1 := by decide
  have hout : slotOf ["sRespond"] "" 0 = some 0 := by decide
  cases conndiag <;>
    simp [dmsTask, dmsGraphConf, newTask, NodeConf.run, dmsSlowAttackDetectTask, hconn, hnic, hout, DmsDatum.ofConnDiag,
      DmsDatum.slow, slowHttpDetection]

end Nodes

variable {w : Wiring} {sortedNodes : List Nat}

/-- One round of the graph is one pass of the detection. -/
theorem evalRound_detect (hl : dmsGraph.LinkedRight w sortedNodes) {fResponds : List AttackInfo}
    {sRespond : Option SlowRespond} (h : detect g isUsable ch o input = some (fResponds, sRespond)) :
    let env := dmsGraph.evalRound (dmsTask g isUsable ch o) .nil sortedNodes fun id =>
      (dmsGraph.graphInputStream.name[id]?).elim .nil input.data
    dmsGraph.streamValue env .graphOutput "fResponds" = .fResponds fResponds ∧
      (dmsGraph.streamValue env .graphOutput "sRespond").slow = sRespond := by
  intro env
  have hgiven : env .graphInput = fun id => (dmsGraph.graphInputStream.name[id]?).elim .nil input.data :=
    GraphUnit.evalRound_given
  have hnode : ∀ a < 6, ∀ values out, (dmsGraph.inputNames a).map (fun s => dmsGraph.streamValue env (.node a) s) =
      values → (dmsTask g isUsable ch o a values).outputs = some out → env (.node a) = out := by
    rintro a ha values out rfl hout
    refine (GraphUnit.evalRound_node hl ha).trans ?_
    rw [hout]
    rfl
  simp only [detect, Option.bind_eq_bind, Option.bind_eq_some_iff] at h
  obtain ⟨ind, hind, f, hf, hret⟩ := h
  cases hret
  have hassess : env (.node 0) 0 = .assessorInd ind := by
    obtain ⟨out, hout, h0⟩ := dmsTask_assess (P := P) g isUsable ch o hind
    refine (congrFun (hnode 0 (by decide) _ out ?_ hout) 0).trans h0
    show [env .graphInput 0] = _
    rw [hgiven]
    rfl
  have hquery : env (.node 1) 0 = .query (getQuery ch.arbiter ind).1 := by
    obtain ⟨out, hout, h0⟩ := dmsTask_arbitrate g isUsable ch o ind
    refine (congrFun (hnode 1 (by decide) _ out ?_ hout) 0).trans h0
    show [env (.node 0) 0] = _
    rw [hassess]
  have hconn : env (.node 2) 0 =
      .ofConnDiag (dmsConnDiag ch.slow ch.conn input.tcpconn (getQuery ch.arbiter ind).1) := by
    obtain ⟨out, hout, h0⟩ := dmsTask_connDiag g isUsable ch o
      (getQuery ch.arbiter ind).1 input.tcpconn
    refine (congrFun (hnode 2 (by decide) _ out ?_ hout) 0).trans h0
    show [env (.node 1) 0, env .graphInput 3] = _
    rw [hquery, hgiven]
    rfl
  obtain ⟨out, hout, hproto, hct⟩ := dmsTask_protoDiag g isUsable ch o
    (getQuery ch.arbiter ind).1 input.tcpconn input.packet input.listen input.ratio input.nicIP
  have hdiag : env (.node 3) = out := by
    refine hnode 3 (by decide) _ out ?_ hout
    show [env (.node 1) 0, env .graphInput 3, env .graphInput 2, env .graphInput 1, env .graphInput 4,
      env .graphInput 5] = _
    rw [hquery, hgiven]
    rfl
  refine ⟨?_, ?_⟩
  · obtain ⟨out', hout', h0⟩ := dmsTask_flood (P := P) g isUsable ch o hf
    show env (.node 4) 0 = _
    refine (congrFun (hnode 4 (by decide) _ out' ?_ hout') 0).trans h0
    show [env (.node 3) 0, env (.node 3) 1] = _
    rw [hdiag, hproto, hct]
  · obtain ⟨out', hout', h0⟩ := dmsTask_slow (P := P) g isUsable ch o
      (dmsConnDiag ch.slow ch.conn input.tcpconn (getQuery ch.arbiter ind).1) input.nicIP
    show (env (.node 5) 0).slow = _
    rw [hnode 5 (by decide) _ out' ?_ hout', h0]
    show [env (.node 2) 0, env .graphInput 5] = _
    rw [hconn, hgiven]
    rfl

end Rounds

/-- A node reads from nodes before it. -/
theorem dmsGraph_reads_lt {s : String} {a b : Nat} (h : Reads dmsGraph.graphInputStream.name dmsGraph.streams s a b) :
    a < b := by
  have hall : ∀ a ∈ List.range 6, ∀ b ∈ List.range 6, ∀ s ∈ (dmsGraph.streams.getD b ([], [])).1,
      s ∈ (dmsGraph.streams.getD a ([], [])).2 → s ∉ dmsGraph.graphInputStream.name → a < b := by decide
  have hget : ∀ i e, dmsGraph.streams[i]? = some e → i ∈ List.range 6 ∧ dmsGraph.streams.getD i ([], []) = e := by
    intro i e hi
    exact ⟨List.mem_range.mpr (List.getElem?_eq_some_iff.mp hi).1, by rw [List.getD, hi]; rfl⟩
  obtain ⟨hs, ⟨reader, hreader, hin⟩, maker, hmaker, hout⟩ := h
  obtain ⟨hb, rfl⟩ := hget b reader hreader
  obtain ⟨ha, rfl⟩ := hget a maker hmaker
  exact hall a ha b hb s hin hout hs

/-- The graph is accepted, whatever the orders in which the maps are ranged over. -/
theorem dmsGraph_accepted (ord : EdgeOrders) :
    ∃ nodeEdge sortedNodes, dmsGraph.getNodeEdge ord = some (.ok (nodeEdge, sortedNodes)) := by
  have hchecked : Checked dmsGraph.graphInputStream.name dmsGraph.graphOutputStream.name dmsGraph.streams :=
    ⟨by decide, by decide, by decide, by decide⟩
  have hcorrect := getEdges_correct ord dmsGraph.graphInputStream.name dmsGraph.graphOutputStream.name dmsGraph.streams
  have hlt : ∀ a b,
      Relation.TransGen (fun a b => ∃ s, Reads dmsGraph.graphInputStream.name dmsGraph.streams s a b) a b → a < b := by
    intro a b hab
    induction hab with
    | single h => exact dmsGraph_reads_lt h.choose_spec
    | tail _ h ih => exact ih.trans (dmsGraph_reads_lt h.choose_spec)
  obtain ⟨nodeEdge, sortedNodes, hsome, -⟩ := hcorrect.accepted hchecked fun hloop => by
    obtain ⟨a, ha⟩ := (hcorrect.loop hchecked).mp hloop
    exact Nat.lt_irrefl a (hlt a a ha)
  exact ⟨nodeEdge, sortedNodes, hsome⟩

theorem dmsGraph_leads : ∀ a < dmsGraph.nodes.length, dmsGraph.Leads a := by
  have h4 : dmsGraph.Leads 4 := .output 4 "fResponds" (by decide) (by decide)
  have h5 : dmsGraph.Leads 5 := .output 5 "sRespond" (by decide) (by decide)
  have h2 : dmsGraph.Leads 2 := .node 2 5 "conndiag" (by decide) (by decide) (by decide) h5
  have h3 : dmsGraph.Leads 3 := .node 3 4 "ctinfo" (by decide) (by decide) (by decide) h4
  have h1 : dmsGraph.Leads 1 := .node 1 2 "query" (by decide) (by decide) (by decide) h2
  have h0 : dmsGraph.Leads 0 := .node 0 1 "assessorInd" (by decide) (by decide) (by decide) h1
  intro a ha
  have ha : a < 6 := ha
  interval_cases a <;> assumption

section Service

variable {P S F : Type}

/-- What the service has read of a graph output. -/
def readsOf (s : FlowState (DmsDatum P F)) (name : String) : List (DmsDatum P F) :=
  (dmsGraph.channels.channel .graphOutput name).elim [] s.reads

/-- The alarms that have come out are those of the first passes, in their order; where nothing can go on they are those
of all passes. No channel holds the data of two rounds. -/
structure Detects (x : Dni.Flow (DmsDatum P F)) (responds : Nat → List AttackInfo × Option SlowRespond)
    (s : FlowState (DmsDatum P F)) : Prop where
  floods : (readsOf s "fResponds").map DmsDatum.floods <+:
    (List.range x.rounds).map fun k => some (responds k).1
  slow : (readsOf s "sRespond").map DmsDatum.slow <+: (List.range x.rounds).map fun k => (responds k).2
  ends : x.Rests s → (readsOf s "fResponds").length = x.rounds ∧ (readsOf s "sRespond").length = x.rounds
  queue : ∀ ch ∈ x.channels, (s.chan ch).queue.length ≤ 1

/-- The service's graph is accepted, and with a service that waits for the alarms of a slot before it takes the next
one, every run puts out the detection of each slot, in the order of the slots, and ends. -/
theorem dmsGraph_detects [FloatArith F] [LE F] [DecidableLE F] [LT F] [DecidableLT F] (g : Gopacket P S)
    (isUsable : String → Bool) (ch : Nat → DmsChoices S F) (o : DmsOptions F) (input : Nat → DmsInput P F)
    (rounds : Nat) (responds : Nat → List AttackInfo × Option SlowRespond)
    (hdetect : ∀ k < rounds, detect g isUsable (ch k) o (input k) = some (responds k)) (ord : EdgeOrders)
    (lord : GoMap.Order String (List Nat)) (cord : Producer → GoMap.Order String (List Consumer)) :
    getGraphUnit dmsGraphConf = .ok dmsGraph ∧
    ∃ nodeEdge sortedNodes, dmsGraph.getNodeEdge ord = some (.ok (nodeEdge, sortedNodes)) ∧
      let x := dmsFlow g isUsable ch o input rounds (dmsGraph.flow (dmsGraph.wiring lord nodeEdge) cord)
      ∃ bound, ∀ es, Meets x.step x.Awaits x.init es → Always x.step (Detects x responds) x.init es ∧
        ∀ t, es.foldlM x.step x.init = some t → es.length ≤ bound := by
  obtain ⟨nodeEdge, sortedNodes, h⟩ := dmsGraph_accepted ord
  refine ⟨getGraphUnit_dmsGraphConf, nodeEdge, sortedNodes, h, ?_⟩
  intro x
  have hl := dmsGraph.accepted_linked ord lord h
  obtain ⟨bound, hrun⟩ := hl.lockstep (by decide) (by decide) dmsGraph_leads (x := x) rfl rfl dmsFlow_keeps
  have hround : ∀ k < rounds, ∀ env, env = dmsGraph.evalRound (x.task · (k + 1)) x.nil sortedNodes (x.given k) →
      (dmsGraph.streamValue env .graphOutput "fResponds").floods = some (responds k).1 ∧
        (dmsGraph.streamValue env .graphOutput "sRespond").slow = (responds k).2 := by
    rintro k hk env rfl
    obtain ⟨hfloods, hslow⟩ := evalRound_detect hl (hdetect k hk)
    exact ⟨congrArg DmsDatum.floods hfloods, hslow⟩
  have hfloods : (dmsGraph.outputValues sortedNodes x "fResponds").map DmsDatum.floods =
      (List.range rounds).map fun k => some (responds k).1 := by
    rw [GraphUnit.outputValues, List.map_map]
    exact List.map_congr_left fun k hk => (hround k (List.mem_range.mp hk) _ rfl).1
  have hslow : (dmsGraph.outputValues sortedNodes x "sRespond").map DmsDatum.slow =
      (List.range rounds).map fun k => (responds k).2 := by
    rw [GraphUnit.outputValues, List.map_map]
    exact List.map_congr_left fun k hk => (hround k (List.mem_range.mp hk) _ rfl).2
  obtain ⟨f, hf⟩ := (hl.channel .graphOutput "fResponds").mpr (List.mem_cons_self)
  obtain ⟨c, hc⟩ := (hl.channel .graphOutput "sRespond").mpr (List.mem_cons_of_mem _ List.mem_cons_self)
  refine ⟨bound, fun es hmeets => ⟨(hrun es hmeets).1.imp fun s hs => ?_, (hrun es hmeets).2⟩⟩
  have hreadsf : readsOf s "fResponds" = s.reads f := by rw [readsOf, hf]; rfl
  have hreadsc : readsOf s "sRespond" = s.reads c := by rw [readsOf, hc]; rfl
  refine ⟨?_, ?_, fun hrests => ⟨?_, ?_⟩, hs.queue⟩
  · rw [hreadsf, show x.rounds = rounds from rfl, ← hfloods]
    exact (hs.reads _ f hf).map _
  · rw [hreadsc, show x.rounds = rounds from rfl, ← hslow]
    exact (hs.reads _ c hc).map _
  · rw [hreadsf, hs.ends hrests _ f hf, GraphUnit.outputValues, List.length_map, List.length_range]
  · rw [hreadsc, hs.ends hrests _ c hc, GraphUnit.outputValues, List.length_map, List.length_range]

end Service

/-- Two slots, in both of which the host is pinged. -/
theorem dmsGraph_detects_pinged : ∃ nodeEdge sortedNodes responds,
    dmsGraph.getNodeEdge ⟨.stored, fun _ => .stored⟩ = some (.ok (nodeEdge, sortedNodes)) ∧
    detect echoPackets (fun _ => false) storedDms twoPackets pinged = some responds ∧
      let x := dmsFlow echoPackets (fun _ => false) (fun _ => storedDms) twoPackets (fun _ => pinged) 2
        (dmsGraph.flow (dmsGraph.wiring .stored nodeEdge) fun _ => .stored)
      ∀ es, Meets x.step x.Awaits x.init es → Always x.step (Detects x fun _ => responds) x.init es := by
  have hsome : (detect echoPackets (fun _ => false) storedDms twoPackets pinged).isSome = true := by decide +kernel
  obtain ⟨responds, hdetect⟩ := Option.isSome_iff_exists.mp hsome
  obtain ⟨-, nodeEdge, sortedNodes, haccepted, bound, hruns⟩ := dmsGraph_detects echoPackets (fun _ => false)
    (fun _ => storedDms) twoPackets (fun _ => pinged) 2 (fun _ => responds) (fun _ _ => hdetect)
    ⟨.stored, fun _ => .stored⟩ .stored fun _ => .stored
  exact ⟨nodeEdge, sortedNodes, responds, haccepted, hdetect, fun es hmeets => (hruns es hmeets).1⟩

end Dni.Dms
