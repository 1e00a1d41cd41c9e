import Dni.GraphEval
import Dni.GraphValueSteps
import Dni.GraphShutdown

namespace Dni

open GoMap Runs

variable {V : Type}

/-- Every graph output has had the values of the first rounds in their order; where nothing can go on, those of all
rounds. -/
def GraphUnit.Synchronous (gu : GraphUnit) (task : Nat → List V → TaskResult V) (sortedNodes : List Nat) (x : Flow V)
    (s : FlowState V) : Prop :=
  ∀ name ch, gu.channels.channel .graphOutput name = some ch →
    let values := (List.range x.rounds).map fun k =>
      gu.streamValue (gu.evalRound task x.nil sortedNodes (x.given k)) .graphOutput name
    s.reads ch <+: values ∧ (x.Stuck s → s.reads ch = values)

namespace Flow

variable {x : Flow V} {s : FlowState V} {out : Nat → Producer → Nat → V} {value : Nat → Nat → V}

/-- What has been read from a graph output. -/
theorem InSync.reads_values (hg : x.Sound) (h : x.InSync out value s) {ch : Nat} (hout : ch ∈ x.outputs) :
    s.reads ch <+: (List.range x.rounds).map (value · ch) ∧
      (x.Stuck s → s.reads ch = (List.range x.rounds).map (value · ch)) := by
  obtain ⟨p, hf⟩ := hg.made ch hout
  have hcount := h.counted.output p ch hf hout
  have hle := (h.counted.sent_le hf.1 ch).1
  have hreads := h.valued.reads ch hout
  refine ⟨?_, fun hs => ?_⟩
  · have hmin : min (s.reads ch).length x.rounds = (s.reads ch).length := by omega
    rw [hreads, ← hmin, ← List.take_range, List.map_take]
    exact List.take_prefix _ _
  · have hread := hs (.read ch)
    simp only [Flow.step, if_pos hout] at hread
    split at hread
    next => cases hread
    next hqueue =>
      rw [hqueue, List.length_nil, Nat.zero_add, h.counted.sent_all hg hs hf.1] at hcount
      rw [hreads, hcount]

end Flow

/-- In an accepted graph whose nodes with outputs have inputs, and that lists no graph input that a node takes twice,
every run in which no Process changes a datum that is on its way puts out what an evaluation of each round gives, and
none of these runs goes on for ever. -/
theorem GraphUnit.synchronous_dataflow (gu : GraphUnit) (ord : EdgeOrders) (lord : Order String (List Nat))
    (cord : Producer → Order String (List Consumer)) {nodeEdge : NodeEdges} {sortedNodes : List Nat}
    (h : gu.getNodeEdge ord = some (.ok (nodeEdge, sortedNodes)))
    (hinputs : ∀ node ∈ gu.nodes, node.outputStream.name ≠ [] → node.inputStream.name ≠ [])
    (hnames : ∀ node ∈ gu.nodes, ∀ s ∈ node.inputStream.name, gu.graphInputStream.name.count s ≤ 1)
    (x : Flow V) (hx : x.toFlowGraph = gu.flow (gu.wiring lord nodeEdge) cord) (hstops : x.stops = false)
    (task : Nat → List V → TaskResult V) (htask : ∀ a k, x.task a k = task a) :
    ∃ bound, ∀ es, Meets x.step x.Spares x.init es →
      Always x.step (gu.Synchronous task sortedNodes x) x.init es ∧
        ∀ t, es.foldlM x.step x.init = some t → es.length ≤ bound := by
  have hl := gu.accepted_linked ord lord h
  have hg : x.Sound := hx ▸ hl.sound hnames hinputs
  obtain ⟨value, hv, hvalue⟩ := hl.evaluates hnames hx htask
  have hgood : ∀ s, x.InSync (fun k => gu.evalRound task x.nil sortedNodes (x.given k)) value s →
      gu.Synchronous task sortedNodes x s := by
    intro s hs name ch hch
    have hout : ch ∈ x.outputs := by
      rw [hx]
      exact (mem_outputs_flow hl.channel).mpr ⟨name, hch⟩
    have hsame : (List.range x.rounds).map (value · ch) = (List.range x.rounds).map fun k =>
        gu.streamValue (gu.evalRound task x.nil sortedNodes (x.given k)) .graphOutput name :=
      List.map_congr_left fun k _ => hvalue k _ _ _ hch
    rw [← hsame]
    exact hs.reads_values hg hout
  have hstep : ∀ s e t, x.InSync (fun k => gu.evalRound task x.nil sortedNodes (x.given k)) value s →
      x.step s e = some t → x.Spares s e →
      x.InSync (fun k => gu.evalRound task x.nil sortedNodes (x.given k)) value t ∧ x.left t < x.left s := by
    intro s e t hs ht hspares
    obtain ⟨hkeeps, hnext⟩ := hs.step hg hv hstops ht hspares
    exact ⟨hnext, hs.counted.left_lt hg ht hkeeps⟩
  refine ⟨x.left x.init, fun es hmeets => ⟨?_, fun t ht => length_le_of_less hstep Flow.inSync_init hmeets ht⟩⟩
  exact (always_of_meets (fun s e t hs ht hspares => (hstep s e t hs ht hspares).1) Flow.inSync_init hmeets).imp hgood

def copyTask (_ : Nat) (inputs : List Nat) : TaskResult Nat :=
  ⟨fun id => inputs.getD id 0, some fun id => inputs.getD id 0⟩

def sumTask (_ : Nat) (inputs : List Nat) : TaskResult Nat :=
  ⟨fun id => inputs.getD id 0, some fun _ => inputs.sum⟩

/-- Two rounds, the first of which is read before the second is processed. -/
theorem GraphUnit.synchronous_dataflow_join : Always (joinFlow 2 false).step
    (joinGraph.Synchronous sumTask [0, 1] (joinFlow 2 false)) (joinFlow 2 false).init
    (List.replicate 6 .source ++ joinRound ++ List.replicate 7 (.node 0) ++ List.replicate 8 (.node 1) ++ [.read 0]) := by
  obtain ⟨bound, h⟩ := @GraphUnit.synchronous_dataflow Nat joinGraph ⟨.stored, fun _ => .stored⟩ .stored
    (fun _ => .stored) joinEdge [0, 1] rfl (by decide) (by decide) (joinFlow 2 false) rfl rfl sumTask
    fun _ _ => rfl
  exact (h _ (by decide)).1

/-- Both rounds are processed before the first is read, in the same output slot: the reader finds the second. -/
theorem GraphUnit.slot_overwritten : ¬ Always (oneNodeFlow 2 false).step
    (oneNode.Synchronous copyTask [0] (oneNodeFlow 2 false)) (oneNodeFlow 2 false).init
    (List.replicate 8 .source ++ List.replicate 14 (.node 0) ++ [.read 0]) := by
  intro h
  obtain ⟨hfirst, -⟩ := h.last rfl "b" 0 rfl
  revert hfirst
  decide

end Dni
