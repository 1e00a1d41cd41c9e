import Dni.GraphStuck
import Dni.GraphWork
import Dni.GraphSound
import Dni.Lib.Runs

namespace Dni

open GoMap Runs

variable {V : Type}

namespace Flow

variable (x : Flow V)

/-- The calls of Subscribe so far are the first ones of a clean shutdown; where nothing can go on, they are all of
them, and the nodes have returned. -/
structure Clean (s : FlowState V) : Prop where
  rounds : ∀ a < x.size, (s.node a).rounds <+: x.cleanRounds a
  ends : x.Stuck s → ∀ a < x.size, (s.node a).rounds = x.cleanRounds a ∧ (s.node a).pos = .returned

variable {x} {s : FlowState V}

theorem Running.rounds_first {a : Nat} {m : FlowNode} (h : x.Running a m) : m.rounds <+: x.cleanRounds a := by
  rw [h.rounds]
  refine List.IsPrefix.trans ?_ (List.prefix_append _ _)
  exact ⟨List.replicate (x.rounds - m.rounds.length) (x.full a), by rw [List.replicate_append_replicate,
    Nat.add_sub_cancel' h.le]⟩

theorem Counted.rounds_first (h : x.Counted s) {a : Nat} (ha : x.Busy a) :
    (s.node a).rounds <+: x.cleanRounds a := by
  have hok := h.node a ha
  unfold NodeOk at hok
  split at hok
  next => exact hok.1.rounds_first
  next => exact hok.1.rounds_first
  next => exact hok.1.rounds_first
  next => exact hok.1.rounds_first
  next => rw [hok.1]
  next => rw [hok]

theorem Counted.clean (hg : x.Sound) (hbusy : ∀ a < x.size, x.Busy a) (h : x.Counted s) (hstops : x.stops = true) :
    x.Clean s := by
  refine ⟨fun a ha => h.rounds_first (hbusy a ha), fun hs a ha => ?_⟩
  have hpos := h.all_return hg hs hstops (hbusy a ha)
  have hok := h.node a (hbusy a ha)
  simp only [NodeOk, hpos] at hok
  exact ⟨hok, hpos⟩

end Flow

/-- In an accepted graph whose nodes all have inputs, of which no graph input is listed twice, every run in which
the ranges of CloseInputChannel receive nothing is a clean shutdown, and none of these runs goes on for ever. -/
theorem GraphUnit.clean_shutdown (gu : GraphUnit) (ord : EdgeOrders) (lord : Order String (List Nat))
    (cord : Producer → Order String (List Consumer)) {nodeEdge : NodeEdges} {sortedNodes : List Nat}
    (h : gu.getNodeEdge ord = some (.ok (nodeEdge, sortedNodes)))
    (hinputs : ∀ node ∈ gu.nodes, node.inputStream.name ≠ [])
    (hnames : ∀ node ∈ gu.nodes, ∀ s ∈ node.inputStream.name, gu.graphInputStream.name.count s ≤ 1)
    (x : Flow V) (hx : x.toFlowGraph = gu.flow (gu.wiring lord nodeEdge) cord) (hstops : x.stops = true) :
    ∃ bound, ∀ es, Meets x.step FlowState.Keeps x.init es →
      Always x.step x.Clean x.init es ∧ ∀ t, es.foldlM x.step x.init = some t → es.length ≤ bound := by
  have hl := gu.accepted_linked ord lord h
  have hg : x.Sound := hx ▸ hl.sound hnames fun node hnode _ => hinputs node hnode
  have hbusy : ∀ a < x.size, x.Busy a := by
    rw [hx]
    exact fun a ha => busy_of_name hl.channel ha (hinputs _ (List.getElem_mem ha))
  refine ⟨x.left x.init, fun es hmeets => ⟨?_, fun t ht => ?_⟩⟩
  · exact (always_of_meets (fun s e t hs ht hkeeps => hs.step hg ht hkeeps) Flow.counted_init hmeets).imp
      fun s hs => hs.clean hg hbusy hstops
  · exact length_le_of_less (fun s e t hs ht hkeeps => ⟨hs.step hg ht hkeeps, hs.left_lt hg ht hkeeps⟩)
      Flow.counted_init hmeets ht

/-- The graph of one node, whose task copies its input, with its inputs closed after `rounds` rounds or left open. -/
def oneNodeFlow (rounds : Nat) (stops : Bool) : Flow Nat where
  toFlowGraph := oneNode.flow (oneNode.wiring .stored oneNodeEdge) fun _ => .stored
  rounds := rounds
  stops := stops
  given k _ := k
  task _ _ inputs := ⟨fun id => inputs.getD id 0, some fun id => inputs.getD id 0⟩
  nil := 0

/-- The graph of two nodes, whose tasks add their inputs. -/
def joinFlow (rounds : Nat) (stops : Bool) : Flow Nat where
  toFlowGraph := joinGraph.flow (joinGraph.wiring .stored joinEdge) fun _ => .stored
  rounds := rounds
  stops := stops
  given k id := 10 * k + id
  task _ _ inputs := ⟨fun id => inputs.getD id 0, some fun _ => inputs.sum⟩
  nil := 0

/-- A round of the graph, from its inputs to its output. -/
def joinRound : List FlowEvent :=
  List.replicate 6 .source ++ List.replicate 7 (.node 0) ++ List.replicate 8 (.node 1) ++ [.read 0]

instance (s : FlowState V) (e : FlowEvent) : Decidable (s.Keeps e) :=
  inferInstanceAs (Decidable (∀ ch ∈ s.draining e, (s.chan ch).queue = []))

/-- The nodes are done before the channels that they read are closed. -/
theorem GraphUnit.clean_shutdown_join :
    Always (joinFlow 1 true).step (joinFlow 1 true).Clean (joinFlow 1 true).init
      (joinRound ++ List.replicate 6 .source ++ List.replicate 5 (.node 0) ++ List.replicate 6 (.node 1)) := by
  obtain ⟨bound, h⟩ := @GraphUnit.clean_shutdown Nat joinGraph ⟨.stored, fun _ => .stored⟩ .stored
    (fun _ => .stored) joinEdge [0, 1] rfl (by decide) (by decide) (joinFlow 1 true) rfl rfl
  exact (h _ (by decide)).1

/-- The source closes the channel and drains it before the node receives: the node sees no full round. -/
theorem GraphUnit.close_drains_queue : ¬ Always (oneNodeFlow 1 true).step (oneNodeFlow 1 true).Clean (oneNodeFlow 1 true).init
    (List.replicate 7 .source ++ List.replicate 2 (.node 0)) := by
  intro h
  have hend := (h.last rfl).rounds 0 (by decide)
  revert hend
  decide

end Dni
