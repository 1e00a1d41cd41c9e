import Dni.ExecutorRun
import Dni.Lib.Causal
import Dni.ProcessEffect

namespace Dni.Cpp

open Utils Threads NodeProg

variable {α σ : Type}

/-- What the tasks of the nodes leave behind. -/
abbrev Results (α σ : Type) := ∀ node : Node,
  ProcessResult α σ node.info.Config.Outputs.names.length node.info.Config.OutputSideData.names.length

namespace ObservedGraph

variable (g : ObservedGraph)

/-- What some nodes send to an input stream. -/
def sent (results : Results α σ) (nodes : List Node) (ref : ManagerRef) : List (Datum α) :=
  nodes.flatMap fun node => node.sends g (results node) ref

/-- What some nodes set a slot of a node to. -/
def set (results : Results α σ) (nodes : List Node) (i slot : Nat) : List (Datum α) :=
  nodes.flatMap fun node => node.sets g (results node) i slot

/-- The graph between two rounds: the contexts of its nodes are as PrepareForRun made them, and no stream has come to
its end. -/
structure Between (mem : GraphMemory α σ) : Prop where
  idle : ∀ node ∈ g.graph.nodes, (mem (.node node.index)).Idle node
  running : ∀ node ∈ g.graph.nodes, ∀ slot, slot < node.info.Config.Inputs.names.length →
    (mem (.manager (slotManager node slot))).Running

end ObservedGraph

namespace Results

variable (g : ObservedGraph) (mem : GraphMemory α σ) (results : Results α σ)

/-- The streams that the task of a node is given in a round: what was in them, and what the nodes send to them. -/
def inputs (node : Node) : List (InputStreamImpl α) :=
  (List.range node.info.Config.Inputs.names.length).map fun slot =>
    ⟨((mem (.manager (slotManager node slot))).addData (g.sent results g.graph.nodes (slotManager node slot))).handed, false⟩

/-- The side data that it is given: what they were, or what the nodes set them to. -/
def sideData (node : Node) : List (Datum α) :=
  (List.range node.info.Config.InputSideData.names.length).map fun slot =>
    acceptData (mem (.inputSideDatum node.index slot)) (g.set results g.graph.nodes node.index slot)

/-- What the tasks make of it. -/
def processed (tasks : ∀ node : Node, node.Task α σ) : Results α σ := fun node =>
  (tasks node).Process (results.inputs g mem node) (results.sideData g mem node) (mem (.node node.index)).task

/-- The results are those of a round: each task makes its own of what it is given. -/
def Solves (tasks : ∀ node : Node, node.Task α σ) : Prop :=
  ∀ node ∈ g.graph.nodes, results node = results.processed g mem tasks node

/-- What the round leaves in the memory. -/
structure Leaves (mem' : GraphMemory α σ) : Prop where
  context : ∀ node ∈ g.graph.nodes, mem' (.node node.index) = { mem (.node node.index) with task := (results node).task }
  drained : ∀ node ∈ g.graph.nodes, ∀ slot, slot < node.info.Config.Inputs.names.length →
    mem' (.manager (slotManager node slot)) = ((mem (.manager (slotManager node slot))).addData
      (g.sent results g.graph.nodes (slotManager node slot))).drained
  sent : ∀ ref, (∀ node ∈ g.graph.nodes, ∀ slot, slot < node.info.Config.Inputs.names.length →
    ref ≠ slotManager node slot) → mem' (.manager ref) = (mem (.manager ref)).addData (g.sent results g.graph.nodes ref)
  reset : ∀ node ∈ g.graph.nodes, ∀ slot, slot < node.info.Config.InputSideData.names.length →
    Datum.IsEmpty (mem' (.inputSideDatum node.index slot)) = true

end Results

section Streams

/-- Data that can be sent do not bring a stream to its end. -/
theorem InputStreamManager.Running.addData {m : InputStreamManager α} (hm : m.Running) {data : List (Datum α)}
    (hdata : ∀ d ∈ data, d.Sendable = true) : (m.addData data).Running := by
  induction data generalizing m with
  | nil => exact hm
  | cons d data ih =>
    rw [List.forall_mem_cons] at hdata
    refine ih ?_ hdata.2
    have hd := hdata.1
    simp only [Datum.Sendable, Bool.and_eq_true, decide_eq_true_eq] at hd
    have hend := hd.1.2
    simp only [timestampEnd] at hend
    show d.ts + 1 ≠ ctimeMax
    omega

theorem InputStreamManager.addData_append (m : InputStreamManager α) (data data' : List (Datum α)) :
    m.addData (data ++ data') = (m.addData data).addData data' := List.foldl_append

theorem acceptData_append (d : Datum α) (data data' : List (Datum α)) :
    acceptData d (data ++ data') = acceptData (acceptData d data) data' := List.foldl_append

variable {g : ObservedGraph} {results : Results α σ}

theorem Node.sends_sendable {node : Node}
    {result : ProcessResult α σ node.info.Config.Outputs.names.length node.info.Config.OutputSideData.names.length}
    {ref : ManagerRef} : ∀ d ∈ node.sends g result ref, d.Sendable = true := by
  intro d hd
  obtain ⟨o, _, hin⟩ := List.mem_flatMap.mp hd
  exact (List.mem_filter.mp (ObservedGraph.mem_of_mirrored hin)).2

theorem ObservedGraph.sent_sendable {nodes : List Node} {ref : ManagerRef} :
    ∀ d ∈ g.sent results nodes ref, d.Sendable = true := by
  intro d hd
  obtain ⟨node, _, hin⟩ := List.mem_flatMap.mp hd
  exact Node.sends_sendable d hin

end Streams

theorem GraphMemory.opened_between (g : ObservedGraph) (unset : Int) (fields : Nat → σ) :
    g.Between (GraphMemory.opened unset fields : GraphMemory α σ) where
  idle _ _ := ⟨rfl, fun _ _ => rfl, fun _ _ => rfl⟩
  running _ _ _ _ := by
    simp [InputStreamManager.Running, opened, InputStreamManager.prepareForRun, timestampBegin, ctimeMin, ctimeMax]

/-- Data that can be sent may come to a stream between two rounds. -/
theorem ObservedGraph.Between.addData {g : ObservedGraph} {mem : GraphMemory α σ} (h : g.Between mem) (ref : ManagerRef)
    {data : List (Datum α)} (hdata : ∀ d ∈ data, d.Sendable = true) :
    g.Between (Function.update mem (.manager ref) ((mem (.manager ref)).addData data)) := by
  refine ⟨?_, ?_⟩
  · intro node hnode
    rw [Function.update_of_ne (by simp)]
    exact h.idle node hnode
  · intro node hnode slot hslot
    by_cases heq : slotManager node slot = ref
    · subst heq
      rw [Function.update_self]
      exact (h.running node hnode slot hslot).addData hdata
    · rw [Function.update_of_ne (fun hcell => heq (Cell.manager.inj hcell))]
      exact h.running node hnode slot hslot

/-- A graph whose nodes read those before them only. -/
structure ObservedGraph.Staged (g : ObservedGraph) : Prop where
  linked : g.Linked
  sideLinked : SideLinked g
  index : ∀ (i : Nat) node, g.graph.nodes[i]? = some node → node.index = i
  slot_inj : ∀ (i j : Nat) node node' slot slot', g.graph.nodes[i]? = some node → g.graph.nodes[j]? = some node' →
    slot < node.info.Config.Inputs.names.length → slot' < node'.info.Config.Inputs.names.length →
    slotManager node slot = slotManager node' slot' → i = j ∧ slot = slot'
  streams : ∀ (i j : Nat) node pred slot o, g.graph.nodes[i]? = some node → g.graph.nodes[j]? = some pred →
    slot < node.info.Config.Inputs.names.length → o < pred.info.Config.Outputs.names.length →
    ∀ m ∈ g.Mirrors (pred.info.outputStreamBaseIndex + o), g.inputStreamManager m = some (slotManager node slot) → j < i
  sideData : ∀ (i j : Nat) node pred slot o, g.graph.nodes[i]? = some node → g.graph.nodes[j]? = some pred →
    slot < node.info.Config.InputSideData.names.length → o < pred.info.Config.OutputSideData.names.length →
    (i, slot) ∈ g.graph.sideMirrors (pred.info.outputSideDataBaseIndex + o) → j < i

/-- A graph that was initialised from a configuration the executor can schedule. -/
theorem ObservedGraph.staged {config : GraphConfig} {faults : List Fault} {graph : Graph}
    (h : Graph.Initialize config = .ok (faults, graph)) (hconfig : config.Schedulable) (observed : List Nat) :
    (⟨graph, observed⟩ : ObservedGraph).Staged := by
  refine ⟨ObservedGraph.linked h observed, Graph.nodup_sideMirrors h, ?_, ?_, ?_, ?_⟩
  · intro i node hi
    exact (node_at h hi).1
  · intro i j node node' slot slot' hi hj hslot hslot' heq
    exact ObservedGraph.input_place_inj h (node_at h hi).2 (node_at h hj).2 hslot hslot' (ManagerRef.input.inj heq)
  · intro i j node pred slot o hi hj hslot ho m hm href
    exact hconfig.reads_lt (reads_of_mirror h hi hj hslot ho hm href)
  · intro i j node pred slot o hi hj hslot ho hm
    exact hconfig.reads_lt (reads_of_sideMirror h hi hj hslot ho hm)

namespace ObservedGraph.Staged

variable {g : ObservedGraph} (hg : g.Staged) {i j k : Nat} {node pred : Node} (results : Results α σ)
include hg

theorem apart (hi : g.graph.nodes[i]? = some node) : node.Apart g := by
  refine ⟨?_, ?_⟩
  · intro slot hslot o ho m hm href
    exact Nat.lt_irrefl i (hg.streams i i node node slot o hi hi hslot ho m hm href)
  · intro slot hslot o ho hm
    rw [hg.index i node hi] at hm
    exact Nat.lt_irrefl i (hg.sideData i i node node slot o hi hi hslot ho hm)

theorem sends_of_le (hi : g.graph.nodes[i]? = some node) (hj : g.graph.nodes[j]? = some pred) (hle : i ≤ j) {slot : Nat}
    (hslot : slot < node.info.Config.Inputs.names.length) : pred.sends g (results pred) (slotManager node slot) = [] := by
  apply Node.sends_of_not
  intro o ho m hm href
  have hlt := hg.streams i j node pred slot o hi hj hslot ho m hm href
  omega

theorem sets_of_le (hi : g.graph.nodes[i]? = some node) (hj : g.graph.nodes[j]? = some pred) (hle : i ≤ j) {slot : Nat}
    (hslot : slot < node.info.Config.InputSideData.names.length) : pred.sets g (results pred) i slot = [] := by
  apply Node.sets_of_not
  intro o ho hm
  have hlt := hg.sideData i j node pred slot o hi hj hslot ho hm
  omega

/-- What comes to a stream of a node has come when the node's turn is. -/
theorem sent_take (hi : g.graph.nodes[i]? = some node) (hle : i ≤ k) {slot : Nat}
    (hslot : slot < node.info.Config.Inputs.names.length) :
    g.sent results (g.graph.nodes.take k) (slotManager node slot) =
      g.sent results (g.graph.nodes.take i) (slotManager node slot) := by
  induction k, hle using Nat.le_induction with
  | base => rfl
  | succ k hle ih =>
    rw [List.take_add_one, sent, List.flatMap_append]
    cases hk : g.graph.nodes[k]? with
    | none => exact (List.append_nil _).trans ih
    | some pred =>
      rw [Option.toList_some, List.flatMap_singleton, hg.sends_of_le results hi hk hle hslot, List.append_nil]
      exact ih

theorem sent_all (hi : g.graph.nodes[i]? = some node) {slot : Nat}
    (hslot : slot < node.info.Config.Inputs.names.length) :
    g.sent results (g.graph.nodes.take i) (slotManager node slot) = g.sent results g.graph.nodes (slotManager node slot) := by
  have hlen := (List.getElem?_eq_some_iff.mp hi).1
  rw [← hg.sent_take results hi (Nat.le_of_lt hlen) hslot, List.take_of_length_le (Nat.le_refl _)]

theorem set_take (hi : g.graph.nodes[i]? = some node) (hle : i ≤ k) {slot : Nat}
    (hslot : slot < node.info.Config.InputSideData.names.length) :
    g.set results (g.graph.nodes.take k) i slot = g.set results (g.graph.nodes.take i) i slot := by
  induction k, hle using Nat.le_induction with
  | base => rfl
  | succ k hle ih =>
    rw [List.take_add_one, set, List.flatMap_append]
    cases hk : g.graph.nodes[k]? with
    | none => exact (List.append_nil _).trans ih
    | some pred =>
      rw [Option.toList_some, List.flatMap_singleton, hg.sets_of_le results hi hk hle hslot, List.append_nil]
      exact ih

theorem set_all (hi : g.graph.nodes[i]? = some node) {slot : Nat}
    (hslot : slot < node.info.Config.InputSideData.names.length) :
    g.set results (g.graph.nodes.take i) i slot = g.set results g.graph.nodes i slot := by
  have hlen := (List.getElem?_eq_some_iff.mp hi).1
  rw [← hg.set_take results hi (Nat.le_of_lt hlen) hslot, List.take_of_length_le (Nat.le_refl _)]

end ObservedGraph.Staged

/-- The memory when the first nodes have run. -/
structure RanUpTo (g : ObservedGraph) (results : Results α σ) (mem : GraphMemory α σ) (k : Nat) (m : GraphMemory α σ) :
    Prop where
  ran : ∀ (i : Nat) node, g.graph.nodes[i]? = some node → i < k →
    m (.node i) = { mem (.node i) with task := (results node).task }
  waits : ∀ (i : Nat) node, g.graph.nodes[i]? = some node → k ≤ i → m (.node i) = mem (.node i)
  drained : ∀ (i : Nat) node slot, g.graph.nodes[i]? = some node → slot < node.info.Config.Inputs.names.length → i < k →
    m (.manager (slotManager node slot)) = ((mem (.manager (slotManager node slot))).addData
      (g.sent results (g.graph.nodes.take k) (slotManager node slot))).drained
  sent : ∀ ref, (∀ (i : Nat) node slot, g.graph.nodes[i]? = some node → slot < node.info.Config.Inputs.names.length →
    i < k → ref ≠ slotManager node slot) →
      m (.manager ref) = (mem (.manager ref)).addData (g.sent results (g.graph.nodes.take k) ref)
  reset : ∀ (i : Nat) node slot, g.graph.nodes[i]? = some node → slot < node.info.Config.InputSideData.names.length →
    i < k → Datum.IsEmpty (m (.inputSideDatum i slot)) = true
  set : ∀ (i : Nat) node slot, g.graph.nodes[i]? = some node → slot < node.info.Config.InputSideData.names.length →
    k ≤ i → m (.inputSideDatum i slot) =
      acceptData (mem (.inputSideDatum i slot)) (g.set results (g.graph.nodes.take k) i slot)

section RanUpTo

variable {g : ObservedGraph} (hg : g.Staged) {results : Results α σ} {mem m m' : GraphMemory α σ} {k : Nat} {node : Node}

theorem RanUpTo.zero : RanUpTo g results mem 0 mem := by
  refine ⟨?_, fun _ _ _ _ => rfl, ?_, fun _ _ => rfl, ?_, fun _ _ _ _ _ _ => rfl⟩
  · intro i _ _ hlt
    exact absurd hlt (Nat.not_lt_zero i)
  · intro i _ _ _ _ hlt
    exact absurd hlt (Nat.not_lt_zero i)
  · intro i _ _ _ _ hlt
    exact absurd hlt (Nat.not_lt_zero i)

include hg

/-- When a node's turn is, its streams and side data are those of the round. -/
theorem RanUpTo.result (h : RanUpTo g results mem k m) (hk : g.graph.nodes[k]? = some node) (task : node.Task α σ) :
    node.result task m =
      task.Process (results.inputs g mem node) (results.sideData g mem node) (mem (.node node.index)).task := by
  have hindex := hg.index k node hk
  rw [Node.result, hindex, h.waits k node hk (Nat.le_refl _)]
  congr 1
  · apply List.map_congr_left
    intro slot hslot
    rw [List.mem_range] at hslot
    rw [h.sent, hg.sent_all results hk hslot]
    intro i node' slot' hi hslot' hlt heq
    have hij := (hg.slot_inj k i node node' slot slot' hk hi hslot hslot' heq).1
    omega
  · apply List.map_congr_left
    intro slot hslot
    rw [List.mem_range] at hslot
    rw [h.set k node slot hk hslot (Nat.le_refl _), hg.set_all results hk hslot, hindex]

/-- The memory when one more node has run. -/
theorem RanUpTo.succ (h : RanUpTo g results mem k m) (hk : g.graph.nodes[k]? = some node)
    (hprocessed : Processed g node (results node) m m') : RanUpTo g results mem (k + 1) m' := by
  have hindex := hg.index k node hk
  have htake : g.graph.nodes.take (k + 1) = g.graph.nodes.take k ++ [node] := by
    rw [List.take_add_one, hk, Option.toList_some]
  have hsent : ∀ ref, g.sent results (g.graph.nodes.take (k + 1)) ref =
      g.sent results (g.graph.nodes.take k) ref ++ node.sends g (results node) ref := by
    intro ref
    rw [htake, ObservedGraph.sent, List.flatMap_append, List.flatMap_singleton]
    rfl
  have hset : ∀ i slot, g.set results (g.graph.nodes.take (k + 1)) i slot =
      g.set results (g.graph.nodes.take k) i slot ++ node.sets g (results node) i slot := by
    intro i slot
    rw [htake, ObservedGraph.set, List.flatMap_append, List.flatMap_singleton]
    rfl
  have hother : ∀ i slot', i ≠ k → ∀ slot, slot < node.info.Config.InputSideData.names.length →
      (i, slot') ≠ (node.index, slot) := by
    intro i slot' hi slot _ heq
    exact hi ((Prod.mk.inj heq).1.trans hindex)
  refine ⟨?_, ?_, ?_, ?_, ?_, ?_⟩
  · intro i node' hi hlt
    by_cases hik : i = k
    · subst hik
      rw [hk, Option.some.injEq] at hi
      subst hi
      have hcontext := hprocessed.context
      rw [hindex, h.waits i node hk (Nat.le_refl _)] at hcontext
      exact hcontext
    · rw [hprocessed.nodes i (by omega)]
      exact h.ran i node' hi (by omega)
  · intro i node' hi hle
    rw [hprocessed.nodes i (by omega)]
    exact h.waits i node' hi (by omega)
  · intro i node' slot hi hslot hlt
    rw [hsent, hg.sends_of_le results hi hk (by omega) hslot, List.append_nil]
    by_cases hik : i = k
    · subst hik
      rw [hk, Option.some.injEq] at hi
      subst hi
      rw [hprocessed.drained slot hslot, h.sent]
      intro i' node' slot' hi' hslot' hlt' heq
      have hij := (hg.slot_inj i i' node node' slot slot' hk hi' hslot hslot' heq).1
      omega
    · rw [hprocessed.sent, hg.sends_of_le results hi hk (by omega) hslot]
      · exact h.drained i node' slot hi hslot (by omega)
      · intro slot' hslot' heq
        exact hik (hg.slot_inj i k node' node slot slot' hi hk hslot hslot' heq).1
  · intro ref href
    rw [hprocessed.sent ref fun slot hslot => href k node slot hk hslot (Nat.lt_succ_self k), hsent,
      InputStreamManager.addData_append, h.sent]
    intro i node' slot hi hslot hlt
    exact href i node' slot hi hslot (by omega)
  · intro i node' slot hi hslot hlt
    by_cases hik : i = k
    · subst hik
      rw [hk, Option.some.injEq] at hi
      subst hi
      have hreset := hprocessed.reset slot hslot
      rw [hindex] at hreset
      rw [hreset]
      rfl
    · rw [hprocessed.sideSent i slot (hother i slot hik), hg.sets_of_le results hi hk (by omega) hslot]
      exact h.reset i node' slot hi hslot (by omega)
  · intro i node' slot hi hslot hle
    rw [hprocessed.sideSent i slot (hother i slot (by omega)), hset, acceptData_append,
      h.set i node' slot hi hslot (by omega)]

end RanUpTo

section Round

variable {g : ObservedGraph} (hg : g.Staged) (tasks : ∀ node : Node, node.Task α σ) {mem : GraphMemory α σ}

/-- What the tasks do when the nodes run one after the other. -/
def ObservedGraph.results (g : ObservedGraph) (tasks : ∀ node : Node, node.Task α σ) (mem : GraphMemory α σ) :
    Results α σ := fun node => node.result (tasks node) (g.processEach tasks (g.graph.nodes.take node.index) mem).2

include hg

/-- The nodes run one after the other from a memory between two rounds. -/
theorem processEach_ranUpTo (hbetween : g.Between mem) (k : Nat) (hk : k ≤ g.graph.nodes.length) :
    RanUpTo g (g.results tasks mem) mem k (g.processEach tasks (g.graph.nodes.take k) mem).2 ∧
      (g.processEach tasks (g.graph.nodes.take k) mem).1 =
        (g.graph.nodes.take k).map fun node => (g.results tasks mem node).ret := by
  induction k with
  | zero => exact ⟨RanUpTo.zero, rfl⟩
  | succ k ih =>
    obtain ⟨hreached, hrets⟩ := ih (by omega)
    obtain ⟨node, hnode⟩ : ∃ node, g.graph.nodes[k]? = some node := ⟨_, List.getElem?_eq_getElem hk⟩
    have hmem := List.mem_of_getElem? hnode
    have hindex := hg.index k node hnode
    have htake : g.graph.nodes.take (k + 1) = g.graph.nodes.take k ++ [node] := by
      rw [List.take_add_one, hnode, Option.toList_some]
    have hresult : node.result (tasks node) (g.processEach tasks (g.graph.nodes.take k) mem).2 = g.results tasks mem node := by
      rw [ObservedGraph.results, hindex]
    have hidle : ((g.processEach tasks (g.graph.nodes.take k) mem).2 (.node node.index)).Idle node := by
      rw [hindex, hreached.waits k node hnode (Nat.le_refl _), ← hindex]
      exact hbetween.idle node hmem
    have hrunning : ∀ slot, slot < node.info.Config.Inputs.names.length →
        ((g.processEach tasks (g.graph.nodes.take k) mem).2 (.manager (slotManager node slot))).Running := by
      intro slot hslot
      rw [hreached.sent]
      · exact (hbetween.running node hmem slot hslot).addData ObservedGraph.sent_sendable
      · intro i node' slot' hi hslot' hlt heq
        have hij := (hg.slot_inj k i node node' slot slot' hnode hi hslot hslot' heq).1
        omega
    obtain ⟨hret, hprocessed⟩ := Process_processed (tasks node) hg.linked hg.sideLinked (hg.apart hnode) hidle hrunning
    rw [hresult] at hret hprocessed
    rw [htake, processEach_append]
    refine ⟨?_, ?_⟩
    · exact hreached.succ hg hnode hprocessed
    · rw [List.map_append, hrets]
      exact congrArg (fun ret => _ ++ [ret]) hret

theorem results_solves (hbetween : g.Between mem) : (g.results tasks mem).Solves g mem tasks := by
  intro node hmem
  obtain ⟨k, hk⟩ := List.mem_iff_getElem?.mp hmem
  obtain ⟨hreached, _⟩ := processEach_ranUpTo hg tasks hbetween k (Nat.le_of_lt (List.getElem?_eq_some_iff.mp hk).1)
  rw [← hg.index k node hk] at hreached hk
  exact hreached.result hg hk (tasks node)

/-- The memory when all nodes have run. -/
theorem results_leaves (hbetween : g.Between mem) :
    (g.processEach tasks g.graph.nodes mem).1 = g.graph.nodes.map (fun node => (g.results tasks mem node).ret) ∧
      (g.results tasks mem).Leaves g mem (g.processEach tasks g.graph.nodes mem).2 := by
  obtain ⟨hreached, hrets⟩ := processEach_ranUpTo hg tasks hbetween g.graph.nodes.length (Nat.le_refl _)
  rw [List.take_of_length_le (Nat.le_refl _)] at hreached hrets
  have hat : ∀ node ∈ g.graph.nodes, ∃ i, g.graph.nodes[i]? = some node ∧ node.index = i ∧ i < g.graph.nodes.length := by
    intro node hmem
    obtain ⟨i, hi⟩ := List.mem_iff_getElem?.mp hmem
    exact ⟨i, hi, hg.index i node hi, (List.getElem?_eq_some_iff.mp hi).1⟩
  have hall := List.take_of_length_le (l := g.graph.nodes) (Nat.le_refl _)
  refine ⟨hrets, ?_, ?_, ?_, ?_⟩
  · intro node hmem
    obtain ⟨i, hi, hindex, hlt⟩ := hat node hmem
    rw [hindex]
    exact hreached.ran i node hi hlt
  · intro node hmem slot hslot
    obtain ⟨i, hi, hindex, hlt⟩ := hat node hmem
    rw [hreached.drained i node slot hi hslot hlt, hall]
  · intro ref href
    rw [hreached.sent ref fun i node slot hi hslot _ => href node (List.mem_of_getElem? hi) slot hslot, hall]
  · intro node hmem slot hslot
    obtain ⟨i, hi, hindex, hlt⟩ := hat node hmem
    rw [hindex]
    exact hreached.reset i node slot hi hslot hlt

omit hg in
/-- A round leaves the graph ready for the next. -/
theorem Results.Leaves.between {results : Results α σ} {mem' : GraphMemory α σ} (hbetween : g.Between mem)
    (hleaves : results.Leaves g mem mem') : g.Between mem' := by
  refine ⟨?_, ?_⟩
  · intro node hmem
    rw [hleaves.context node hmem]
    obtain ⟨htimestamps, hinputs, houtputs⟩ := hbetween.idle node hmem
    exact ⟨htimestamps, hinputs, houtputs⟩
  · intro node hmem slot hslot
    rw [hleaves.drained node hmem slot hslot]
    exact (hbetween.running node hmem slot hslot).addData ObservedGraph.sent_sendable

/-- What a task is given depends on what the nodes before its node do. -/
theorem processed_causal : Causal.CausalOn (fun pred node : Node => pred.index < node.index) (· ∈ g.graph.nodes)
    fun results : Results α σ => results.processed g mem tasks := by
  intro results results' node hnode hbefore
  obtain ⟨k, hk⟩ := List.mem_iff_getElem?.mp hnode
  have hindex := hg.index k node hk
  have hagree : ∀ pred ∈ g.graph.nodes.take k, results pred = results' pred := by
    intro pred hpred
    obtain ⟨j, hj⟩ := List.mem_iff_getElem?.mp hpred
    rw [List.getElem?_take] at hj
    split at hj
    next hjk =>
      have hlt : pred.index < node.index := by
        rw [hg.index j pred hj, hindex]
        exact hjk
      exact hbefore pred (List.mem_of_getElem? hj) hlt
    next => cases hj
  have hinputs : Results.inputs g mem results node = Results.inputs g mem results' node := by
    apply List.map_congr_left
    intro slot hslot
    rw [List.mem_range] at hslot
    rw [← hg.sent_all results hk hslot, ← hg.sent_all results' hk hslot, ObservedGraph.sent, ObservedGraph.sent,
      List.flatMap_congr fun pred hpred => by rw [hagree pred hpred]]
  have hsideData : Results.sideData g mem results node = Results.sideData g mem results' node := by
    apply List.map_congr_left
    intro slot hslot
    rw [List.mem_range] at hslot
    rw [hindex, ← hg.set_all results hk hslot, ← hg.set_all results' hk hslot, ObservedGraph.set, ObservedGraph.set,
      List.flatMap_congr fun pred hpred => by rw [hagree pred hpred]]
  show (tasks node).Process (Results.inputs g mem results node) (Results.sideData g mem results node) _ = _
  rw [hinputs, hsideData]
  rfl

theorem Results.Solves.unique {results results' : Results α σ} (h : results.Solves g mem tasks)
    (h' : results'.Solves g mem tasks) {node : Node} (hnode : node ∈ g.graph.nodes) : results node = results' node :=
  (processed_causal hg tasks).unique (InvImage.wf _ Nat.lt_wfRel.wf) h h' hnode

omit hg in
/-- What the nodes send in a round is what their tasks make of what they are given. -/
theorem Results.Solves.sent {results : Results α σ} (h : results.Solves g mem tasks) (ref : ManagerRef) :
    g.sent results g.graph.nodes ref = g.sent (results.processed g mem tasks) g.graph.nodes ref :=
  List.flatMap_congr fun node hnode => by rw [h node hnode]

end Round

/-- However the executor's threads take turns: when no task fails, a round ends with what the equations of the round
say. They have one solution, each node returns what its task does on it, the streams to the nodes are drained and those
of the observers have got what was sent to them, and the graph is ready for the next round. -/
theorem runOnce_solves (config : GraphConfig) (faults : List Fault) (graph : Graph)
    (h : Graph.Initialize config = .ok (faults, graph)) (hconfig : config.Schedulable) (observed : List Nat)
    (tasks : ∀ node : Node, node.Task α σ) (mem : GraphMemory α σ)
    (hbetween : (⟨graph, observed⟩ : ObservedGraph).Between mem) :
    ∃ edges, succeedAll (taskMap graph.cfg.Nodes) graph.cfg.Nodes = .ok edges ∧
      ∃ results : Results α σ, results.Solves ⟨graph, observed⟩ mem tasks ∧
        (∀ results' : Results α σ, results'.Solves ⟨graph, observed⟩ mem tasks → ∀ node ∈ graph.nodes,
          results' node = results node) ∧
        ((∀ node ∈ graph.nodes, (results node).ret = 0) → ∀ (es : List Nat) t,
          es.foldlM (executorStep edges) ((⟨graph, observed⟩ : ObservedGraph).executor tasks mem) = some t →
          Runs.Stuck (executorStep edges) t →
          (∀ (i : Nat) node, graph.nodes[i]? = some node → t.threads.todo i = .done (results node).ret) ∧
            results.Leaves ⟨graph, observed⟩ mem t.threads.mem ∧
            (⟨graph, observed⟩ : ObservedGraph).Between t.threads.mem) := by
  have hg := ObservedGraph.staged h hconfig observed
  obtain ⟨hcfg, _, _, _⟩ := Graph.initialize_mirrors h
  obtain ⟨edges, hedges, hmem⟩ := succeedAll_reads hcfg hconfig.apart
  have hsolves := results_solves hg tasks hbetween
  obtain ⟨hrets, hleaves⟩ := results_leaves hg tasks hbetween
  refine ⟨edges, hedges, _, hsolves, fun results' hsolves' node hnode => hsolves'.unique hg tasks hsolves hnode, ?_⟩
  intro hsucceeds es t ht hstuck
  obtain ⟨_, hruns⟩ := executor_runs h hconfig hmem observed tasks mem
  have hzero : ∀ ret ∈ ((⟨graph, observed⟩ : ObservedGraph).processEach tasks graph.nodes mem).1, ret = 0 := by
    intro ret hret
    rw [hrets] at hret
    obtain ⟨node, hnode, rfl⟩ := List.mem_map.mp hret
    exact hsucceeds node hnode
  have hend := ((hruns es t ht).2.2 hzero).2 hstuck
  subst hend
  refine ⟨?_, hleaves, hleaves.between hbetween⟩
  intro i node hi
  simp only [finished, Pool.stopped, hrets, List.getElem?_map, hi]
  rfl

/-- The observer of the stream between two nodes gets the datum that was added to the input of the first. -/
theorem runOnce_solves_twoNodes : ∃ faults graph,
    Graph.Initialize (ParsedGraphConfig.twoNodes false) = .ok (faults, graph) ∧
    ∃ edges, succeedAll (taskMap graph.cfg.Nodes) graph.cfg.Nodes = .ok edges ∧ ∀ (es : List Nat) t,
      es.foldlM (executorStep edges) ((⟨graph, [1]⟩ : ObservedGraph).executor sendsOn
        (Function.update (GraphMemory.opened 0 fun _ => 0) (.manager (.input 0))
          (InputStreamManager.addData InputStreamManager.fresh.prepareForRun [⟨some 7, 5⟩]))) = some t →
      Runs.Stuck (executorStep edges) t → (t.threads.mem (.manager (.observed 0))).queue = [⟨some 7, 4⟩] := by
  refine ⟨_, _, rfl, ?_⟩
  obtain ⟨edges, hedges, results, hsolves, _, hruns⟩ := runOnce_solves (ParsedGraphConfig.twoNodes false) _ _ rfl
    schedulable_twoNodes [1] sendsOn _ ((GraphMemory.opened_between _ 0 fun _ => 0).addData (.input 0)
      (show ∀ d ∈ [(⟨some 7, 5⟩ : Datum Nat)], d.Sendable = true by decide))
  refine ⟨edges, hedges, ?_⟩
  intro es t ht hstuck
  obtain ⟨_, hleaves, _⟩ := hruns (fun node hnode => by rw [hsolves node hnode]; rfl) es t ht hstuck
  rw [hleaves.sent]
  · rw [hsolves.sent]
    rfl
  · intro node hnode slot hslot heq
    cases heq

end Dni.Cpp
