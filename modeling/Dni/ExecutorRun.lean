import Dni.Lib.Pool
import Dni.NodeRaces

namespace Dni.Cpp

open Utils Threads

variable {α σ : Type}

namespace ObservedGraph

variable (g : ObservedGraph) (tasks : ∀ node : Node, node.Task α σ)

/-- The calls of Process that the lambdas make. -/
def processes (mem : GraphMemory α σ) : State (Cell.Value α σ) Nat Int where
  mem := mem
  todo i :=
    match g.graph.nodes[i]? with
    | some node => node.Process g (tasks node)
    | none => .done 0

/-- The executor when it starts: each node's lambda is still to be run. -/
def executor (mem : GraphMemory α σ) : Pool (Cell.Value α σ) Nat Int :=
  .start (List.range g.graph.nodes.length) (g.processes tasks mem)

/-- The nodes one after the other: what their Process returns, and the memory behind them. -/
def processEach : List Node → GraphMemory α σ → List Int × GraphMemory α σ
  | [], mem => ([], mem)
  | node :: nodes, mem =>
    let (ret, mem) := (node.Process g (tasks node)).run mem
    let (rets, mem) := processEach nodes mem
    (ret :: rets, mem)

end ObservedGraph

/-- The lambda calls fu_.cancel() when Process returns this. -/
def failed (ret : Int) : Bool := ret ≠ 0

/-- A lambda is started, or makes an access, or is over; when the run is cancelled none is started. -/
def executorStep (edges : List (Nat × Nat)) :
    Pool (Cell.Value α σ) Nat Int → Nat → Option (Pool (Cell.Value α σ) Nat Int) :=
  Pool.step (succeeded edges) failed

/-- The executor when all nodes have run, one after the other. -/
def finished (rets : List Int) (mem : GraphMemory α σ) : Pool (Cell.Value α σ) Nat Int :=
  .stopped ⟨mem, fun i => .done (rets[i]?.getD 0)⟩

namespace GraphConfig

/-- Each node has a task of its own for the executor, and no node waits for itself. -/
structure Schedulable (config : GraphConfig) : Prop where
  apart : config.NamedApart
  own : ∀ node ∈ config.node, ∀ name ∈ fieldNames node.inputStream, name ∉ fieldNames node.outputStream

variable {config : GraphConfig}

theorem Schedulable.reads_lt (h : config.Schedulable) {i j : Nat} (hreads : config.Reads i j) : j < i := by
  have hne : j ≠ i := by
    intro heq
    subst heq
    obtain ⟨node, hnode, name, hin, hout⟩ := Reads.self_iff.mp hreads
    exact h.own node (List.mem_of_getElem? hnode) name hin hout
  have hle := hreads.le
  omega

end GraphConfig

section Run

variable (g : ObservedGraph) (tasks : ∀ node : Node, node.Task α σ)

theorem processEach_append (nodes nodes' : List Node) (mem : GraphMemory α σ) :
    g.processEach tasks (nodes ++ nodes') mem =
      ((g.processEach tasks nodes mem).1 ++ (g.processEach tasks nodes' (g.processEach tasks nodes mem).2).1,
        (g.processEach tasks nodes' (g.processEach tasks nodes mem).2).2) := by
  induction nodes generalizing mem with
  | nil => rfl
  | cons node nodes ih =>
    rw [List.cons_append, ObservedGraph.processEach, ObservedGraph.processEach]
    simp only [ih, List.cons_append]

theorem processEach_length (nodes : List Node) (mem : GraphMemory α σ) :
    (g.processEach tasks nodes mem).1.length = nodes.length := by
  induction nodes generalizing mem with
  | nil => rfl
  | cons node nodes ih => rw [ObservedGraph.processEach, List.length_cons, List.length_cons, ih]

/-- The threads run one after the other as the calls of Process do. -/
theorem finishAll_processes (mem : GraphMemory α σ) (k : Nat) :
    (List.range k).foldl State.finish (g.processes tasks mem) =
      ⟨(g.processEach tasks (g.graph.nodes.take k) mem).2, fun i =>
        if i < k then .done ((g.processEach tasks (g.graph.nodes.take k) mem).1[i]?.getD 0)
        else (g.processes tasks mem).todo i⟩ := by
  induction k with
  | zero => rfl
  | succ k ih =>
    rw [List.range_succ, List.foldl_append, ih, List.foldl_cons, List.foldl_nil, State.finish]
    have htodo : (g.processes tasks mem).todo k =
        match g.graph.nodes[k]? with
        | some node => node.Process g (tasks node)
        | none => .done 0 := rfl
    rw [State.mk.injEq]
    simp only [Nat.lt_irrefl, if_false, htodo]
    cases hk : g.graph.nodes[k]? with
    | none =>
      have hlen := List.getElem?_eq_none_iff.mp hk
      rw [List.take_of_length_le (by omega), List.take_of_length_le (by omega)]
      refine ⟨rfl, ?_⟩
      funext i
      by_cases hi : i = k
      · subst hi
        rw [Function.update_self, if_pos (Nat.lt_succ_self _), List.getElem?_eq_none (by rw [processEach_length]; exact hlen)]
        rfl
      · rw [Function.update_of_ne hi]
        have hiff : i < k + 1 ↔ i < k := by omega
        simp only [hiff]
    | some node =>
      have hlen := (List.getElem?_eq_some_iff.mp hk).1
      have htake : g.graph.nodes.take (k + 1) = g.graph.nodes.take k ++ [node] := by
        rw [List.take_add_one, hk, Option.toList_some]
      rw [htake, processEach_append]
      refine ⟨rfl, ?_⟩
      have hlength : (g.processEach tasks (g.graph.nodes.take k) mem).1.length = k := by
        rw [processEach_length, List.length_take, Nat.min_eq_left (by omega)]
      funext i
      by_cases hi : i = k
      · subst hi
        rw [Function.update_self, if_pos (Nat.lt_succ_self _), List.getElem?_append_right (by omega), hlength, Nat.sub_self]
        rfl
      · rw [Function.update_of_ne hi]
        by_cases hlt : i < k
        · rw [if_pos hlt, if_pos (by omega), List.getElem?_append_left (by omega)]
        · rw [if_neg hlt, if_neg (by omega)]

theorem processes_disciplined (mem : GraphMemory α σ) : Disciplined g.cells (g.processes tasks mem) := by
  intro i
  unfold ObservedGraph.processes
  simp only
  split
  next node hnode =>
    refine (Process_within (tasks node)).imp ?_
    intro c hc
    exact ⟨node, hnode, hc⟩
  next => trivial

end Run

section Executor

variable {config : GraphConfig} {faults : List Fault} {graph : Graph}
  (h : Graph.Initialize config = .ok (faults, graph)) (hconfig : config.Schedulable) {edges : List (Nat × Nat)}
  (hedges : ∀ i j, (i, j) ∈ edges ↔ config.Reads i j) (observed : List Nat) (tasks : ∀ node : Node, node.Task α σ)
  (mem : GraphMemory α σ)
include h hconfig hedges

omit h in
/-- In the order of the configuration no node has to wait. -/
theorem nodes_ordered (nodes : Nat) : ReadyOrder.Ordered (fun j i => j ∈ succeeded edges i) (List.range nodes) := by
  intro pre i post hsplit j hj
  have hlt := hconfig.reads_lt ((hedges i j).mp (mem_succeeded.mp hj))
  have hsorted : (List.range nodes).Pairwise (· < ·) := List.pairwise_lt_range
  have hlen : i < nodes := by
    have hin : i ∈ List.range nodes := hsplit ▸ List.mem_append_right _ List.mem_cons_self
    exact List.mem_range.mp hin
  have hjin : j ∈ pre ++ i :: post := hsplit ▸ List.mem_range.mpr (by omega)
  rw [hsplit, List.pairwise_append, List.pairwise_cons] at hsorted
  obtain hpre | hpost := List.mem_append.mp hjin
  · exact hpre
  · obtain heq | hin := List.mem_cons.mp hpost
    · omega
    · have hij := hsorted.2.1.1 j hin
      omega

/-- All interleavings of the executor's threads come to what the nodes do one after the other, unless a node that has
run has cancelled the others. -/
theorem executor_runs : ∃ n, ∀ (es : List Nat) t,
    es.foldlM (executorStep edges) ((⟨graph, observed⟩ : ObservedGraph).executor tasks mem) = some t →
      let rets := ((⟨graph, observed⟩ : ObservedGraph).processEach tasks graph.nodes mem).1
      let mem' := ((⟨graph, observed⟩ : ObservedGraph).processEach tasks graph.nodes mem).2
      es.length ≤ n ∧
      (∀ i, (t.threads.todo i).ended = true →
        t.threads.todo i = .done (rets[i]?.getD 0) ∧ t.threads.mem (.node i) = mem' (.node i)) ∧
      ((∀ ret ∈ rets, ret = 0) →
        (∃ fs : List Nat, fs.foldlM (executorStep edges) t = some (finished rets mem')) ∧
        (Runs.Stuck (executorStep edges) t → t = finished rets mem')) := by
  have hindex : ∀ (i : Nat) node, graph.nodes[i]? = some node → node.index = i := fun i node hi => (node_at h hi).1
  have hrace : RaceFree (succeeded edges) (⟨graph, observed⟩ : ObservedGraph).cells := raceFree h hedges
  have hdisciplined := processes_disciplined ⟨graph, observed⟩ tasks mem
  have hordered := nodes_ordered hconfig hedges graph.nodes.length
  have hall : ∀ i, i ∉ List.range graph.nodes.length →
      (((⟨graph, observed⟩ : ObservedGraph).processes tasks mem).todo i).ended = true := by
    intro i hi
    have hnone : graph.nodes[i]? = none := List.getElem?_eq_none (Nat.le_of_not_lt fun hlt => hi (List.mem_range.mpr hlt))
    simp only [ObservedGraph.processes, hnone, Prog.ended]
  have hfinal : Pool.stopped ((List.range graph.nodes.length).foldl State.finish
      ((⟨graph, observed⟩ : ObservedGraph).processes tasks mem)) =
      finished ((⟨graph, observed⟩ : ObservedGraph).processEach tasks graph.nodes mem).1
        ((⟨graph, observed⟩ : ObservedGraph).processEach tasks graph.nodes mem).2 := by
    rw [finishAll_processes, List.take_of_length_le (Nat.le_refl _)]
    refine congrArg Pool.stopped ?_
    simp only [State.mk.injEq, true_and]
    funext i
    by_cases hi : i < graph.nodes.length
    · rw [if_pos hi]
    · rw [if_neg hi, List.getElem?_eq_none (by rw [processEach_length]; omega)]
      have hnone : graph.nodes[i]? = none := List.getElem?_eq_none (by omega)
      simp only [ObservedGraph.processes, hnone, Option.getD_none]
  have hthreads := congrArg Pool.threads hfinal
  obtain ⟨n, hbounded⟩ := Pool.bounded hrace hordered hall hdisciplined failed
  refine ⟨n, ?_⟩
  intro es t ht
  refine ⟨hbounded es t ht, ?_, ?_⟩
  · intro i hended
    obtain ⟨htodo, hsettled⟩ := Pool.settled hrace hordered hall hdisciplined ht hended
    refine ⟨htodo.trans (congrArg (fun s => s.todo i) hthreads), (hsettled (.node i) ?_).trans
      (congrArg (fun s => s.mem (.node i)) hthreads)⟩
    rintro j ⟨node, hnode, hc⟩
    have heq : i = node.index := hc
    rw [heq, hindex j node hnode]
  · intro hrets
    have hreturns : ∀ i b, ((List.range graph.nodes.length).foldl State.finish
        ((⟨graph, observed⟩ : ObservedGraph).processes tasks mem)).todo i = .done b → failed b = false := by
      intro i b hb
      have hret : Prog.done _ = Prog.done b := (congrArg (fun s => s.todo i) hthreads).symm.trans hb
      rw [← Prog.done.inj hret, failed, decide_eq_false_iff_not, not_not]
      cases hi : ((⟨graph, observed⟩ : ObservedGraph).processEach tasks graph.nodes mem).1[i]? with
      | none => rfl
      | some ret => exact hrets ret (List.mem_of_getElem? hi)
    rw [← hfinal]
    exact ⟨Pool.run_completes hrace hordered hall hdisciplined hreturns ht,
      Pool.run_end hrace hordered hall hdisciplined hreturns ht⟩

end Executor

/-- However the executor's threads take turns at the streams and side data, a round comes to an end, where no node is in
the middle of its Process, and a node that has run has returned and left behind what it does when the nodes' calls of
Process are made one after the other, in the order of the configuration. If none of these calls fails, so that no node
cancels those behind it, all nodes run. -/
theorem runOnce_sequential (config : GraphConfig) (faults : List Fault) (graph : Graph)
    (h : Graph.Initialize config = .ok (faults, graph)) (hconfig : config.Schedulable) (observed : List Nat)
    (tasks : ∀ node : Node, node.Task α σ) (mem : GraphMemory α σ) :
    ∃ edges, succeedAll (taskMap graph.cfg.Nodes) graph.cfg.Nodes = .ok edges ∧
      ∃ rets mem', (⟨graph, observed⟩ : ObservedGraph).processEach tasks graph.nodes mem = (rets, mem') ∧
        ∃ n, ∀ (es : List Nat) t,
          es.foldlM (executorStep edges) ((⟨graph, observed⟩ : ObservedGraph).executor tasks mem) = some t →
          es.length ≤ n ∧
          (∀ i, (t.threads.todo i).ended = true →
            t.threads.todo i = .done (rets[i]?.getD 0) ∧ t.threads.mem (.node i) = mem' (.node i)) ∧
          (Runs.Stuck (executorStep edges) t → ∀ i, t.phase i ≠ .running) ∧
          ((∀ ret ∈ rets, ret = 0) →
            (∃ fs : List Nat, fs.foldlM (executorStep edges) t = some (finished rets mem')) ∧
            (Runs.Stuck (executorStep edges) t → t = finished rets mem')) := by
  obtain ⟨hcfg, _, _, _⟩ := Graph.initialize_mirrors h
  obtain ⟨edges, hedges, hmem⟩ := succeedAll_reads hcfg hconfig.apart
  obtain ⟨n, hruns⟩ := executor_runs h hconfig hmem observed tasks mem
  refine ⟨edges, hedges, _, _, rfl, n, ?_⟩
  intro es t ht
  obtain ⟨hle, hended, hall⟩ := hruns es t ht
  exact ⟨hle, hended, Pool.stuck_running, hall⟩

theorem schedulable_twoNodes : (ParsedGraphConfig.twoNodes false).Schedulable where
  apart := by
    intro i j q hi hj
    rcases i with _ | _ | i <;> rcases j with _ | _ | j <;> first | rfl | cases hi <;> cases hj
  own := by decide

/-- A task that counts its calls and sends on what it gets. -/
def sendsOn (node : Node) : node.Task Nat Nat where
  Process inputs _ calls := ⟨fun _ => inputs.flatMap InputStreamImpl.queue, [], calls + 1, 0⟩
  Close _ _ calls := ⟨fun _ => [], [], calls, 0⟩

theorem runOnce_sequential_twoNodes : ∃ faults graph edges,
    Graph.Initialize (ParsedGraphConfig.twoNodes false) = .ok (faults, graph) ∧
    succeedAll (taskMap graph.cfg.Nodes) graph.cfg.Nodes = .ok edges ∧
    ∃ (es : List Nat) (mem' : GraphMemory Nat Nat), es.foldlM (executorStep edges)
      ((⟨graph, [1]⟩ : ObservedGraph).executor sendsOn (GraphMemory.opened 0 fun _ => 0)) = some (finished [0, 0] mem') := by
  obtain ⟨edges, hedges, rets, mem', heach, _, hruns⟩ := runOnce_sequential (ParsedGraphConfig.twoNodes false) _ _ rfl
    schedulable_twoNodes [1] sendsOn (GraphMemory.opened 0 fun _ => 0)
  have hrets : rets = [0, 0] := (congrArg Prod.fst heach).symm
  obtain ⟨_, _, _, hall⟩ := hruns [] _ rfl
  obtain ⟨⟨es, hes⟩, _⟩ := hall (by rw [hrets]; decide)
  exact ⟨_, _, edges, rfl, hedges, es, mem', hrets ▸ hes⟩

end Dni.Cpp
