import Dni.RoundResults

namespace Dni.Cpp

open Utils Threads NodeProg

variable {α σ : Type}

/-- The calls on a graph that is prepared; RunOnce is followed by Wait. -/
inductive Call (α : Type)
  | AddDatumToInputStream (name : Text) (datum : Datum α)
  | AddDatumToInputSideData (name : Text) (datum : Datum α)
  | Run
  | GetResult (name : Text)
  | ClearResult

namespace ObservedGraph

variable (g : ObservedGraph)

/-- A name that is not a graph input stands for a null pointer. The queue of the input is empty: Propagate left it so. -/
def AddDatumToInputStream (name : Text) (datum : Datum α) (mem : GraphMemory α σ) : Option (GraphMemory α σ) :=
  if (fieldNames g.graph.cfg.Proto.inputStream).any fun known => name = known then
    let input := OutputStreamImpl.AddData ⟨[], false⟩ [datum]
    (GraphInputStream.Propagate g (g.graph.cfg.OutputStreamIndex name).toNat (managers mem) input.queue).map fun r =>
      fun
        | .manager ref => r.1 ref
        | c => mem c
  else none

/-- The loop stops at the first output side datum with the name. -/
def AddDatumToInputSideData (name : Text) (datum : Datum α) (mem : GraphMemory α σ) : GraphMemory α σ :=
  match g.graph.cfg.sideData.outputs.findIdx? fun e => name = e.name with
  | some k => ((setOutputSideDatum g k datum).run mem).2
  | none => mem

/-- The first observer of a stream with the name. -/
def observer (name : Text) : Option Nat :=
  g.observed.findIdx? fun osi => ((g.graph.cfg.streams.outputs[osi]?).map EdgeInfo.name) = some name

def clearObserver (k : Nat) (mem : GraphMemory α σ) : GraphMemory α σ :=
  Function.update mem (.manager (.observed k)) (mem (.manager (.observed k))).drained

/-- The head of the queue is the result, and the rest of the queue is dropped. -/
def GetResult (name : Text) (mem : GraphMemory α σ) : Option α × GraphMemory α σ :=
  match g.observer name with
  | some k => ((mem (.manager (.observed k))).queue.head?.bind Datum.value, clearObserver k mem)
  | none => (none, mem)

def ClearResult (mem : GraphMemory α σ) : GraphMemory α σ :=
  (List.range g.observed.length).foldl (fun mem k => clearObserver k mem) mem

end ObservedGraph

/-- What is seen of a call: data that are sent to the mirrors of an output stream, a round with what the tasks are given
and what they make of it, or an answer. -/
inductive Event (α σ : Type)
  | sent (osi : Nat) (data : List (Datum α))
  | ran (inputs : Node → List (InputStreamImpl α)) (results : Results α σ)
  | answered (result : Option α)
  | silent

namespace Event

/-- What comes to an input stream. -/
def sentTo (g : ObservedGraph) (ref : ManagerRef) : Event α σ → List (Datum α)
  | .sent osi data => g.mirrored osi data ref
  | .ran _ results => g.sent results g.graph.nodes ref
  | _ => []

/-- What a task is given at a slot. -/
def givenTo (node : Node) (slot : Nat) : Event α σ → List (Datum α)
  | .ran inputs _ => (((inputs node)[slot]?).map InputStreamImpl.queue).getD []
  | _ => []

def answer : Event α σ → Option (Option α)
  | .answered result => some result
  | _ => none

end Event

/-- A call is performed; a round may be any interleaving of the executor's threads that has come to its end. -/
inductive Performs (g : ObservedGraph) (edges : List (Nat × Nat)) (tasks : ∀ node : Node, node.Task α σ) :
    GraphMemory α σ → Call α → Event α σ → GraphMemory α σ → Prop
  | stream {mem mem' name datum} : g.AddDatumToInputStream name datum mem = some mem' →
      Performs g edges tasks mem (.AddDatumToInputStream name datum)
        (.sent (g.graph.cfg.OutputStreamIndex name).toNat ([datum].filter Datum.Sendable)) mem'
  | sideDatum {mem name datum} : Performs g edges tasks mem (.AddDatumToInputSideData name datum) .silent
      (g.AddDatumToInputSideData name datum mem)
  | run {mem} {es : List Nat} {t results} : es.foldlM (executorStep edges) (g.executor tasks mem) = some t →
      Runs.Stuck (executorStep edges) t → Results.Solves g mem results tasks →
      Performs g edges tasks mem .Run (.ran (results.inputs g mem) results) t.threads.mem
  | getResult {mem name} : Performs g edges tasks mem (.GetResult name) (.answered (g.GetResult name mem).1)
      (g.GetResult name mem).2
  | clearResult {mem} : Performs g edges tasks mem .ClearResult .silent (g.ClearResult mem)

/-- The calls of a session, one after the other. -/
inductive Executes (g : ObservedGraph) (edges : List (Nat × Nat)) (tasks : ∀ node : Node, node.Task α σ) :
    GraphMemory α σ → List (Call α) → List (Event α σ) → GraphMemory α σ → Prop
  | nil {mem} : Executes g edges tasks mem [] [] mem
  | cons {mem mem₁ mem' call event calls events} : Performs g edges tasks mem call event mem₁ →
      Executes g edges tasks mem₁ calls events mem' →
      Executes g edges tasks mem (call :: calls) (event :: events) mem'

section Calls

variable {g : ObservedGraph} {mem mem' : GraphMemory α σ}

/-- A datum that is added is sent to the mirrors of the stream, if it can be sent. -/
theorem addDatumToInputStream_spec (hg : g.Linked) {name : Text} {datum : Datum α}
    (h : g.AddDatumToInputStream name datum mem = some mem') :
    (∀ ref, mem' (.manager ref) = (mem (.manager ref)).addData
      ((Event.sent (g.graph.cfg.OutputStreamIndex name).toNat ([datum].filter Datum.Sendable) : Event α σ).sentTo g ref)) ∧
      ∀ c, (∀ ref, c ≠ .manager ref) → mem' c = mem c := by
  unfold ObservedGraph.AddDatumToInputStream at h
  split at h
  next =>
    rw [OutputStreamImpl.addData_open, List.nil_append] at h
    obtain ⟨mem₁, hrun, hsends⟩ := propagateStream_sends hg (g.graph.cfg.OutputStreamIndex name).toNat (managers mem)
      ([datum].filter Datum.Sendable)
    have hpropagate : GraphInputStream.Propagate g (g.graph.cfg.OutputStreamIndex name).toNat (managers mem)
        ([datum].filter Datum.Sendable) = some (mem₁, []) := hrun
    simp only [hpropagate, Option.map_some, Option.some.injEq] at h
    subst h
    refine ⟨?_, ?_⟩
    · intro ref
      by_cases hin : some ref ∈ (g.Mirrors (g.graph.cfg.OutputStreamIndex name).toNat).map g.inputStreamManager
      · obtain ⟨m, hm, href⟩ := List.mem_map.mp hin
        rw [Event.sentTo, ObservedGraph.mirrored, if_pos hin]
        exact hsends.sent _ (List.mem_singleton.mpr rfl) m hm ref href
      · rw [Event.sentTo, ObservedGraph.mirrored, if_neg hin]
        refine hsends.kept ref fun out hout m hm href => ?_
        rw [List.mem_singleton] at hout
        subst hout
        exact hin (List.mem_map.mpr ⟨m, hm, href⟩)
    · intro c hc
      cases c with
      | manager ref => exact absurd rfl (hc ref)
      | inputSideDatum => rfl
      | outputSideDatum => rfl
      | node => rfl
  next => cases h

theorem addDatumToInputStream_known (hg : g.Linked) {name : Text} (hname : name ∈ fieldNames g.graph.cfg.Proto.inputStream)
    (datum : Datum α) (mem : GraphMemory α σ) : ∃ mem', g.AddDatumToInputStream name datum mem = some mem' := by
  obtain ⟨mem₁, hrun, _⟩ := propagateStream_sends hg (g.graph.cfg.OutputStreamIndex name).toNat (managers mem)
    (OutputStreamImpl.AddData ⟨[], false⟩ [datum]).queue
  have hpropagate : GraphInputStream.Propagate g (g.graph.cfg.OutputStreamIndex name).toNat (managers mem)
      (OutputStreamImpl.AddData ⟨[], false⟩ [datum]).queue = some (mem₁, []) := hrun
  rw [ObservedGraph.AddDatumToInputStream, if_pos (List.any_eq_true.mpr ⟨name, hname, decide_eq_true rfl⟩)]
  simp only [hpropagate, Option.map_some]
  exact ⟨_, rfl⟩

theorem addDatumToInputSideData_kept (hside : SideLinked g) (name : Text) (datum : Datum α) {c : Cell}
    (hin : ∀ i slot, c ≠ .inputSideDatum i slot) (hout : ∀ k, c ≠ .outputSideDatum k) :
    g.AddDatumToInputSideData name datum mem c = mem c := by
  cases hk : g.graph.cfg.sideData.outputs.findIdx? fun e => name = e.name with
  | none => simp only [ObservedGraph.AddDatumToInputSideData, hk]
  | some k =>
    simp only [ObservedGraph.AddDatumToInputSideData, hk]
    exact (run_setOutputSideDatum mem hside k datum).2 c hin (hout k)

theorem clearObserver_kept (k : Nat) {c : Cell} (hc : ∀ k, c ≠ .manager (.observed k)) :
    ObservedGraph.clearObserver k mem c = mem c := Function.update_of_ne (hc k) _ _

theorem getResult_kept (name : Text) {c : Cell} (hc : ∀ k, c ≠ .manager (.observed k)) :
    (g.GetResult name mem).2 c = mem c := by
  cases hk : g.observer name with
  | none => simp only [ObservedGraph.GetResult, hk]
  | some k =>
    simp only [ObservedGraph.GetResult, hk]
    exact clearObserver_kept k hc

theorem clearResult_kept {c : Cell} (hc : ∀ k, c ≠ .manager (.observed k)) : g.ClearResult mem c = mem c := by
  unfold ObservedGraph.ClearResult
  induction List.range g.observed.length generalizing mem with
  | nil => rfl
  | cons k ks ih => exact ih.trans (clearObserver_kept k hc)

end Calls

section Session

variable {g : ObservedGraph} {edges : List (Nat × Nat)} {tasks : ∀ node : Node, node.Task α σ}
  {mem mem₁ mem' : GraphMemory α σ}

/-- No call of Process fails. -/
def Succeeds (tasks : ∀ node : Node, node.Task α σ) : Prop :=
  ∀ node inputs sideData st, ((tasks node).Process inputs sideData st).ret = 0

/-- A round comes to an end, which does not depend on how the threads took turns. -/
structure RoundsAgree (g : ObservedGraph) (edges : List (Nat × Nat)) (tasks : ∀ node : Node, node.Task α σ) : Prop where
  ends : ∀ mem, g.Between mem → ∃ (es : List Nat) (t : Pool (Cell.Value α σ) Nat Int),
    es.foldlM (executorStep edges) (g.executor tasks mem) = some t ∧ Runs.Stuck (executorStep edges) t
  same : ∀ mem (es : List Nat) t, g.Between mem → es.foldlM (executorStep edges) (g.executor tasks mem) = some t →
    Runs.Stuck (executorStep edges) t → t.threads.mem = (g.processEach tasks g.graph.nodes mem).2

/-- What a call sends to a slot of a node is in its queue then, unless it has been given to the task. -/
def Event.Conserves (g : ObservedGraph) (mem : GraphMemory α σ) (events : List (Event α σ)) (mem' : GraphMemory α σ) : Prop :=
  ∀ node ∈ g.graph.nodes, ∀ slot, slot < node.info.Config.Inputs.names.length →
    ((mem (.manager (slotManager node slot))).queue ++ events.flatMap (Event.sentTo g (slotManager node slot))).map
        Datum.value =
      (events.flatMap (Event.givenTo node slot) ++ (mem' (.manager (slotManager node slot))).queue).map Datum.value

theorem Event.Conserves.append {events events' : List (Event α σ)} (h : Event.Conserves g mem events mem₁)
    (h' : Event.Conserves g mem₁ events' mem') : Event.Conserves g mem (events ++ events') mem' := by
  intro node hnode slot hslot
  have hfirst := h node hnode slot hslot
  have hrest := h' node hnode slot hslot
  simp only [List.map_append, List.flatMap_append, List.append_assoc] at hfirst hrest ⊢
  rw [← List.append_assoc, hfirst, List.append_assoc, hrest]

/-- A call that sends what can be sent, and gives nothing to a task. -/
theorem ObservedGraph.Between.send (hbetween : g.Between mem) {event : Event α σ}
    (hnodes : ∀ i, mem' (.node i) = mem (.node i))
    (hmanagers : ∀ node slot, mem' (.manager (slotManager node slot)) =
      (mem (.manager (slotManager node slot))).addData (event.sentTo g (slotManager node slot)))
    (hdata : ∀ ref, ∀ d ∈ event.sentTo g ref, d.Sendable = true) (hgiven : ∀ node slot, event.givenTo node slot = []) :
    g.Between mem' ∧ Event.Conserves g mem [event] mem' := by
  refine ⟨⟨?_, ?_⟩, ?_⟩
  · intro node hnode
    rw [hnodes]
    exact hbetween.idle node hnode
  · intro node hnode slot hslot
    rw [hmanagers]
    exact (hbetween.running node hnode slot hslot).addData (hdata _)
  · intro node _ slot _
    rw [hmanagers, Stream.addData_queue, List.flatMap_singleton, List.flatMap_singleton, hgiven, List.nil_append]

/-- A round gives each task what was in its streams and what was sent to them in the round. -/
theorem Results.Leaves.conserves {results : Results α σ} (h : results.Leaves g mem mem') :
    Event.Conserves g mem [.ran (results.inputs g mem) results] mem' := by
  intro node hnode slot hslot
  have hgiven : Event.givenTo node slot (.ran (results.inputs g mem) results) =
      ((mem (.manager (slotManager node slot))).addData (g.sent results g.graph.nodes (slotManager node slot))).handed := by
    rw [Event.givenTo, Results.inputs, List.getElem?_map, List.getElem?_range hslot]
    rfl
  rw [h.drained node hnode slot hslot, List.flatMap_singleton, List.flatMap_singleton, hgiven,
    InputStreamManager.drained, List.append_nil, InputStreamManager.handed, List.map_map, Stream.addData_queue]
  rfl

/-- The step of a session. -/
theorem Performs.step (hg : g.Staged) {call : Call α} {event : Event α σ} (hbetween : g.Between mem)
    (hrounds : RoundsAgree g edges tasks) (h : Performs g edges tasks mem call event mem') :
    g.Between mem' ∧ Event.Conserves g mem [event] mem' := by
  have hobserved : ∀ node slot k, Cell.manager (slotManager node slot) ≠ .manager (.observed k) := by
    intro node slot k heq
    cases Cell.manager.inj heq
  cases h with
  | stream hadd =>
    obtain ⟨hmanagers, hothers⟩ := addDatumToInputStream_spec hg.linked hadd
    refine hbetween.send (fun i => hothers _ (by simp)) (fun node slot => hmanagers _) ?_ fun _ _ => rfl
    intro ref d hd
    exact (List.mem_filter.mp (ObservedGraph.mem_of_mirrored hd)).2
  | sideDatum =>
    refine hbetween.send (fun i => ?_) (fun node slot => ?_) (fun _ d hd => by cases hd) fun _ _ => rfl
    · exact addDatumToInputSideData_kept hg.sideLinked _ _ (by simp) (by simp)
    · exact addDatumToInputSideData_kept hg.sideLinked _ _ (by simp) (by simp)
  | @run es t results hes hstuck hsolves =>
    obtain ⟨_, hleaves⟩ := results_leaves hg tasks hbetween
    rw [← hrounds.same mem es t hbetween hes hstuck] at hleaves
    have hall : ∀ node ∈ g.graph.nodes, results node = g.results tasks mem node := fun node hnode =>
      hsolves.unique hg tasks (results_solves hg tasks hbetween) hnode
    have hsent : ∀ ref, g.sent (g.results tasks mem) g.graph.nodes ref = g.sent results g.graph.nodes ref :=
      fun ref => List.flatMap_congr fun node hnode => by rw [hall node hnode]
    refine ⟨hleaves.between hbetween, ?_⟩
    intro node hnode slot hslot
    have hconserves := hleaves.conserves node hnode slot hslot
    simp only [Results.inputs, Event.sentTo, Event.givenTo, List.flatMap_singleton, hsent] at hconserves ⊢
    exact hconserves
  | getResult =>
    refine hbetween.send (fun i => ?_) (fun node slot => ?_) (fun _ d hd => by cases hd) fun _ _ => rfl
    · exact getResult_kept _ (by simp)
    · exact getResult_kept _ (hobserved node slot)
  | clearResult =>
    refine hbetween.send (fun i => ?_) (fun node slot => ?_) (fun _ d hd => by cases hd) fun _ _ => rfl
    · exact clearResult_kept (by simp)
    · exact clearResult_kept (hobserved node slot)

/-- The memory behind a call, and its answer, do not depend on how the threads took turns. -/
theorem Performs.determined (hbetween : g.Between mem) (hrounds : RoundsAgree g edges tasks) {call : Call α} {event event' : Event α σ}
    (h : Performs g edges tasks mem call event mem₁) (h' : Performs g edges tasks mem call event' mem') :
    mem₁ = mem' ∧ event.answer = event'.answer := by
  cases h with
  | stream hadd =>
    cases h' with
    | stream hadd' => exact ⟨Option.some.inj (hadd.symm.trans hadd'), rfl⟩
  | sideDatum =>
    cases h' with
    | sideDatum => exact ⟨rfl, rfl⟩
  | run hes hstuck _ =>
    cases h' with
    | run hes' hstuck' _ =>
      exact ⟨(hrounds.same _ _ _ hbetween hes hstuck).trans (hrounds.same _ _ _ hbetween hes' hstuck').symm, rfl⟩
  | getResult =>
    cases h' with
    | getResult => exact ⟨rfl, rfl⟩
  | clearResult =>
    cases h' with
    | clearResult => exact ⟨rfl, rfl⟩

/-- A call on a stream that the graph has can be performed. -/
theorem Performs.exists (hg : g.Staged) (hbetween : g.Between mem)
    (hrounds : RoundsAgree g edges tasks) (call : Call α) (hknown : ∀ name datum, call = .AddDatumToInputStream name datum →
      name ∈ fieldNames g.graph.cfg.Proto.inputStream) :
    ∃ event mem', Performs g edges tasks mem call event mem' := by
  cases call with
  | AddDatumToInputStream name datum =>
    obtain ⟨mem', hadd⟩ := addDatumToInputStream_known hg.linked (hknown name datum rfl) datum mem
    exact ⟨_, _, .stream hadd⟩
  | AddDatumToInputSideData name datum => exact ⟨_, _, .sideDatum⟩
  | Run =>
    obtain ⟨es, t, hes, hstuck⟩ := hrounds.ends mem hbetween
    exact ⟨_, _, .run hes hstuck (results_solves hg tasks hbetween)⟩
  | GetResult name => exact ⟨_, _, .getResult⟩
  | ClearResult => exact ⟨_, _, .clearResult⟩

variable (hg : g.Staged) (hrounds : RoundsAgree g edges tasks) {calls : List (Call α)} {events : List (Event α σ)}
include hg hrounds

/-- The run of a session: nothing that was sent to a slot is lost or given twice. -/
theorem Executes.conserves (hbetween : g.Between mem) (h : Executes g edges tasks mem calls events mem') :
    g.Between mem' ∧ Event.Conserves g mem events mem' := by
  induction h with
  | nil =>
    refine ⟨hbetween, ?_⟩
    intro node _ slot _
    rw [List.flatMap_nil, List.flatMap_nil, List.append_nil, List.nil_append]
  | cons hcall _ ih =>
    obtain ⟨hbetween₁, hconserves⟩ := hcall.step hg hbetween hrounds
    obtain ⟨hbetween', hrest⟩ := ih hbetween₁
    exact ⟨hbetween', hconserves.append hrest⟩

theorem Executes.determined (hbetween : g.Between mem) (h : Executes g edges tasks mem calls events mem') {events' : List (Event α σ)}
    {mem'' : GraphMemory α σ} (h' : Executes g edges tasks mem calls events' mem'') :
    mem'' = mem' ∧ events'.filterMap Event.answer = events.filterMap Event.answer := by
  induction h generalizing events' mem'' with
  | nil =>
    cases h'
    exact ⟨rfl, rfl⟩
  | cons hcall _ ih =>
    cases h' with
    | cons hcall' hrest' =>
      obtain ⟨hmem, hanswer⟩ := hcall'.determined hbetween hrounds hcall
      subst hmem
      obtain ⟨hmem', hanswers⟩ := ih (hcall.step hg hbetween hrounds).1 hrest'
      refine ⟨hmem', ?_⟩
      rw [List.filterMap_cons, List.filterMap_cons, hanswer, hanswers]

theorem Executes.exists (hbetween : g.Between mem) (hknown : ∀ name datum, Call.AddDatumToInputStream name datum ∈ calls →
      name ∈ fieldNames g.graph.cfg.Proto.inputStream) : ∃ events mem', Executes g edges tasks mem calls events mem' := by
  induction calls generalizing mem with
  | nil => exact ⟨[], mem, .nil⟩
  | cons call calls ih =>
    obtain ⟨event, mem₁, hcall⟩ := Performs.exists hg hbetween hrounds call fun name datum heq =>
      hknown name datum (heq ▸ List.mem_cons_self)
    obtain ⟨events, mem', hrest⟩ := ih (hcall.step hg hbetween hrounds).1 fun name datum hin =>
      hknown name datum (List.mem_cons_of_mem _ hin)
    exact ⟨_, _, .cons hcall hrest⟩

end Session

theorem roundsAgree {config : GraphConfig} {faults : List Fault} {graph : Graph}
    (h : Graph.Initialize config = .ok (faults, graph)) (hconfig : config.Schedulable) {edges : List (Nat × Nat)}
    (hedges : ∀ i j, (i, j) ∈ edges ↔ config.Reads i j) (observed : List Nat) {tasks : ∀ node : Node, node.Task α σ}
    (htasks : Succeeds tasks) : RoundsAgree ⟨graph, observed⟩ edges tasks := by
  have hg := ObservedGraph.staged h hconfig observed
  have hzero : ∀ mem, (⟨graph, observed⟩ : ObservedGraph).Between mem →
      ∀ ret ∈ ((⟨graph, observed⟩ : ObservedGraph).processEach tasks graph.nodes mem).1, ret = 0 := by
    intro mem hbetween ret hret
    rw [(results_leaves hg tasks hbetween).1] at hret
    obtain ⟨node, hnode, rfl⟩ := List.mem_map.mp hret
    rw [results_solves hg tasks hbetween node hnode]
    exact htasks node _ _ _
  refine ⟨?_, ?_⟩
  · intro mem hbetween
    obtain ⟨_, hruns⟩ := executor_runs h hconfig hedges observed tasks mem
    obtain ⟨⟨es, hes⟩, _⟩ := (hruns [] _ rfl).2.2 (hzero mem hbetween)
    exact ⟨es, _, hes, fun _ => rfl⟩
  · intro mem es t hbetween ht hstuck
    obtain ⟨_, hruns⟩ := executor_runs h hconfig hedges observed tasks mem
    rw [((hruns es t ht).2.2 (hzero mem hbetween)).2 hstuck]
    rfl

/-- When no task fails, then whatever the owner calls, and however the executor's threads take turns in the rounds: the
calls can be performed, what is answered does not depend on the turns, and each slot of a node is given what was sent to
it, once each and in the order in which it was sent, but for what waits in its queue for the next round. -/
theorem session_delivery (config : GraphConfig) (faults : List Fault) (graph : Graph)
    (h : Graph.Initialize config = .ok (faults, graph)) (hconfig : config.Schedulable) (observed : List Nat)
    (tasks : ∀ node : Node, node.Task α σ) (htasks : Succeeds tasks) (mem : GraphMemory α σ)
    (hbetween : (⟨graph, observed⟩ : ObservedGraph).Between mem) :
    ∃ edges, succeedAll (taskMap graph.cfg.Nodes) graph.cfg.Nodes = .ok edges ∧
      ∀ calls : List (Call α), (∀ name datum, Call.AddDatumToInputStream name datum ∈ calls →
          name ∈ fieldNames graph.cfg.Proto.inputStream) →
        (∃ events mem', Executes ⟨graph, observed⟩ edges tasks mem calls events mem') ∧
        ∀ events mem', Executes ⟨graph, observed⟩ edges tasks mem calls events mem' →
          (∀ events' mem'', Executes ⟨graph, observed⟩ edges tasks mem calls events' mem'' →
            mem'' = mem' ∧ events'.filterMap Event.answer = events.filterMap Event.answer) ∧
          (⟨graph, observed⟩ : ObservedGraph).Between mem' ∧ Event.Conserves ⟨graph, observed⟩ mem events mem' := by
  have hg := ObservedGraph.staged h hconfig observed
  obtain ⟨hcfg, _, _, _⟩ := Graph.initialize_mirrors h
  obtain ⟨edges, hedges, hmem⟩ := succeedAll_reads hcfg hconfig.apart
  have hrounds := roundsAgree h hconfig hmem observed htasks
  refine ⟨edges, hedges, ?_⟩
  intro calls hknown
  refine ⟨Executes.exists hg hrounds hbetween hknown, ?_⟩
  intro events mem' hrun
  exact ⟨fun events' mem'' hrun' => hrun.determined hg hrounds hbetween hrun', hrun.conserves hg hrounds hbetween⟩

theorem session_delivery_twoNodes : ∃ faults graph,
    Graph.Initialize (ParsedGraphConfig.twoNodes false) = .ok (faults, graph) ∧
    ∃ edges, succeedAll (taskMap graph.cfg.Nodes) graph.cfg.Nodes = .ok edges ∧ ∃ events mem',
      Executes ⟨graph, [1]⟩ edges sendsOn (GraphMemory.opened 0 fun _ => 0)
        [.AddDatumToInputStream ['g'] ⟨some 7, 5⟩, .Run, .AddDatumToInputStream ['g'] ⟨some 8, 6⟩, .GetResult ['s'], .Run]
        events mem' ∧ Event.Conserves ⟨graph, [1]⟩ (GraphMemory.opened 0 fun _ => 0) events mem' := by
  obtain ⟨faults, graph, hgraph, hinputs⟩ : ∃ faults graph,
      Graph.Initialize (ParsedGraphConfig.twoNodes false) = .ok (faults, graph) ∧ graph.cfg.Proto.inputStream = [['g']] :=
    ⟨_, _, rfl, rfl⟩
  obtain ⟨edges, hedges, hcalls⟩ := session_delivery (ParsedGraphConfig.twoNodes false) faults graph hgraph
    schedulable_twoNodes [1] sendsOn (fun _ _ _ _ => rfl) _ (GraphMemory.opened_between _ 0 fun _ => 0)
  obtain ⟨⟨events, mem', hrun⟩, hall⟩ := hcalls [.AddDatumToInputStream ['g'] ⟨some 7, 5⟩, .Run,
    .AddDatumToInputStream ['g'] ⟨some 8, 6⟩, .GetResult ['s'], .Run] (by
      intro name datum hin
      rw [hinputs]
      simp only [List.mem_cons, Call.AddDatumToInputStream.injEq, reduceCtorEq, List.not_mem_nil, or_false, false_or] at hin
      obtain ⟨hname, _⟩ | ⟨hname, _⟩ := hin <;> rw [hname] <;> decide)
  exact ⟨faults, graph, hgraph, edges, hedges, events, mem', hrun, (hall events mem' hrun).2.2⟩

end Dni.Cpp
