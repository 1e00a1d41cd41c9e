import Dni.NodeEffect

namespace Dni.Cpp

open Utils Threads NodeProg

variable {α σ : Type}

/-- The data that an open output stream takes: they have a value, and a time that is not one of the two ends. -/
def Datum.Sendable (d : Datum α) : Bool := decide (timestampBegin < d.ts) && decide (d.ts < timestampEnd) && !d.IsEmpty

theorem OutputStreamImpl.addData_open (queue data : List (Datum α)) :
    OutputStreamImpl.AddData ⟨queue, false⟩ data = ⟨queue ++ data.filter Datum.Sendable, false⟩ := by
  unfold OutputStreamImpl.AddData
  induction data generalizing queue with
  | nil => rw [List.foldl_nil, List.filter_nil, List.append_nil]
  | cons d data ih =>
    rw [List.foldl_cons]
    by_cases hd : d.Sendable = true
    · have hone : (OutputStreamImpl.addDatum ⟨queue, false⟩ d).1 = ⟨queue ++ [d], false⟩ := by
        simp only [Datum.Sendable, Bool.and_eq_true, decide_eq_true_eq, Bool.not_eq_true'] at hd
        obtain ⟨⟨hbegin, hend⟩, hempty⟩ := hd
        rw [OutputStreamImpl.addDatum, if_neg (by simp), if_neg (by omega), hempty, if_neg (by simp)]
      rw [hone, ih, List.filter_cons_of_pos hd, List.append_assoc, List.singleton_append]
    · have hone : (OutputStreamImpl.addDatum ⟨queue, false⟩ d).1 = ⟨queue, false⟩ := by
        simp only [Datum.Sendable, Bool.and_eq_true, decide_eq_true_eq, Bool.not_eq_true'] at hd
        rw [OutputStreamImpl.addDatum, if_neg (by simp)]
        split
        next => rfl
        next hts =>
          have hempty : d.IsEmpty = true := by
            by_contra hno
            exact hd ⟨by omega, by simpa using hno⟩
          rw [if_pos hempty]
      rw [hone, ih, List.filter_cons_of_neg hd]

/-- A node between two rounds: its context is as PrepareForRun made it. -/
structure NodeData.Idle (node : Node) (data : NodeData α σ) : Prop where
  timestamps : data.timestamps = []
  inputs : ∀ slot, slot < node.info.Config.Inputs.names.length → data.inputs slot = ⟨[], false⟩
  outputs : ∀ o, o < node.info.Config.Outputs.names.length → data.outputs o = ⟨[], false⟩

section Idle

variable {node : Node} {data : NodeData α σ}
  (result : ProcessResult α σ node.info.Config.Outputs.names.length node.info.Config.OutputSideData.names.length)

/-- The data that the task of a node between two rounds leaves in an output. -/
theorem NodeData.Idle.leave_outputs (hidle : data.Idle node) (inputs : Nat → InputStreamImpl α)
    (o : Fin node.info.Config.Outputs.names.length) :
    (NodeData.leave result { data with inputs := inputs }).outputs o = ⟨(result.added o).filter Datum.Sendable, false⟩ := by
  have hsome : (NodeData.leave result { data with inputs := inputs }).outputs o =
      (data.outputs o).AddData (result.added o) := dif_pos o.isLt
  rw [hsome, hidle.outputs o o.isLt, OutputStreamImpl.addData_open, List.nil_append]

/-- The context of a node is the same after a call as it was before. -/
theorem NodeData.Idle.again (hidle : data.Idle node) (handed : Nat → InputStreamImpl α)
    (hopen : ∀ slot, (handed slot).done = false) {left : NodeData α σ}
    (hleft : left = NodeData.PostProcess node.info.Config.Inputs.names.length (NodeData.leave result { data with
      inputs := fun slot => if slot < node.info.Config.Inputs.names.length then handed slot else data.inputs slot })) :
    ({ left with outputs := fun o => if o < node.info.Config.Outputs.names.length
        then { left.outputs o with queue := [] } else left.outputs o } : NodeData α σ) =
      { data with task := result.task } := by
  subst hleft
  simp only [NodeData.PostProcess, NodeData.leave, NodeData.mk.injEq, true_and, and_true]
  refine ⟨?_, ?_, ?_⟩
  · rw [hidle.timestamps, List.tail_nil]
  · funext slot
    split
    next hslot => rw [InputStreamImpl.clear, hopen, hidle.inputs slot hslot]
    next hslot => rfl
  · funext o
    split
    next ho => rw [hidle.outputs o ho, OutputStreamImpl.addData_open]
    next ho => rfl

end Idle

/-- What a node's task does when its Process is called. -/
def Node.result (node : Node) (task : node.Task α σ) (mem : GraphMemory α σ) :
    ProcessResult α σ node.info.Config.Outputs.names.length node.info.Config.OutputSideData.names.length :=
  task.Process
    ((List.range node.info.Config.Inputs.names.length).map fun slot =>
      ⟨(mem (.manager (slotManager node slot))).handed, false⟩)
    ((List.range node.info.Config.InputSideData.names.length).map fun slot => mem (.inputSideDatum node.index slot))
    (mem (.node node.index)).task

/-- The data that were set on an output side datum, by the place of that. -/
def ProcessResult.sets {m n : Nat} (result : ProcessResult α σ m n) (base : Nat) : List (Nat × Datum α) :=
  result.set.map fun e => (base + e.1, e.2)

/-- The part of the data sent on an output stream that comes to an input stream. -/
def ObservedGraph.mirrored (g : ObservedGraph) (osi : Nat) (data : List (Datum α)) (ref : ManagerRef) : List (Datum α) :=
  if some ref ∈ (g.Mirrors osi).map g.inputStreamManager then data else []

theorem ObservedGraph.mem_of_mirrored {g : ObservedGraph} {osi : Nat} {data : List (Datum α)} {ref : ManagerRef} {d : Datum α}
    (h : d ∈ g.mirrored osi data ref) : d ∈ data := by
  unfold ObservedGraph.mirrored at h
  split at h
  next => exact h
  next => cases h

/-- What the task of a node sends to an input stream: the data of the output that has it among its mirrors. -/
def Node.sends (g : ObservedGraph) (node : Node)
    (result : ProcessResult α σ node.info.Config.Outputs.names.length node.info.Config.OutputSideData.names.length)
    (ref : ManagerRef) : List (Datum α) :=
  (List.finRange node.info.Config.Outputs.names.length).flatMap fun o : Fin _ =>
    g.mirrored (node.info.outputStreamBaseIndex + o) ((result.added o).filter Datum.Sendable) ref

/-- What the task of a node sets a slot of a node to, one after the other. -/
def Node.sets (g : ObservedGraph) (node : Node)
    (result : ProcessResult α σ node.info.Config.Outputs.names.length node.info.Config.OutputSideData.names.length)
    (i slot : Nat) : List (Datum α) :=
  result.set.filterMap fun e =>
    if (i, slot) ∈ g.graph.sideMirrors (node.info.outputSideDataBaseIndex + e.1) then some e.2 else none

/-- The node has no slot that is a mirror of an output of its own. -/
structure Node.Apart (g : ObservedGraph) (node : Node) : Prop where
  streams : ∀ slot, slot < node.info.Config.Inputs.names.length → ∀ o, o < node.info.Config.Outputs.names.length →
    ∀ m ∈ g.Mirrors (node.info.outputStreamBaseIndex + o), g.inputStreamManager m ≠ some (slotManager node slot)
  sideData : ∀ slot, slot < node.info.Config.InputSideData.names.length →
    ∀ o, o < node.info.Config.OutputSideData.names.length →
      (node.index, slot) ∉ g.graph.sideMirrors (node.info.outputSideDataBaseIndex + o)

/-- What a call of Process leaves behind. -/
structure Processed (g : ObservedGraph) (node : Node)
    (result : ProcessResult α σ node.info.Config.Outputs.names.length node.info.Config.OutputSideData.names.length)
    (mem mem' : GraphMemory α σ) : Prop where
  context : mem' (.node node.index) = { mem (.node node.index) with task := result.task }
  nodes : ∀ i, i ≠ node.index → mem' (.node i) = mem (.node i)
  drained : ∀ slot, slot < node.info.Config.Inputs.names.length →
    mem' (.manager (slotManager node slot)) = (mem (.manager (slotManager node slot))).drained
  sent : ∀ ref, (∀ slot, slot < node.info.Config.Inputs.names.length → ref ≠ slotManager node slot) →
    mem' (.manager ref) = (mem (.manager ref)).addData (node.sends g result ref)
  reset : ∀ slot, slot < node.info.Config.InputSideData.names.length →
    mem' (.inputSideDatum node.index slot) = Datum.Reset (mem (.inputSideDatum node.index slot))
  sideSent : ∀ i slot,
    (∀ slot', slot' < node.info.Config.InputSideData.names.length → (i, slot) ≠ (node.index, slot')) →
    mem' (.inputSideDatum i slot) = acceptData (mem (.inputSideDatum i slot)) (node.sets g result i slot)

section Sends

variable {g : ObservedGraph} {node : Node}
  (result : ProcessResult α σ node.info.Config.Outputs.names.length node.info.Config.OutputSideData.names.length)

/-- An input stream is the mirror of one output at most. -/
theorem Node.sends_eq (hg : g.Linked) {ref : ManagerRef} (o : Fin node.info.Config.Outputs.names.length) {m : Mirror}
    (hm : m ∈ g.Mirrors (node.info.outputStreamBaseIndex + o)) (href : g.inputStreamManager m = some ref) :
    node.sends g result ref = (result.added o).filter Datum.Sendable := by
  obtain ⟨pre, post, hsplit⟩ := List.append_of_mem (List.mem_finRange o)
  have hnodup := List.nodup_finRange node.info.Config.Outputs.names.length
  rw [hsplit, List.nodup_middle, List.nodup_cons] at hnodup
  have hother : ∀ o' : Fin _, o' ∈ pre ++ post →
      g.mirrored (node.info.outputStreamBaseIndex + o') ((result.added o').filter Datum.Sendable) ref = [] := by
    intro o' ho'
    refine if_neg fun hin => ?_
    obtain ⟨m', hm', href'⟩ := List.mem_map.mp hin
    have hplace := (hg.own _ _ _ _ _ hm' hm href' href).1
    have heq : o' = o := Fin.ext (by omega)
    exact hnodup.1 (heq ▸ ho')
  rw [Node.sends, hsplit, List.flatMap_append, List.flatMap_cons,
    List.flatMap_eq_nil_iff.mpr fun o' ho' => hother o' (List.mem_append_left _ ho'),
    List.flatMap_eq_nil_iff.mpr fun o' ho' => hother o' (List.mem_append_right _ ho'), List.nil_append, List.append_nil]
  exact if_pos (List.mem_map.mpr ⟨m, hm, href⟩)

theorem Node.sends_of_not {ref : ManagerRef} (hno : ∀ o, o < node.info.Config.Outputs.names.length →
    ∀ m ∈ g.Mirrors (node.info.outputStreamBaseIndex + o), g.inputStreamManager m ≠ some ref) :
    node.sends g result ref = [] := by
  refine List.flatMap_eq_nil_iff.mpr fun o _ => if_neg fun hin => ?_
  obtain ⟨m, hm, href⟩ := List.mem_map.mp hin
  exact hno o o.isLt m hm href

theorem ProcessResult.sets_filter (i slot : Nat) :
    ((result.sets node.info.outputSideDataBaseIndex).filterMap fun e =>
      if (i, slot) ∈ g.graph.sideMirrors e.1 then some e.2 else none) = node.sets g result i slot := by
  rw [ProcessResult.sets, List.filterMap_map]
  rfl

theorem Node.sets_of_not {i slot : Nat} (hno : ∀ o, o < node.info.Config.OutputSideData.names.length →
    (i, slot) ∉ g.graph.sideMirrors (node.info.outputSideDataBaseIndex + o)) : node.sets g result i slot = [] := by
  refine List.filterMap_eq_nil_iff.mpr fun e _ => ?_
  exact if_neg (hno e.1 e.1.isLt)

end Sends

section Process

variable {g : ObservedGraph} {node : Node} (task : node.Task α σ) {mem : GraphMemory α σ}

theorem forM_map {α' β' : Type} (f : α' → β') (xs : List α') (p : β' → NodeProg α σ Unit) :
    xs.forM (fun x => p (f x)) = (xs.map f).forM p := by
  induction xs with
  | nil => rfl
  | cons x xs ih =>
    show (p (f x) >>= fun _ => xs.forM fun x => p (f x)) = (p (f x) >>= fun _ => (xs.map f).forM p)
    rw [ih]

/-- The call of the task's Process, with its output side data set one after the other. -/
theorem run_callTask {m n : Nat} (body : List (InputStreamImpl α) → List (Datum α) → σ → ProcessResult α σ m n)
    {result : ProcessResult α σ m n}
    (hresult : body ((List.range node.info.Config.Inputs.names.length).map (mem (.node node.index)).inputs)
      ((List.range node.info.Config.InputSideData.names.length).map fun slot => mem (.inputSideDatum node.index slot))
      (mem (.node node.index)).task = result) :
    (callTask g node body).run mem = (result.ret,
      (((result.sets node.info.outputSideDataBaseIndex).forM fun e =>
        (setOutputSideDatum g e.1 e.2 : NodeProg α σ Unit)).run
          (Function.update mem (.node node.index) (NodeData.leave result (mem (.node node.index))))).2) := by
  simp only [callTask, Prog.run_bind, run_readSideData, run_readNode, hresult, run_modifyNode, Prog.run_pure,
    ProcessResult.sets]
  rw [← forM_map fun e : Fin n × Datum α => (node.info.outputSideDataBaseIndex + e.1.val, e.2)]

/-- Propagate of a node sends the queue of each of its outputs to the mirrors of that. -/
theorem run_Propagate (hg : g.Linked) (node : Node) (mem : GraphMemory α σ) :
    (∀ o, o < node.info.Config.Outputs.names.length → ∀ m ∈ g.Mirrors (node.info.outputStreamBaseIndex + o), ∀ ref,
      g.inputStreamManager m = some ref → ((Propagate g node : NodeProg α σ Unit).run mem).2 (.manager ref) =
        (mem (.manager ref)).addData ((mem (.node node.index)).outputs o).queue) ∧
    (∀ ref, (∀ o, o < node.info.Config.Outputs.names.length → ∀ m ∈ g.Mirrors (node.info.outputStreamBaseIndex + o),
      g.inputStreamManager m ≠ some ref) →
        ((Propagate g node : NodeProg α σ Unit).run mem).2 (.manager ref) = mem (.manager ref)) ∧
    ((Propagate g node : NodeProg α σ Unit).run mem).2 (.node node.index) = { mem (.node node.index) with
      outputs := fun o => if o < node.info.Config.Outputs.names.length
        then { (mem (.node node.index)).outputs o with queue := [] } else (mem (.node node.index)).outputs o } ∧
    ∀ c, (∀ ref, c ≠ .manager ref) → c ≠ .node node.index →
      ((Propagate g node : NodeProg α σ Unit).run mem).2 c = mem c := by
  obtain ⟨hrun, hcontext, hothers⟩ := run_propagateFrom mem hg node node.info.Config.Outputs.names.length 0 (by omega)
  rw [← List.range_eq_range'] at hrun hcontext hothers
  have hlen : (queues node mem (List.range node.info.Config.Outputs.names.length)).length =
      node.info.Config.Outputs.names.length := by rw [queues, List.length_map, List.length_range]
  obtain ⟨mem', hrun', hsends⟩ := PropagateFrom_sends hg node _ 0 (le_of_eq (by rw [hlen, Nat.zero_add])) (managers mem)
  have hmem' : mem' = managers ((Propagate g node : NodeProg α σ Unit).run mem).2 := by
    rw [hrun', Option.some.injEq, Prod.mk.injEq] at hrun
    exact hrun.1
  subst hmem'
  refine ⟨?_, ?_, ?_, hothers⟩
  · intro o ho m hm ref href
    refine hsends.sent (node.info.outputStreamBaseIndex + o, ((mem (.node node.index)).outputs o).queue) ?_ m hm ref href
    refine List.mem_map.mpr ⟨(((mem (.node node.index)).outputs o).queue, o), ?_, rfl⟩
    rw [List.mk_mem_zipIdx_iff_getElem?, queues, List.getElem?_map, List.getElem?_range ho, Option.map_some]
  · intro ref hno
    refine hsends.kept ref fun out hout => ?_
    obtain ⟨e, he, heq⟩ := List.mem_map.mp hout
    subst heq
    have hlt := (List.mem_zipIdx he).2.1
    exact hno e.2 (by omega)
  · refine hcontext.trans (congrArg (fun outputs => ({ mem (.node node.index) with outputs := outputs } : NodeData α σ)) ?_)
    funext o
    simp only [Nat.zero_le, true_and, Nat.zero_add]

/-- The task is called on what Sync handed over. -/
theorem NodeProg.Synced.result {mem' : GraphMemory α σ}
    (h : Synced node node.info.Config.Inputs.names.length mem mem') : task.Process
      ((List.range node.info.Config.Inputs.names.length).map (mem' (.node node.index)).inputs)
      ((List.range node.info.Config.InputSideData.names.length).map fun slot =>
        mem' (.inputSideDatum node.index slot))
      (mem' (.node node.index)).task = node.result task mem := by
  rw [Node.result, h.context]
  congr 1
  · apply List.map_congr_left
    intro slot hslot
    exact if_pos (List.mem_range.mp hslot)
  · apply List.map_congr_left
    intro slot _
    exact h.others _ (by simp) (by simp)

/-- A call of Process on a node between two rounds. -/
theorem Process_processed (hg : g.Linked) (hside : SideLinked g) (hapart : node.Apart g)
    (hidle : (mem (.node node.index)).Idle node)
    (hrunning : ∀ slot, slot < node.info.Config.Inputs.names.length → (mem (.manager (slotManager node slot))).Running) :
    ((node.Process g task).run mem).1 = (node.result task mem).ret ∧
      Processed g node (node.result task mem) mem ((node.Process g task).run mem).2 := by
  have hnot : timestampDone (mem (.node node.index)).NextTimestamp = false := by
    rw [NodeData.NextTimestamp, hidle.timestamps]
    decide
  have hsync := Sync_synced node mem hidle.inputs hrunning
  have hsynced : ∀ i slot, ((Sync node).run mem).2 (.inputSideDatum i slot) = mem (.inputSideDatum i slot) :=
    fun i slot => hsync.others _ (by simp) (by simp)
  have hresult := hsync.result task
  simp only [Node.Process, Prog.run_bind, run_readNode, hnot, Bool.false_eq_true, if_false,
    run_callTask task.Process hresult, run_modifyNode, Prog.run_pure, true_and]
  generalize node.result task mem = result
  generalize ((Sync node).run mem).2 = m₁ at hsync hsynced ⊢
  have hleft := hidle.leave_outputs result fun slot => if slot < node.info.Config.Inputs.names.length
    then ⟨(mem (.manager (slotManager node slot))).handed, false⟩ else (mem (.node node.index)).inputs slot
  rw [← hsync.context] at hleft
  have hagain := hidle.again result (fun slot => ⟨(mem (.manager (slotManager node slot))).handed, false⟩) (fun _ => rfl)
    (congrArg (fun data => NodeData.PostProcess _ (NodeData.leave result data)) hsync.context)
  have hsets := run_setOutputSideData (Function.update m₁ (.node node.index)
    (NodeData.leave result (m₁ (.node node.index)))) hside (result.sets node.info.outputSideDataBaseIndex)
  generalize (((result.sets node.info.outputSideDataBaseIndex).forM fun e =>
    (setOutputSideDatum g e.1 e.2 : NodeProg α σ Unit)).run _).2 = m₂ at hsets ⊢
  have hcontext₂ : m₂ (.node node.index) = NodeData.leave result (m₁ (.node node.index)) :=
    (hsets.others (.node node.index) (by simp) (by simp)).trans (Function.update_self _ _ _)
  rw [hcontext₂]
  have hmanager₂ : ∀ ref, m₂ (.manager ref) = m₁ (.manager ref) := by
    intro ref
    rw [hsets.others _ (by simp) (by simp), Function.update_of_ne (by simp)]
  have hnode₂ : ∀ i, i ≠ node.index → m₂ (.node i) = mem (.node i) := by
    intro i hi
    have hne : Cell.node i ≠ .node node.index := fun heq => hi (Cell.node.inj heq)
    rw [hsets.others _ (by simp) (by simp), Function.update_of_ne hne, hsync.others _ hne (by simp)]
  have hside₂ : ∀ i slot, (Function.update m₁ (.node node.index) (NodeData.leave result (m₁ (.node node.index))) :
      GraphMemory α σ) (.inputSideDatum i slot) = mem (.inputSideDatum i slot) := by
    intro i slot
    rw [Function.update_of_ne (by simp), hsynced]
  obtain ⟨hreset, hkept₃⟩ := run_resetSideData node (Function.update m₂ (.node node.index)
    (NodeData.PostProcess node.info.Config.Inputs.names.length (NodeData.leave result (m₁ (.node node.index)))))
  generalize ((resetSideData node : NodeProg α σ Unit).run _).2 = m₃ at hreset hkept₃ ⊢
  have hcontext₃ : m₃ (.node node.index) =
      NodeData.PostProcess node.info.Config.Inputs.names.length (NodeData.leave result (m₁ (.node node.index))) :=
    (hkept₃ _ (by simp)).trans (Function.update_self _ _ _)
  have hmanager₃ : ∀ ref, m₃ (.manager ref) = m₁ (.manager ref) := by
    intro ref
    rw [hkept₃ _ (by simp), Function.update_of_ne (by simp), hmanager₂]
  have hside₃ : ∀ i slot, (∀ slot', slot' < node.info.Config.InputSideData.names.length → (i, slot) ≠ (node.index, slot')) →
      m₃ (.inputSideDatum i slot) = m₂ (.inputSideDatum i slot) := by
    intro i slot hno
    rw [hkept₃ _ ?_, Function.update_of_ne (by simp)]
    intro slot' hslot' heq
    obtain ⟨hi, hs⟩ := Cell.inputSideDatum.inj heq
    exact hno slot' hslot' (Prod.ext hi hs)
  obtain ⟨hsent, hkept, hcontext, hothers⟩ := run_Propagate hg node m₃
  generalize ((Propagate g node : NodeProg α σ Unit).run m₃).2 = m₄ at hsent hkept hcontext hothers ⊢
  exact {
    context := by rw [hcontext, hcontext₃, hagain]
    nodes := by
      intro i hi
      have hne : Cell.node i ≠ .node node.index := fun heq => hi (Cell.node.inj heq)
      rw [hothers _ (by simp) hne, hkept₃ _ (by simp), Function.update_of_ne hne, hnode₂ i hi]
    drained := by
      intro slot hslot
      rw [hkept _ (hapart.streams slot hslot), hmanager₃, hsync.manager slot hslot]
    sent := by
      intro ref hinput
      have hbefore : m₁ (.manager ref) = mem (.manager ref) := by
        refine hsync.others _ (by simp) fun slot hslot heq => ?_
        exact hinput slot hslot (Cell.manager.inj heq)
      by_cases hmirror : ∃ o, o < node.info.Config.Outputs.names.length ∧
          ∃ m ∈ g.Mirrors (node.info.outputStreamBaseIndex + o), g.inputStreamManager m = some ref
      · obtain ⟨o, ho, m, hm, href⟩ := hmirror
        rw [hsent o ho m hm ref href, hmanager₃, hbefore, hcontext₃, Node.sends_eq result hg ⟨o, ho⟩ hm href]
        exact congrArg (fun s : OutputStreamImpl α => (mem (.manager ref)).addData s.queue) (hleft ⟨o, ho⟩)
      · have hno : ∀ o, o < node.info.Config.Outputs.names.length →
            ∀ m ∈ g.Mirrors (node.info.outputStreamBaseIndex + o), g.inputStreamManager m ≠ some ref :=
          fun o ho m hm href => hmirror ⟨o, ho, m, hm, href⟩
        rw [hkept ref hno, hmanager₃, hbefore, Node.sends_of_not result hno]
        rfl
    reset := by
      intro slot hslot
      rw [hothers _ (by simp) (by simp), hreset slot hslot, Function.update_of_ne (by simp), hsets.slots, hside₂,
        ProcessResult.sets_filter, Node.sets_of_not result (hapart.sideData slot hslot)]
      rfl
    sideSent := by
      intro i slot hno
      rw [hothers _ (by simp) (by simp), hside₃ i slot hno, hsets.slots, hside₂, ProcessResult.sets_filter] }

end Process

end Dni.Cpp
