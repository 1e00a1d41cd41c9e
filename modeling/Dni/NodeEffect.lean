import Dni.NodeRaces

namespace Dni.Cpp

open Utils Threads

variable {α σ : Type}

/-- What is left of a stream that was handed over. -/
def InputStreamManager.drained (m : InputStreamManager α) : InputStreamManager α := { m with queue := [] }

/-- Sync hands the data of a stream over with one timestamp, that before the first. -/
def InputStreamManager.handed (m : InputStreamManager α) : List (Datum α) :=
  m.queue.map (Datum.at · (m.nextTimestampOrBound - 1))

/-- The stream has not come to its end, so that Sync hands all its data over. -/
def InputStreamManager.Running (m : InputStreamManager α) : Prop := m.nextTsBound ≠ ctimeMax

namespace NodeProg

section Run

variable (mem : GraphMemory α σ)

@[simp] theorem run_readManager (ref : ManagerRef) :
    (readManager ref : NodeProg α σ _).run mem = (mem (.manager ref), mem) := Prog.run_read mem _

@[simp] theorem run_popManager (ref : ManagerRef) : (popManager ref : NodeProg α σ _).run mem =
    ((mem (.manager ref)).popOrEmpty.1, Function.update mem (.manager ref) (mem (.manager ref)).popOrEmpty.2) := rfl

@[simp] theorem run_modifyManager (ref : ManagerRef) (f : InputStreamManager α → InputStreamManager α) :
    ((modifyManager ref f : NodeProg α σ _).run mem).2 = Function.update mem (.manager ref) (f (mem (.manager ref))) := rfl

@[simp] theorem run_readNode (i : Nat) : (readNode i : NodeProg α σ _).run mem = (mem (.node i), mem) := Prog.run_read mem _

@[simp] theorem run_modifyNode (i : Nat) (f : NodeData α σ → NodeData α σ) :
    ((modifyNode i f).run mem).2 = Function.update mem (.node i) (f (mem (.node i))) := rfl

/-- The loop over a stream that has not come to its end takes all its data. -/
theorem run_syncLoop {i slot : Nat} {ref : ManagerRef} (ts : Int) {queue : List (Datum α)} {bound : Int} {closed : Bool}
    (hm : mem (.manager ref) = ⟨queue, bound, closed⟩) (hbound : bound ≠ ctimeMax) (handed : List (Datum α))
    (hinput : (mem (.node i)).inputs slot = ⟨handed, false⟩) :
    ((syncLoop i slot ref ts queue.length).run mem).2 =
      Function.update (Function.update mem (.manager ref) (InputStreamManager.mk [] bound closed)) (.node i)
        ({ mem (.node i) with
          inputs := Function.update (mem (.node i)).inputs slot ⟨handed ++ queue.map (Datum.at · (ts - 1)), false⟩ } :
            NodeData α σ) := by
  induction queue generalizing mem handed with
  | nil =>
    have hnode : ({ mem (.node i) with
        inputs := Function.update (mem (.node i)).inputs slot ⟨handed ++ [].map (Datum.at · (ts - 1)), false⟩ } :
          NodeData α σ) = mem (.node i) := by
      rw [List.map_nil, List.append_nil, ← hinput, Function.update_eq_self]
    rw [hnode, ← hm, Function.update_eq_self, Function.update_eq_self]
    rfl
  | cons d queue ih =>
    have hpop : (InputStreamManager.mk (d :: queue) bound closed).popOrEmpty =
        ((d, queue.isEmpty && timestampDone bound), ⟨queue, bound, closed⟩) := rfl
    have hdone : (queue.isEmpty && timestampDone bound) = false := by
      simp [timestampDone, hbound]
    have hloop := ih (Function.update (Function.update mem (.manager ref) (InputStreamManager.mk queue bound closed))
      (.node i) (NodeData.marshal slot (d.at (ts - 1)) false (mem (.node i))))
      (by rw [Function.update_of_ne (by simp), Function.update_self]) (handed ++ [d.at (ts - 1)])
      (by
        rw [Function.update_self]
        simp only [NodeData.marshal, Function.update_self, hinput, InputStreamImpl.addDatum, Bool.false_and, Bool.false_eq_true,
          if_false])
    simp only [List.length_cons, syncLoop, Prog.run_bind, run_readManager, hm, List.isEmpty_cons, Bool.false_eq_true, if_false,
      run_popManager, hpop, hdone, run_modifyNode]
    rw [Function.update_of_ne (by simp : Cell.node i ≠ Cell.manager ref), hloop]
    simp only [Function.update_self, NodeData.marshal, Function.update_idem, List.map_cons, List.append_assoc,
      List.singleton_append]
    rw [Function.update_comm (by simp : Cell.node i ≠ Cell.manager ref), Function.update_idem,
      Function.update_idem]

end Run

/-- The stream of a slot of a node. -/
def slotManager (node : Node) (slot : Nat) : ManagerRef := .input (node.info.inputStreamBaseIndex + slot)

theorem slotManager_inj {node : Node} {slot slot' : Nat} : slotManager node slot = slotManager node slot' ↔ slot = slot' := by
  simp [slotManager]

/-- What Sync does: the streams of the node are handed over, and nothing else is changed. -/
structure Synced (node : Node) (n : Nat) (mem mem' : GraphMemory α σ) : Prop where
  manager : ∀ slot, slot < n → mem' (.manager (slotManager node slot)) = (mem (.manager (slotManager node slot))).drained
  context : mem' (.node node.index) = { mem (.node node.index) with
    inputs := fun slot => if slot < n then ⟨(mem (.manager (slotManager node slot))).handed, false⟩
      else (mem (.node node.index)).inputs slot }
  others : ∀ c, c ≠ .node node.index → (∀ slot, slot < n → c ≠ .manager (slotManager node slot)) → mem' c = mem c

theorem Sync_synced (node : Node) (mem : GraphMemory α σ) (hcleared : ∀ slot, slot < node.info.Config.Inputs.names.length →
      (mem (.node node.index)).inputs slot = ⟨[], false⟩)
    (hrunning : ∀ slot, slot < node.info.Config.Inputs.names.length → (mem (.manager (slotManager node slot))).Running) :
    Synced node node.info.Config.Inputs.names.length mem ((Sync node).run mem).2 := by
  apply Prog.run_forM_range mem (fun n mem' => Synced node n mem mem')
  · refine ⟨fun slot hslot => absurd hslot (Nat.not_lt_zero _), ?_, fun c _ _ => rfl⟩
    simp only [Nat.not_lt_zero, if_false]
  · intro k m hk hm
    have hmanager : m (.manager (slotManager node k)) = mem (.manager (slotManager node k)) := by
      refine hm.others _ (by simp) ?_
      intro slot hslot
      rw [ne_eq, Cell.manager.injEq, slotManager_inj]
      omega
    have hinput : (m (.node node.index)).inputs k = ⟨[], false⟩ := by
      rw [hm.context]
      simp only [Nat.lt_irrefl, if_false]
      exact hcleared k hk
    have hbound := hrunning k hk
    simp only [Prog.run_bind, run_readManager]
    have hfields : m (.manager (slotManager node k)) = ⟨(m (.manager (slotManager node k))).queue,
      (m (.manager (slotManager node k))).nextTsBound, (m (.manager (slotManager node k))).closed⟩ := rfl
    have hloop := run_syncLoop m (m (.manager (slotManager node k))).nextTimestampOrBound hfields (hmanager ▸ hbound) [] hinput
    rw [show ManagerRef.input (node.info.inputStreamBaseIndex + k) = slotManager node k from rfl, hloop]
    refine ⟨?_, ?_, ?_⟩
    · intro slot hslot
      rw [Function.update_of_ne (by simp)]
      by_cases hsk : slot = k
      · subst hsk
        rw [Function.update_self, hmanager]
        rfl
      · rw [Function.update_of_ne (by simpa [slotManager_inj] using hsk)]
        exact hm.manager slot (by omega)
    · rw [Function.update_self, hm.context]
      simp only [NodeData.mk.injEq, true_and, and_true]
      funext slot
      by_cases hsk : slot = k
      · subst hsk
        rw [Function.update_self, if_pos (Nat.lt_succ_self _), hmanager]
        rfl
      · have hiff : slot < k + 1 ↔ slot < k := by omega
        rw [Function.update_of_ne hsk]
        simp only [hiff]
    · intro c hc hcs
      rw [Function.update_of_ne hc, Function.update_of_ne (hcs k (Nat.lt_succ_self _))]
      exact hm.others c hc fun slot hslot => hcs slot (Nat.lt_succ_of_lt hslot)

section Task

variable (mem : GraphMemory α σ)

theorem run_readSideData (i : Nat) (slots : List Nat) : (readSideData i slots : NodeProg α σ _).run mem =
    (slots.map fun slot => (mem (.inputSideDatum i slot) : Datum α), mem) := by
  induction slots with
  | nil => rfl
  | cons slot slots ih =>
    have hread : (Prog.read (Cell.inputSideDatum i slot) : NodeProg α σ _).run mem =
        (mem (.inputSideDatum i slot), mem) := Prog.run_read mem _
    simp only [readSideData, Prog.run_bind, hread, ih, Prog.run_pure, List.map_cons]

/-- A slot that is empty takes the datum. -/
def acceptDatum (old d : Datum α) : Datum α := if old.IsEmpty = false then old else if Dtype.Validate d ≠ 0 then old else d

/-- The data that a slot is given, one after the other. -/
def acceptData (old : Datum α) (data : List (Datum α)) : Datum α := data.foldl acceptDatum old

/-- What the side data become that are given to the outputs one after the other: each slot is given those whose mirror
it is. -/
structure SideSent (g : ObservedGraph) (sets : List (Nat × Datum α)) (mem mem' : GraphMemory α σ) : Prop where
  slots : ∀ i slot, mem' (.inputSideDatum i slot) = acceptData (mem (.inputSideDatum i slot))
    (sets.filterMap fun e => if (i, slot) ∈ g.graph.sideMirrors e.1 then some e.2 else none)
  others : ∀ c, (∀ i slot, c ≠ .inputSideDatum i slot) → (∀ k, c ≠ .outputSideDatum k) → mem' c = mem c

/-- No slot is twice a mirror of a side datum. -/
def SideLinked (g : ObservedGraph) : Prop := ∀ k, (g.graph.sideMirrors k).Nodup

variable {g : ObservedGraph}

/-- The mirrors of one side datum are given the datum once each. -/
theorem run_setMirrors {mirrors : List (Nat × Nat)} (hnd : mirrors.Nodup) (d : Datum α) :
    (∀ i slot, ((mirrors.forM fun m => (setInputSideDatum m.1 m.2 d : NodeProg α σ Unit)).run mem).2 (.inputSideDatum i slot) =
      if (i, slot) ∈ mirrors then acceptDatum (mem (.inputSideDatum i slot)) d else mem (.inputSideDatum i slot)) ∧
    ∀ c, (∀ i slot, c ≠ .inputSideDatum i slot) →
      ((mirrors.forM fun m => (setInputSideDatum m.1 m.2 d : NodeProg α σ Unit)).run mem).2 c = mem c := by
  induction mirrors generalizing mem with
  | nil => exact ⟨fun _ _ => rfl, fun _ _ => rfl⟩
  | cons m mirrors ih =>
    obtain ⟨hm, hnd'⟩ := List.nodup_cons.mp hnd
    have hset : ((setInputSideDatum m.1 m.2 d : NodeProg α σ Unit).run mem).2 =
        Function.update mem (.inputSideDatum m.1 m.2) (acceptDatum (mem (.inputSideDatum m.1 m.2)) d) := rfl
    obtain ⟨hslots, hothers⟩ := ih (Function.update mem (.inputSideDatum m.1 m.2)
      (acceptDatum (mem (.inputSideDatum m.1 m.2)) d)) hnd'
    rw [Prog.run_forM_cons, hset]
    refine ⟨?_, ?_⟩
    · intro i slot
      rw [hslots]
      by_cases heq : (i, slot) = m
      · subst heq
        rw [if_neg hm, Function.update_self, if_pos List.mem_cons_self]
      · have hne : Cell.inputSideDatum i slot ≠ .inputSideDatum m.1 m.2 := by
          intro hcell
          obtain ⟨hi, hslot⟩ := Cell.inputSideDatum.inj hcell
          exact heq (Prod.ext hi hslot)
        simp only [Function.update_of_ne hne, List.mem_cons, heq, false_or]
    · intro c hc
      rw [hothers c hc, Function.update_of_ne (hc m.1 m.2)]

/-- One call of Set. -/
theorem run_setOutputSideDatum (hlinked : SideLinked g) (k : Nat) (d : Datum α) :
    (∀ i slot, ((setOutputSideDatum g k d : NodeProg α σ Unit).run mem).2 (.inputSideDatum i slot) =
      if (i, slot) ∈ g.graph.sideMirrors k then acceptDatum (mem (.inputSideDatum i slot)) d
      else mem (.inputSideDatum i slot)) ∧
    ∀ c, (∀ i slot, c ≠ .inputSideDatum i slot) → c ≠ .outputSideDatum k →
      ((setOutputSideDatum g k d : NodeProg α σ Unit).run mem).2 c = mem c := by
  have hdatum : ((Prog.modify (Cell.outputSideDatum k) fun _ : Datum α => d : NodeProg α σ Unit).run mem).2 =
      Function.update mem (.outputSideDatum k) d := rfl
  obtain ⟨hslots, hothers⟩ := run_setMirrors (Function.update mem (.outputSideDatum k) d) (hlinked k) d (σ := σ)
  simp only [setOutputSideDatum, Prog.run_bind, hdatum]
  refine ⟨?_, ?_⟩
  · intro i slot
    rw [hslots, Function.update_of_ne (by simp)]
  · intro c hc hk
    rw [hothers c hc, Function.update_of_ne hk]

theorem run_setOutputSideData (hlinked : SideLinked g) (sets : List (Nat × Datum α)) :
    SideSent g sets mem ((sets.forM fun e => (setOutputSideDatum g e.1 e.2 : NodeProg α σ Unit)).run mem).2 := by
  induction sets generalizing mem with
  | nil => exact ⟨fun _ _ => rfl, fun _ _ _ => rfl⟩
  | cons e sets ih =>
    obtain ⟨k, d⟩ := e
    obtain ⟨hslots, hothers⟩ := run_setOutputSideDatum mem hlinked k d (σ := σ)
    rw [Prog.run_forM_cons]
    have hrest := ih ((setOutputSideDatum g k d : NodeProg α σ Unit).run mem).2
    refine ⟨?_, ?_⟩
    · intro i slot
      rw [hrest.slots i slot, hslots, List.filterMap_cons]
      by_cases hm : (i, slot) ∈ g.graph.sideMirrors k
      · rw [if_pos hm, if_pos hm]
        rfl
      · rw [if_neg hm, if_neg hm]
    · intro c hin hout
      rw [hrest.others c hin hout, hothers c hin (hout k)]

end Task

section Propagate

/-- All input streams of the graph and of its observers. -/
def managers (mem : GraphMemory α σ) : InputStreams α := fun ref => mem (.manager ref)

variable {g : ObservedGraph} (mem : GraphMemory α σ)

/-- The loop over the mirrors of a stream is that of the graph's propagation. -/
theorem run_sendMirrors (hg : g.Linked) (osi : Nat) (data : List (Datum α)) :
    propagateStream g osi (managers mem) data =
        some (managers (((g.Mirrors osi).forM (sendMirror g data : Mirror → NodeProg α σ Unit)).run mem).2, []) ∧
      ∀ c, (∀ ref, c ≠ .manager ref) →
        (((g.Mirrors osi).forM (sendMirror g data : Mirror → NodeProg α σ Unit)).run mem).2 c = mem c := by
  have hfound : ∀ e ∈ (g.Mirrors osi).zipIdx, ∃ ref, g.inputStreamManager e.1 = some ref :=
    fun e he => hg.found osi e.1 (List.fst_mem_of_mem_zipIdx he)
  rw [propagateStream, mirrorLoop_eq _ _ hfound, Option.map_some, List.zipIdx_map_fst]
  have hloop : ∀ ms : List Mirror, ∀ mem : GraphMemory α σ,
      managers ((ms.forM (sendMirror g data : Mirror → NodeProg α σ Unit)).run mem).2 =
          InOrder.eval (fun ref mem => (mem ref).addData data) (ms.filterMap g.inputStreamManager) (managers mem) ∧
        ∀ c, (∀ ref, c ≠ .manager ref) → ((ms.forM (sendMirror g data : Mirror → NodeProg α σ Unit)).run mem).2 c = mem c := by
    intro ms
    induction ms with
    | nil => exact fun mem => ⟨rfl, fun _ _ => rfl⟩
    | cons m ms ih =>
      intro mem
      rw [Prog.run_forM_cons]
      obtain ⟨hmanagers, hothers⟩ := ih ((sendMirror g data m : NodeProg α σ Unit).run mem).2
      rw [hmanagers]
      cases href : g.inputStreamManager m with
      | none =>
        have hsend : ((sendMirror g data m : NodeProg α σ Unit).run mem).2 = mem := by
          rw [sendMirror, href]
          rfl
        rw [List.filterMap_cons_none href, hsend]
        rw [hsend] at hothers
        exact ⟨rfl, hothers⟩
      | some ref =>
        have hsend : ((sendMirror g data m : NodeProg α σ Unit).run mem).2 =
            Function.update mem (.manager ref) ((mem (.manager ref)).addData data) := by
          rw [sendMirror, href]
          rfl
        have hupdate : managers (Function.update mem (.manager ref) ((mem (.manager ref)).addData data) : GraphMemory α σ) =
            Function.update (managers mem) ref ((managers mem ref).addData data) := by
          funext r
          by_cases hr : r = ref
          · subst hr
            rw [managers, Function.update_self, Function.update_self]
            rfl
          · rw [managers, Function.update_of_ne (by simpa using hr), Function.update_of_ne hr]
            rfl
        rw [List.filterMap_cons_some href, hsend, hupdate]
        rw [hsend] at hothers
        refine ⟨rfl, ?_⟩
        intro c hc
        rw [hothers c hc, Function.update_of_ne (hc ref)]
  obtain ⟨hmanagers, hothers⟩ := hloop (g.Mirrors osi) mem
  exact ⟨by rw [hmanagers], hothers⟩

/-- The queues of some outputs of a node. -/
def queues (node : Node) (mem : GraphMemory α σ) (slots : List Nat) : List (List (Datum α)) :=
  slots.map fun o => ((mem (.node node.index)).outputs o).queue

/-- Propagate of a node is that of the graph, and empties the queues of its outputs. -/
theorem run_propagateFrom (hg : g.Linked) (node : Node) (n i : Nat) (hle : i + n ≤ node.info.Config.Outputs.names.length) :
    OutputStreamHandler.PropagateFrom g node i (managers mem) (queues node mem (List.range' i n)) =
        some (managers (((List.range' i n).forM (propagateOutput g node : Nat → NodeProg α σ Unit)).run mem).2,
          (queues node mem (List.range' i n)).map fun _ => []) ∧
      (((List.range' i n).forM (propagateOutput g node : Nat → NodeProg α σ Unit)).run mem).2 (.node node.index) =
        { mem (.node node.index) with
          outputs := fun o => if i ≤ o ∧ o < i + n then { (mem (.node node.index)).outputs o with queue := [] }
            else (mem (.node node.index)).outputs o } ∧
      ∀ c, (∀ ref, c ≠ .manager ref) → c ≠ .node node.index →
        (((List.range' i n).forM (propagateOutput g node : Nat → NodeProg α σ Unit)).run mem).2 c = mem c := by
  induction n generalizing i mem with
  | zero =>
    refine ⟨rfl, ?_, fun _ _ _ => rfl⟩
    have hnever : ∀ o, ¬ (i ≤ o ∧ o < i + 0) := fun o h => by omega
    simp only [hnever, if_false]
    rfl
  | succ n ih =>
    obtain ⟨hsend, hkept⟩ := run_sendMirrors mem hg (node.info.outputStreamBaseIndex + i)
      ((mem (.node node.index)).outputs i).queue
    let mid := (((g.Mirrors (node.info.outputStreamBaseIndex + i)).forM
      (sendMirror g ((mem (.node node.index)).outputs i).queue : Mirror → NodeProg α σ Unit)).run mem).2
    have hround : ((propagateOutput g node i : NodeProg α σ Unit).run mem).2 =
        Function.update mid (.node node.index) (NodeData.clearOutput i (mem (.node node.index))) := by
      simp only [propagateOutput, Prog.run_bind, run_readNode, run_modifyNode]
      rw [hkept (.node node.index) (by simp)]
    have hmanagers : managers (Function.update mid (.node node.index) (NodeData.clearOutput i (mem (.node node.index))) :
        GraphMemory α σ) = managers mid := by
      funext ref
      exact Function.update_of_ne (by simp) _ _
    obtain ⟨hrest, hnode, hothers⟩ := ih (Function.update mid (.node node.index)
      (NodeData.clearOutput i (mem (.node node.index)))) (i + 1) (by omega)
    have hqueues : queues node (Function.update mid (.node node.index) (NodeData.clearOutput i (mem (.node node.index))) :
        GraphMemory α σ) (List.range' (i + 1) n) = queues node mem (List.range' (i + 1) n) := by
      apply List.map_congr_left
      intro o ho
      have hlt := List.mem_range'_1.mp ho
      rw [Function.update_self, NodeData.clearOutput_of_ne (by omega)]
    rw [hmanagers, hqueues] at hrest
    rw [List.range'_succ, Prog.run_forM_cons, hround]
    refine ⟨?_, ?_, ?_⟩
    · rw [queues, List.map_cons, OutputStreamHandler.PropagateFrom, if_pos (by omega), hsend]
      simp only [Option.bind_eq_bind, Option.bind_some]
      rw [show List.map _ (List.range' (i + 1) n) = queues node mem (List.range' (i + 1) n) from rfl, hrest]
      rfl
    · rw [hnode, Function.update_self]
      refine congrArg (fun outputs => ({ mem (.node node.index) with outputs := outputs } : NodeData α σ)) ?_
      funext o
      by_cases ho : o = i
      · subst ho
        rw [NodeData.clearOutput_self, if_neg (by omega), if_pos (by omega)]
      · rw [NodeData.clearOutput_of_ne ho]
        have hiff : i + 1 ≤ o ∧ o < i + 1 + n ↔ i ≤ o ∧ o < i + (n + 1) := by omega
        simp only [hiff]
    · intro c hc hnode'
      rw [hothers c hc hnode', Function.update_of_ne hnode']
      exact hkept c hc

end Propagate

theorem run_resetSideData (node : Node) (mem : GraphMemory α σ) :
    (∀ slot, slot < node.info.Config.InputSideData.names.length →
        ((resetSideData node : NodeProg α σ Unit).run mem).2 (.inputSideDatum node.index slot) =
          Datum.Reset (mem (.inputSideDatum node.index slot))) ∧
      ∀ c, (∀ slot, slot < node.info.Config.InputSideData.names.length → c ≠ .inputSideDatum node.index slot) →
        ((resetSideData node : NodeProg α σ Unit).run mem).2 c = mem c := by
  apply Prog.run_forM_range mem (fun n mem' =>
    (∀ slot, slot < n → mem' (.inputSideDatum node.index slot) = Datum.Reset (mem (.inputSideDatum node.index slot))) ∧
      ∀ c, (∀ slot, slot < n → c ≠ .inputSideDatum node.index slot) → mem' c = mem c)
  · exact ⟨fun slot hslot => absurd hslot (Nat.not_lt_zero _), fun c _ => rfl⟩
  · intro k m _ hm
    obtain ⟨hreset, hkept⟩ := hm
    have hslot : ∀ slot, slot ≠ k → Cell.inputSideDatum node.index slot ≠ .inputSideDatum node.index k := by
      intro slot hne heq
      exact hne (Cell.inputSideDatum.inj heq).2
    simp only [Prog.run_modify]
    refine ⟨?_, ?_⟩
    · intro slot hlt
      by_cases hsk : slot = k
      · subst hsk
        have hsame : m (.inputSideDatum node.index slot) = mem (.inputSideDatum node.index slot) := by
          refine hkept _ fun slot' hlt' heq => ?_
          have hslots := (Cell.inputSideDatum.inj heq).2
          omega
        rw [Function.update_self, hsame]
      · rw [Function.update_of_ne (hslot slot hsk)]
        exact hreset slot (by omega)
    · intro c hc
      rw [Function.update_of_ne (hc k (Nat.lt_succ_self _))]
      exact hkept c fun slot hlt => hc slot (Nat.lt_succ_of_lt hlt)

end NodeProg

end Dni.Cpp
