import Dni.GraphUpstream
import Dni.NodeProcess

namespace Dni.Cpp

open Utils Threads OnePass

/-- The cells that the program of a node may come to: its own, those of its streams and side data, and those of
the mirrors of its outputs. -/
def ObservedGraph.Comes (g : ObservedGraph) (node : Node) : Cell → Prop
  | .node i => i = node.index
  | .manager ref =>
    (∃ slot, slot < node.info.Config.Inputs.names.length ∧ ref = .input (node.info.inputStreamBaseIndex + slot)) ∨
      ∃ o, o < node.info.Config.Outputs.names.length ∧
        ∃ m ∈ g.Mirrors (node.info.outputStreamBaseIndex + o), g.inputStreamManager m = some ref
  | .inputSideDatum i slot =>
    (i = node.index ∧ slot < node.info.Config.InputSideData.names.length) ∨
      ∃ o, o < node.info.Config.OutputSideData.names.length ∧
        (i, slot) ∈ g.graph.sideMirrors (node.info.outputSideDataBaseIndex + o)
  | .outputSideDatum k => ∃ o, o < node.info.Config.OutputSideData.names.length ∧ k = node.info.outputSideDataBaseIndex + o

variable {α σ : Type}

namespace NodeProg

variable {cells : Cell → Prop} {g : ObservedGraph} {node : Node}

theorem readNode_within {i : Nat} : (readNode i : NodeProg α σ _).Within cells ↔ cells (.node i) := Prog.within_read

theorem modifyNode_within {i : Nat} {f : NodeData α σ → NodeData α σ} : (modifyNode i f).Within cells ↔ cells (.node i) :=
  Prog.within_modify

theorem readManager_within {ref : ManagerRef} : (readManager ref : NodeProg α σ _).Within cells ↔ cells (.manager ref) :=
  Prog.within_read

theorem popManager_within {ref : ManagerRef} : (popManager ref : NodeProg α σ _).Within cells ↔ cells (.manager ref) :=
  Prog.within_take

theorem modifyManager_within {ref : ManagerRef} {f : InputStreamManager α → InputStreamManager α} :
    (modifyManager ref f : NodeProg α σ _).Within cells ↔ cells (.manager ref) := Prog.within_modify

theorem setInputSideDatum_within {i slot : Nat} {d : Datum α} :
    (setInputSideDatum i slot d : NodeProg α σ _).Within cells ↔ cells (.inputSideDatum i slot) := Prog.within_modify

theorem syncLoop_within {i slot : Nat} {ref : ManagerRef} {ts : Int} (hnode : cells (.node i)) (href : cells (.manager ref))
    (rounds : Nat) : (syncLoop i slot ref ts rounds : NodeProg α σ _).Within cells := by
  induction rounds with
  | zero => trivial
  | succ rounds ih =>
    refine (readManager_within.mpr href).bind fun m => ?_
    split
    next => trivial
    next =>
      refine (popManager_within.mpr href).bind fun r => ?_
      split
      next => trivial
      next => exact (modifyNode_within.mpr hnode).bind fun _ => ih

theorem readSideData_within {i : Nat} {slots : List Nat} (h : ∀ slot ∈ slots, cells (.inputSideDatum i slot)) :
    (readSideData i slots : NodeProg α σ _).Within cells := by
  induction slots with
  | nil => trivial
  | cons slot slots ih =>
    rw [List.forall_mem_cons] at h
    have hread : (Prog.read (Cell.inputSideDatum i slot) : NodeProg α σ _).Within cells := Prog.within_read.mpr h.1
    exact hread.bind fun d => (ih h.2).bind fun ds => trivial

theorem setOutputSideDatum_within {k : Nat} {d : Datum α} (hk : cells (.outputSideDatum k))
    (hmirrors : ∀ m ∈ g.graph.sideMirrors k, cells (.inputSideDatum m.1 m.2)) :
    (setOutputSideDatum g k d : NodeProg α σ _).Within cells := by
  have hset : (Prog.modify (Cell.outputSideDatum k) fun _ : Datum α => d : NodeProg α σ _).Within cells :=
    Prog.within_modify.mpr hk
  exact hset.bind fun _ => Prog.within_forM fun m hm => setInputSideDatum_within.mpr (hmirrors m hm)

theorem sendMirror_within {data : List (Datum α)} {m : Mirror}
    (h : ∀ ref, g.inputStreamManager m = some ref → cells (.manager ref)) :
    (sendMirror g data m : NodeProg α σ _).Within cells := by
  unfold sendMirror
  split
  next => trivial
  next ref href => exact modifyManager_within.mpr (h ref href)

section Comes

theorem comes_node : g.Comes node (.node node.index) := rfl

theorem Sync_within : (Sync node : NodeProg α σ _).Within (g.Comes node) := by
  apply Prog.within_forM
  intro slot hslot
  have hin : g.Comes node (.manager (.input (node.info.inputStreamBaseIndex + slot))) :=
    Or.inl ⟨slot, List.mem_range.mp hslot, rfl⟩
  exact (readManager_within.mpr hin).bind fun m => syncLoop_within comes_node hin _

theorem callTask_within {m : Nat} (body : List (InputStreamImpl α) → List (Datum α) → σ →
      ProcessResult α σ m node.info.Config.OutputSideData.names.length) :
    (callTask g node body).Within (g.Comes node) := by
  refine (readSideData_within fun slot hslot => Or.inl ⟨rfl, List.mem_range.mp hslot⟩).bind fun sideData => ?_
  refine (readNode_within.mpr comes_node).bind fun data => ?_
  refine (modifyNode_within.mpr comes_node).bind fun _ => ?_
  refine Prog.Within.bind (Prog.within_forM fun e _ => ?_) fun _ => trivial
  refine setOutputSideDatum_within ⟨e.1, e.1.isLt, rfl⟩ ?_
  intro m hm
  exact Or.inr ⟨e.1, e.1.isLt, hm⟩

theorem Propagate_within : (Propagate g node : NodeProg α σ _).Within (g.Comes node) := by
  apply Prog.within_forM
  intro o ho
  refine (readNode_within.mpr comes_node).bind fun data => ?_
  refine Prog.Within.bind (Prog.within_forM fun m hm => ?_) fun _ => modifyNode_within.mpr comes_node
  apply sendMirror_within
  intro ref href
  exact Or.inr ⟨o, List.mem_range.mp ho, m, hm, href⟩

theorem resetSideData_within : (resetSideData node : NodeProg α σ _).Within (g.Comes node) := by
  apply Prog.within_forM
  intro slot hslot
  exact Prog.within_modify.mpr (Or.inl ⟨rfl, List.mem_range.mp hslot⟩)

theorem closeInputStreams_within : (closeInputStreams node : NodeProg α σ _).Within (g.Comes node) := by
  refine (readNode_within.mpr comes_node).bind fun data => ?_
  split
  next => trivial
  next =>
    apply Prog.within_forM
    intro slot hslot
    exact modifyManager_within.mpr (Or.inl ⟨slot, List.mem_range.mp hslot, rfl⟩)

end Comes

end NodeProg

open NodeProg

section Process

variable {g : ObservedGraph} {node : Node} (task : node.Task α σ)

theorem Close_within : (node.Close g task).Within (g.Comes node) := by
  refine (readNode_within.mpr comes_node).bind fun data => ?_
  split
  next => trivial
  next =>
    refine closeInputStreams_within.bind fun _ => (callTask_within task.Close).bind fun ret => ?_
    exact (modifyNode_within.mpr comes_node).bind fun _ => trivial

/-- A node comes to nothing but its own cells and those of its mirrors. -/
theorem Process_within : (node.Process g task).Within (g.Comes node) := by
  refine (readNode_within.mpr comes_node).bind fun data => ?_
  split
  next => exact (Close_within task).bind fun _ => trivial
  next =>
    refine Sync_within.bind fun _ => (callTask_within task.Process).bind fun ret => ?_
    refine (modifyNode_within.mpr comes_node).bind fun _ => ?_
    exact resetSideData_within.bind fun _ => Propagate_within.bind fun _ => trivial

end Process

/-- The tasks that a task succeeds. -/
def succeeded (edges : List (Nat × Nat)) (i : Nat) : List Nat :=
  edges.filterMap fun e => if e.1 = i then some e.2 else none

theorem mem_succeeded {edges : List (Nat × Nat)} {i j : Nat} : j ∈ succeeded edges i ↔ (i, j) ∈ edges := by
  rw [succeeded, List.mem_filterMap]
  apply Iff.intro
  · rintro ⟨⟨x, y⟩, he, hsome⟩
    split at hsome
    next hx =>
      cases hsome
      exact hx ▸ he
    next => cases hsome
  · intro he
    exact ⟨(i, j), he, if_pos rfl⟩

/-- The cells of the nodes by their places. -/
def ObservedGraph.cells (g : ObservedGraph) (i : Nat) (c : Cell) : Prop :=
  ∃ node, g.graph.nodes[i]? = some node ∧ g.Comes node c

section Races

variable {config : GraphConfig} {faults : List Fault} {graph : Graph} {observed : List Nat}
  (h : Graph.Initialize config = .ok (faults, graph))
include h

theorem node_at {i : Nat} {node : Node} (hi : graph.nodes[i]? = some node) :
    node.index = i ∧ graph.cfg.Nodes[i]? = some node.info := by
  obtain ⟨_, hnodes, _, _⟩ := Graph.initialize_mirrors h
  rw [hnodes, List.getElem?_map, List.getElem?_zipIdx, Nat.zero_add] at hi
  cases hinfo : graph.cfg.Nodes[i]? with
  | none =>
    rw [hinfo] at hi
    cases hi
  | some info =>
    rw [hinfo] at hi
    cases hi
    exact ⟨rfl, rfl⟩

omit h in
/-- No two output slots of the nodes have the same place. -/
theorem output_place_inj {slots : NodeInfo → Slots} {graphNames : List Text} {events : Slots → List (Ev Text)} {e : Edges}
    (hpass : EdgesPassed e graphNames (graph.cfg.Nodes.map slots) events) {i j o o' : Nat} {info info' : NodeInfo}
    (hi : graph.cfg.Nodes[i]? = some info) (hj : graph.cfg.Nodes[j]? = some info')
    (ho : o < (slots info).outputs.length) (ho' : o' < (slots info').outputs.length)
    (heq : (slots info).outputBase + o = (slots info').outputBase + o') : i = j ∧ o = o' := by
  have hslot : ∀ {n : Nat} {x : NodeInfo}, graph.cfg.Nodes[n]? = some x →
      ((graph.cfg.Nodes.map slots).map fun s => (s.outputBase, s.outputs))[n]? =
        some ((slots x).outputBase, (slots x).outputs) := by
    intro n x hx
    rw [List.getElem?_map, List.getElem?_map, hx]
    rfl
  exact hpass.outputs.place_inj (hslot hi) (hslot hj) ho ho' heq

/-- A slot of a node and an output of another meet only where the first reads the second. -/
theorem reads_of_mirror {i j slot o : Nat} {node pred : Node} (hi : graph.nodes[i]? = some node)
    (hj : graph.nodes[j]? = some pred) (hslot : slot < node.info.Config.Inputs.names.length)
    (ho : o < pred.info.Config.Outputs.names.length) {m : Mirror}
    (hm : m ∈ (⟨graph, observed⟩ : ObservedGraph).Mirrors (pred.info.outputStreamBaseIndex + o))
    (href : (⟨graph, observed⟩ : ObservedGraph).inputStreamManager m =
      some (.input (node.info.inputStreamBaseIndex + slot))) : config.Reads i j := by
  obtain ⟨hcfg, _, _, _⟩ := Graph.initialize_mirrors h
  obtain ⟨_, hinfo⟩ := node_at h hi
  obtain ⟨_, hinfo'⟩ := node_at h hj
  obtain ⟨i', id, info, e, _, hat, hid, he, hup, hmanager⟩ | ⟨k, _, _, hmanager⟩ := ObservedGraph.mirror_manager h hm
  · rw [href, Option.some.injEq, ManagerRef.input.injEq] at hmanager
    obtain ⟨hii, hids⟩ := ObservedGraph.input_place_inj h hinfo hat hslot hid hmanager
    subst hii hids
    rw [hinfo, Option.some.injEq] at hat
    subst hat
    exact reads_of_stream hcfg hinfo' hinfo hslot ho he hup
  · rw [href] at hmanager
    cases hmanager

theorem reads_of_sideMirror {i j slot o : Nat} {node pred : Node} (hi : graph.nodes[i]? = some node)
    (hj : graph.nodes[j]? = some pred) (hslot : slot < node.info.Config.InputSideData.names.length)
    (ho : o < pred.info.Config.OutputSideData.names.length)
    (hm : (i, slot) ∈ graph.sideMirrors (pred.info.outputSideDataBaseIndex + o)) : config.Reads i j := by
  obtain ⟨hcfg, _, _, _⟩ := Graph.initialize_mirrors h
  obtain ⟨_, hinfo⟩ := node_at h hi
  obtain ⟨_, hinfo'⟩ := node_at h hj
  obtain ⟨info, hat, _, e, he, hup⟩ := (Graph.mem_sideMirrors h).mp hm
  rw [hinfo, Option.some.injEq] at hat
  subst hat
  exact reads_of_sideDatum hcfg hinfo' hinfo hslot ho he hup

/-- Nodes that come to the same cell have an order: the one reads what the other makes. -/
theorem raceFree {edges : List (Nat × Nat)} (hedges : ∀ i j, (i, j) ∈ edges ↔ config.Reads i j) :
    RaceFree (succeeded edges) (⟨graph, observed⟩ : ObservedGraph).cells := by
  obtain ⟨hcfg, _, _, _⟩ := Graph.initialize_mirrors h
  obtain ⟨hstreams, hsides, _, _⟩ := edgesPassed hcfg
  have hlinked := ObservedGraph.linked h observed
  simp only [RaceFree, mem_succeeded, hedges]
  rintro i j c hij ⟨node, hi, hci⟩ ⟨node', hj, hcj⟩
  obtain ⟨hindex, hinfo⟩ := node_at h hi
  obtain ⟨hindex', hinfo'⟩ := node_at h hj
  cases c with
  | node x =>
    have hx : x = node.index := hci
    have hx' : x = node'.index := hcj
    omega
  | outputSideDatum k =>
    obtain ⟨o, ho, hk⟩ := hci
    obtain ⟨o', ho', hk'⟩ := hcj
    exact absurd (output_place_inj hsides hinfo hinfo' ho ho' (hk.symm.trans hk')).1 hij
  | inputSideDatum x slot =>
    obtain ⟨hx, hslot⟩ | ⟨o, ho, hm⟩ := hci
    · obtain ⟨hx', _⟩ | ⟨o', ho', hm'⟩ := hcj
      · omega
      · rw [hx, hindex] at hm'
        exact Or.inr (reads_of_sideMirror h hi hj hslot ho' hm')
    · obtain ⟨hx', hslot'⟩ | ⟨o', ho', hm'⟩ := hcj
      · rw [hx', hindex'] at hm
        exact Or.inl (reads_of_sideMirror h hj hi hslot' ho hm)
      · have hplace := Graph.sideMirrors_inj h hm hm'
        exact absurd (output_place_inj hsides hinfo hinfo' ho ho' hplace).1 hij
  | manager ref =>
    obtain ⟨slot, hslot, href⟩ | ⟨o, ho, m, hm, href⟩ := hci
    · obtain ⟨slot', hslot', href'⟩ | ⟨o', ho', m', hm', href'⟩ := hcj
      · rw [href, ManagerRef.input.injEq] at href'
        exact absurd (ObservedGraph.input_place_inj h hinfo hinfo' hslot hslot' href').1 hij
      · rw [href] at href'
        exact Or.inr (reads_of_mirror h hi hj hslot ho' hm' href')
    · obtain ⟨slot', hslot', href'⟩ | ⟨o', ho', m', hm', href'⟩ := hcj
      · rw [href'] at href
        exact Or.inl (reads_of_mirror h hj hi hslot' ho hm href)
      · exact absurd (output_place_inj hstreams hinfo hinfo' ho ho' (hlinked.own _ _ _ _ _ hm hm' href href').1).1 hij

end Races

end Dni.Cpp
