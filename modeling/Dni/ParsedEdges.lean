import Dni.ParsedConfig
import Dni.Lib.OnePass

namespace Dni.Cpp

open Utils OnePass

/-- The names of a list of fields, sorted by tag and index. -/
def fieldNames (fields : List Text) : List Text :=
  match TagMap.Initialize fields with
  | .ok m => m.names
  | .error _ => []

/-- The slots of a node: its names of one kind, and where they start in the graph's lists. -/
structure Slots where
  inputBase : Nat
  inputs : List Text
  outputBase : Nat
  outputs : List Text

def Slots.names (s : Slots) : List Text × List Text := (s.inputs, s.outputs)

def NodeInfo.streamSlots (node : NodeInfo) : Slots where
  inputBase := node.inputStreamBaseIndex
  inputs := node.Config.Inputs.names
  outputBase := node.outputStreamBaseIndex
  outputs := node.Config.Outputs.names

def NodeInfo.sideSlots (node : NodeInfo) : Slots where
  inputBase := node.inputSideDataBaseIndex
  inputs := node.Config.InputSideData.names
  outputBase := node.outputSideDataBaseIndex
  outputs := node.Config.OutputSideData.names

/-- A producer of the name has this index: an input of the graph's own, or an output of a node. -/
def MadeAt (graph : List Text) (nodes : List Slots) (name : Text) (p : Nat) : Prop :=
  graph[p]? = some name ∨
    ∃ node ∈ nodes, ∃ slot : Nat, node.outputs[slot]? = some name ∧ p = node.outputBase + slot

/-- No two producers declare one name, and each input of a node has the index of the producer of its
name, if there is one. -/
structure Edges.Resolved (g : Edges) (graph : List Text) (nodes : List Slots) : Prop where
  distinct : (graph ++ nodes.flatMap Slots.outputs).Nodup
  upstream : ∀ node ∈ nodes, ∀ (slot : Nat) (name : Text), node.inputs[slot]? = some name →
    ∀ p, MadeAt graph nodes name p →
      ∃ e, g.inputs[node.inputBase + slot]? = some e ∧ e.name = name ∧ e.upstreamId = p

structure ParsedGraphConfig.Resolved (g : ParsedGraphConfig) : Prop where
  streams : g.streams.Resolved (fieldNames g.Proto.inputStream) (g.Nodes.map NodeInfo.streamSlots)
  sideData : g.sideData.Resolved (fieldNames g.Proto.inputSideData) (g.Nodes.map NodeInfo.sideSlots)

/-- The order in which a configuration has to list its nodes. -/
structure GraphConfig.InOrder (config : GraphConfig) : Prop where
  streams : (fieldNames config.inputStream ++
    config.node.flatMap fun node => fieldNames node.outputStream).Nodup
  sideData : (fieldNames config.inputSideData ++
    config.node.flatMap fun node => fieldNames node.outputSideData).Nodup
  streamsBefore : config.node.Pairwise fun node later =>
    ∀ name ∈ fieldNames node.inputStream, name ∉ fieldNames later.outputStream
  sideDataBefore : config.node.Pairwise fun node later =>
    ∀ name ∈ fieldNames node.inputSideData, name ∉ fieldNames later.outputSideData
  sideDataOther : ∀ node ∈ config.node,
    ∀ name ∈ fieldNames node.inputSideData, name ∉ fieldNames node.outputSideData

namespace Edges

/-- What the lists and the index of the edges are to a pass over the names. -/
def pass (g : Edges) : Pass Text where
  declared := g.outputs.map EdgeInfo.name
  index := g.toIndex
  resolved := g.inputs.map fun e => (e.name, if e.upstreamId < 0 then none else some e.upstreamId.toNat)

@[simp] theorem pass_empty : empty.pass = Pass.empty := rfl

theorem pass_addOutput (g : Edges) (parent : NodeRef) (name : Text) :
    (g.addOutput parent name).pass = g.pass.step (.declare name) := by
  simp [pass, addOutput, Pass.step]

theorem pass_addNodeOutput (g : Edges) (node : NodeInfo) (name : Text) :
    (g.addNodeOutput node name).pass = g.pass.step (.declare name) :=
  g.pass_addOutput node.Node name

theorem pass_addInput (g : Edges) (node : NodeInfo) (name : Text) :
    (g.addInput node name).pass = g.pass.step (.refer name) := by
  have hlookup : (if g.upstream name < 0 then none else some (g.upstream name).toNat) =
      g.toIndex.lookup name := by
    unfold upstream
    cases g.toIndex.lookup name with
    | none => rfl
    | some p => simp
  simp [pass, addInput, Pass.step, hlookup]

theorem pass_addOutputs (g : Edges) (node : NodeInfo) (names : List Text) :
    (g.addOutputs node names).pass = g.pass.run (names.map .declare) := by
  unfold addOutputs Pass.run
  induction names generalizing g with
  | nil => rfl
  | cons name names ih =>
    rw [List.foldl_cons, ih, List.map_cons, List.foldl_cons, pass_addNodeOutput]

theorem pass_addInputs (g : Edges) (node : NodeInfo) (names : List Text) :
    (g.addInputs node names).pass = g.pass.run (names.map .refer) := by
  unfold addInputs Pass.run
  induction names generalizing g with
  | nil => rfl
  | cons name names ih =>
    rw [List.foldl_cons, ih, List.map_cons, List.foldl_cons, pass_addInput]

theorem pass_graphOutputs {α : Type} (parent : α → NodeRef) (name : α → Text) (xs : List α) (g : Edges) :
    (xs.foldl (fun g x => g.addOutput (parent x) (name x)) g).pass =
      g.pass.run ((xs.map name).map .declare) := by
  unfold Pass.run
  induction xs generalizing g with
  | nil => rfl
  | cons x xs ih =>
    rw [List.foldl_cons, ih, List.map_cons, List.map_cons, List.foldl_cons, pass_addOutput]

theorem toNode_graphOutputs {α : Type} (parent : α → NodeRef) (name : α → Text) (xs : List α) (g : Edges) :
    (xs.foldl (fun g x => g.addOutput (parent x) (name x)) g).toNode = g.toNode := by
  induction xs generalizing g with
  | nil => rfl
  | cons x xs ih =>
    rw [List.foldl_cons, ih]
    rfl

theorem graphOutputs (n : Nat) (names : List (Text × Nat)) (g : Edges) :
    (names.foldl (fun g e => g.addOutput ⟨.GRAPH_INPUT_STREAM, e.2 + n⟩ e.1) g).outputs =
      g.outputs ++ names.map fun e => ⟨e.1, ⟨.GRAPH_INPUT_STREAM, e.2 + n⟩, -1⟩ := by
  induction names generalizing g with
  | nil => simp
  | cons e names ih =>
    rw [List.foldl_cons, ih]
    simp [addOutput]

theorem addInputs_frame (g : Edges) (node : NodeInfo) (names : List Text) :
    (g.addInputs node names).outputs = g.outputs ∧
      (g.addInputs node names).inputs.length = g.inputs.length + names.length := by
  unfold addInputs
  induction names generalizing g with
  | nil => simp
  | cons name names ih =>
    obtain ⟨houtputs, hlength⟩ := ih (g.addInput node name)
    rw [List.foldl_cons, houtputs, hlength]
    simp only [addInput, List.length_append, List.length_cons, List.length_nil, true_and]
    omega

theorem addOutputs_frame (g : Edges) (node : NodeInfo) (names : List Text) :
    (g.addOutputs node names).inputs = g.inputs ∧
      (g.addOutputs node names).outputs.length = g.outputs.length + names.length := by
  unfold addOutputs
  induction names generalizing g with
  | nil => simp
  | cons name names ih =>
    obtain ⟨hinputs, hlength⟩ := ih (g.addNodeOutput node name)
    rw [List.foldl_cons, hinputs, hlength]
    simp only [addNodeOutput, addOutput, List.length_append, List.length_cons, List.length_nil, true_and]
    omega

end Edges

/-- What one call for a node does: its slots start where the lists end, and its names are added. -/
structure Adds (slots : NodeInfo → Slots) (events : Slots → List (Ev Text))
    (f : NodeInfo → Edges → NodeInfo × Edges) : Prop where
  pass : ∀ node g, (f node g).2.pass = g.pass.run (events (slots (f node g).1))
  place : ∀ node g, slots (f node g).1 =
    ⟨g.inputs.length, (slots node).inputs, g.outputs.length, (slots node).outputs⟩
  inputs : ∀ node g, (f node g).2.inputs.length = g.inputs.length + (slots node).inputs.length
  outputs : ∀ node g, (f node g).2.outputs.length = g.outputs.length + (slots node).outputs.length

def streamEvents (s : Slots) : List (Ev Text) := s.outputs.map .declare ++ s.inputs.map .refer

def sideEvents (s : Slots) : List (Ev Text) := s.inputs.map .refer ++ s.outputs.map .declare

theorem streams_adds : Adds NodeInfo.streamSlots streamEvents initializeNodeStreams where
  pass node g := by
    show ((g.addOutputs node _).addInputs node _).pass = _
    rw [Edges.pass_addInputs, Edges.pass_addOutputs, ← Pass.run_append]
    rfl
  place node g := by
    have hinputs := (g.addOutputs_frame node node.Config.Outputs.names).1
    simp only [initializeNodeStreams, NodeInfo.streamSlots, NodeInfo.AddPredecessors, hinputs]
  inputs node g := by
    show ((g.addOutputs node _).addInputs node _).inputs.length = _
    rw [(Edges.addInputs_frame _ _ _).2, (Edges.addOutputs_frame _ _ _).1]
    rfl
  outputs node g := by
    show ((g.addOutputs node _).addInputs node _).outputs.length = _
    rw [(Edges.addInputs_frame _ _ _).1, (Edges.addOutputs_frame _ _ _).2]
    rfl

theorem sideData_adds : Adds NodeInfo.sideSlots sideEvents initializeNodeSideData where
  pass node g := by
    show ((g.addInputs node _).addOutputs node _).pass = _
    rw [Edges.pass_addOutputs, Edges.pass_addInputs, ← Pass.run_append]
    rfl
  place node g := by
    have houtputs := (g.addInputs_frame node node.Config.InputSideData.names).1
    simp only [initializeNodeSideData, NodeInfo.sideSlots, NodeInfo.AddPredecessors, houtputs]
  inputs node g := by
    show ((g.addInputs node _).addOutputs node _).inputs.length = _
    rw [(Edges.addOutputs_frame _ _ _).1, (Edges.addInputs_frame _ _ _).2]
    rfl
  outputs node g := by
    show ((g.addInputs node _).addOutputs node _).outputs.length = _
    rw [(Edges.addOutputs_frame _ _ _).2, (Edges.addInputs_frame _ _ _).1]
    rfl

section ForNodes

variable {f : NodeInfo → Edges → NodeInfo × Edges} {nodes nodes' : List NodeInfo} {g g' : Edges}

theorem forNodes_cons {node : NodeInfo} {r : List NodeInfo × Edges}
    (h : forNodes f (node :: nodes) g = .ok r) :
    ∃ rest, forNodes f nodes (f node g).2 = .ok (rest, r.2) ∧ r.1 = (f node g).1 :: rest := by
  simp only [forNodes] at h
  split at h
  next => cases h
  next =>
    cases hrest : forNodes f nodes (f node g).2 with
    | error e => simp [hrest, bind, Except.bind] at h
    | ok rest =>
      simp only [hrest, bind, Except.bind] at h
      cases h
      exact ⟨rest.1, rfl, rfl⟩

theorem forNodes_map {α : Type} {φ : NodeInfo → α} (hf : ∀ node g, φ (f node g).1 = φ node)
    (h : forNodes f nodes g = .ok (nodes', g')) : nodes'.map φ = nodes.map φ := by
  induction nodes generalizing g nodes' with
  | nil =>
    cases h
    rfl
  | cons node nodes ih =>
    obtain ⟨rest, hrest, hnodes⟩ := forNodes_cons h
    rw [show nodes' = _ from hnodes, List.map_cons, List.map_cons, hf, ih hrest]

theorem Adds.forNodes {slots : NodeInfo → Slots} {events : Slots → List (Ev Text)}
    (hf : Adds slots events f) (h : forNodes f nodes g = .ok (nodes', g')) :
    g'.pass = g.pass.run ((nodes'.map slots).flatMap events) ∧
      InBlocks g.inputs.length ((nodes'.map slots).map fun s => (s.inputBase, s.inputs)) ∧
      InBlocks g.outputs.length ((nodes'.map slots).map fun s => (s.outputBase, s.outputs)) := by
  induction nodes generalizing g nodes' with
  | nil =>
    cases h
    exact ⟨rfl, trivial, trivial⟩
  | cons node nodes ih =>
    obtain ⟨rest, hrest, hnodes⟩ := forNodes_cons h
    obtain ⟨hpass, hinputs, houtputs⟩ := ih hrest
    rw [hf.inputs] at hinputs
    rw [hf.outputs] at houtputs
    rw [show nodes' = _ from hnodes, List.map_cons, List.flatMap_cons, Pass.run_append, ← hf.pass, hpass]
    simp only [List.map_cons, InBlocks, hf.place]
    exact ⟨trivial, ⟨trivial, hinputs⟩, trivial, houtputs⟩

end ForNodes

end Dni.Cpp
