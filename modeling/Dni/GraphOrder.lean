import Dni.ParsedOrder
import Dni.Lib.ByName

namespace Dni.Cpp

open Utils ByName Relation

/-- The node whose task has a name; a name that is taken keeps its task. -/
def taskMap (nodes : List NodeInfo) : GoMap Text Nat :=
  nodes.zipIdx.foldl (fun m e => m.emplace e.1.Config.nodeName e.2) ∅

/-- `at`, which throws when no task has the name. -/
def taskAt (tasks : GoMap Text Nat) (name : Text) : Except Stop Nat :=
  match tasks.lookup name with
  | some task => .ok task
  | none => .error .terminated

/-- The loops over the nodes and their predecessors: each pair is a task and one that it succeeds. -/
def succeedAll (tasks : GoMap Text Nat) : List NodeInfo → Except Stop (List (Nat × Nat))
  | [] => .ok []
  | node :: nodes => do
    let task ← taskAt tasks node.Config.nodeName
    let preds ← node.Predecessors.mapM (taskAt tasks)
    .ok (preds.map (fun pred => (task, pred)) ++ (← succeedAll tasks nodes))

/-- A node has another among its predecessors, which it knows by their names. -/
def HasPredecessor (g : ParsedGraphConfig) (i j : Nat) : Prop :=
  ∃ node pred, g.Nodes[i]? = some node ∧ g.Nodes[j]? = some pred ∧ pred.Config.nodeName ∈ node.Predecessors

/-- Neither the nodes by their predecessors nor the tasks that are made of them go round. -/
structure OrderRight (g : ParsedGraphConfig) : Prop where
  nodes : Acyclic (HasPredecessor g)
  tasks : ∃ edges, succeedAll (taskMap g.Nodes) g.Nodes = .ok edges ∧ Acyclic fun i j => (i, j) ∈ edges

/-- The last of the first `n` nodes that makes a name. -/
structure LastMaker (made : List (List Text)) (n : Nat) (name : Text) (j : Nat) : Prop where
  lt : j < n
  makes : ∃ outputs, made[j]? = some outputs ∧ name ∈ outputs
  last : ∀ k, j < k → k < n → ∀ outputs, made[k]? = some outputs → name ∉ outputs

namespace GraphConfig

/-- A node reads what another is the last to make: of the side data before it, of the streams up to it. -/
def Reads (config : GraphConfig) (i j : Nat) : Prop :=
  ∃ node, config.node[i]? = some node ∧
    ((∃ name ∈ fieldNames node.inputSideData,
        LastMaker (config.node.map fun node => fieldNames node.outputSideData) i name j) ∨
      ∃ name ∈ fieldNames node.inputStream,
        LastMaker (config.node.map fun node => fieldNames node.outputStream) (i + 1) name j)

def canonicalName (config : GraphConfig) (i : Nat) : Option Text :=
  (config.node[i]?).map fun node => CanonicalNodeName config node i

/-- No node reads a stream of its own, and no chain of readings goes round through nodes that share a canonical name. -/
structure Layered (config : GraphConfig) : Prop where
  own : ∀ node ∈ config.node, ∀ name ∈ fieldNames node.inputStream, name ∉ fieldNames node.outputStream
  shared : Acyclic (Jumps config.Reads config.canonicalName)

end GraphConfig

section Makers

variable {made : List (List Text)} {n j : Nat} {name : Text} {outputs : List Text}

theorem LastMaker.succ_iff (h : made[n]? = some outputs) :
    LastMaker made (n + 1) name j ↔ if name ∈ outputs then j = n else LastMaker made n name j := by
  by_cases hin : name ∈ outputs
  · rw [if_pos hin]
    apply Iff.intro
    · intro hlast
      by_contra hne
      have hlt := hlast.lt
      exact hlast.last n (by omega) (Nat.lt_succ_self n) outputs h hin
    · intro heq
      subst heq
      refine ⟨Nat.lt_succ_self _, ⟨outputs, h, hin⟩, ?_⟩
      intro k hlo hhi
      omega
  · rw [if_neg hin]
    apply Iff.intro
    · intro hlast
      have hne : j ≠ n := by
        intro heq
        obtain ⟨outputs', h', hin'⟩ := hlast.makes
        rw [heq, h] at h'
        cases h'
        exact hin hin'
      have hlt := hlast.lt
      refine ⟨by omega, hlast.makes, ?_⟩
      intro k hlo hhi
      exact hlast.last k hlo (by omega)
    · intro hlast
      refine ⟨Nat.lt_succ_of_lt hlast.lt, hlast.makes, ?_⟩
      intro k hlo hhi outputs' h'
      by_cases heq : k = n
      · rw [heq, h] at h'
        cases h'
        exact hin
      · exact hlast.last k hlo (by omega) outputs' h'

theorem not_lastMaker_zero : ¬ LastMaker made 0 name j := fun h => Nat.not_lt_zero _ h.lt

end Makers

namespace Edges

/-- Every name that has a node has an index. -/
def Known (g : Edges) : Prop := ∀ name p, g.toNode.lookup name = some p → (g.toIndex.lookup name).isSome = true

theorem Known.predecessor {g : Edges} (h : g.Known) (name : Text) : g.predecessor name = g.toNode.lookup name := by
  rw [Edges.predecessor]
  cases hp : g.toNode.lookup name with
  | none =>
    cases g.toIndex.lookup name with
    | none => rfl
    | some index => rfl
  | some p =>
    obtain ⟨index, hindex⟩ := Option.isSome_iff_exists.mp (h name p hp)
    rw [hindex, Option.bind_some]

theorem Known.addNodeOutput {g : Edges} (h : g.Known) (node : NodeInfo) (name : Text) :
    (g.addNodeOutput node name).Known := by
  intro name' p hp
  simp only [Edges.addNodeOutput, addOutput, GoMap.lookup_insert_if] at hp ⊢
  by_cases heq : name' = name
  · rw [if_pos heq, Option.isSome_some]
  · rw [if_neg heq] at hp ⊢
    exact h name' p hp

theorem Known.addOutputs {g : Edges} (h : g.Known) (node : NodeInfo) (names : List Text) :
    (g.addOutputs node names).Known := by
  rw [Edges.addOutputs]
  induction names generalizing g with
  | nil => exact h
  | cons name names ih => exact ih (h.addNodeOutput node name)

theorem toNode_addOutputs (g : Edges) (node : NodeInfo) (names : List Text) (name : Text) :
    (g.addOutputs node names).toNode.lookup name =
      if name ∈ names then some node.Config.nodeName else g.toNode.lookup name := by
  rw [addOutputs]
  induction names generalizing g with
  | nil => rw [if_neg List.not_mem_nil, List.foldl_nil]
  | cons name' names ih =>
    rw [List.foldl_cons, ih, addNodeOutput, GoMap.lookup_insert_if]
    by_cases hin : name ∈ names
    · rw [if_pos hin, if_pos (List.mem_cons_of_mem _ hin)]
    · rw [if_neg hin]
      by_cases heq : name = name'
      · rw [if_pos heq, if_pos (heq ▸ List.mem_cons_self)]
      · rw [if_neg heq, if_neg fun h => (List.mem_cons.mp h).elim heq hin]

theorem maps_addInputs (g : Edges) (node : NodeInfo) (names : List Text) :
    (g.addInputs node names).toIndex = g.toIndex ∧ (g.addInputs node names).toNode = g.toNode := by
  rw [addInputs]
  induction names generalizing g with
  | nil => exact ⟨rfl, rfl⟩
  | cons name names ih => exact ih (g.addInput node name)

theorem Known.addInputs {g : Edges} (h : g.Known) (node : NodeInfo) (names : List Text) :
    (g.addInputs node names).Known := by
  obtain ⟨hindex, hnode⟩ := g.maps_addInputs node names
  rw [Known, hindex, hnode]
  exact h

end Edges

theorem mem_addPredecessors (node : NodeInfo) (names : List Text) (p : Text) :
    p ∈ (node.AddPredecessors names).Predecessors ↔ p ∈ node.Predecessors ∨ p ∈ names := by
  rw [NodeInfo.AddPredecessors]
  dsimp only
  generalize node.Predecessors = preds
  induction names generalizing preds with
  | nil => rw [List.foldl_nil, or_iff_left List.not_mem_nil]
  | cons name names ih => rw [List.foldl_cons, ih, List.mem_insert_iff, List.mem_cons, or_comm (a := p = name), or_assoc]

/-- What one call for a node does to the predecessors; `own` tells whether its own outputs are known before its inputs. -/
structure Finds (inputs outputs : NodeConfig → List Text) (own : Bool)
    (f : NodeInfo → Edges → NodeInfo × Edges) : Prop where
  config : ∀ node g, (f node g).1.Config = node.Config
  known : ∀ node g, g.Known → (f node g).2.Known
  toNode : ∀ node g name, (f node g).2.toNode.lookup name =
    if name ∈ outputs node.Config then some node.Config.nodeName else g.toNode.lookup name
  preds : ∀ node g p, g.Known → (p ∈ (f node g).1.Predecessors ↔ p ∈ node.Predecessors ∨
    ∃ name ∈ inputs node.Config, (if own then (f node g).2 else g).toNode.lookup name = some p)

theorem sideData_finds :
    Finds (fun c => c.InputSideData.names) (fun c => c.OutputSideData.names) false initializeNodeSideData where
  config _ _ := rfl
  known node g h := (h.addInputs node _).addOutputs node _
  toNode node g name := by
    rw [initializeNodeSideData, Edges.toNode_addOutputs, (g.maps_addInputs _ _).2]
  preds node g p h := by
    refine (mem_addPredecessors node _ p).trans (or_congr_right ?_)
    rw [List.mem_filterMap]
    simp only [h.predecessor, Bool.false_eq_true, if_false]

theorem streams_finds :
    Finds (fun c => c.Inputs.names) (fun c => c.Outputs.names) true initializeNodeStreams where
  config _ _ := rfl
  known node g h := (h.addOutputs node _).addInputs node _
  toNode node g name := by
    rw [initializeNodeStreams, ((g.addOutputs node _).maps_addInputs _ _).2, Edges.toNode_addOutputs]
  preds node g p h := by
    refine (mem_addPredecessors node _ p).trans (or_congr_right ?_)
    rw [List.mem_filterMap]
    simp only [(h.addOutputs node _).predecessor, if_true, initializeNodeStreams,
      ((g.addOutputs node _).maps_addInputs _ _).2]

section Run

variable {made : List (List Text)} {names : List Text}

/-- The producers of the first `n` nodes are known, each name with the last one that makes it. -/
structure Knows (made : List (List Text)) (names : List Text) (n : Nat) (g : Edges) : Prop where
  known : g.Known
  maker : ∀ name p, g.toNode.lookup name = some p ↔ ∃ j, LastMaker made n name j ∧ names[j]? = some p

theorem knows_zero {g : Edges} (h : g.toNode = ∅) : Knows made names 0 g := by
  have hnone : ∀ name, g.toNode.lookup name = none := by
    intro name
    rw [h]
    rfl
  refine ⟨?_, ?_⟩
  · intro name p hp
    rw [hnone] at hp
    cases hp
  · intro name p
    rw [hnone]
    apply iff_of_false
    · intro hp
      cases hp
    · intro ⟨j, hj, _⟩
      exact not_lastMaker_zero hj

variable {inputs outputs : NodeConfig → List Text} {own : Bool} {f : NodeInfo → Edges → NodeInfo × Edges}

theorem Finds.knows (hf : Finds inputs outputs own f) {n : Nat} {node : NodeInfo} {g : Edges}
    (hmade : made[n]? = some (outputs node.Config)) (hname : names[n]? = some node.Config.nodeName)
    (h : Knows made names n g) : Knows made names (n + 1) (f node g).2 := by
  refine ⟨hf.known node g h.known, ?_⟩
  intro name p
  rw [hf.toNode]
  simp only [LastMaker.succ_iff hmade]
  by_cases hin : name ∈ outputs node.Config
  · simp only [if_pos hin, exists_eq_left, hname]
  · simp only [if_neg hin, h.maker]

/-- The predecessors that a pass over the nodes gives to each of them. -/
theorem Finds.forNodes (hf : Finds inputs outputs own f) {nodes nodes' : List NodeInfo} {g g' : Edges} {n : Nat}
    (h : forNodes f nodes g = .ok (nodes', g'))
    (hnodes : ∀ (i : Nat) node, nodes[i]? = some node →
      made[n + i]? = some (outputs node.Config) ∧ names[n + i]? = some node.Config.nodeName)
    (hknows : Knows made names n g) (i : Nat) (node' : NodeInfo) (hi : nodes'[i]? = some node') :
    ∃ node, nodes[i]? = some node ∧ node'.Config = node.Config ∧
      ∀ p, p ∈ node'.Predecessors ↔ p ∈ node.Predecessors ∨
        ∃ name ∈ inputs node.Config, ∃ j, LastMaker made (n + i + own.toNat) name j ∧ names[j]? = some p := by
  induction nodes generalizing g nodes' n i with
  | nil =>
    cases h
    cases hi
  | cons node nodes ih =>
    obtain ⟨rest, hrest, hnodes'⟩ := forNodes_cons h
    dsimp only at hrest hnodes'
    subst hnodes'
    obtain ⟨hmade, hname⟩ := hnodes 0 node rfl
    have hnext := hf.knows hmade hname hknows
    cases i with
    | zero =>
      cases hi
      refine ⟨node, rfl, hf.config node g, ?_⟩
      intro p
      rw [hf.preds node g p hknows.known]
      cases own with
      | false => simp only [Bool.false_eq_true, if_false, hknows.maker, Nat.add_zero, Bool.toNat_false]
      | true => simp only [if_true, hnext.maker, Nat.add_zero, Bool.toNat_true]
    | succ i =>
      obtain ⟨node₀, hi₀, hconfig, hpreds⟩ := ih hrest (fun k node hk => by
        have hk' := hnodes (k + 1) node hk
        rwa [Nat.add_right_comm n 1 k]) hnext i hi
      refine ⟨node₀, hi₀, hconfig, ?_⟩
      rwa [Nat.add_right_comm n 1 i] at hpreds

/-- A pass over all nodes gives each of them the last makers of the names it reads. -/
theorem Finds.forNodes_zero (hf : Finds inputs outputs own f) {nodes nodes' : List NodeInfo} {g g' : Edges}
    (h : Cpp.forNodes f nodes g = .ok (nodes', g')) (hg : g.toNode = ∅) {i : Nat} {node' : NodeInfo}
    (hi : nodes'[i]? = some node') :
    ∃ node, nodes[i]? = some node ∧ node'.Config = node.Config ∧
      ∀ p, p ∈ node'.Predecessors ↔ p ∈ node.Predecessors ∨ ∃ name ∈ inputs node.Config,
        ∃ j, LastMaker (nodes.map fun node => outputs node.Config) (i + own.toNat) name j ∧
          (nodes.map fun node => node.Config.nodeName)[j]? = some p := by
  have hnodes : ∀ (i : Nat) node, nodes[i]? = some node →
      (nodes.map fun node => outputs node.Config)[0 + i]? = some (outputs node.Config) ∧
        (nodes.map fun node => node.Config.nodeName)[0 + i]? = some node.Config.nodeName := by
    intro i node hi
    rw [Nat.zero_add, List.getElem?_map, List.getElem?_map, hi]
    exact ⟨rfl, rfl⟩
  have hpass := hf.forNodes h hnodes (knows_zero hg) i node' hi
  rwa [Nat.zero_add] at hpass

end Run

theorem initializeNodes_at {config : GraphConfig} {protos : List GraphConfig.Node} {n : Nat} {nodes : List NodeInfo}
    (h : ParsedGraphConfig.InitializeNodes config n protos = .ok nodes) (i : Nat) :
    (nodes[i]?).map (fun node => (node.Config.nodeName, node.Predecessors)) =
      (protos[i]?).map fun proto => (CanonicalNodeName config proto (n + i), []) := by
  induction protos generalizing n nodes i with
  | nil =>
    cases h
    rfl
  | cons proto protos ih =>
    obtain ⟨node, hnode, h⟩ := bind_ok h
    obtain ⟨rest, hrest, h⟩ := bind_ok h
    cases h
    cases i with
    | zero =>
      obtain ⟨cfg, hcfg, hnode⟩ := bind_ok hnode
      obtain ⟨_, _, hnode⟩ := bind_ok hnode
      cases hnode
      have hname : cfg.nodeName = CanonicalNodeName config proto n := by
        obtain ⟨_, _, hcfg⟩ := bind_ok hcfg
        obtain ⟨_, _, hcfg⟩ := bind_ok hcfg
        obtain ⟨_, _, hcfg⟩ := bind_ok hcfg
        obtain ⟨_, _, hcfg⟩ := bind_ok hcfg
        obtain ⟨_, _, hcfg⟩ := bind_ok hcfg
        obtain ⟨_, _, hcfg⟩ := bind_ok hcfg
        obtain ⟨_, _, hcfg⟩ := bind_ok hcfg
        obtain ⟨_, _, hcfg⟩ := bind_ok hcfg
        cases hcfg
        rfl
      simp only [List.getElem?_cons_zero, Option.map_some, hname, Nat.add_zero]
    | succ i =>
      rw [List.getElem?_cons_succ, List.getElem?_cons_succ, ih hrest i, Nat.add_right_comm n 1 i]
      rfl

section Nodes

variable {config : GraphConfig} {nodes : List NodeInfo}
  (h : ParsedGraphConfig.InitializeNodes config 0 config.node = .ok nodes)

include h

theorem initializeNodes_name (i : Nat) : (nodes.map fun node => node.Config.nodeName)[i]? = config.canonicalName i := by
  have hat := congrArg (Option.map Prod.fst) (initializeNodes_at h i)
  rw [Option.map_map, Option.map_map, Nat.zero_add] at hat
  rw [List.getElem?_map]
  exact hat

theorem initializeNodes_predecessors {i : Nat} {node : NodeInfo} (hi : nodes[i]? = some node) : node.Predecessors = [] := by
  have hat := congrArg (Option.map Prod.snd) (initializeNodes_at h i)
  rw [Option.map_map, Option.map_map, hi] at hat
  cases hproto : config.node[i]? with
  | none =>
    rw [hproto] at hat
    cases hat
  | some proto =>
    rw [hproto] at hat
    exact Option.some.inj hat

end Nodes

theorem map_config {nodes nodes' : List NodeInfo} (h : nodes'.map NodeInfo.Config = nodes.map NodeInfo.Config)
    {α : Type} (field : NodeConfig → α) :
    nodes'.map (fun node => field node.Config) = nodes.map fun node => field node.Config := by
  have hmap := congrArg (List.map field) h
  rw [List.map_map, List.map_map] at hmap
  exact hmap

section Accepted

variable {config : GraphConfig} {g : ParsedGraphConfig}

/-- The nodes of an accepted configuration, each with its name and its predecessors. -/
structure NodesRead (config : GraphConfig) (nodes : List NodeInfo) : Prop where
  name : ∀ i, (nodes[i]?).map (fun node => node.Config.nodeName) = config.canonicalName i
  preds : ∀ (i : Nat) node, nodes[i]? = some node →
    ∀ p, p ∈ node.Predecessors ↔ ∃ j, config.Reads i j ∧ config.canonicalName j = some p

theorem named_at {protos : List GraphConfig.Node} {nodes : List NodeInfo} (h : List.Forall₂ Named protos nodes)
    {i : Nat} {node : NodeInfo} (hi : nodes[i]? = some node) : ∃ proto, protos[i]? = some proto ∧ Named proto node := by
  induction h generalizing i with
  | nil => cases hi
  | @cons proto node₀ _ _ hnamed _ ih =>
    cases i with
    | zero =>
      cases hi
      exact ⟨proto, rfl, hnamed⟩
    | succ i => exact ih hi

theorem nodesRead (h : ParsedGraphConfig.Initialize config = .ok g) : NodesRead config g.Nodes := by
  obtain ⟨-, nodes, nodes', hnodes, hside, hstreams⟩ := ParsedGraphConfig.initialize_ok h
  have hnamed := initializeNodes_named hnodes
  obtain ⟨gs, hgs, -, hsides⟩ := ParsedGraphConfig.initializeSideData_ok hside
  obtain ⟨gt, hgt, -, -, hstream⟩ := ParsedGraphConfig.initializeStreams_ok hstreams
  have hconfig' : nodes'.map NodeInfo.Config = nodes.map NodeInfo.Config := forNodes_map sideData_finds.config hsides
  have hconfig : g.Nodes.map NodeInfo.Config = nodes'.map NodeInfo.Config := forNodes_map streams_finds.config hstream
  have hsideMade : (nodes.map fun node => node.Config.OutputSideData.names) =
      config.node.map fun node => fieldNames node.outputSideData := by
    have hpairs := congrArg (List.map Prod.snd) (ParsedGraphConfig.side_names hnamed)
    rwa [List.map_map, List.map_map] at hpairs
  have hstreamMade : (nodes'.map fun node => node.Config.Outputs.names) =
      config.node.map fun node => fieldNames node.outputStream := by
    rw [map_config hconfig' fun c => c.Outputs.names]
    have hpairs := congrArg (List.map Prod.snd) (ParsedGraphConfig.stream_names hnamed)
    rwa [List.map_map, List.map_map] at hpairs
  refine ⟨?_, ?_⟩
  · intro i
    rw [← initializeNodes_name hnodes, ← map_config (hconfig.trans hconfig') NodeConfig.nodeName, List.getElem?_map]
  · intro i node'' hi p
    obtain ⟨node', hi', -, hpreds''⟩ := streams_finds.forNodes_zero hstream hgt hi
    obtain ⟨node, hi₀, hconfig₀, hpreds'⟩ := sideData_finds.forNodes_zero hsides hgs hi'
    obtain ⟨proto, hproto, hn⟩ := named_at hnamed hi₀
    rw [hstreamMade, map_config hconfig' NodeConfig.nodeName] at hpreds''
    rw [hsideMade] at hpreds'
    rw [hpreds'', hpreds', initializeNodes_predecessors hnodes hi₀, or_iff_right List.not_mem_nil, hconfig₀,
      hn.inputSideData, hn.inputs]
    simp only [initializeNodes_name hnodes, Bool.toNat_false, Bool.toNat_true, Nat.add_zero, GraphConfig.Reads, hproto,
      Option.some.injEq, exists_eq_left']
    apply Iff.intro
    · intro hread
      obtain ⟨name, hin, j, hlast, hj⟩ | ⟨name, hin, j, hlast, hj⟩ := hread
      · exact ⟨j, Or.inl ⟨name, hin, hlast⟩, hj⟩
      · exact ⟨j, Or.inr ⟨name, hin, hlast⟩, hj⟩
    · intro ⟨j, hread, hj⟩
      obtain ⟨name, hin, hlast⟩ | ⟨name, hin, hlast⟩ := hread
      · exact Or.inl ⟨name, hin, j, hlast, hj⟩
      · exact Or.inr ⟨name, hin, j, hlast, hj⟩

namespace GraphConfig.Reads

variable {i j : Nat}

theorem le (h : config.Reads i j) : j ≤ i := by
  obtain ⟨node, -, ⟨name, -, hlast⟩ | ⟨name, -, hlast⟩⟩ := h
  · exact Nat.le_of_lt hlast.lt
  · exact Nat.le_of_lt_succ hlast.lt

theorem canonicalName_reader (h : config.Reads i j) : ∃ q, config.canonicalName i = some q := by
  obtain ⟨node, hi, -⟩ := h
  rw [GraphConfig.canonicalName, hi]
  exact ⟨_, rfl⟩

theorem canonicalName_maker (h : config.Reads i j) : ∃ q, config.canonicalName j = some q := by
  have hmade : ∀ {φ : GraphConfig.Node → List Text} {n : Nat} {name : Text}, LastMaker (config.node.map φ) n name j →
      ∃ q, config.canonicalName j = some q := by
    intro φ n name hlast
    obtain ⟨outputs, hj, -⟩ := hlast.makes
    rw [List.getElem?_map, Option.map_eq_some_iff] at hj
    obtain ⟨node, hj, -⟩ := hj
    rw [GraphConfig.canonicalName, hj]
    exact ⟨_, rfl⟩
  obtain ⟨node, -, ⟨name, -, hlast⟩ | ⟨name, -, hlast⟩⟩ := h
  · exact hmade hlast
  · exact hmade hlast

/-- Only streams are looked up after the node's own are known. -/
theorem self_iff : config.Reads i i ↔ ∃ node, config.node[i]? = some node ∧
    ∃ name ∈ fieldNames node.inputStream, name ∈ fieldNames node.outputStream := by
  apply Iff.intro
  · intro ⟨node, hi, hread⟩
    obtain ⟨name, -, hlast⟩ | ⟨name, hin, hlast⟩ := hread
    · exact absurd hlast.lt (Nat.lt_irrefl i)
    · obtain ⟨outputs, hmade, hout⟩ := hlast.makes
      rw [List.getElem?_map, hi, Option.map_some] at hmade
      cases hmade
      exact ⟨node, hi, name, hin, hout⟩
  · intro ⟨node, hi, name, hin, hout⟩
    refine ⟨node, hi, Or.inr ⟨name, hin, ?_⟩⟩
    have hmade : (config.node.map fun node => fieldNames node.outputStream)[i]? = some (fieldNames node.outputStream) := by
      rw [List.getElem?_map, hi, Option.map_some]
    rw [LastMaker.succ_iff hmade, if_pos hout]

end GraphConfig.Reads

/-- Where the canonical names differ only a stream of a node's own is in the way. -/
theorem GraphConfig.layered_iff_own
    (hd : ∀ i j q, config.canonicalName i = some q → config.canonicalName j = some q → i = j) :
    config.Layered ↔
      ∀ node ∈ config.node, ∀ name ∈ fieldNames node.inputStream, name ∉ fieldNames node.outputStream := by
  apply Iff.intro
  · exact fun h => h.own
  · intro hown
    refine ⟨hown, acyclic_jumps_of_distinct ?_⟩
    intro a c b hac hname
    obtain ⟨q, hq⟩ := hac.canonicalName_maker
    exact hd c b q hq (hname.symm.trans hq)

namespace NodesRead

variable {nodes : List NodeInfo} (h : NodesRead config nodes)
include h

theorem node_of_name {i : Nat} {q : Text} (hq : config.canonicalName i = some q) :
    ∃ node, nodes[i]? = some node ∧ node.Config.nodeName = q := by
  rw [← h.name, Option.map_eq_some_iff] at hq
  exact hq

theorem name_of_node {i : Nat} {node : NodeInfo} (hi : nodes[i]? = some node) :
    config.canonicalName i = some node.Config.nodeName := by
  rw [← h.name, hi, Option.map_some]

theorem hasPredecessor_iff (hg : g.Nodes = nodes) (i j : Nat) :
    HasPredecessor g i j ↔ Leads config.Reads config.canonicalName i j := by
  subst hg
  apply Iff.intro
  · intro ⟨node, pred, hi, hj, hpred⟩
    obtain ⟨k, hread, hk⟩ := (h.preds i node hi _).mp hpred
    exact ⟨k, hread, hk.trans (h.name_of_node hj).symm⟩
  · intro ⟨k, hread, hk⟩
    obtain ⟨q, hq⟩ := hread.canonicalName_maker
    obtain ⟨_, hi⟩ := hread.canonicalName_reader
    obtain ⟨node, hi, -⟩ := h.node_of_name hi
    obtain ⟨pred, hj, hname⟩ := h.node_of_name (hk.symm.trans hq)
    exact ⟨node, pred, hi, hj, (h.preds i node hi _).mpr ⟨k, hread, hname ▸ hq⟩⟩

end NodesRead

section Tasks

variable {nodes : List NodeInfo} {tasks : GoMap Text Nat}

theorem name_of_taskMap {name : Text} {x : Nat} (h : (taskMap nodes).lookup name = some x) :
    ∃ node, nodes[x]? = some node ∧ node.Config.nodeName = name := by
  rw [taskMap, GoMap.lookup_foldl_emplace fun e : NodeInfo × Nat => e.1.Config.nodeName] at h
  change Option.map _ _ = _ at h
  obtain ⟨e, he, hx⟩ := Option.map_eq_some_iff.mp h
  have hname := List.find?_some he
  rw [decide_eq_true_iff] at hname
  exact ⟨e.1, hx ▸ List.mem_zipIdx_iff_getElem?.mp (List.mem_of_find?_eq_some he), hname.symm⟩

theorem taskMap_of_node {i : Nat} {node : NodeInfo} (h : nodes[i]? = some node) :
    ∃ x, (taskMap nodes).lookup node.Config.nodeName = some x := by
  rw [taskMap, GoMap.lookup_foldl_emplace fun e : NodeInfo × Nat => e.1.Config.nodeName]
  have hfound : (nodes.zipIdx.find? fun e => node.Config.nodeName = e.1.Config.nodeName).isSome = true := by
    rw [List.find?_isSome]
    exact ⟨(node, i), List.mem_zipIdx_iff_getElem?.mpr h, decide_eq_true rfl⟩
  obtain ⟨e, he⟩ := Option.isSome_iff_exists.mp hfound
  rw [he]
  exact ⟨e.2, rfl⟩

theorem taskAt_ok_iff {name : Text} {x : Nat} : taskAt tasks name = .ok x ↔ tasks.lookup name = some x := by
  rw [taskAt]
  cases tasks.lookup name with
  | none => exact iff_of_false nofun nofun
  | some y => rw [Except.ok.injEq, Option.some.injEq]

theorem mapM_taskAt {names : List Text} (h : ∀ p ∈ names, ∃ x, tasks.lookup p = some x) :
    ∃ xs, names.mapM (taskAt tasks) = .ok xs ∧ ∀ y, y ∈ xs ↔ ∃ p ∈ names, tasks.lookup p = some y := by
  induction names with
  | nil => exact ⟨[], rfl, fun y => iff_of_false List.not_mem_nil fun ⟨p, hp, _⟩ => List.not_mem_nil hp⟩
  | cons p names ih =>
    obtain ⟨x, hx⟩ := h p List.mem_cons_self
    obtain ⟨xs, hxs, hmem⟩ := ih fun q hq => h q (List.mem_cons_of_mem _ hq)
    refine ⟨x :: xs, ?_, ?_⟩
    · rw [List.mapM_cons, taskAt_ok_iff.mpr hx, ok_bind, hxs, ok_bind]
      rfl
    · intro y
      rw [List.mem_cons, hmem, List.exists_mem_cons_iff, hx, Option.some.injEq, eq_comm]

theorem succeedAll_ok (h : ∀ node ∈ nodes, (∃ x, tasks.lookup node.Config.nodeName = some x) ∧
      ∀ p ∈ node.Predecessors, ∃ y, tasks.lookup p = some y) :
    ∃ edges, succeedAll tasks nodes = .ok edges ∧ ∀ x y, (x, y) ∈ edges ↔ ∃ node ∈ nodes,
      tasks.lookup node.Config.nodeName = some x ∧ ∃ p ∈ node.Predecessors, tasks.lookup p = some y := by
  induction nodes with
  | nil => exact ⟨[], rfl, fun x y => iff_of_false List.not_mem_nil fun ⟨p, hp, _⟩ => List.not_mem_nil hp⟩
  | cons node nodes ih =>
    obtain ⟨⟨x₀, hx₀⟩, hpreds⟩ := h node List.mem_cons_self
    obtain ⟨ys, hys, hmem⟩ := mapM_taskAt hpreds
    obtain ⟨edges, hedges, hall⟩ := ih fun node' hnode' => h node' (List.mem_cons_of_mem _ hnode')
    refine ⟨ys.map (fun pred => (x₀, pred)) ++ edges, ?_, ?_⟩
    · rw [succeedAll, taskAt_ok_iff.mpr hx₀, ok_bind, hys, ok_bind, hedges, ok_bind]
    · intro x y
      rw [List.mem_append, hall, List.exists_mem_cons_iff, hx₀, Option.some.injEq, ← hmem]
      refine or_congr_left ?_
      rw [List.mem_map]
      simp only [Prod.mk.injEq]
      apply Iff.intro
      · intro ⟨y', hy', hx, hy⟩
        exact ⟨hx, hy ▸ hy'⟩
      · intro ⟨hx, hy⟩
        exact ⟨y, hy, hx, rfl⟩

end Tasks

/-- The id of the task that a node's name has. -/
def taskOf (config : GraphConfig) (tasks : GoMap Text Nat) (i : Nat) : Nat :=
  ((config.canonicalName i).bind tasks.lookup).getD 0

/-- The tasks go round when the nodes do. -/
theorem NodesRead.tasks_iff (h : NodesRead config g.Nodes) :
    (∃ edges, succeedAll (taskMap g.Nodes) g.Nodes = .ok edges ∧ Acyclic fun i j => (i, j) ∈ edges) ↔
      Acyclic (Leads config.Reads config.canonicalName) := by
  have hlookup : ∀ {i q}, config.canonicalName i = some q → ∃ x, (taskMap g.Nodes).lookup q = some x := by
    intro i q hq
    obtain ⟨node, hi, hname⟩ := h.node_of_name hq
    exact hname ▸ taskMap_of_node hi
  have htask : ∀ {i q x}, config.canonicalName i = some q → (taskMap g.Nodes).lookup q = some x →
      taskOf config (taskMap g.Nodes) i = x := by
    intro i q x hq hx
    rw [taskOf, hq, Option.bind_some, hx, Option.getD_some]
  have hkeys : ∀ node ∈ g.Nodes, (∃ x, (taskMap g.Nodes).lookup node.Config.nodeName = some x) ∧
      ∀ p ∈ node.Predecessors, ∃ y, (taskMap g.Nodes).lookup p = some y := by
    intro node hnode
    obtain ⟨i, hi⟩ := List.mem_iff_getElem?.mp hnode
    refine ⟨taskMap_of_node hi, ?_⟩
    intro p hp
    obtain ⟨j, -, hj⟩ := (h.preds i node hi p).mp hp
    exact hlookup hj
  obtain ⟨edges, hedges, hmem⟩ := succeedAll_ok hkeys
  have hbetween : (fun x y => (x, y) ∈ edges) = Between config.Reads (taskOf config (taskMap g.Nodes)) := by
    funext x y
    rw [hmem, eq_iff_iff]
    apply Iff.intro
    · intro ⟨node, hnode, hx, p, hp, hy⟩
      obtain ⟨i, hi⟩ := List.mem_iff_getElem?.mp hnode
      obtain ⟨j, hread, hj⟩ := (h.preds i node hi p).mp hp
      exact ⟨i, j, hread, htask (h.name_of_node hi) hx, htask hj hy⟩
    · intro ⟨i, j, hread, hx, hy⟩
      obtain ⟨q, hq⟩ := hread.canonicalName_reader
      obtain ⟨p, hp⟩ := hread.canonicalName_maker
      obtain ⟨node, hi, hname⟩ := h.node_of_name hq
      obtain ⟨x', hx'⟩ := hlookup hq
      obtain ⟨y', hy'⟩ := hlookup hp
      refine ⟨node, List.mem_of_getElem? hi, ?_, p, (h.preds i node hi p).mpr ⟨j, hread, hp⟩, ?_⟩
      · rw [hname, hx', ← htask hq hx', hx]
      · rw [hy', ← htask hp hy', hy]
  have hmeet : ∀ a b a' b', config.Reads a b → config.Reads a' b' →
      taskOf config (taskMap g.Nodes) b = taskOf config (taskMap g.Nodes) a' →
      config.canonicalName b = config.canonicalName a' := by
    intro a b a' b' hab hab' heq
    obtain ⟨p, hp⟩ := hab.canonicalName_maker
    obtain ⟨q, hq⟩ := hab'.canonicalName_reader
    obtain ⟨x, hx⟩ := hlookup hp
    obtain ⟨y, hy⟩ := hlookup hq
    rw [htask hp hx, htask hq hy] at heq
    subst heq
    obtain ⟨node, hi, hname⟩ := name_of_taskMap hx
    obtain ⟨node', hi', hname'⟩ := name_of_taskMap hy
    rw [hi] at hi'
    cases hi'
    rw [hp, hq, ← hname, ← hname']
  have hsame : ∀ a b c, config.Reads a c → config.canonicalName c = config.canonicalName b →
      taskOf config (taskMap g.Nodes) c = taskOf config (taskMap g.Nodes) b := by
    intro a b c _ heq
    rw [taskOf, taskOf, heq]
  rw [hedges]
  simp only [Except.ok.injEq, exists_eq_left']
  rw [hbetween]
  exact acyclic_between_iff hmeet hsame

/-- An accepted configuration has its nodes ordered without a cycle exactly when it is layered. -/
theorem orderRight_iff_layered (h : ParsedGraphConfig.Initialize config = .ok g) : OrderRight g ↔ config.Layered := by
  have hread := nodesRead h
  have hself : (∀ i, ¬ config.Reads i i) ↔
      ∀ node ∈ config.node, ∀ name ∈ fieldNames node.inputStream, name ∉ fieldNames node.outputStream := by
    simp only [GraphConfig.Reads.self_iff]
    apply Iff.intro
    · intro hno node hnode name hin hout
      obtain ⟨i, hi⟩ := List.mem_iff_getElem?.mp hnode
      exact hno i ⟨node, hi, name, hin, hout⟩
    · intro hno i ⟨node, hi, name, hin, hout⟩
      exact hno node (List.mem_of_getElem? hi) name hin hout
  have hleads : Acyclic (Leads config.Reads config.canonicalName) ↔ config.Layered := by
    rw [acyclic_leads_iff, acyclic_iff_of_le fun _ _ => GraphConfig.Reads.le, hself]
    exact ⟨fun h => ⟨h.1, h.2⟩, fun h => ⟨h.own, h.shared⟩⟩
  have hnodes : HasPredecessor g = Leads config.Reads config.canonicalName := by
    funext i j
    exact propext (hread.hasPredecessor_iff rfl i j)
  rw [← hleads]
  apply Iff.intro
  · intro hright
    exact hnodes ▸ hright.nodes
  · intro hacyclic
    exact ⟨hnodes.symm ▸ hacyclic, hread.tasks_iff.mpr hacyclic⟩

theorem orderRight_iff_layered_two : ∃ g, ParsedGraphConfig.Initialize (ParsedGraphConfig.twoNodes false) = .ok g ∧
    (OrderRight g ↔ (ParsedGraphConfig.twoNodes false).Layered) := ⟨_, rfl, orderRight_iff_layered rfl⟩

/-- A node that reads the stream it makes, and three nodes of which the first has the name that the last is given. -/
def ownStream : GraphConfig := ⟨[⟨['x'], ['t'], [['s']], [['s']], [], [], []⟩], [], [], []⟩

def sharedName : GraphConfig :=
  ⟨[⟨['a', '_', '1'], ['t'], [], [['s']], [], [], []⟩, ⟨['a'], ['t'], [['s']], [['u']], [], [], []⟩,
    ⟨['a'], ['t'], [['u']], [], [], [], []⟩], [], [], []⟩

theorem order_goes_round :
    (∃ g, ParsedGraphConfig.Initialize ownStream = .ok g ∧ HasPredecessor g 0 0 ∧ ¬ OrderRight g) ∧
      ∃ g, ParsedGraphConfig.Initialize sharedName = .ok g ∧ HasPredecessor g 2 1 ∧ HasPredecessor g 1 2 ∧
        ¬ OrderRight g := by
  have hown : ∃ g, ParsedGraphConfig.Initialize ownStream = .ok g ∧ HasPredecessor g 0 0 :=
    ⟨_, rfl, _, _, rfl, rfl, by decide +kernel⟩
  have hshared : ∃ g, ParsedGraphConfig.Initialize sharedName = .ok g ∧ HasPredecessor g 2 1 ∧ HasPredecessor g 1 2 :=
    ⟨_, rfl, ⟨_, _, rfl, rfl, by decide +kernel⟩, _, _, rfl, rfl, by decide +kernel⟩
  obtain ⟨g, hg, hself⟩ := hown
  obtain ⟨g', hg', hlast, hback⟩ := hshared
  refine ⟨⟨g, hg, hself, ?_⟩, g', hg', hlast, hback, ?_⟩
  · intro h
    exact h.nodes 0 (.single hself)
  · intro h
    exact h.nodes 2 (.head hlast (.single hback))

end Accepted

end Dni.Cpp
