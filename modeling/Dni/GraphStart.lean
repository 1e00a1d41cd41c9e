import Dni.GraphErrors

namespace Dni.Cpp

open Utils OnePass

/-- What the parse of the graph asks of a configuration. -/
structure GraphConfig.Parsed (config : GraphConfig) : Prop where
  setUp : ∀ node ∈ config.node, node.SetUp
  inputSideData : Parses config.inputSideData
  inputStream : Parses config.inputStream
  outputStream : Parses config.outputStream

/-- A configuration that Graph::Initialize accepts: no input of the graph's own has a second producer. -/
structure GraphConfig.Accepted (config : GraphConfig) : Prop where
  parsed : config.Parsed
  distinct : (fieldNames config.inputStream).Nodup
  other : ∀ node ∈ config.node, ∀ name ∈ fieldNames node.outputStream, name ∉ fieldNames config.inputStream

theorem types_of_named {protos : List GraphConfig.Node} {nodes : List NodeInfo}
    (h : List.Forall₂ Named protos nodes) : ∀ node ∈ nodes, node.Node.type = .TASK := by
  induction h with
  | nil => simp
  | cons hnode _ ih => simpa [hnode.type] using ih

namespace ParsedGraphConfig

theorem initialize_cases (config : GraphConfig) :
    (∃ g, Initialize config = .ok g ∧ config.Parsed) ∨
      Initialize config = .error .nullDeref ∧ NullFirst config.node ∨
      (∃ e, e ≠ .nullDeref ∧ Initialize config = .error e) ∧ ¬ config.Parsed ∧ ¬ NullFirst config.node := by
  unfold Initialize initializeEdges
  obtain ⟨infos, hinfos, hall⟩ | ⟨hinfos, hfirst⟩ | ⟨⟨e, he, hinfos⟩, hall, hfirst⟩ :=
    initializeNodes_cases config 0 config.node
  · have hfirst : ¬ NullFirst config.node := by
      intro ⟨before, node, after, hsplit, _, hnull⟩
      exact hnull.not_setUp (hall node (by simp [hsplit]))
    have htypes := types_of_named (initializeNodes_named hinfos)
    obtain ⟨⟨infos', side⟩, hside, hparses⟩ | ⟨⟨e, he, hside⟩, hparses⟩ :=
      initializeSideData_cases config htypes
    · obtain ⟨gs, -, _, hforside⟩ := initializeSideData_ok hside
      have htypes' : ∀ node ∈ infos', node.Node.type = .TASK := by
        have hmap : infos'.map (fun node => node.Node.type) = infos.map (fun node => node.Node.type) :=
          forNodes_map (fun _ _ => rfl) hforside
        intro node hnode
        have hmem : node.Node.type ∈ infos'.map fun node => node.Node.type :=
          List.mem_map.mpr ⟨node, hnode, rfl⟩
        rw [hmap] at hmem
        obtain ⟨info, hinfo, htype⟩ := List.mem_map.mp hmem
        rw [← htype, htypes info hinfo]
      obtain ⟨⟨infos'', streams⟩, hstreams, hin, hout⟩ | ⟨⟨e, he, hstreams⟩, hno⟩ :=
        initializeStreams_cases config htypes'
      · refine Or.inl ⟨⟨config, infos'', side, streams⟩, ?_, hall, hparses, hin, hout⟩
        simp only [hinfos, hside, hstreams, bind, Except.bind]
        rfl
      · refine Or.inr (Or.inr ⟨⟨e, he, ?_⟩, fun h => hno ⟨h.inputStream, h.outputStream⟩, hfirst⟩)
        simp only [hinfos, hside, hstreams, bind, Except.bind]
    · refine Or.inr (Or.inr ⟨⟨e, he, ?_⟩, fun h => hparses h.inputSideData, hfirst⟩)
      simp only [hinfos, hside, bind, Except.bind]
  · exact Or.inr (Or.inl ⟨by rw [hinfos]; rfl, hfirst⟩)
  · exact Or.inr (Or.inr ⟨⟨e, he, by rw [hinfos]; rfl⟩, fun h => hall h.setUp, hfirst⟩)

end ParsedGraphConfig

/-- The parents of the outputs: the graph's own inputs first, then outputs of nodes. -/
structure Parents (g : ParsedGraphConfig) (graph : Nat) : Prop where
  own : ∀ (p : Nat) (e : EdgeInfo), p < graph → g.streams.outputs[p]? = some e →
    e.parent = ⟨.GRAPH_INPUT_STREAM, (g.Nodes.length + p : Nat)⟩
  node : ∀ (p : Nat) (e : EdgeInfo), graph ≤ p → g.streams.outputs[p]? = some e → e.parent.type = .TASK

theorem addNodeOutputs_parents (node : NodeInfo) (names : List Text) (g : Edges) :
    ∃ rest, (g.addOutputs node names).outputs = g.outputs ++ rest ∧ ∀ e ∈ rest, e.parent = node.Node := by
  unfold Edges.addOutputs
  induction names generalizing g with
  | nil => exact ⟨[], by simp, by simp⟩
  | cons name names ih =>
    obtain ⟨rest, hrest, hparents⟩ := ih (g.addNodeOutput node name)
    refine ⟨⟨name, node.Node, -1⟩ :: rest, ?_, ?_⟩
    · rw [List.foldl_cons, hrest]
      simp [Edges.addNodeOutput, Edges.addOutput]
    · simpa using hparents

theorem forNodes_parents {nodes nodes' : List NodeInfo} {g g' : Edges}
    (htypes : ∀ node ∈ nodes, node.Node.type = .TASK)
    (h : forNodes initializeNodeStreams nodes g = .ok (nodes', g')) :
    ∃ rest, g'.outputs = g.outputs ++ rest ∧ ∀ e ∈ rest, e.parent.type = .TASK := by
  induction nodes generalizing g nodes' with
  | nil =>
    cases h
    exact ⟨[], by simp, by simp⟩
  | cons node nodes ih =>
    obtain ⟨tail, htail, _⟩ := forNodes_cons h
    obtain ⟨rest, hrest, hparents⟩ := ih (fun n hn => htypes n (by simp [hn])) htail
    obtain ⟨own, hown, hparent⟩ := addNodeOutputs_parents node node.Config.Outputs.names g
    refine ⟨own ++ rest, ?_, ?_⟩
    · have houtputs : (initializeNodeStreams node g).2.outputs = g.outputs ++ own := by
        rw [← hown]
        exact (Edges.addInputs_frame _ _ _).1
      rw [hrest, houtputs, List.append_assoc]
    · intro e he
      obtain he | he := List.mem_append.mp he
      · rw [hparent e he, htypes node (by simp)]
      · exact hparents e he

theorem forNodes_named {f : NodeInfo → Edges → NodeInfo × Edges}
    (hf : ∀ node g, (f node g).1.Node = node.Node ∧ (f node g).1.Config = node.Config)
    {protos : List GraphConfig.Node} {nodes nodes' : List NodeInfo} {g g' : Edges}
    (hnamed : List.Forall₂ Named protos nodes) (h : forNodes f nodes g = .ok (nodes', g')) :
    List.Forall₂ Named protos nodes' := by
  induction hnamed generalizing g nodes' with
  | nil =>
    cases h
    exact .nil
  | @cons proto node protos nodes hnode _ ih =>
    obtain ⟨rest, hrest, hnodes⟩ := forNodes_cons h
    obtain ⟨href, hconfig⟩ := hf node g
    rw [show nodes' = _ from hnodes]
    refine .cons ⟨?_, ?_, ?_, ?_, ?_, ?_⟩ (ih hrest)
    · rw [href, hnode.type]
    · rw [hconfig, hnode.config]
    · rw [hconfig, hnode.inputs]
    · rw [hconfig, hnode.outputs]
    · rw [hconfig, hnode.inputSideData]
    · rw [hconfig, hnode.outputSideData]

/-- The names of the outputs, in order: the graph's own first, then node by node. -/
theorem Adds.declared {slots : NodeInfo → Slots} {events : Slots → List (Ev Text)}
    {f : NodeInfo → Edges → NodeInfo × Edges} (hf : Adds slots events f)
    (hevents : ∀ s, (events s).filterMap Ev.declared = s.outputs)
    {g g' : Edges} {graph : List Text} {nodes nodes' : List NodeInfo}
    (hg : g.pass = Pass.empty.run (graph.map .declare))
    (h : Dni.Cpp.forNodes f nodes g = .ok (nodes', g')) :
    g'.pass.Indexed ∧ g'.pass.declared = graph ++ (nodes'.map slots).flatMap Slots.outputs := by
  obtain ⟨hpass, _⟩ := hf.forNodes h
  rw [hg, ← Pass.run_append] at hpass
  refine ⟨hpass ▸ Pass.empty_indexed.run _, ?_⟩
  rw [hpass, Pass.run_declared]
  simp [Pass.empty, List.filterMap_append, List.filterMap_flatMap, hevents, List.filterMap_map,
    Function.comp_def, Ev.declared]

/-- The names that the side data of a graph go by. -/
def GraphConfig.sideNames (config : GraphConfig) : List Text :=
  fieldNames config.inputSideData ++ config.node.flatMap fun node => fieldNames node.outputSideData

/-- What a parsed configuration has of the configuration. -/
structure ParsedGraphConfig.Of (config : GraphConfig) (g : ParsedGraphConfig) : Prop where
  proto : g.Proto = config
  nodes : List.Forall₂ Named config.node g.Nodes
  sideNames : g.sideData.outputs.map EdgeInfo.name = config.sideNames
  streamNames : g.streams.pass.declared = fieldNames config.inputStream ++
    config.node.flatMap fun node => fieldNames node.outputStream
  indexed : g.streams.pass.Indexed
  parents : Parents g (fieldNames config.inputStream).length

theorem ParsedGraphConfig.of_initialize {config : GraphConfig} {g : ParsedGraphConfig}
    (h : Initialize config = .ok g) : g.Of config := by
  obtain ⟨hproto, nodes, nodes', hnodes, hside, hstreams⟩ := initialize_ok h
  have hnamed := initializeNodes_named hnodes
  obtain ⟨gs, -, hgs, hsides⟩ := initializeSideData_ok hside
  obtain ⟨gt, -, hgt, hparents, hstream⟩ := initializeStreams_ok hstreams
  have hnamed' := forNodes_named (fun _ _ => ⟨rfl, rfl⟩) hnamed hsides
  have hnamed'' := forNodes_named (fun _ _ => ⟨rfl, rfl⟩) hnamed' hstream
  have hdeclared := (sideData_adds.declared (fun s => (sideEvents_names s).1) hgs hsides).2
  obtain ⟨hindexed, hdeclared'⟩ := streams_adds.declared (fun s => (streamEvents_names s).1) hgt hstream
  rw [outputs_of_names (List.map_map.trans (side_names hnamed'))] at hdeclared
  rw [outputs_of_names (List.map_map.trans (stream_names hnamed''))] at hdeclared'
  obtain ⟨rest, hrest, hnode⟩ := forNodes_parents (types_of_named hnamed') hstream
  have hlength : gt.outputs.length = (fieldNames config.inputStream).length := by
    rw [hparents, List.length_map, List.length_zipIdx]
  refine ⟨hproto, hnamed'', hdeclared, hdeclared', hindexed, ?_, ?_⟩
  · intro p e hp he
    rw [hrest, List.getElem?_append_left (by omega), hparents, List.getElem?_map, List.getElem?_zipIdx,
      List.getElem?_eq_getElem hp] at he
    cases he
    simp [hnamed''.length_eq, Int.add_comm]
  · intro p e hp he
    rw [hrest, List.getElem?_append_right (by omega)] at he
    exact hnode e (List.mem_of_getElem? he)

section Start

variable {config : GraphConfig} {g : ParsedGraphConfig}

theorem checkInputs_cases (hof : g.Of config) (names : List Text) (count : Nat)
    (hcount : count + names.length ≤ (fieldNames config.inputStream).length) :
    Graph.checkInputs g count names = .ok () ∧
        (∀ (k : Nat) name, names[k]? = some name → g.streams.toIndex.lookup name = some (count + k)) ∨
      Graph.checkInputs g count names = .error .failed ∧
        ¬ ∀ (k : Nat) name, names[k]? = some name → g.streams.toIndex.lookup name = some (count + k) := by
  induction names generalizing count with
  | nil => exact Or.inl ⟨rfl, by simp⟩
  | cons name names ih =>
    rw [List.length_cons] at hcount
    have hfirst : g.streams.toIndex.lookup name ≠ some count →
        ¬ ∀ (k : Nat) name', (name :: names)[k]? = some name' →
          g.streams.toIndex.lookup name' = some (count + k) :=
      fun h hall => h (hall 0 name rfl)
    unfold Graph.checkInputs ParsedGraphConfig.OutputStreamIndex
    cases hl : g.streams.toIndex.lookup name with
    | none =>
      rw [hl] at hfirst
      exact Or.inr ⟨rfl, hfirst (by simp)⟩
    | some p =>
      rw [hl] at hfirst
      have hp := hof.indexed.found name p hl
      rw [Edges.pass, List.getElem?_map, Option.map_eq_some_iff] at hp
      obtain ⟨e, he, _⟩ := hp
      have hpos : ¬ (p : Int) < 0 := by omega
      simp only [Int.toNat_natCast, he, hpos, if_false]
      by_cases hown : p < (fieldNames config.inputStream).length
      · have hparent := hof.parents.own p e hown he
        rw [hparent]
        by_cases hpc : p = count
        · subst p
          simp only [ne_eq, not_true_eq_false, if_false]
          obtain ⟨hok, hall⟩ | ⟨herr, hno⟩ := ih (count + 1) (by omega)
          · refine Or.inl ⟨hok, ?_⟩
            intro k name' hk
            cases k with
            | zero =>
              cases hk
              exact hl
            | succ k => rw [hall k name' hk, Nat.add_assoc, Nat.add_comm 1 k]
          · refine Or.inr ⟨herr, ?_⟩
            intro hall
            apply hno
            intro k name' hk
            rw [hall (k + 1) name' hk, Nat.add_assoc, Nat.add_comm 1 k]
        · refine Or.inr ⟨?_, hfirst (by simpa using hpc)⟩
          have hne : ((g.Nodes.length + p : Nat) : Int) ≠ (g.Nodes.length + count : Nat) := by omega
          simp only [ne_eq, not_true_eq_false, if_false, hne, not_false_eq_true, if_true]
      · have htype := hof.parents.node p e (by omega) he
        refine Or.inr ⟨?_, hfirst ?_⟩
        · simp [htype]
        · intro h
          cases h
          omega

/-- The place of each of the graph's own names is found exactly when no name has a second producer. -/
theorem ownPlaces_iff (hof : g.Of config) :
    (∀ (k : Nat) name, (fieldNames config.inputStream)[k]? = some name →
        g.streams.toIndex.lookup name = some (0 + k)) ↔
      (fieldNames config.inputStream).Nodup ∧
        ∀ node ∈ config.node, ∀ name ∈ fieldNames node.outputStream, name ∉ fieldNames config.inputStream := by
  have hown : ∀ {k : Nat} {name : Text}, (fieldNames config.inputStream)[k]? = some name →
      g.streams.pass.declared[k]? = some name := by
    intro k name hk
    rw [hof.streamNames, List.getElem?_append_left (List.getElem?_eq_some_iff.mp hk).1, hk]
  apply Iff.intro
  · intro h
    have hlast : ∀ {k q : Nat} {name : Text}, (fieldNames config.inputStream)[k]? = some name →
        g.streams.pass.declared[q]? = some name → q ≤ k := by
      intro k q name hk hq
      have hl := h k name hk
      rw [Nat.zero_add] at hl
      exact hof.indexed.last name k q hl hq
    refine ⟨?_, ?_⟩
    · refine List.nodup_iff_getElem?_ne_getElem?.mpr ?_
      intro i j hij hj heq
      have hle := hlast (heq.trans (List.getElem?_eq_getElem hj)) (hown (List.getElem?_eq_getElem hj))
      omega
    · intro node hnode name hname hmem
      obtain ⟨k, hk⟩ := List.mem_iff_getElem?.mp hmem
      have hmade : name ∈ config.node.flatMap fun node => fieldNames node.outputStream :=
        List.mem_flatMap.mpr ⟨node, hnode, hname⟩
      obtain ⟨q, hq⟩ := List.mem_iff_getElem?.mp hmade
      have hle := hlast (q := (fieldNames config.inputStream).length + q) hk (by
        rw [hof.streamNames, List.getElem?_append_right (by omega), Nat.add_sub_cancel_left, hq])
      have := (List.getElem?_eq_some_iff.mp hk).1
      omega
  · intro ⟨hdistinct, hother⟩ k name hk
    rw [Nat.zero_add]
    refine (hof.indexed.lookup_iff (hown hk)).mpr ?_
    intro q hq
    rw [hof.streamNames] at hq
    have hk' := (List.getElem?_eq_some_iff.mp hk).1
    by_cases hlt : q < (fieldNames config.inputStream).length
    · rw [List.getElem?_append_left hlt] at hq
      exact ((List.getElem?_inj hlt hdistinct).mp (hq.trans hk.symm)).le
    · rw [List.getElem?_append_right (by omega)] at hq
      obtain ⟨node, hnode, hname⟩ := List.mem_flatMap.mp (List.mem_of_getElem? hq)
      exact absurd (List.mem_of_getElem? hk) (hother node hnode name hname)

end Start

end Dni.Cpp
