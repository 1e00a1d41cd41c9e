import Dni.ParsedEdges

namespace Dni.Cpp

open Utils OnePass

section Resolved

variable {g : Edges} {graph : List Text} {slots : List Slots} {events : Slots → List (Ev Text)}

theorem madeAt_iff (hout : InBlocks graph.length (slots.map fun s => (s.outputBase, s.outputs)))
    (name : Text) (p : Nat) :
    MadeAt graph slots name p ↔ (graph ++ slots.flatMap Slots.outputs)[p]? = some name := by
  have hblocks := hout.getElem?_iff p name
  simp only [List.flatMap_map, List.mem_map, exists_exists_and_eq_and] at hblocks
  unfold MadeAt
  rw [← hblocks]
  by_cases hlt : p < graph.length
  · rw [List.getElem?_append_left hlt]
    exact or_iff_left (fun h => absurd h.1 (by omega))
  · rw [List.getElem?_append_right (by omega), List.getElem?_eq_none (by omega)]
    apply Iff.intro
    · intro h
      exact (h.resolve_left (by simp)).2
    · intro h
      exact Or.inr ⟨by omega, h⟩

theorem input_iff (hin : InBlocks 0 (slots.map fun s => (s.inputBase, s.inputs))) (q : Nat) (name : Text) :
    (slots.flatMap Slots.inputs)[q]? = some name ↔
      ∃ s ∈ slots, ∃ k : Nat, s.inputs[k]? = some name ∧ q = s.inputBase + k := by
  have hblocks := hin.getElem?_iff q name
  simpa only [List.flatMap_map, List.mem_map, exists_exists_and_eq_and, Nat.zero_le, true_and,
    Nat.sub_zero] using hblocks

theorem Edges.resolved_iff
    (hevents : ∀ s, (events s).filterMap Ev.declared = s.outputs ∧ (events s).filterMap Ev.referred = s.inputs)
    (hpass : g.pass = Pass.empty.run (graph.map .declare ++ slots.flatMap events))
    (hin : InBlocks 0 (slots.map fun s => (s.inputBase, s.inputs)))
    (hout : InBlocks graph.length (slots.map fun s => (s.outputBase, s.outputs))) :
    g.Resolved graph slots ↔
      (graph ++ slots.flatMap Slots.outputs).Nodup ∧ OnePass.InOrder (graph.map .declare ++ slots.flatMap events) := by
  have hdeclared : g.pass.declared = graph ++ slots.flatMap Slots.outputs := by
    rw [hpass, Pass.run_declared]
    simp [Pass.empty, List.filterMap_append, List.filterMap_flatMap, hevents, List.filterMap_map,
      Function.comp_def, Ev.declared]
  have hreferred : g.inputs.map EdgeInfo.name = slots.flatMap Slots.inputs := by
    have h : g.pass.resolved.map Prod.fst = slots.flatMap Slots.inputs := by
      rw [hpass, Pass.run_referred]
      simp [Pass.empty, List.filterMap_append, List.filterMap_flatMap, hevents, List.filterMap_map,
        Function.comp_def, Ev.referred]
    simpa [Edges.pass, Function.comp_def] using h
  have hrun := Pass.run_resolved (Pass.empty_indexed (α := Text)) (graph.map .declare ++ slots.flatMap events)
  rw [← hpass, hdeclared] at hrun
  apply Iff.intro
  · intro h
    refine ⟨h.distinct, ?_⟩
    have hall := (hrun h.distinct).mp ?_
    · exact hall.2
    · intro x hx p hp
      obtain ⟨e, he, hex⟩ := List.mem_map.mp hx
      obtain ⟨q, hq⟩ := List.mem_iff_getElem?.mp he
      have hname : (slots.flatMap Slots.inputs)[q]? = some e.name := by
        rw [← hreferred, List.getElem?_map, hq]
        rfl
      obtain ⟨s, hs, k, hk, hqk⟩ := (input_iff hin q e.name).mp hname
      subst x
      obtain ⟨e', he', _, hup⟩ := h.upstream s hs k e.name hk p ((madeAt_iff hout _ p).mpr hp)
      have hee : e = e' := by
        rw [← hqk, hq] at he'
        exact Option.some.inj he'
      subst e'
      simp [hup]
  · intro h
    rcases h with ⟨hdistinct, horder⟩
    refine ⟨hdistinct, ?_⟩
    intro s hs k name hk p hp
    have hname := (input_iff hin _ name).mpr ⟨s, hs, k, hk, rfl⟩
    rw [← hreferred, List.getElem?_map, Option.map_eq_some_iff] at hname
    obtain ⟨e, he, hen⟩ := hname
    refine ⟨e, he, hen, ?_⟩
    have hmem : (e.name, if e.upstreamId < 0 then none else some e.upstreamId.toNat) ∈ g.pass.resolved :=
      List.mem_map.mpr ⟨e, List.mem_of_getElem? he, rfl⟩
    have hright := (hrun hdistinct).mpr ⟨by simp [Pass.empty], horder⟩ _ hmem p
      ((madeAt_iff hout _ p).mp (hen ▸ hp))
    split at hright
    next => cases hright
    next hpos =>
      have := Option.some.inj hright
      omega

end Resolved

theorem graph_lengths {g : Edges} {graph : List Text} (h : g.pass = Pass.empty.run (graph.map .declare)) :
    g.inputs.length = 0 ∧ g.outputs.length = graph.length := by
  have hdeclared : g.pass.declared = graph := by
    rw [h, Pass.run_declared]
    simp [Pass.empty, List.filterMap_map, Function.comp_def, Ev.declared]
  have hreferred : g.pass.resolved.map Prod.fst = [] := by
    rw [h, Pass.run_referred]
    simp [Pass.empty, List.filterMap_map, Function.comp_def, Ev.referred]
  refine ⟨?_, ?_⟩
  · simpa [Edges.pass] using hreferred
  · rw [← hdeclared]
    simp [Edges.pass]

/-- The pass over all nodes, from the graph's own producers on. -/
theorem Adds.resolved_iff {slots : NodeInfo → Slots} {events : Slots → List (Ev Text)}
    {f : NodeInfo → Edges → NodeInfo × Edges} (hf : Adds slots events f)
    (hevents : ∀ s, (events s).filterMap Ev.declared = s.outputs ∧ (events s).filterMap Ev.referred = s.inputs)
    {g g' : Edges} {graph : List Text} {nodes nodes' : List NodeInfo}
    (hg : g.pass = Pass.empty.run (graph.map .declare))
    (h : Dni.Cpp.forNodes f nodes g = .ok (nodes', g')) :
    g'.Resolved graph (nodes'.map slots) ↔
      (graph ++ (nodes'.map slots).flatMap Slots.outputs).Nodup ∧
        (nodes'.map slots).Pairwise (fun s later => ∀ name ∈ s.inputs, name ∉ later.outputs) ∧
        ∀ s ∈ nodes'.map slots, OnePass.InOrder (events s) := by
  obtain ⟨hinputs, houtputs⟩ := graph_lengths hg
  obtain ⟨hpass, hin, hout⟩ := hf.forNodes h
  rw [hinputs] at hin
  rw [houtputs] at hout
  rw [hg, ← Pass.run_append] at hpass
  rw [Edges.resolved_iff hevents hpass hin hout, inOrder_append, inOrder_flatMap]
  have hdeclare : ∀ s a, Ev.declare a ∈ events s ↔ a ∈ s.outputs := by
    intro s a
    rw [← (hevents s).1, mem_declared]
  have hrefer : ∀ s a, Ev.refer a ∈ events s ↔ a ∈ s.inputs := by
    intro s a
    rw [← (hevents s).2, mem_referred]
  simp only [hdeclare, hrefer, inOrder_declare, List.mem_map, reduceCtorEq, and_false, exists_false,
    false_imp_iff, implies_true, true_and, and_true]
  exact and_congr_right' and_comm

theorem initialize_of_newTagMap {fields : List Text} {m : TagMap} (h : NewTagMap fields = .ok (some m)) :
    TagMap.Initialize fields = .ok m := by
  unfold NewTagMap at h
  split at h
  next m' hm =>
    cases h
    exact hm
  next => cases h
  next => cases h

theorem fieldNames_of_newTagMap {fields : List Text} {m : TagMap} (h : NewTagMap fields = .ok (some m)) :
    fieldNames fields = m.names := by
  rw [fieldNames, initialize_of_newTagMap h]

section Names

variable {slots : List Slots} {protos : List GraphConfig.Node} {inputs outputs : GraphConfig.Node → List Text}

theorem outputs_of_names (h : slots.map Slots.names = protos.map fun p => (inputs p, outputs p)) :
    slots.flatMap Slots.outputs = protos.flatMap outputs := by
  have hmap := congrArg (List.flatMap Prod.snd) h
  simpa only [List.flatMap_map, Slots.names] using hmap

theorem before_of_names (h : slots.map Slots.names = protos.map fun p => (inputs p, outputs p)) :
    slots.Pairwise (fun s later => ∀ name ∈ s.inputs, name ∉ later.outputs) ↔
      protos.Pairwise fun p later => ∀ name ∈ inputs p, name ∉ outputs later := by
  have hpairs : (slots.map Slots.names).Pairwise (fun x y => ∀ name ∈ x.1, name ∉ y.2) ↔
      (protos.map fun p => (inputs p, outputs p)).Pairwise fun x y => ∀ name ∈ x.1, name ∉ y.2 := by
    rw [h]
  simpa only [List.pairwise_map, Slots.names] using hpairs

theorem each_of_names (h : slots.map Slots.names = protos.map fun p => (inputs p, outputs p))
    (P : List Text → List Text → Prop) :
    (∀ s ∈ slots, P s.inputs s.outputs) ↔ ∀ p ∈ protos, P (inputs p) (outputs p) := by
  have hall : (∀ x ∈ slots.map Slots.names, P x.1 x.2) ↔
      ∀ x ∈ protos.map fun p => (inputs p, outputs p), P x.1 x.2 := by
    rw [h]
  simpa only [List.forall_mem_map, Slots.names] using hall

end Names

/-- The names of a node of the message, and those that its parsed configuration has. -/
structure Named (proto : GraphConfig.Node) (node : NodeInfo) : Prop where
  type : node.Node.type = .TASK
  config : node.Config.proto = proto
  inputs : node.Config.Inputs.names = fieldNames proto.inputStream
  outputs : node.Config.Outputs.names = fieldNames proto.outputStream
  inputSideData : node.Config.InputSideData.names = fieldNames proto.inputSideData
  outputSideData : node.Config.OutputSideData.names = fieldNames proto.outputSideData

theorem bind_ok {α β : Type} {x : Except Stop α} {f : α → Except Stop β} {b : β}
    (h : x >>= f = .ok b) : ∃ a, x = .ok a ∧ f a = .ok b := by
  cases x with
  | error e => cases h
  | ok a => exact ⟨a, rfl, h⟩

theorem dtypeSet_ok {m? : Option TagMap} {m : TagMap} (h : DtypeSet m? = .ok m) : m? = some m := by
  cases m? with
  | none => cases h
  | some m' =>
    cases h
    rfl

theorem nodeConfig_named {name : Text} {proto : GraphConfig.Node} {cfg : NodeConfig}
    (h : NodeConfig.Initialize name proto = .ok cfg) :
    cfg.proto = proto ∧ NewTagMap proto.inputStream = .ok (some cfg.Inputs) ∧
      NewTagMap proto.outputStream = .ok (some cfg.Outputs) ∧
      NewTagMap proto.inputSideData = .ok (some cfg.InputSideData) ∧
      NewTagMap proto.outputSideData = .ok (some cfg.OutputSideData) := by
  obtain ⟨inputs?, hi, h⟩ := bind_ok h
  obtain ⟨outputs?, ho, h⟩ := bind_ok h
  obtain ⟨inputSide?, his, h⟩ := bind_ok h
  obtain ⟨outputSide?, hos, h⟩ := bind_ok h
  obtain ⟨inputs, hi', h⟩ := bind_ok h
  obtain ⟨outputs, ho', h⟩ := bind_ok h
  obtain ⟨inputSide, his', h⟩ := bind_ok h
  obtain ⟨outputSide, hos', h⟩ := bind_ok h
  cases h
  exact ⟨rfl, dtypeSet_ok hi' ▸ hi, dtypeSet_ok ho' ▸ ho, dtypeSet_ok his' ▸ his, dtypeSet_ok hos' ▸ hos⟩

theorem nodeInfo_named {config : GraphConfig} {proto : GraphConfig.Node} {i : Nat} {node : NodeInfo}
    (h : NodeInfo.Initialize config proto i = .ok node) : Named proto node := by
  obtain ⟨cfg, hcfg, h⟩ := bind_ok h
  obtain ⟨_, _, h⟩ := bind_ok h
  cases h
  obtain ⟨hproto, hi, ho, his, hos⟩ := nodeConfig_named hcfg
  exact ⟨rfl, hproto, (fieldNames_of_newTagMap hi).symm, (fieldNames_of_newTagMap ho).symm,
    (fieldNames_of_newTagMap his).symm, (fieldNames_of_newTagMap hos).symm⟩

theorem initializeNodes_named {config : GraphConfig} {protos : List GraphConfig.Node} {i : Nat}
    {nodes : List NodeInfo} (h : ParsedGraphConfig.InitializeNodes config i protos = .ok nodes) :
    List.Forall₂ Named protos nodes := by
  induction protos generalizing i nodes with
  | nil =>
    cases h
    exact .nil
  | cons proto protos ih =>
    obtain ⟨node, hnode, h⟩ := bind_ok h
    obtain ⟨rest, hrest, h⟩ := bind_ok h
    cases h
    exact .cons (nodeInfo_named hnode) (ih hrest)

namespace ParsedGraphConfig

theorem initializeSideData_ok {config : GraphConfig} {nodes : List NodeInfo}
    {r : List NodeInfo × Edges} (h : InitializeSideData config nodes = .ok r) :
    ∃ g : Edges, g.toNode = ∅ ∧ g.pass = Pass.empty.run ((fieldNames config.inputSideData).map .declare) ∧
      forNodes initializeNodeSideData nodes g = .ok r := by
  unfold InitializeSideData at h
  split at h
  next hnil =>
    refine ⟨.empty, rfl, ?_, h⟩
    rw [hnil]
    rfl
  next =>
    obtain ⟨m?, hm, h⟩ := bind_ok h
    cases m? with
    | none => cases h
    | some m =>
      refine ⟨_, Edges.toNode_graphOutputs (fun _ => NodeRef.unset) id m.names .empty, ?_, h⟩
      rw [fieldNames_of_newTagMap hm]
      simpa using Edges.pass_graphOutputs (fun _ => NodeRef.unset) id m.names .empty

theorem initializeStreams_ok {config : GraphConfig} {nodes : List NodeInfo}
    {r : List NodeInfo × Edges} (h : InitializeStreams config nodes = .ok r) :
    ∃ g : Edges, g.toNode = ∅ ∧ g.pass = Pass.empty.run ((fieldNames config.inputStream).map .declare) ∧
      g.outputs = (fieldNames config.inputStream).zipIdx.map
        (fun e => ⟨e.1, ⟨.GRAPH_INPUT_STREAM, e.2 + config.node.length⟩, -1⟩) ∧
      forNodes initializeNodeStreams nodes g = .ok r := by
  obtain ⟨m?, hm, h⟩ := bind_ok h
  cases m? with
  | none => cases h
  | some m =>
    obtain ⟨result, hresult, h⟩ := bind_ok h
    obtain ⟨outputs?, _, h⟩ := bind_ok h
    cases outputs? with
    | none => cases h
    | some _ =>
      cases h
      refine ⟨_, ?_, ?_, ?_, hresult⟩
      · exact Edges.toNode_graphOutputs
          (fun e : Text × Nat => ⟨.GRAPH_INPUT_STREAM, e.2 + config.node.length⟩) Prod.fst m.names.zipIdx .empty
      · rw [fieldNames_of_newTagMap hm]
        simpa using Edges.pass_graphOutputs
          (fun e : Text × Nat => ⟨.GRAPH_INPUT_STREAM, e.2 + config.node.length⟩) Prod.fst m.names.zipIdx .empty
      · rw [fieldNames_of_newTagMap hm, Edges.graphOutputs]
        rfl

/-- The three stages of a parse that returns zero. -/
theorem initialize_ok {config : GraphConfig} {g : ParsedGraphConfig} (h : Initialize config = .ok g) :
    g.Proto = config ∧ ∃ nodes nodes', InitializeNodes config 0 config.node = .ok nodes ∧
      InitializeSideData config nodes = .ok (nodes', g.sideData) ∧
      InitializeStreams config nodes' = .ok (g.Nodes, g.streams) := by
  obtain ⟨nodes, hnodes, h⟩ := bind_ok h
  obtain ⟨parsed, hedges, h⟩ := bind_ok h
  obtain ⟨⟨nodes', sideData⟩, hside, hedges⟩ := bind_ok hedges
  obtain ⟨⟨nodes'', streams⟩, hstreams, hedges⟩ := bind_ok hedges
  cases hedges
  cases h
  exact ⟨rfl, nodes, nodes', hnodes, hside, hstreams⟩

theorem stream_names {protos : List GraphConfig.Node} {nodes : List NodeInfo}
    (h : List.Forall₂ Named protos nodes) :
    nodes.map (fun node => node.streamSlots.names) =
      protos.map fun node => (fieldNames node.inputStream, fieldNames node.outputStream) := by
  induction h with
  | nil => rfl
  | cons hnode _ ih =>
    rw [List.map_cons, List.map_cons, ih, ← hnode.inputs, ← hnode.outputs]
    rfl

theorem side_names {protos : List GraphConfig.Node} {nodes : List NodeInfo}
    (h : List.Forall₂ Named protos nodes) :
    nodes.map (fun node => node.sideSlots.names) =
      protos.map fun node => (fieldNames node.inputSideData, fieldNames node.outputSideData) := by
  induction h with
  | nil => rfl
  | cons hnode _ ih =>
    rw [List.map_cons, List.map_cons, ih, ← hnode.inputSideData, ← hnode.outputSideData]
    rfl

theorem sideEvents_names (s : Slots) :
    (sideEvents s).filterMap Ev.declared = s.outputs ∧ (sideEvents s).filterMap Ev.referred = s.inputs := by
  simp [sideEvents, List.filterMap_append, List.filterMap_map, Function.comp_def, Ev.declared, Ev.referred]

theorem streamEvents_names (s : Slots) :
    (streamEvents s).filterMap Ev.declared = s.outputs ∧ (streamEvents s).filterMap Ev.referred = s.inputs := by
  simp [streamEvents, List.filterMap_append, List.filterMap_map, Function.comp_def, Ev.declared, Ev.referred]

theorem sideEvents_inOrder (s : Slots) :
    OnePass.InOrder (sideEvents s) ↔ ∀ name ∈ s.inputs, name ∉ s.outputs := by
  simp [sideEvents, inOrder_append, inOrder_declare, inOrder_refer]

theorem streamEvents_inOrder (s : Slots) : OnePass.InOrder (streamEvents s) := by
  simp [streamEvents, inOrder_append, inOrder_declare, inOrder_refer]

/-- A configuration that is accepted has its edges resolved exactly when its nodes are listed in
order: every name with one producer, and no node before the producer of one of its inputs. -/
theorem resolved_iff_inOrder {config : GraphConfig} {g : ParsedGraphConfig}
    (h : Initialize config = .ok g) : g.Resolved ↔ config.InOrder := by
  obtain ⟨hproto, nodes, nodes', hnodes, hside, hstreams⟩ := initialize_ok h
  have hnamed := initializeNodes_named hnodes
  obtain ⟨gs, -, hgs, hsides⟩ := initializeSideData_ok hside
  obtain ⟨gt, -, hgt, _, hstream⟩ := initializeStreams_ok hstreams
  -- the pass over the streams keeps what the pass over the side data set
  have hkept : g.Nodes.map NodeInfo.sideSlots = nodes'.map NodeInfo.sideSlots :=
    forNodes_map (fun _ _ => rfl) hstream
  have hsideNames : (g.Nodes.map NodeInfo.sideSlots).map Slots.names = _ :=
    ((congrArg _ hkept).trans (List.map_map.trans (forNodes_map (fun _ _ => rfl) hsides))).trans
      (side_names hnamed)
  have hstreamNames : (g.Nodes.map NodeInfo.streamSlots).map Slots.names = _ :=
    ((List.map_map.trans (forNodes_map (fun _ _ => rfl) hstream)).trans
      (forNodes_map (fun _ _ => rfl) hsides)).trans (stream_names hnamed)
  have hsideData := sideData_adds.resolved_iff sideEvents_names hgs hsides
  have hstreamed := streams_adds.resolved_iff streamEvents_names hgt hstream
  simp only [← hkept, outputs_of_names hsideNames, before_of_names hsideNames, sideEvents_inOrder,
    each_of_names hsideNames fun inputs outputs => ∀ name ∈ inputs, name ∉ outputs] at hsideData
  simp only [outputs_of_names hstreamNames, before_of_names hstreamNames, streamEvents_inOrder,
    implies_true, and_true] at hstreamed
  rw [← hproto] at hsideData hstreamed ⊢
  apply Iff.intro
  · intro hres
    obtain ⟨hdistinct, hbefore⟩ := hstreamed.mp hres.streams
    obtain ⟨hdistinct', hbefore', hother⟩ := hsideData.mp hres.sideData
    exact ⟨hdistinct, hdistinct', hbefore, hbefore', hother⟩
  · intro hord
    exact ⟨hstreamed.mpr ⟨hord.streams, hord.streamsBefore⟩,
      hsideData.mpr ⟨hord.sideData, hord.sideDataBefore, hord.sideDataOther⟩⟩

/-- Two nodes, one reading what the other makes; the reader is listed first, or last. -/
def twoNodes (readerFirst : Bool) : GraphConfig :=
  let reader : GraphConfig.Node := ⟨['r'], ['t'], [['s']], [], [], [], []⟩
  let maker : GraphConfig.Node := ⟨['m'], ['t'], [['g']], [['s']], [], [], []⟩
  ⟨if readerFirst then [reader, maker] else [maker, reader], [['g']], [['s']], []⟩

theorem twoNodes_resolved :
    ∃ g, Initialize (twoNodes false) = .ok g ∧ (g.Resolved ↔ (twoNodes false).InOrder) :=
  ⟨_, rfl, resolved_iff_inOrder rfl⟩

/-- The reader that is listed first has no producer, though the other node makes its input. -/
theorem twoNodes_not_resolved : ∃ g, Initialize (twoNodes true) = .ok g ∧ ¬ g.Resolved := by
  refine ⟨_, rfl, ?_⟩
  intro h
  obtain ⟨e, he, _, hup⟩ := h.streams.upstream _ (List.mem_cons_self ..) 0 ['s'] rfl 1
    (Or.inr ⟨_, List.mem_cons_of_mem _ (List.mem_cons_self ..), 0, rfl, rfl⟩)
  cases he
  cases hup

end ParsedGraphConfig

end Dni.Cpp
