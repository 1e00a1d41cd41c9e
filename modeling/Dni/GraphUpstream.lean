import Dni.GraphOrder
import Dni.Propagation

namespace Dni.Cpp

open Utils OnePass

section Pass

/-- The edges of a pass over all nodes, whose slots stand one node behind the other. -/
structure EdgesPassed (g : Edges) (graph : List Text) (slots : List Slots) (events : Slots → List (Ev Text)) : Prop where
  pass : g.pass = Pass.empty.run (graph.map .declare ++ slots.flatMap events)
  inputs : InBlocks 0 (slots.map fun s => (s.inputBase, s.inputs))
  outputs : InBlocks graph.length (slots.map fun s => (s.outputBase, s.outputs))

theorem Adds.edgesPassed {slots : NodeInfo → Slots} {events : Slots → List (Ev Text)}
    {f : NodeInfo → Edges → NodeInfo × Edges} (hf : Adds slots events f) {g g' : Edges} {graph : List Text}
    {nodes nodes' : List NodeInfo} (hg : g.pass = Pass.empty.run (graph.map .declare))
    (h : Dni.Cpp.forNodes f nodes g = .ok (nodes', g')) : EdgesPassed g' graph (nodes'.map slots) events := by
  obtain ⟨hinputs, houtputs⟩ := graph_lengths hg
  obtain ⟨hpass, hin, hout⟩ := hf.forNodes h
  rw [hinputs] at hin
  rw [houtputs] at hout
  rw [hg, ← Pass.run_append] at hpass
  exact ⟨hpass, hin, hout⟩

variable {g : Edges} {graph : List Text} {slots : List Slots} {events : Slots → List (Ev Text)} {own : Bool}

/-- The names a node declares before it looks its inputs up, and those that it declares behind them. -/
def Slots.known (own : Bool) (s : Slots) : List Text := if own then s.outputs else []

theorem streamEvents_eq (s : Slots) :
    streamEvents s = (s.known true).map .declare ++ (s.inputs.map .refer ++ (s.known false).map .declare) := by
  simp [streamEvents, Slots.known]

theorem sideEvents_eq (s : Slots) :
    sideEvents s = (s.known false).map .declare ++ (s.inputs.map .refer ++ (s.known true).map .declare) := by
  simp [sideEvents, Slots.known]

variable (hevents : ∀ s, events s = (s.known own).map .declare ++ (s.inputs.map .refer ++ (s.known !own).map .declare))
  (hpass : EdgesPassed g graph slots events)

include hevents in
theorem events_names (s : Slots) :
    (events s).filterMap Ev.declared = s.outputs ∧ (events s).filterMap Ev.referred = s.inputs := by
  rw [hevents]
  cases own <;>
    simp [Slots.known, List.filterMap_append, List.filterMap_map, Function.comp_def, Ev.declared, Ev.referred]

include hevents hpass in
/-- The inputs of a node are looked up among what the nodes before it declare, and it itself if it is known. -/
theorem upstream_lookup {j : Nat} {sj : Slots} (hj : slots[j]? = some sj) :
    ∃ known : Pass Text, known.Indexed ∧
      known.declared = graph ++ (slots.take (j + own.toNat)).flatMap Slots.outputs ∧
      ∀ (k : Nat) name e (p : Nat), sj.inputs[k]? = some name → g.inputs[sj.inputBase + k]? = some e →
        e.upstreamId = p → known.index.lookup name = some p := by
  have hnames := events_names hevents
  let before := graph.map .declare ++ (slots.take j).flatMap events ++ (sj.known own).map .declare
  refine ⟨Pass.empty.run before, Pass.empty_indexed.run before, ?_, ?_⟩
  · have htake : (slots.take (j + own.toNat)).flatMap Slots.outputs =
        (slots.take j).flatMap Slots.outputs ++ sj.known own := by
      cases own with
      | false => simp [Slots.known]
      | true =>
        rw [Bool.toNat_true, List.take_add_one, hj, Option.toList_some, List.flatMap_append, List.flatMap_singleton]
        rfl
    rw [Pass.run_declared, htake]
    simp [before, Pass.empty, List.filterMap_append, List.filterMap_flatMap, hnames, List.filterMap_map,
      Function.comp_def, Ev.declared]
  · intro k name e p hname he hup
    have hsplit : slots = slots.take j ++ sj :: slots.drop (j + 1) := by
      obtain ⟨hlt, hget⟩ := List.getElem?_eq_some_iff.mp hj
      rw [← hget, List.cons_getElem_drop_succ, List.take_append_drop]
    have hall : graph.map .declare ++ slots.flatMap events =
        before ++ (sj.inputs.map .refer ++ ((sj.known !own).map .declare ++ (slots.drop (j + 1)).flatMap events)) := by
      conv_lhs => rw [hsplit]
      simp only [List.flatMap_append, List.flatMap_cons, hevents sj, List.append_assoc, before]
    have hresolved : (Pass.empty.run before).resolved.length = sj.inputBase := by
      have hlength := congrArg List.length (Pass.run_referred (Pass.empty (α := Text)) before)
      have hstart := hpass.inputs.start_eq (i := j) (b := (sj.inputBase, sj.inputs)) (by rw [List.getElem?_map, hj]; rfl)
      rw [List.length_map] at hlength
      rw [hlength, show sj.inputBase = _ from hstart]
      simp [before, Pass.empty, List.filterMap_append, List.filterMap_flatMap, hnames, List.filterMap_map,
        Function.comp_def, Ev.referred, ← List.map_take, List.flatMap_map]
    have hat := Pass.run_resolved_at Pass.empty before
      ((sj.known !own).map .declare ++ (slots.drop (j + 1)).flatMap events) hname
    rw [← hall, ← hpass.pass, hresolved, Edges.pass, List.getElem?_map, he, Option.map_some, Option.some.injEq,
      Prod.mk.injEq, hup, if_neg (by omega), Int.toNat_natCast] at hat
    exact hat.2.symm

variable (own) in
include hevents hpass in
/-- The producer that a slot has is the last node to make its name, of those that are known by then. -/
theorem lastMaker_of_upstream {i j k o : Nat} {si sj : Slots} (hi : slots[i]? = some si) (hj : slots[j]? = some sj)
    (hk : k < sj.inputs.length) (ho : o < si.outputs.length) {e : EdgeInfo}
    (he : g.inputs[sj.inputBase + k]? = some e) (hup : e.upstreamId = (si.outputBase + o : Nat)) :
    ∃ name ∈ sj.inputs, LastMaker (slots.map Slots.outputs) (j + own.toNat) name i := by
  obtain ⟨known, hindexed, hdeclared, hlookup⟩ := upstream_lookup hevents hpass hj
  have hlook := hlookup k _ e _ (List.getElem?_eq_getElem hk) he hup
  have hfound := hindexed.found _ _ hlook
  rw [hdeclared] at hfound
  have hblock : ∀ {n : Nat} {s : Slots}, slots[n]? = some s →
      (slots.map fun s => (s.outputBase, s.outputs))[n]? = some (s.outputBase, s.outputs) := by
    intro n s hs
    rw [List.getElem?_map, hs]
    rfl
  -- the places of the names that are known
  have hplace : ∀ p name, graph.length ≤ p →
      (((graph ++ (slots.take (j + own.toNat)).flatMap Slots.outputs)[p]? = some name) ↔
        ∃ n s, n < j + own.toNat ∧ slots[n]? = some s ∧ ∃ q : Nat, s.outputs[q]? = some name ∧ p = s.outputBase + q) := by
    intro p name hle
    have hblocks := (hpass.outputs.take (j + own.toNat)).getElem?_iff p name
    rw [← List.map_take, List.flatMap_map] at hblocks
    rw [List.getElem?_append_right hle]
    refine (and_iff_right hle).symm.trans (hblocks.trans ?_)
    apply Iff.intro
    · rintro ⟨b, hb, q, hq, hp⟩
      obtain ⟨s, hs, rfl⟩ := List.mem_map.mp hb
      obtain ⟨n, hn⟩ := List.mem_iff_getElem?.mp hs
      rw [List.getElem?_take] at hn
      split at hn
      next hlt => exact ⟨n, s, hlt, hn, q, hq, hp⟩
      next => cases hn
    · rintro ⟨n, s, hlt, hs, q, hq, hp⟩
      refine ⟨(s.outputBase, s.outputs), List.mem_map.mpr ⟨s, ?_, rfl⟩, q, hq, hp⟩
      exact List.mem_iff_getElem?.mpr ⟨n, by rw [List.getElem?_take, if_pos hlt]; exact hs⟩
  have hge := hpass.outputs.le _ (List.mem_of_getElem? (hblock hi))
  simp only at hge
  obtain ⟨n, s, hlt, hs, q, hq, hp⟩ := (hplace _ _ (by omega)).mp hfound
  obtain ⟨hni, _⟩ := hpass.outputs.place_inj (hblock hi) (hblock hs) ho (List.getElem?_eq_some_iff.mp hq).1 hp
  subst hni
  rw [hi, Option.some.injEq] at hs
  subst hs
  refine ⟨_, List.getElem_mem hk, hlt, ⟨si.outputs, by rw [List.getElem?_map, hi]; rfl, List.mem_of_getElem? hq⟩, ?_⟩
  intro n hin hnj outputs houtputs hmem
  rw [List.getElem?_map, Option.map_eq_some_iff] at houtputs
  obtain ⟨s, hs, rfl⟩ := houtputs
  obtain ⟨r, hr⟩ := List.mem_iff_getElem?.mp hmem
  -- a later node with the name would have been found
  have hend := hpass.outputs.end_le (hblock hi) (hblock hs) hin
  simp only at hend
  have hlater := (hplace (s.outputBase + r) _ (by omega)).mpr ⟨n, s, hnj, hs, r, hr, rfl⟩
  rw [← hdeclared] at hlater
  have hle := hindexed.last _ _ _ hlook hlater
  omega

end Pass

section Accepted

variable {config : GraphConfig} {g : ParsedGraphConfig} (h : ParsedGraphConfig.Initialize config = .ok g)
include h

/-- The names of the slots of an accepted graph, and how its edges were made. -/
theorem edgesPassed :
    EdgesPassed g.streams (fieldNames config.inputStream) (g.Nodes.map NodeInfo.streamSlots) streamEvents ∧
      EdgesPassed g.sideData (fieldNames config.inputSideData) (g.Nodes.map NodeInfo.sideSlots) sideEvents ∧
      (g.Nodes.map NodeInfo.streamSlots).map Slots.names =
        config.node.map (fun node => (fieldNames node.inputStream, fieldNames node.outputStream)) ∧
      (g.Nodes.map NodeInfo.sideSlots).map Slots.names =
        config.node.map fun node => (fieldNames node.inputSideData, fieldNames node.outputSideData) := by
  obtain ⟨_, nodes, nodes', hnodes, hside, hstreams⟩ := ParsedGraphConfig.initialize_ok h
  have hnamed := initializeNodes_named hnodes
  obtain ⟨gs, -, hgs, hsides⟩ := ParsedGraphConfig.initializeSideData_ok hside
  obtain ⟨gt, -, hgt, _, hstream⟩ := ParsedGraphConfig.initializeStreams_ok hstreams
  have hkept : g.Nodes.map NodeInfo.sideSlots = nodes'.map NodeInfo.sideSlots :=
    forNodes_map (fun _ _ => rfl) hstream
  refine ⟨streams_adds.edgesPassed hgt hstream, hkept ▸ sideData_adds.edgesPassed hgs hsides, ?_, ?_⟩
  · exact (List.map_map.trans (forNodes_map (fun _ _ => rfl) hstream)).trans
      ((forNodes_map (fun _ _ => rfl) hsides).trans (ParsedGraphConfig.stream_names hnamed))
  · exact ((congrArg _ hkept).trans (List.map_map.trans (forNodes_map (fun _ _ => rfl) hsides))).trans
      (ParsedGraphConfig.side_names hnamed)

omit h in
theorem names_at {slots : List Slots} {protos : List GraphConfig.Node} {inputs outputs : GraphConfig.Node → List Text}
    (hnames : slots.map Slots.names = protos.map fun p => (inputs p, outputs p)) {j : Nat} {s : Slots}
    (hj : slots[j]? = some s) : ∃ proto, protos[j]? = some proto ∧ s.inputs = inputs proto ∧ s.outputs = outputs proto := by
  have hat : (slots.map Slots.names)[j]? = some s.names := by rw [List.getElem?_map, hj]; rfl
  rw [hnames, List.getElem?_map, Option.map_eq_some_iff] at hat
  obtain ⟨proto, hproto, heq⟩ := hat
  obtain ⟨hin, hout⟩ := Prod.mk.inj heq
  exact ⟨proto, hproto, hin.symm, hout.symm⟩

omit h in
theorem outputs_eq {slots : List Slots} {protos : List GraphConfig.Node} {inputs outputs : GraphConfig.Node → List Text}
    (hnames : slots.map Slots.names = protos.map fun p => (inputs p, outputs p)) :
    slots.map Slots.outputs = protos.map outputs := by
  have hsnd := congrArg (List.map Prod.snd) hnames
  rwa [List.map_map, List.map_map] at hsnd

variable {i j k o : Nat} {pred node : NodeInfo} {e : EdgeInfo}

/-- A node reads the one whose output stream a slot of it has. -/
theorem reads_of_stream (hi : g.Nodes[i]? = some pred) (hj : g.Nodes[j]? = some node)
    (hk : k < node.Config.Inputs.names.length) (ho : o < pred.Config.Outputs.names.length)
    (he : g.streams.inputs[node.inputStreamBaseIndex + k]? = some e)
    (hup : e.upstreamId = (pred.outputStreamBaseIndex + o : Nat)) : config.Reads j i := by
  obtain ⟨hpass, _, hnames, _⟩ := edgesPassed h
  have hslot : ∀ {n : Nat} {info : NodeInfo}, g.Nodes[n]? = some info →
      (g.Nodes.map NodeInfo.streamSlots)[n]? = some info.streamSlots := by
    intro n info hn
    rw [List.getElem?_map, hn]
    rfl
  obtain ⟨name, hname, hlast⟩ :=
    lastMaker_of_upstream true streamEvents_eq hpass (hslot hi) (hslot hj) hk ho he hup
  obtain ⟨proto, hproto, hin, _⟩ := names_at hnames (hslot hj)
  rw [outputs_eq hnames] at hlast
  exact ⟨proto, hproto, Or.inr ⟨name, hin ▸ hname, hlast⟩⟩

/-- A node reads the one whose output side datum a slot of it has. -/
theorem reads_of_sideDatum (hi : g.Nodes[i]? = some pred) (hj : g.Nodes[j]? = some node)
    (hk : k < node.Config.InputSideData.names.length) (ho : o < pred.Config.OutputSideData.names.length)
    (he : g.sideData.inputs[node.inputSideDataBaseIndex + k]? = some e)
    (hup : e.upstreamId = (pred.outputSideDataBaseIndex + o : Nat)) : config.Reads j i := by
  obtain ⟨_, hpass, _, hnames⟩ := edgesPassed h
  have hslot : ∀ {n : Nat} {info : NodeInfo}, g.Nodes[n]? = some info →
      (g.Nodes.map NodeInfo.sideSlots)[n]? = some info.sideSlots := by
    intro n info hn
    rw [List.getElem?_map, hn]
    rfl
  obtain ⟨name, hname, hlast⟩ :=
    lastMaker_of_upstream false sideEvents_eq hpass (hslot hi) (hslot hj) hk ho he hup
  obtain ⟨proto, hproto, hin, _⟩ := names_at hnames (hslot hj)
  rw [outputs_eq hnames] at hlast
  exact ⟨proto, hproto, Or.inl ⟨name, hin ▸ hname, hlast⟩⟩

omit h in
/-- Different nodes have different canonical names, so that each has a task of its own. -/
def GraphConfig.NamedApart (config : GraphConfig) : Prop :=
  ∀ i j q, config.canonicalName i = some q → config.canonicalName j = some q → i = j

/-- Each task succeeds those of the nodes that its node reads. -/
theorem succeedAll_reads (hapart : config.NamedApart) :
    ∃ edges, succeedAll (taskMap g.Nodes) g.Nodes = .ok edges ∧ ∀ i j, (i, j) ∈ edges ↔ config.Reads i j := by
  have hread := nodesRead h
  have hat : ∀ {i : Nat} {q : Text}, config.canonicalName i = some q → (taskMap g.Nodes).lookup q = some i := by
    intro i q hq
    obtain ⟨node, hi, hname⟩ := hread.node_of_name hq
    obtain ⟨x, hx⟩ := taskMap_of_node hi
    obtain ⟨node', hi', hname'⟩ := name_of_taskMap hx
    rw [← hname, hx, hapart x i node.Config.nodeName (hname' ▸ hread.name_of_node hi') (hread.name_of_node hi)]
  have hkeys : ∀ node ∈ g.Nodes, (∃ x, (taskMap g.Nodes).lookup node.Config.nodeName = some x) ∧
      ∀ p ∈ node.Predecessors, ∃ y, (taskMap g.Nodes).lookup p = some y := by
    intro node hnode
    obtain ⟨i, hi⟩ := List.mem_iff_getElem?.mp hnode
    refine ⟨taskMap_of_node hi, ?_⟩
    intro p hp
    obtain ⟨j, _, hj⟩ := (hread.preds i node hi p).mp hp
    exact ⟨j, hat hj⟩
  obtain ⟨edges, hedges, hmem⟩ := succeedAll_ok hkeys
  refine ⟨edges, hedges, ?_⟩
  intro x y
  rw [hmem]
  apply Iff.intro
  · rintro ⟨node, hnode, hx, p, hp, hy⟩
    obtain ⟨i, hi⟩ := List.mem_iff_getElem?.mp hnode
    obtain ⟨j, hreads, hj⟩ := (hread.preds i node hi p).mp hp
    rw [hat (hread.name_of_node hi)] at hx
    rw [hat hj] at hy
    cases hx
    cases hy
    exact hreads
  · intro hreads
    obtain ⟨q, hq⟩ := hreads.canonicalName_reader
    obtain ⟨p, hp⟩ := hreads.canonicalName_maker
    obtain ⟨node, hi, hname⟩ := hread.node_of_name hq
    exact ⟨node, List.mem_of_getElem? hi, hname ▸ hat hq, p, (hread.preds x node hi p).mpr ⟨y, hreads, hp⟩, hat hp⟩

end Accepted

end Dni.Cpp
