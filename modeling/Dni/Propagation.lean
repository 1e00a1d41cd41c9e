import Dni.GraphMirrors
import Dni.StreamLifecycle
import Dni.SyncExact
import Dni.Lib.InOrder

namespace Dni.Cpp

open Utils OnePass

/-- A handler of input streams: that of a node, or that of an observed output. -/
inductive Ish
  | node (i : Nat)
  | observed (k : Nat)
deriving DecidableEq

/-- The handler of a successor and the slot of the stream there. -/
structure Mirror where
  ish : Ish
  id : Nat
deriving DecidableEq

/-- An input stream manager: one of the graph's array, or that of an observed output. -/
inductive ManagerRef
  | input (i : Nat)
  | observed (k : Nat)
deriving DecidableEq

/-- An initialised graph with the index of each output that is observed, in the order of the calls. -/
structure ObservedGraph where
  graph : Graph
  observed : List Nat

variable {α : Type}

namespace ObservedGraph

/-- The mirrors of an output stream: the nodes add theirs first. -/
def Mirrors (g : ObservedGraph) (osi : Nat) : List Mirror :=
  (g.graph.mirrors.streams.filterMap fun m => if m.1 = osi then some ⟨.node m.2.1, m.2.2⟩ else none) ++
    g.observed.zipIdx.filterMap fun e => if e.1 = osi then some ⟨.observed e.2, 0⟩ else none

/-- `input_stream_managers_[id]` of the handler; an index that it does not have is undefined. -/
def inputStreamManager (g : ObservedGraph) (m : Mirror) : Option ManagerRef :=
  match m.ish with
  | .node i =>
    (g.graph.nodes[i]?).bind fun node =>
      if m.id < node.info.Config.Inputs.names.length then some (.input (node.info.inputStreamBaseIndex + m.id))
      else none
  | .observed k => if k < g.observed.length ∧ m.id = 0 then some (.observed k) else none

end ObservedGraph

/-- Every input stream of the graph and of its observers. -/
abbrev InputStreams (α : Type) := ManagerRef → InputStreamManager α

namespace InputStreams

def AddData (mem : InputStreams α) (ref : ManagerRef) (data : List (Datum α)) : InputStreams α :=
  Function.update mem ref ((mem ref).addData data)

/-- A datum that is moved from keeps its value: its move constructor copies. -/
def MoveData (mem : InputStreams α) (ref : ManagerRef) (data : List (Datum α)) :
    InputStreams α × List (Datum α) :=
  (Function.update mem ref ((mem ref).addData data), data)

end InputStreams

/-- The loop over the mirrors: the last of them gets the data moved. -/
def mirrorLoop (g : ObservedGraph) (nmirrors : Nat) :
    List (Mirror × Nat) → InputStreams α → List (Datum α) → Option (InputStreams α × List (Datum α))
  | [], mem, data => some (mem, data)
  | (m, i) :: ms, mem, data =>
    match g.inputStreamManager m with
    | none => none
    | some ref =>
      if i + 1 = nmirrors then
        let (mem, data) := mem.MoveData ref data
        mirrorLoop g nmirrors ms mem data
      else mirrorLoop g nmirrors ms (mem.AddData ref data) data

/-- The data of one output stream; its queue is cleared behind the loop. -/
def propagateStream (g : ObservedGraph) (osi : Nat) (mem : InputStreams α) (data : List (Datum α)) :
    Option (InputStreams α × List (Datum α)) :=
  let mirrors := g.Mirrors osi
  (mirrorLoop g mirrors.length mirrors.zipIdx mem data).map fun r => (r.1, [])

/-- The queues of a node's outputs from the one with index `i` on. -/
def OutputStreamHandler.PropagateFrom (g : ObservedGraph) (node : Node) (i : Nat) (mem : InputStreams α) :
    List (List (Datum α)) → Option (InputStreams α × List (List (Datum α)))
  | [] => some (mem, [])
  | data :: outputs =>
    if i < node.info.Config.Outputs.names.length then do
      let (mem, data) ← propagateStream g (node.info.outputStreamBaseIndex + i) mem data
      let (mem, outputs) ← PropagateFrom g node (i + 1) mem outputs
      some (mem, data :: outputs)
    else none

def OutputStreamHandler.Propagate (g : ObservedGraph) (node : Node) (mem : InputStreams α)
    (outputs : List (List (Datum α))) : Option (InputStreams α × List (List (Datum α))) :=
  PropagateFrom g node 0 mem outputs

/-- A graph input holds the manager of its own output stream. -/
def GraphInputStream.Propagate (g : ObservedGraph) (osi : Nat) (mem : InputStreams α) (data : List (Datum α)) :
    Option (InputStreams α × List (Datum α)) :=
  propagateStream g osi mem data

/-- Every mirror of an output has its data behind those it had, and no other input stream is changed. -/
structure Delivered (g : ObservedGraph) (outs : List (Nat × List (Datum α))) (mem mem' : InputStreams α) : Prop where
  each : ∀ out ∈ outs, ∀ m ∈ g.Mirrors out.1, ∃ ref, g.inputStreamManager m = some ref ∧
    (mem' ref).queue = (mem ref).queue ++ out.2
  frame : ∀ ref, (∀ out ∈ outs, out.2 ≠ [] → ∀ m ∈ g.Mirrors out.1, g.inputStreamManager m ≠ some ref) →
    mem' ref = mem ref

/-- Each mirror has its input stream, and no input stream is the mirror of two outputs or twice of one. -/
structure ObservedGraph.Linked (g : ObservedGraph) : Prop where
  found : ∀ osi, ∀ m ∈ g.Mirrors osi, ∃ ref, g.inputStreamManager m = some ref
  nodup : ∀ osi, (g.Mirrors osi).Nodup
  own : ∀ osi osi' m m' ref, m ∈ g.Mirrors osi → m' ∈ g.Mirrors osi' → g.inputStreamManager m = some ref →
    g.inputStreamManager m' = some ref → osi = osi' ∧ m = m'

namespace ObservedGraph

/-- The input streams of an initialised graph stand one node behind the other. -/
theorem inputs_inBlocks {config : GraphConfig} {cfg : ParsedGraphConfig}
    (h : ParsedGraphConfig.Initialize config = .ok cfg) :
    InBlocks 0 ((cfg.Nodes.map NodeInfo.streamSlots).map fun s => (s.inputBase, s.inputs)) := by
  obtain ⟨_, _, _, _, _, hstreams⟩ := ParsedGraphConfig.initialize_ok h
  obtain ⟨gt, _, hpass, _, hnodes⟩ := ParsedGraphConfig.initializeStreams_ok hstreams
  have hempty : gt.inputs.length = 0 := by
    have hresolved := Pass.run_referred Pass.empty ((fieldNames config.inputStream).map Ev.declare)
    rw [← hpass] at hresolved
    simpa [Edges.pass, Pass.empty, List.filterMap_map, Function.comp_def, Ev.referred] using hresolved
  have hblocks := (streams_adds.forNodes hnodes).2.1
  rwa [hempty] at hblocks

section Links

variable {config : GraphConfig} {faults : List Fault} {graph : Graph} {observed : List Nat}

theorem mem_Mirrors (h : Graph.Initialize config = .ok (faults, graph)) {osi : Nat} {m : Mirror} :
    m ∈ (⟨graph, observed⟩ : ObservedGraph).Mirrors osi ↔
      (∃ i info, graph.cfg.Nodes[i]? = some info ∧ m.ish = .node i ∧ m.id < info.Config.Inputs.names.length ∧
        ∃ e, graph.cfg.streams.inputs[info.inputStreamBaseIndex + m.id]? = some e ∧ e.upstreamId = osi) ∨
      ∃ k, observed[k]? = some osi ∧ m = ⟨.observed k, 0⟩ := by
  obtain ⟨_, _, _, hmirrors⟩ := Graph.initialize_mirrors h
  simp only [Mirrors, List.mem_append, List.mem_filterMap, hmirrors]
  refine or_congr ?_ ?_
  · apply Iff.intro
    · intro ⟨⟨p, i, slot⟩, hmem, hsome⟩
      split at hsome
      next hp =>
        cases hsome
        obtain ⟨info, hinfo, hslot, e, he, hup⟩ := mem_mirrorsOf.mp hmem
        exact ⟨i, info, hinfo, rfl, hslot, e, he, hp ▸ hup⟩
      next => cases hsome
    · intro ⟨i, info, hinfo, hish, hslot, e, he, hup⟩
      refine ⟨(osi, i, m.id), mem_mirrorsOf.mpr ⟨info, hinfo, hslot, e, he, hup⟩, ?_⟩
      rw [if_pos rfl, ← hish]
  · apply Iff.intro
    · intro ⟨⟨p, k⟩, hmem, hsome⟩
      split at hsome
      next hp =>
        cases hsome
        exact ⟨k, hp ▸ List.mem_zipIdx_iff_getElem?.mp hmem, rfl⟩
      next => cases hsome
    · intro ⟨k, hk, hm⟩
      refine ⟨(osi, k), List.mem_zipIdx_iff_getElem?.mpr hk, ?_⟩
      rw [if_pos rfl, hm]

/-- The input stream of a slot of a node. -/
theorem inputStreamManager_node (h : Graph.Initialize config = .ok (faults, graph)) {i id : Nat} {info : NodeInfo}
    (hinfo : graph.cfg.Nodes[i]? = some info) (hid : id < info.Config.Inputs.names.length) :
    (⟨graph, observed⟩ : ObservedGraph).inputStreamManager ⟨.node i, id⟩ =
      some (.input (info.inputStreamBaseIndex + id)) := by
  obtain ⟨_, hnodes, _, _⟩ := Graph.initialize_mirrors h
  have hnode : graph.nodes[i]? = some ⟨i, info, none⟩ := by
    rw [hnodes, List.getElem?_map, List.getElem?_zipIdx, hinfo, Option.map_some, Option.map_some, Nat.zero_add]
  simp only [inputStreamManager, hnode, Option.bind_some, if_pos hid]

theorem inputStreamManager_observed {k : Nat} (hk : k < observed.length) :
    (⟨graph, observed⟩ : ObservedGraph).inputStreamManager ⟨.observed k, 0⟩ = some (.observed k) :=
  if_pos ⟨hk, rfl⟩

/-- The mirrors of an output with their input streams: a slot of a node, or an observer. -/
theorem mirror_manager (h : Graph.Initialize config = .ok (faults, graph)) {osi : Nat} {m : Mirror}
    (hm : m ∈ (⟨graph, observed⟩ : ObservedGraph).Mirrors osi) :
    (∃ i id info e, m = ⟨.node i, id⟩ ∧ graph.cfg.Nodes[i]? = some info ∧ id < info.Config.Inputs.names.length ∧
        graph.cfg.streams.inputs[info.inputStreamBaseIndex + id]? = some e ∧ e.upstreamId = osi ∧
        (⟨graph, observed⟩ : ObservedGraph).inputStreamManager m = some (.input (info.inputStreamBaseIndex + id))) ∨
      ∃ k, m = ⟨.observed k, 0⟩ ∧ observed[k]? = some osi ∧
        (⟨graph, observed⟩ : ObservedGraph).inputStreamManager m = some (.observed k) := by
  obtain ⟨ish, id⟩ := m
  obtain ⟨i, info, hinfo, hish, hid, e, he, hup⟩ | ⟨k, hk, hm⟩ := (mem_Mirrors h).mp hm
  · subst hish
    exact .inl ⟨i, id, info, e, rfl, hinfo, hid, he, hup, inputStreamManager_node h hinfo hid⟩
  · rw [hm]
    exact .inr ⟨k, rfl, hk, inputStreamManager_observed (List.getElem?_eq_some_iff.mp hk).1⟩

theorem nodup_Mirrors (h : Graph.Initialize config = .ok (faults, graph)) (osi : Nat) :
    ((⟨graph, observed⟩ : ObservedGraph).Mirrors osi).Nodup := by
  obtain ⟨_, _, _, hmirrors⟩ := Graph.initialize_mirrors h
  have hstreams : graph.mirrors.streams.Nodup := by
    rw [hmirrors]
    exact nodup_mirrorsOf.of_map _
  have hplaces : observed.zipIdx.Nodup := by
    have hsnd : (observed.zipIdx.map Prod.snd).Nodup := by
      rw [List.zipIdx_map_snd]
      exact List.nodup_range'
    exact hsnd.of_map _
  refine List.nodup_append.mpr ⟨hstreams.filterMap ?_, hplaces.filterMap ?_, ?_⟩
  · intro ⟨p, i, slot⟩ ⟨p', i', slot'⟩ m hm hm'
    simp only [Option.mem_def, Option.ite_none_right_eq_some, Option.some.injEq] at hm hm'
    obtain ⟨hp, heq⟩ := hm
    obtain ⟨hp', heq'⟩ := hm'
    rw [← heq, Mirror.mk.injEq, Ish.node.injEq] at heq'
    rw [hp, hp', heq'.1, heq'.2]
  · intro ⟨p, k⟩ ⟨p', k'⟩ m hm hm'
    simp only [Option.mem_def, Option.ite_none_right_eq_some, Option.some.injEq] at hm hm'
    obtain ⟨hp, heq⟩ := hm
    obtain ⟨hp', heq'⟩ := hm'
    rw [← heq, Mirror.mk.injEq, Ish.observed.injEq] at heq'
    rw [hp, hp', heq'.1]
  · intro m hm m' hm' heq
    obtain ⟨e, _, hsome⟩ := List.mem_filterMap.mp hm
    obtain ⟨e', _, hsome'⟩ := List.mem_filterMap.mp hm'
    simp only [Option.ite_none_right_eq_some, Option.some.injEq] at hsome hsome'
    rw [← heq, ← hsome.2, Mirror.mk.injEq] at hsome'
    cases hsome'.2.1

/-- No two slots of the nodes have the same input stream. -/
theorem input_place_inj (h : Graph.Initialize config = .ok (faults, graph)) {i j id id' : Nat} {info info' : NodeInfo}
    (hinfo : graph.cfg.Nodes[i]? = some info) (hinfo' : graph.cfg.Nodes[j]? = some info')
    (hid : id < info.Config.Inputs.names.length) (hid' : id' < info'.Config.Inputs.names.length)
    (heq : info.inputStreamBaseIndex + id = info'.inputStreamBaseIndex + id') : i = j ∧ id = id' := by
  obtain ⟨hcfg, _, _, _⟩ := Graph.initialize_mirrors h
  have hslots : ∀ {n : Nat} {x : NodeInfo}, graph.cfg.Nodes[n]? = some x →
      ((graph.cfg.Nodes.map NodeInfo.streamSlots).map fun s => (s.inputBase, s.inputs))[n]? =
        some (x.inputStreamBaseIndex, x.Config.Inputs.names) := by
    intro n x hx
    rw [List.getElem?_map, List.getElem?_map, hx]
    rfl
  exact (inputs_inBlocks hcfg).place_inj (hslots hinfo) (hslots hinfo') hid hid' heq

theorem linked (h : Graph.Initialize config = .ok (faults, graph)) (observed : List Nat) :
    (⟨graph, observed⟩ : ObservedGraph).Linked := by
  refine ⟨?_, nodup_Mirrors h, ?_⟩
  · intro osi m hm
    obtain ⟨_, _, _, _, _, _, _, _, _, href⟩ | ⟨_, _, _, href⟩ := mirror_manager h hm
    · exact ⟨_, href⟩
    · exact ⟨_, href⟩
  · intro osi osi' m m' ref hm hm' href href'
    obtain ⟨i, id, info, e, heq, hinfo, hid, he, hup, hmanager⟩ | ⟨k, heq, hk, hmanager⟩ := mirror_manager h hm
    · obtain ⟨j, id', info', e', heq', hinfo', hid', he', hup', hmanager'⟩ | ⟨l, _, _, hmanager'⟩ :=
        mirror_manager h hm'
      · have hplace : info.inputStreamBaseIndex + id = info'.inputStreamBaseIndex + id' := by
          rw [← href, hmanager', hmanager, Option.some.injEq, ManagerRef.input.injEq] at href'
          exact href'.symm
        obtain ⟨hij, hids⟩ := input_place_inj h hinfo hinfo' hid hid' hplace
        subst hij hids
        rw [← hplace, he, Option.some.injEq] at he'
        subst he'
        rw [heq, heq']
        have hosi := hup.symm.trans hup'
        exact ⟨by omega, rfl⟩
      · rw [← href, hmanager', hmanager] at href'
        cases href'
    · obtain ⟨_, _, _, _, _, _, _, _, _, hmanager'⟩ | ⟨l, heq', hl, hmanager'⟩ := mirror_manager h hm'
      · rw [← href, hmanager', hmanager] at href'
        cases href'
      · rw [← href, hmanager', hmanager, Option.some.injEq, ManagerRef.observed.injEq] at href'
        subst href'
        rw [hk] at hl
        exact ⟨Option.some.inj hl, heq.trans heq'.symm⟩

end Links

end ObservedGraph

section Loops

variable {g : ObservedGraph} {mem mem₁ mem' : InputStreams α}

/-- What the data of some outputs do to the input streams. -/
structure Sends (g : ObservedGraph) (outs : List (Nat × List (Datum α))) (mem mem' : InputStreams α) : Prop where
  sent : ∀ out ∈ outs, ∀ m ∈ g.Mirrors out.1, ∀ ref, g.inputStreamManager m = some ref →
    mem' ref = (mem ref).addData out.2
  kept : ∀ ref, (∀ out ∈ outs, ∀ m ∈ g.Mirrors out.1, g.inputStreamManager m ≠ some ref) → mem' ref = mem ref

theorem mirrorLoop_eq (nmirrors : Nat) (ms : List (Mirror × Nat))
    (hfound : ∀ e ∈ ms, ∃ ref, g.inputStreamManager e.1 = some ref) (mem : InputStreams α) (data : List (Datum α)) :
    mirrorLoop g nmirrors ms mem data =
      some (InOrder.eval (fun ref mem => (mem ref).addData data)
        ((ms.map Prod.fst).filterMap g.inputStreamManager) mem, data) := by
  induction ms generalizing mem with
  | nil => rfl
  | cons e ms ih =>
    obtain ⟨m, i⟩ := e
    rw [List.forall_mem_cons] at hfound
    obtain ⟨⟨ref, href⟩, hrest⟩ := hfound
    simp only [mirrorLoop, href, InputStreams.MoveData, InputStreams.AddData, ih hrest, ite_self, List.map_cons,
      List.filterMap_cons_some href]
    rfl

/-- The data of a stream are added once to each of its mirrors. -/
theorem propagateStream_sends (hg : g.Linked) (osi : Nat) (mem : InputStreams α) (data : List (Datum α)) :
    ∃ mem', propagateStream g osi mem data = some (mem', []) ∧ Sends g [(osi, data)] mem mem' := by
  have hfound : ∀ e ∈ (g.Mirrors osi).zipIdx, ∃ ref, g.inputStreamManager e.1 = some ref :=
    fun e he => hg.found osi e.1 (List.fst_mem_of_mem_zipIdx he)
  have hnodup : ((g.Mirrors osi).filterMap g.inputStreamManager).Nodup := by
    refine List.pairwise_filterMap.mpr ((hg.nodup osi).imp_of_mem ?_)
    intro m m' hm hm' hne ref href ref' href' heq
    subst heq
    exact hne (hg.own _ _ _ _ _ hm hm' href href').2
  refine ⟨InOrder.eval (fun ref mem => (mem ref).addData data) ((g.Mirrors osi).filterMap g.inputStreamManager) mem,
    ?_, ?_, ?_⟩
  · rw [propagateStream, mirrorLoop_eq _ _ hfound, Option.map_some, List.zipIdx_map_fst]
  · intro out hout m hm ref href
    rw [List.mem_singleton] at hout
    subst hout
    rw [InOrder.eval_own (g := fun _ (s : InputStreamManager α) => s.addData data) (fun _ _ => rfl) hnodup,
      if_pos (List.mem_filterMap.mpr ⟨m, hm, href⟩)]
  · intro ref hno
    apply InOrder.eval_of_not_mem
    intro hmem
    obtain ⟨m, hm, href⟩ := List.mem_filterMap.mp hmem
    exact hno (osi, data) List.mem_cons_self m hm href

/-- Two outputs have no mirror in common, so that neither disturbs the data of the other. -/
theorem Sends.cons (hg : g.Linked) {out : Nat × List (Datum α)} {outs : List (Nat × List (Datum α))}
    (hout : ∀ out' ∈ outs, out'.1 ≠ out.1) (h : Sends g [out] mem mem₁) (hs : Sends g outs mem₁ mem') :
    Sends g (out :: outs) mem mem' := by
  have hapart : ∀ out' ∈ outs, ∀ m ∈ g.Mirrors out.1, ∀ m' ∈ g.Mirrors out'.1, ∀ ref,
      g.inputStreamManager m = some ref → g.inputStreamManager m' ≠ some ref := by
    intro out' hout' m hm m' hm' ref href href'
    exact hout out' hout' (hg.own _ _ _ _ _ hm' hm href' href).1
  refine ⟨?_, ?_⟩
  · rw [List.forall_mem_cons]
    refine ⟨?_, ?_⟩
    · intro m hm ref href
      rw [hs.kept ref fun out' hout' m' hm' => hapart out' hout' m hm m' hm' ref href,
        h.sent out List.mem_cons_self m hm ref href]
    · intro out' hout' m hm ref href
      have hkept : mem₁ ref = mem ref := by
        apply h.kept
        intro out'' hout'' m' hm' href'
        rw [List.mem_singleton] at hout''
        subst hout''
        exact hapart out' hout' m' hm' m hm ref href' href
      rw [hs.sent out' hout' m hm ref href, hkept]
  · intro ref hno
    rw [List.forall_mem_cons] at hno
    rw [hs.kept ref hno.2, h.kept ref]
    intro out' hout'
    rw [List.mem_singleton] at hout'
    rw [hout']
    exact hno.1

theorem PropagateFrom_sends (hg : g.Linked) (node : Node) (outputs : List (List (Datum α))) (i : Nat)
    (hlen : i + outputs.length ≤ node.info.Config.Outputs.names.length) (mem : InputStreams α) :
    ∃ mem', OutputStreamHandler.PropagateFrom g node i mem outputs = some (mem', outputs.map fun _ => []) ∧
      Sends g ((outputs.zipIdx i).map fun e => (node.info.outputStreamBaseIndex + e.2, e.1)) mem mem' := by
  induction outputs generalizing i mem with
  | nil => exact ⟨mem, rfl, by simp, fun _ _ => rfl⟩
  | cons data outputs ih =>
    rw [List.length_cons] at hlen
    obtain ⟨mem₁, hone, hsends⟩ := propagateStream_sends hg (node.info.outputStreamBaseIndex + i) mem data
    obtain ⟨mem', hrest, hsends'⟩ := ih (i + 1) (by omega) mem₁
    refine ⟨mem', ?_, ?_⟩
    · rw [OutputStreamHandler.PropagateFrom, if_pos (by omega), hone]
      simp only [Option.bind_eq_bind, Option.bind_some, hrest, List.map_cons]
    · rw [List.zipIdx_cons, List.map_cons]
      refine hsends.cons hg ?_ hsends'
      intro out' hout'
      obtain ⟨⟨data', k⟩, hk, heq⟩ := List.mem_map.mp hout'
      have hle := (List.mem_zipIdx hk).1
      rw [← heq]
      simp only
      omega

theorem Sends.delivered (hg : g.Linked) {outs : List (Nat × List (Datum α))} (h : Sends g outs mem mem') :
    Delivered g outs mem mem' := by
  refine ⟨?_, ?_⟩
  · intro out hout m hm
    obtain ⟨ref, href⟩ := hg.found out.1 m hm
    exact ⟨ref, href, by rw [h.sent out hout m hm ref href, Stream.addData_queue]⟩
  · intro ref hno
    by_cases hin : ∃ out ∈ outs, ∃ m ∈ g.Mirrors out.1, g.inputStreamManager m = some ref
    · obtain ⟨out, hout, m, hm, href⟩ := hin
      have hempty : out.2 = [] := by
        by_contra hne
        exact hno out hout hne m hm href
      rw [h.sent out hout m hm ref href, hempty]
      rfl
    · exact h.kept ref fun out hout m hm href => hin ⟨out, hout, m, hm, href⟩

end Loops

/-- In an initialised graph, whatever outputs are observed, a node's data and those of a graph input get
exactly once to every mirror of their stream and nowhere else, and the queues that they were in are empty. -/
theorem propagate_delivered (config : GraphConfig) (faults : List Fault) (graph : Graph)
    (h : Graph.Initialize config = .ok (faults, graph)) (observed : List Nat) (mem : InputStreams α) :
    (∀ node ∈ graph.nodes, ∀ outputs : List (List (Datum α)),
        outputs.length = node.info.Config.Outputs.names.length →
      ∃ mem', OutputStreamHandler.Propagate ⟨graph, observed⟩ node mem outputs =
          some (mem', outputs.map fun _ => []) ∧
        Delivered ⟨graph, observed⟩
          (outputs.zipIdx.map fun e => (node.info.outputStreamBaseIndex + e.2, e.1)) mem mem') ∧
      ∀ (osi : Nat) (data : List (Datum α)),
        ∃ mem', GraphInputStream.Propagate ⟨graph, observed⟩ osi mem data = some (mem', []) ∧
          Delivered ⟨graph, observed⟩ [(osi, data)] mem mem' := by
  have hlinked := ObservedGraph.linked h observed
  refine ⟨?_, ?_⟩
  · intro node _ outputs hlen
    obtain ⟨mem', hrun, hsends⟩ := PropagateFrom_sends hlinked node outputs 0 (by omega) mem
    exact ⟨mem', hrun, hsends.delivered hlinked⟩
  · intro osi data
    obtain ⟨mem', hrun, hsends⟩ := propagateStream_sends hlinked osi mem data
    exact ⟨mem', hrun, hsends.delivered hlinked⟩

/-- A node that reads the graph's input twice. -/
def readsTwice : GraphConfig :=
  ⟨[⟨['n'], ['t'], ["A:g".toList, "B:g".toList], [['s']], [], [], []⟩], [['g']], [['s']], []⟩

theorem propagate_delivered_readsTwice : ∃ faults graph, Graph.Initialize readsTwice = .ok (faults, graph) ∧
    (⟨graph, [1]⟩ : ObservedGraph).Mirrors 0 = [⟨.node 0, 0⟩, ⟨.node 0, 1⟩] ∧
    ∃ mem', GraphInputStream.Propagate ⟨graph, [1]⟩ 0 (fun _ => .fresh) [⟨some 7, 5⟩, ⟨some 8, 6⟩] = some (mem', []) ∧
      Delivered ⟨graph, [1]⟩ [(0, [⟨some 7, 5⟩, ⟨some 8, 6⟩])] (fun _ => .fresh) mem' :=
  ⟨_, _, rfl, rfl, (propagate_delivered readsTwice _ _ rfl [1] fun _ => .fresh).2 0 _⟩

end Dni.Cpp
