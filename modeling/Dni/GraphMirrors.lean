import Dni.GraphStops

namespace Dni.Cpp

open Utils OnePass

section Mirrors

variable (edges : List EdgeInfo) (slots : NodeInfo → Slots) (infos : List NodeInfo)

/-- The mirrors of all the nodes, in the order of the nodes and of their slots. -/
def mirrorsOf : List (Nat × Nat × Nat) :=
  infos.zipIdx.flatMap fun e => Node.mirrors edges e.2 (slots e.1).inputBase (slots e.1).inputs.length

variable {edges slots infos}

theorem mem_node_mirrors {index base size p i slot : Nat} :
    (p, i, slot) ∈ Node.mirrors edges index base size ↔
      i = index ∧ slot < size ∧ ∃ e, edges[base + slot]? = some e ∧ e.upstreamId = p := by
  simp only [Node.mirrors, List.mem_filterMap, List.mem_range, Option.bind_eq_some_iff]
  apply Iff.intro
  · intro ⟨s, hs, e, he, hsome⟩
    split at hsome
    next => cases hsome
    next hneg =>
      cases hsome
      exact ⟨rfl, hs, e, he, (Int.toNat_of_nonneg (by omega)).symm⟩
  · intro ⟨hi, hs, e, he, hup⟩
    refine ⟨slot, hs, e, he, ?_⟩
    rw [if_neg (by omega), hup, hi, Int.toNat_natCast]

/-- A mirror is a slot of a node whose edge has a producer. -/
theorem mem_mirrorsOf {p i slot : Nat} :
    (p, i, slot) ∈ mirrorsOf edges slots infos ↔ ∃ info, infos[i]? = some info ∧
      slot < (slots info).inputs.length ∧ ∃ e, edges[(slots info).inputBase + slot]? = some e ∧ e.upstreamId = p := by
  simp only [mirrorsOf, List.mem_flatMap, mem_node_mirrors]
  apply Iff.intro
  · intro ⟨⟨info, j⟩, hmem, hi, hslot, hup⟩
    have hget := List.mem_zipIdx_iff_getElem?.mp hmem
    exact ⟨info, hi ▸ hget, hslot, hup⟩
  · intro ⟨info, hget, hslot, hup⟩
    exact ⟨(info, i), List.mem_zipIdx_iff_getElem?.mpr hget, rfl, hslot, hup⟩

/-- No slot of a node is a mirror twice. -/
theorem nodup_mirrorsOf : ((mirrorsOf edges slots infos).map Prod.snd).Nodup := by
  have hblock : ∀ index base size, ((Node.mirrors edges index base size).map Prod.snd).Nodup := by
    intro index base size
    have hsub : List.Sublist ((Node.mirrors edges index base size).map Prod.snd)
        ((List.range size).map fun slot => (index, slot)) := by
      unfold Node.mirrors
      rw [List.map_filterMap]
      induction List.range size with
      | nil => exact List.Sublist.refl _
      | cons slot rest ih =>
        rw [List.map_cons, List.filterMap_cons]
        split
        next => exact ih.cons _
        next b hb =>
          obtain ⟨m, hm, hsnd⟩ := Option.map_eq_some_iff.mp hb
          obtain ⟨e, _, hsome⟩ := Option.bind_eq_some_iff.mp hm
          split at hsome
          next => cases hsome
          next =>
            cases hsome
            cases hsnd
            exact ih.cons_cons _
    refine hsub.nodup ((List.nodup_map_iff ?_).mpr List.nodup_range)
    intro a b hab
    exact (Prod.mk.inj hab).2
  rw [mirrorsOf, List.map_flatMap, List.nodup_flatMap]
  refine ⟨fun e _ => hblock _ _ _, ?_⟩
  have hplaces : infos.zipIdx.Pairwise fun e f => e.2 ≠ f.2 := by
    have hnd : (infos.zipIdx.map Prod.snd).Nodup := by
      rw [List.zipIdx_map_snd]
      exact List.nodup_range'
    exact List.pairwise_map.mp hnd
  refine hplaces.imp ?_
  intro e f hne m he hf
  obtain ⟨⟨p, i, slot⟩, hm, hsnd⟩ := List.mem_map.mp he
  obtain ⟨⟨q, j, slot'⟩, hm', hsnd'⟩ := List.mem_map.mp hf
  have hi := (mem_node_mirrors.mp hm).1
  have hj := (mem_node_mirrors.mp hm').1
  rw [← hsnd'] at hsnd
  have hij := (Prod.mk.inj hsnd).1
  omega

end Mirrors

namespace Graph

theorem initializeEach_mirrors (cfg : ParsedGraphConfig) (infos : List NodeInfo) (i : Nat) (m : Mirrors) :
    (initializeEach cfg i infos m).2.2 =
      ⟨m.sideData ++ (infos.zipIdx i).flatMap (fun e => Node.mirrors cfg.sideData.inputs e.2
          e.1.sideSlots.inputBase e.1.sideSlots.inputs.length),
        m.streams ++ (infos.zipIdx i).flatMap (fun e => Node.mirrors cfg.streams.inputs e.2
          e.1.streamSlots.inputBase e.1.streamSlots.inputs.length)⟩ := by
  induction infos generalizing i m with
  | nil => simp [initializeEach]
  | cons info infos ih =>
    have hnode : (Node.Initialize cfg ⟨i, info, none⟩ m).1 =
        ⟨m.sideData ++ Node.mirrors cfg.sideData.inputs i info.sideSlots.inputBase info.sideSlots.inputs.length,
          m.streams ++ Node.mirrors cfg.streams.inputs i info.streamSlots.inputBase info.streamSlots.inputs.length⟩ := by
      simp [Node.Initialize, Node.initializeOutputSideData, Node.initializeInputSideData,
        Node.initializeOutputStreamHandler, Node.initializeOutputStream, Node.initializeInputStreamHandler,
        Node.initializeInputStream, NodeInfo.sideSlots, NodeInfo.streamSlots]
    simp only [initializeEach, ih, hnode, List.zipIdx_cons, List.flatMap_cons, List.append_assoc]

/-- The mirrors of a graph that was initialised. -/
theorem initialize_mirrors {config : GraphConfig} {faults : List Fault} {graph : Graph}
    (h : Initialize config = .ok (faults, graph)) :
    ParsedGraphConfig.Initialize config = .ok graph.cfg ∧
      graph.nodes = graph.cfg.Nodes.zipIdx.map (fun e => ⟨e.2, e.1, none⟩) ∧
      graph.mirrors.sideData = mirrorsOf graph.cfg.sideData.inputs NodeInfo.sideSlots graph.cfg.Nodes ∧
      graph.mirrors.streams = mirrorsOf graph.cfg.streams.inputs NodeInfo.streamSlots graph.cfg.Nodes := by
  obtain ⟨cfg, hcfg, h⟩ := bind_ok h
  obtain ⟨_, _, h⟩ := bind_ok h
  have hmirrors := initializeEach_mirrors cfg cfg.Nodes 0 ⟨[], []⟩
  obtain ⟨_, hnodes⟩ := initializeEach_nodes cfg 0 cfg.Nodes ⟨[], []⟩
  cases h
  refine ⟨hcfg, hnodes, ?_, ?_⟩
  · exact (congrArg Mirrors.sideData hmirrors).trans (List.nil_append _)
  · exact (congrArg Mirrors.streams hmirrors).trans (List.nil_append _)

end Graph

end Dni.Cpp
