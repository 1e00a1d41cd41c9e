import Dni.GraphEdges

namespace Dni

open GoMap ReadyOrder

/-- The checks that precede the search for a loop. -/
structure Checked (gInputs gOutputs : List String) (nodes : Streams) : Prop where
  inputs : ∀ node ∈ nodes, node.1.Nodup
  outputs : (nodes.flatMap Prod.snd).Nodup
  graphOutputs : ∀ s ∈ gOutputs, s ∈ nodes.flatMap Prod.snd
  sources : ∀ node ∈ nodes, ∀ s ∈ node.1, s ∈ gInputs ∨ s ∈ nodes.flatMap Prod.snd

/-- Node `b` reads the stream `s`, which is not a graph input and which node `a` outputs. -/
def Reads (gInputs : List String) (nodes : Streams) (s : String) (a b : Nat) : Prop :=
  s ∉ gInputs ∧ (∃ node, nodes[b]? = some node ∧ s ∈ node.1) ∧ ∃ node, nodes[a]? = some node ∧ s ∈ node.2

/-- What the check of a graph returns: an error of an earlier check, the loop error exactly for a
cyclic relation, and otherwise the readers of every output and the nodes behind their sources. -/
structure EdgesCorrect (gInputs gOutputs : List String) (nodes : Streams)
    (out : Option (Except GraphError (NodeEdges × List Nat))) : Prop where
  refused : ¬ Checked gInputs gOutputs nodes → ∃ e, e ≠ .loop ∧ out = some (.error e)
  loop : Checked gInputs gOutputs nodes → (out = some (.error .loop) ↔
    ∃ a, Relation.TransGen (fun a b => ∃ s, Reads gInputs nodes s a b) a a)
  accepted : Checked gInputs gOutputs nodes → out ≠ some (.error .loop) →
    ∃ nodeEdge sortedNodes, out = some (.ok (nodeEdge, sortedNodes)) ∧
      sortedNodes.Perm (List.range nodes.length) ∧
      (∀ s a b, Reads gInputs nodes s a b → ∃ pre post, sortedNodes = pre ++ b :: post ∧ a ∈ pre) ∧
      ∀ a node, nodes[a]? = some node → ∃ edge, nodeEdge.lookup a = some edge ∧
        (∀ s, s ∈ edge ↔ s ∈ node.2) ∧ ∀ s readers, edge.lookup s = some readers →
          readers.Nodup ∧ ∀ b, b ∈ readers ↔ Reads gInputs nodes s a b

theorem emptyLinks_lookup (n b : Nat) :
    (emptyLinks n).lookup b = if b < n then some ∅ else none := by
  unfold emptyLinks
  induction n with
  | zero => simp
  | succ n ih =>
    rw [List.range_succ, List.foldl_append, List.foldl_cons, List.foldl_nil]
    by_cases hb : b = n
    · subst hb
      simp
    · rw [AList.lookup_insert_ne hb, ih]
      have : b < n ↔ b < n + 1 := by omega
      simp only [this]

theorem mem_emptyLinks {n b : Nat} : b ∈ emptyLinks n ↔ b < n := by
  rw [mem_iff_lookup, emptyLinks_lookup]
  by_cases hb : b < n <;> simp [hb]

theorem mem_readsFrom {gInputs : GoMap String Unit} {nid : Nat} {l : List (List String)} {b : Nat}
    {s : String} : (b, s) ∈ readsFrom gInputs nid l ↔
      s ∉ gInputs ∧ ∃ k inputs, l[k]? = some inputs ∧ s ∈ inputs ∧ b = nid + k := by
  induction l generalizing nid with
  | nil => simp [readsFrom]
  | cons x l ih =>
    rw [readsFrom, List.mem_append, ih]
    constructor
    · rintro (h | ⟨hs, k, inputs, hk, hi, rfl⟩)
      · obtain ⟨y, hy, he⟩ := List.mem_map.mp h
        cases he
        rw [List.mem_filter, decide_eq_true_eq] at hy
        exact ⟨hy.2, 0, x, rfl, hy.1, rfl⟩
      · exact ⟨hs, k + 1, inputs, by simpa using hk, hi, by omega⟩
    · intro h
      rcases h with ⟨hs, k, inputs, hk, hi, rfl⟩
      cases k with
      | zero =>
        cases Option.some.inj hk
        exact Or.inl (by simp [hi, hs])
      | succ k => exact Or.inr ⟨hs, k, inputs, by simpa using hk, hi, by omega⟩

theorem readsFrom_nodup {gInputs : GoMap String Unit} {nid : Nat} {l : List (List String)}
    (h : ∀ inputs ∈ l, inputs.Nodup) : (readsFrom gInputs nid l).Nodup := by
  induction l generalizing nid with
  | nil => simp [readsFrom]
  | cons x l ih =>
    refine List.nodup_append.mpr ⟨((h x (by simp)).filter _).map fun a b hab => by simpa using hab,
      ih fun y hy => h y (by simp [hy]), ?_⟩
    rintro ⟨b, s⟩ hx ⟨b', s'⟩ hy heq
    cases heq
    obtain ⟨_, k, _, _, _, rfl⟩ := mem_readsFrom.mp hy
    obtain ⟨_, _, he⟩ := List.mem_map.mp hx
    have := congrArg Prod.fst he
    simp only at this
    omega

theorem mem_outputs_iff {nodes : Streams} {s : String} :
    s ∈ nodes.flatMap Prod.snd ↔
      ∃ (a : Nat) (node : List String × List String), nodes[a]? = some node ∧ s ∈ node.2 := by
  rw [List.mem_flatMap]
  constructor
  · intro h
    rcases h with ⟨node, hn, hs⟩
    obtain ⟨a, ha⟩ := List.mem_iff_getElem?.mp hn
    exact ⟨a, node, ha, hs⟩
  · intro h
    rcases h with ⟨a, node, ha, hs⟩
    exact ⟨node, List.mem_of_getElem? ha, hs⟩

theorem Recorded.linked {nodes : Streams} {outs : GoMap String Nat} {edges : NodeEdges}
    (h : Recorded 0 nodes ∅ outs ∅ edges) :
    (∀ s a, outs.lookup s = some a ↔ ∃ node, nodes[a]? = some node ∧ s ∈ node.2) ∧
      Linked nodes outs [] ⟨edges, emptyLinks nodes.length, emptyLinks nodes.length⟩ := by
  refine ⟨fun s a => ?_, fun a node hn => ?_, fun b hb => ?_, fun a ha => ?_, fun b => mem_emptyLinks,
    fun a => mem_emptyLinks⟩
  · rw [h.outputs]
    simp
  · obtain ⟨m, hm, hs⟩ := h.recorded a node hn
    exact ⟨m, by rw [← hm, Nat.zero_add], by simpa using hs⟩
  · exact ⟨∅, by rw [emptyLinks_lookup, if_pos hb], by simp⟩
  · exact ⟨∅, by rw [emptyLinks_lookup, if_pos ha], by simp⟩

theorem Linked.mem_pre {nodes : Streams} {outs : GoMap String Nat} {reads : List (Nat × String)}
    {st : Links} (h : Linked nodes outs reads st)
    (hreads : ∀ b s, (b, s) ∈ reads → b < nodes.length) {a b : Nat} :
    a ∈ linked st.preMap b ↔ ∃ s, (b, s) ∈ reads ∧ outs.lookup s = some a := by
  by_cases hb : b < nodes.length
  · obtain ⟨m, hm, hmm⟩ := h.pre b hb
    rw [linked, hm, Option.getD_some, hmm]
  · have hnone : st.preMap.lookup b = none := by
      rw [AList.lookup_eq_none, h.preKeys]
      exact hb
    rw [linked, hnone]
    simp only [Option.getD_none, AList.notMem_empty, false_iff, not_exists, not_and]
    exact fun s hs _ => hb (hreads b s hs)

theorem Linked.mem_next {nodes : Streams} {outs : GoMap String Nat} {reads : List (Nat × String)}
    {st : Links} (h : Linked nodes outs reads st)
    (houts : ∀ s a, outs.lookup s = some a → a < nodes.length) {a b : Nat} :
    b ∈ linked st.nextMap a ↔ ∃ s, (b, s) ∈ reads ∧ outs.lookup s = some a := by
  by_cases ha : a < nodes.length
  · obtain ⟨m, hm, hmm⟩ := h.next a ha
    rw [linked, hm, Option.getD_some, hmm]
  · have hnone : st.nextMap.lookup a = none := by
      rw [AList.lookup_eq_none, h.nextKeys]
      exact ha
    rw [linked, hnone]
    simp only [Option.getD_none, AList.notMem_empty, false_iff, not_exists, not_and]
    exact fun s _ hs => ha (houts s a hs)

theorem Linked.dual {nodes : Streams} {outs : GoMap String Nat} {reads : List (Nat × String)}
    {st : Links} (h : Linked nodes outs reads st)
    (hreads : ∀ b s, (b, s) ∈ reads → b < nodes.length)
    (houts : ∀ s a, outs.lookup s = some a → a < nodes.length) :
    Dual nodes.length st.preMap st.nextMap := by
  refine ⟨?_, fun a b => ?_, fun a b hab => ?_⟩
  · have hp : st.preMap.keys.Perm (List.range nodes.length) :=
      (List.perm_ext_iff_of_nodup st.preMap.nodupKeys List.nodup_range).mpr fun b => by
        rw [List.mem_range, ← h.preKeys, AList.mem_keys]
        rfl
    rw [hp.length_eq, List.length_range]
  · rw [h.mem_pre hreads, h.mem_next houts]
  · obtain ⟨s, hs, ha⟩ := (h.mem_pre hreads).mp hab
    exact ⟨houts s a ha, hreads b s hs⟩

theorem EdgesCorrect.of_refused {gInputs gOutputs : List String} {nodes : Streams} {e : GraphError}
    (hno : ¬ Checked gInputs gOutputs nodes) (he : e ≠ .loop) :
    EdgesCorrect gInputs gOutputs nodes (some (.error e)) :=
  ⟨fun _ => ⟨e, he, rfl⟩, fun h => (hno h).elim, fun h => (hno h).elim⟩

theorem checkGraphOutputs_spec (ord : Order String Unit) (gOutputs : GoMap String Unit)
    (outs : GoMap String Nat) :
    (∀ s ∈ gOutputs, s ∈ outs) ∧ checkGraphOutputs ord gOutputs outs = .ok () ∨
      ¬ (∀ s ∈ gOutputs, s ∈ outs) ∧
        ∃ s, checkGraphOutputs ord gOutputs outs = .error (.outputSource s) := by
  unfold checkGraphOutputs
  split
  next s hs =>
    have hmem := List.mem_of_find?_eq_some hs
    have hnot := List.find?_some hs
    rw [Order.mem_keys] at hmem
    rw [decide_eq_true_eq] at hnot
    exact Or.inr ⟨fun h => hnot (h s hmem), s, rfl⟩
  next hnone =>
    refine Or.inl ⟨fun s hs => ?_, rfl⟩
    have := List.find?_eq_none.mp hnone s ((Order.mem_keys _ _).mpr hs)
    simpa using this

theorem mem_readsFrom_zero {sources : GoMap String Unit} {nodes : Streams} {b : Nat} {s : String} :
    (b, s) ∈ readsFrom sources 0 (nodes.map Prod.fst) ↔ s ∉ sources ∧ ∃ node, nodes[b]? = some node ∧ s ∈ node.1 := by
  rw [mem_readsFrom]
  apply and_congr_right
  intro _
  simp [List.getElem?_map]

/-- The nodes that read a stream, each once when no node reads it twice. -/
theorem readers_spec {sources : GoMap String Unit} {nodes : Streams} (hin : ∀ node ∈ nodes, node.1.Nodup)
    (s : String) :
    (((readsFrom sources 0 (nodes.map Prod.fst)).filter (·.2 = s)).map Prod.fst).Nodup ∧
      ∀ b, b ∈ ((readsFrom sources 0 (nodes.map Prod.fst)).filter (·.2 = s)).map Prod.fst ↔
        s ∉ sources ∧ ∃ node, nodes[b]? = some node ∧ s ∈ node.1 := by
  refine ⟨?_, fun b => ?_⟩
  · have hnd : (readsFrom sources 0 (nodes.map Prod.fst)).Nodup := readsFrom_nodup fun inputs hi => by
      obtain ⟨node, hn, he⟩ := List.mem_map.mp hi
      subst he
      exact hin node hn
    refine (hnd.filter _).map_on fun x hx y hy hxy => ?_
    rw [List.mem_filter, decide_eq_true_eq] at hx hy
    exact Prod.ext hxy (hx.2.trans hy.2.symm)
  · rw [← mem_readsFrom_zero]
    simp

section Linked

variable {gInputs : List String} {nodes : Streams} {outs : GoMap String Nat} {st : Links}
  (h : Linked nodes outs (readsFrom (nameSet gInputs) 0 (nodes.map Prod.fst)) st)

theorem lt_of_mem_readsFrom {sources : GoMap String Unit} {b : Nat} {s : String}
    (h : (b, s) ∈ readsFrom sources 0 (nodes.map Prod.fst)) : b < nodes.length := by
  obtain ⟨_, node, hn, _⟩ := mem_readsFrom_zero.mp h
  exact (List.getElem?_eq_some_iff.mp hn).1

include h

theorem Linked.feeds_eq (houts : ∀ s a, outs.lookup s = some a ↔ ∃ node, nodes[a]? = some node ∧ s ∈ node.2) :
    Feeds st.preMap = fun a b => ∃ s, Reads gInputs nodes s a b := by
  funext a b
  rw [eq_iff_iff, Feeds, h.mem_pre fun _ _ => lt_of_mem_readsFrom]
  apply exists_congr
  intro s
  rw [mem_readsFrom_zero, mem_nameSet, houts, Reads, and_assoc]

/-- The readers of each output of a node, as they are returned. -/
theorem Linked.edge_readers (hin : ∀ node ∈ nodes, node.1.Nodup) {a : Nat} {node : List String × List String}
    (hn : nodes[a]? = some node) : ∃ edge, st.nodeEdge.lookup a = some edge ∧ (∀ s, s ∈ edge ↔ s ∈ node.2) ∧
      ∀ s readers, edge.lookup s = some readers → readers.Nodup ∧ ∀ b, b ∈ readers ↔ Reads gInputs nodes s a b := by
  obtain ⟨edge, he, hel⟩ := h.edges a node hn
  refine ⟨edge, he, fun s => ?_, fun s readers hs => ?_⟩
  · rw [mem_iff_lookup, hel]
    by_cases hsn : s ∈ node.2 <;> simp [hsn]
  · rw [hel] at hs
    split at hs
    next hsn =>
      obtain ⟨hnd, hmem⟩ := @readers_spec (nameSet gInputs) nodes hin s
      rw [← Option.some.inj hs]
      refine ⟨hnd, fun b => ?_⟩
      rw [hmem, mem_nameSet, Reads]
      exact ⟨fun h => ⟨h.1, h.2, node, hn, hsn⟩, fun h => ⟨h.1, h.2.1⟩⟩
    next => cases hs

end Linked

theorem getEdges_correct (ord : EdgeOrders) (gInputs gOutputs : List String) (nodes : Streams) :
    EdgesCorrect gInputs gOutputs nodes (getEdges ord gInputs gOutputs nodes) := by
  unfold getEdges getNodeEdge
  rcases addNodes_spec 0 nodes ∅ ∅ with ⟨⟨hin, hout, _⟩, outs, edges, han, hrec⟩ | ⟨hbad, e, hne, han⟩
  swap
  · rw [han]
    exact .of_refused (fun h => hbad ⟨h.inputs, h.outputs, by simp⟩) hne
  obtain ⟨houts, hlinked⟩ := hrec.linked
  have hmem : ∀ s, s ∈ outs ↔ s ∈ nodes.flatMap Prod.snd := fun s => by
    rw [mem_iff_lookup, mem_outputs_iff]
    simp only [houts]
  rw [han]
  rcases checkGraphOutputs_spec ord.outputs (nameSet gOutputs) outs with ⟨hgo, hcg⟩ | ⟨hgo, s, hcg⟩
  swap
  · simp only [hcg]
    refine .of_refused (fun h => hgo fun s hs => ?_) (by simp)
    exact (hmem s).mpr (h.graphOutputs s (mem_nameSet.mp hs))
  simp only [hcg, List.length_map]
  rcases linkNodes_spec houts (nameSet gInputs) 0 (nodes.map Prod.fst) (by simp) hlinked with
    ⟨hsrc, st, hl, hst⟩ | ⟨hsrc, e, hne, hl⟩
  swap
  · rw [hl]
    refine .of_refused (fun h => hsrc fun inputs hi s hs => ?_) hne
    obtain ⟨node, hn, rfl⟩ := List.mem_map.mp hi
    rw [mem_nameSet, hmem]
    exact h.sources node hn s hs
  rw [List.nil_append] at hst
  have hfeeds := hst.feeds_eq houts
  have hchk : Checked gInputs gOutputs nodes := by
    refine ⟨hin, hout, fun s hs => (hmem s).mp (hgo s (mem_nameSet.mpr hs)), fun node hn s hs => ?_⟩
    rw [← hmem, ← mem_nameSet]
    exact hsrc node.1 (List.mem_map_of_mem hn) s hs
  obtain ⟨sorted, loop, hsort, hloop, hok⟩ :=
    isExistLoop_spec (hst.dual (fun _ _ => lt_of_mem_readsFrom) fun s a => source_lt houts) ord.next
  rw [hl, Option.bind_some]
  simp only [hsort, Option.map_some]
  rw [hfeeds] at hloop hok
  cases loop with
  | true =>
    exact ⟨fun h => (h hchk).elim, fun _ => ⟨fun _ => hloop.mp rfl, fun _ => rfl⟩,
      fun _ h => (h rfl).elim⟩
  | false =>
    obtain ⟨hperm, hord⟩ := hok rfl
    refine ⟨fun h => (h hchk).elim, fun _ => ⟨fun h => (by cases h), fun hc => (by cases hloop.mpr hc)⟩,
      fun _ _ => ⟨st.nodeEdge, sorted, rfl, hperm, fun s a b hr => ?_, fun a node hn => hst.edge_readers hin hn⟩⟩
    obtain ⟨_, ⟨node, hn, _⟩, _⟩ := id hr
    have hb : b ∈ sorted := hperm.mem_iff.mpr (List.mem_range.mpr (List.getElem?_eq_some_iff.mp hn).1)
    obtain ⟨pre, post, rfl⟩ := List.append_of_mem hb
    exact ⟨pre, post, rfl, hord pre b post rfl a ⟨s, hr⟩⟩

/-- The check of the streams and the check of the side data are both correct. -/
theorem getNodeEdge_correct (gu : GraphUnit) (ord : EdgeOrders) :
    EdgesCorrect gu.graphInputStream.name gu.graphOutputStream.name
      (gu.nodes.map fun node => (node.inputStream.name, node.outputStream.name)) (gu.getNodeEdge ord) ∧
    EdgesCorrect gu.graphInputSideData.name gu.graphOutputSideData.name
      (gu.nodes.map fun node => (node.inputSideData.name, node.outputSideData.name))
      (gu.getSideNodeEdge ord) :=
  ⟨getEdges_correct ord _ _ _, getEdges_correct ord _ _ _⟩

end Dni
