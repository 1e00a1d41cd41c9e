import Dni.GraphCheck

namespace Dni

open GoMap

/-- Who feeds: the graph's inputs, or a node. -/
inductive Producer
  | graphInput
  | node (nid : Nat)
  deriving DecidableEq

/-- Who is fed: a node, or the graph's outputs. -/
inductive Consumer
  | node (nid : Nat)
  | graphOutput
  deriving DecidableEq

def addReaders (gInput : GoMap String Unit) (nid : Nat) : List String → GoMap String (List Nat) →
    GoMap String (List Nat)
  | [], sourceEdge => sourceEdge
  | input :: inputs, sourceEdge =>
    addReaders gInput nid inputs
      (if input ∈ gInput then sourceEdge.insert input ((sourceEdge.lookup input).getD [] ++ [nid])
        else sourceEdge)

def addNodeReaders (gInput : GoMap String Unit) (nid : Nat) : List (List String) →
    GoMap String (List Nat) → GoMap String (List Nat)
  | [], sourceEdge => sourceEdge
  | inputs :: nodeInputs, sourceEdge =>
    addNodeReaders gInput (nid + 1) nodeInputs (addReaders gInput nid inputs sourceEdge)

/-- The common body of GetSourceEdge and GetSideSourceEdge. -/
def getSources (gInputNames : List String) (nodeInputs : List (List String)) : GoMap String (List Nat) :=
  addNodeReaders (nameSet gInputNames) 0 nodeInputs
    (gInputNames.foldl (fun sourceEdge name => sourceEdge.insert name []) ∅)

namespace GraphUnit

def getSourceEdge (gu : GraphUnit) : GoMap String (List Nat) :=
  getSources gu.graphInputStream.name (gu.nodes.map fun node => node.inputStream.name)

def getSideSourceEdge (gu : GraphUnit) : GoMap String (List Nat) :=
  getSources gu.graphInputSideData.name (gu.nodes.map fun node => node.inputSideData.name)

end GraphUnit

/-- The common body of LinkNodeEdge and LinkSideDataNodeEdge. -/
def linkNode (ord : Order String (List Nat)) (gOutputNames : List String)
    (streamMap : GoMap String (List Nat)) : GoMap String (List Consumer) :=
  (ord.run streamMap).foldl (fun next e =>
    next.insert e.1 (e.2.map .node ++ if e.1 ∈ gOutputNames then [.graphOutput] else [])) ∅

/-- The common body of LinkSourceEdge and LinkSideDataSourceEdge. -/
def linkSource (gInputNames : List String) (sourceEdge : GoMap String (List Nat)) :
    GoMap String (List Consumer) :=
  gInputNames.foldl (fun next stream => next.insert stream (((sourceEdge.lookup stream).getD []).map .node)) ∅

/-- The consumers of every producer's outputs: the maps that SetSourceEdge and SetNodeEdge store. -/
structure Wiring where
  source : GoMap String (List Consumer)
  node : Nat → GoMap String (List Consumer)

def Wiring.next (w : Wiring) : Producer → GoMap String (List Consumer)
  | .graphInput => w.source
  | .node nid => w.node nid

def Wiring.consumers (w : Wiring) (p : Producer) (s : String) : List Consumer :=
  ((w.next p).lookup s).getD []

/-- The links of PrepareForRun; a node without an entry keeps its empty map. -/
def link (ord : Order String (List Nat)) (gInputNames gOutputNames : List String)
    (sourceEdge : GoMap String (List Nat)) (nodeEdge : NodeEdges) : Wiring where
  source := linkSource gInputNames sourceEdge
  node nid := linkNode ord gOutputNames ((nodeEdge.lookup nid).getD ∅)

/-- The consumer reads the stream or side datum. -/
def Takes (gOutputs : List String) (nodes : Streams) (s : String) : Consumer → Prop
  | .node b => ∃ node, nodes[b]? = some node ∧ s ∈ node.1
  | .graphOutput => s ∈ gOutputs

/-- The producer makes the stream or side datum. -/
def Makes (gInputs : List String) (nodes : Streams) (s : String) : Producer → Prop
  | .graphInput => s ∈ gInputs
  | .node a => ∃ node, nodes[a]? = some node ∧ s ∈ node.2

/-- The source of what a consumer reads: a graph input hides a node's output of the same name from the nodes. -/
def Source (gInputs : List String) (nodes : Streams) (s : String) (p : Producer) (c : Consumer) : Prop :=
  Makes gInputs nodes s p ∧
    match p, c with
    | .graphInput, .node _ => True
    | .graphInput, .graphOutput => False
    | .node _, .node _ => s ∉ gInputs
    | .node _, .graphOutput => True

/-- A producer of the graph. -/
def Present (nodes : Streams) : Producer → Prop
  | .graphInput => True
  | .node a => a < nodes.length

/-- Every producer's list of consumers is right: those that take the stream and have it from this producer,
each once. -/
structure Wired (gInputs gOutputs : List String) (nodes : Streams) (w : Wiring) : Prop where
  nodup : ∀ p s, Present nodes p → (w.consumers p s).Nodup
  mem : ∀ p s c, Present nodes p →
    (c ∈ w.consumers p s ↔ Takes gOutputs nodes s c ∧ Source gInputs nodes s p c)

section Sources

variable (gInput : GoMap String Unit)

theorem lookup_addReaders (nid : Nat) (inputs : List String) (m : GoMap String (List Nat)) (s : String)
    (hm : s ∈ m ↔ s ∈ gInput) : (addReaders gInput nid inputs m).lookup s =
      (m.lookup s).map fun readers => readers ++ (inputs.filter (· = s)).map fun _ => nid := by
  induction inputs generalizing m with
  | nil => simp [addReaders]
  | cons input inputs ih =>
    rw [addReaders, ih]
    · by_cases hs : input = s
      · subst hs
        by_cases hg : input ∈ gInput
        · obtain ⟨readers, hr⟩ := mem_iff_lookup.mp (hm.mpr hg)
          simp [hg, hr]
        · have hnone : m.lookup input = none := AList.lookup_eq_none.mpr fun h => hg (hm.mp h)
          simp [hg, hnone]
      · split
        · rw [AList.lookup_insert_ne (Ne.symm hs)]
          simp [hs]
        · simp [hs]
    · split
      next hg =>
        rw [AList.mem_insert, hm]
        exact or_iff_right_of_imp fun he => he ▸ hg
      next => exact hm

theorem lookup_addNodeReaders (nid : Nat) (nodeInputs : List (List String)) (m : GoMap String (List Nat))
    (s : String) (hm : s ∈ m ↔ s ∈ gInput) : (addNodeReaders gInput nid nodeInputs m).lookup s =
      (m.lookup s).map fun readers =>
        readers ++ ((readsFrom ∅ nid nodeInputs).filter (·.2 = s)).map Prod.fst := by
  induction nodeInputs generalizing nid m with
  | nil => simp [addNodeReaders, readsFrom]
  | cons inputs nodeInputs ih =>
    have hrow : (((inputs.filter (· ∉ (∅ : GoMap String Unit))).map ((nid, ·) : String → Nat × String)).filter
        (·.2 = s)).map Prod.fst = (inputs.filter (· = s)).map fun _ => nid := by
      have hall : inputs.filter (· ∉ (∅ : GoMap String Unit)) = inputs := List.filter_eq_self.mpr (by simp)
      rw [hall, List.filter_map, List.map_map]
      rfl
    have hmem : s ∈ addReaders gInput nid inputs m ↔ s ∈ gInput := by
      rw [← hm, mem_iff_lookup, mem_iff_lookup, lookup_addReaders gInput nid inputs m s hm]
      simp
    rw [addNodeReaders, ih _ _ hmem, lookup_addReaders gInput nid inputs m s hm, Option.map_map, readsFrom,
      List.filter_append, List.map_append, hrow]
    simp [Function.comp_def]

end Sources

/-- The readers of a graph input. -/
theorem lookup_getSources (gInputNames : List String) (nodeInputs : List (List String)) (s : String) :
    (getSources gInputNames nodeInputs).lookup s = if s ∈ gInputNames then
      some (((readsFrom ∅ 0 nodeInputs).filter (·.2 = s)).map Prod.fst) else none := by
  have hstart : ∀ m : GoMap String (List Nat),
      (gInputNames.foldl (fun sourceEdge name => sourceEdge.insert name []) m).lookup s =
        if s ∈ gInputNames then some [] else m.lookup s := by
    induction gInputNames with
    | nil => simp
    | cons name names ih =>
      intro m
      rw [List.foldl_cons, ih, lookup_insert_if]
      by_cases hs : s = name <;> simp [hs]
  rw [getSources, lookup_addNodeReaders, hstart]
  · split <;> simp
  · rw [mem_iff_lookup, hstart, mem_nameSet]
    split <;> simp [*]

theorem lookup_linkNode (ord : Order String (List Nat)) (gOutputNames : List String)
    (streamMap : GoMap String (List Nat)) (s : String) :
    (linkNode ord gOutputNames streamMap).lookup s = (streamMap.lookup s).map fun readers =>
      readers.map Consumer.node ++ if s ∈ gOutputNames then [.graphOutput] else [] := by
  have hfun : ∀ x ∈ ord.run streamMap, ∀ y ∈ ord.run streamMap, x.1 = y.1 →
      x.2.map Consumer.node ++ (if x.1 ∈ gOutputNames then [.graphOutput] else []) =
        y.2.map Consumer.node ++ if y.1 ∈ gOutputNames then [.graphOutput] else [] := by
    intro x hx y hy he
    have h₁ := (Order.mem_run ord).mp hx
    have h₂ := (Order.mem_run ord).mp hy
    rw [he, h₂] at h₁
    rw [he, Option.some.inj h₁]
  apply Option.ext
  intro cs
  rw [linkNode, lookup_foldl_insert hfun, Option.map_eq_some_iff]
  apply Iff.intro
  · intro h
    obtain ⟨⟨x, readers⟩, hx, hk, hv⟩ | ⟨-, hnone⟩ := h
    · subst hk
      exact ⟨readers, (Order.mem_run ord).mp hx, hv⟩
    · cases hnone
  · intro h
    obtain ⟨readers, hr, hv⟩ := h
    exact Or.inl ⟨(s, readers), (Order.mem_run ord).mpr hr, rfl, hv⟩

theorem lookup_linkSource (gInputNames : List String) (sourceEdge : GoMap String (List Nat)) (s : String) :
    (linkSource gInputNames sourceEdge).lookup s =
      if s ∈ gInputNames then some (((sourceEdge.lookup s).getD []).map Consumer.node) else none := by
  have hloop : ∀ m : GoMap String (List Consumer), (gInputNames.foldl (fun next stream =>
      next.insert stream (((sourceEdge.lookup stream).getD []).map Consumer.node)) m).lookup s =
        if s ∈ gInputNames then some (((sourceEdge.lookup s).getD []).map Consumer.node) else m.lookup s := by
    induction gInputNames with
    | nil => simp
    | cons name names ih =>
      intro m
      rw [List.foldl_cons, ih, lookup_insert_if]
      by_cases hs : s = name
      · subst hs
        simp
      · simp [hs]
  rw [linkSource, hloop, AList.lookup_empty]

theorem node_injective : Function.Injective Consumer.node := fun _ _ h => Consumer.node.inj h

section Accepted

variable {ord : EdgeOrders} {gInputs gOutputs : List String} {nodes : Streams} {nodeEdge : NodeEdges}
  {sortedNodes : List Nat} (h : getEdges ord gInputs gOutputs nodes = some (.ok (nodeEdge, sortedNodes)))

include h

theorem checked_of_accepted : Checked gInputs gOutputs nodes := by
  by_contra hno
  obtain ⟨e, -, he⟩ := (getEdges_correct ord gInputs gOutputs nodes).refused hno
  rw [h] at he
  cases he

/-- What the graph's input handler feeds. -/
theorem source_wired (lord : Order String (List Nat)) (s : String) :
    ((link lord gInputs gOutputs (getSources gInputs (nodes.map Prod.fst)) nodeEdge).consumers
      .graphInput s).Nodup ∧
    ∀ c, c ∈ (link lord gInputs gOutputs (getSources gInputs (nodes.map Prod.fst)) nodeEdge).consumers
      .graphInput s ↔ Takes gOutputs nodes s c ∧ Source gInputs nodes s .graphInput c := by
  obtain ⟨hnd, hmem⟩ := @readers_spec ∅ nodes (checked_of_accepted h).inputs s
  simp only [AList.notMem_empty, not_false_eq_true, true_and] at hmem
  have hcons : (link lord gInputs gOutputs (getSources gInputs (nodes.map Prod.fst)) nodeEdge).consumers
      .graphInput s = if s ∈ gInputs then
        (((readsFrom ∅ 0 (nodes.map Prod.fst)).filter (·.2 = s)).map Prod.fst).map .node else [] := by
    show ((linkSource _ _).lookup s).getD [] = _
    rw [lookup_linkSource, lookup_getSources]
    split <;> simp
  rw [hcons]
  split
  next hs =>
    refine ⟨hnd.map node_injective, fun c => ?_⟩
    cases c with
    | node b =>
      rw [List.mem_map_of_injective node_injective, hmem]
      exact ⟨fun hb => ⟨hb, hs, trivial⟩, And.left⟩
    | graphOutput =>
      refine iff_of_false (by simp) fun hc => hc.2.2
  next hs => exact ⟨List.nodup_nil, fun c => iff_of_false List.not_mem_nil fun hc => hs hc.2.1⟩

/-- What a node feeds. -/
theorem node_wired (lord : Order String (List Nat)) {a : Nat} (ha : a < nodes.length) (s : String) :
    ((link lord gInputs gOutputs (getSources gInputs (nodes.map Prod.fst)) nodeEdge).consumers
      (.node a) s).Nodup ∧
    ∀ c, c ∈ (link lord gInputs gOutputs (getSources gInputs (nodes.map Prod.fst)) nodeEdge).consumers
      (.node a) s ↔ Takes gOutputs nodes s c ∧ Source gInputs nodes s (.node a) c := by
  obtain ⟨nodeEdge', sortedNodes', he, -, -, hedges⟩ := (getEdges_correct ord gInputs gOutputs nodes).accepted
    (checked_of_accepted h) (by rw [h]; simp)
  rw [h] at he
  cases he
  obtain ⟨edge, hedge, hkeys, hreaders⟩ := hedges a nodes[a] (List.getElem?_eq_getElem ha)
  have hcons : (link lord gInputs gOutputs (getSources gInputs (nodes.map Prod.fst)) nodeEdge).consumers
      (.node a) s = ((edge.lookup s).map fun readers =>
        readers.map Consumer.node ++ if s ∈ gOutputs then [.graphOutput] else []).getD [] := by
    show ((linkNode _ _ ((nodeEdge.lookup a).getD ∅)).lookup s).getD [] = _
    rw [hedge, Option.getD_some, lookup_linkNode]
  have hmake : Makes gInputs nodes s (.node a) ↔ s ∈ nodes[a].2 := by
    simp [Makes, List.getElem?_eq_getElem ha]
  rw [hcons]
  cases hl : edge.lookup s with
  | none =>
    have hno : s ∉ nodes[a].2 := fun hs => by
      obtain ⟨readers, hr⟩ := mem_iff_lookup.mp ((hkeys s).mpr hs)
      rw [hl] at hr
      cases hr
    exact ⟨List.nodup_nil, fun c => iff_of_false List.not_mem_nil fun hc => hno (hmake.mp hc.2.1)⟩
  | some readers =>
    obtain ⟨hnd, hmem⟩ := hreaders s readers hl
    have hs : Makes gInputs nodes s (.node a) := hmake.mpr ((hkeys s).mp (mem_iff_lookup.mpr ⟨readers, hl⟩))
    rw [Option.map_some, Option.getD_some]
    refine ⟨?_, fun c => ?_⟩
    · refine List.nodup_append.mpr ⟨hnd.map node_injective, by split <;> simp, fun x hx y hy he => ?_⟩
      obtain ⟨b, -, hb⟩ := List.mem_map.mp hx
      split at hy
      next =>
        rw [List.mem_singleton.mp hy, ← hb] at he
        cases he
      next => cases hy
    · rw [List.mem_append]
      cases c with
      | node b =>
        rw [List.mem_map_of_injective node_injective, hmem]
        apply Iff.intro
        · intro hc
          obtain ⟨hg, hb, -⟩ := hc.resolve_right (by split <;> simp)
          exact ⟨hb, hs, hg⟩
        · intro hc
          exact Or.inl ⟨hc.2.2, hc.1, hs⟩
      | graphOutput =>
        apply Iff.intro
        · intro hc
          have ho := hc.resolve_left (by simp)
          split at ho
          next hg => exact ⟨hg, hs, trivial⟩
          next => cases ho
        · intro hc
          have hg : s ∈ gOutputs := hc.1
          rw [if_pos hg]
          exact Or.inr (List.mem_singleton_self _)

/-- A graph that is accepted is linked as its names say. -/
theorem link_wired (lord : Order String (List Nat)) : Wired gInputs gOutputs nodes
    (link lord gInputs gOutputs (getSources gInputs (nodes.map Prod.fst)) nodeEdge) where
  nodup p s hp := by
    cases p with
    | graphInput => exact (source_wired h lord s).1
    | node a => exact (node_wired h lord hp s).1
  mem p s c hp := by
    cases p with
    | graphInput => exact (source_wired h lord s).2 c
    | node a => exact (node_wired h lord hp s).2 c

end Accepted

/-- Every stream or side datum that is read has one source. -/
theorem Checked.source_unique {gInputs gOutputs : List String} {nodes : Streams}
    (h : Checked gInputs gOutputs nodes) {s : String} {c : Consumer} (hc : Takes gOutputs nodes s c) :
    ∃ p, Present nodes p ∧ Source gInputs nodes s p c ∧
      ∀ p', Source gInputs nodes s p' c → p' = p := by
  have hone : ∀ (a a' : Nat) (node node' : List String × List String), nodes[a]? = some node → s ∈ node.2 → nodes[a']? = some node' → s ∈ node'.2 →
      a = a' := by
    intro a a' node node' ha hs ha' hs'
    obtain ⟨hlt, he⟩ := List.getElem?_eq_some_iff.mp ha
    obtain ⟨hlt', he'⟩ := List.getElem?_eq_some_iff.mp ha'
    have hdis := (List.nodup_flatMap.mp h.outputs).2
    by_contra hne
    have hp := List.pairwise_iff_getElem.mp hdis
    obtain hl | hl := Nat.lt_or_gt_of_ne hne
    · exact hp a a' hlt hlt' hl (by rw [he]; exact hs) (by rw [he']; exact hs')
    · exact hp a' a hlt' hlt hl (by rw [he']; exact hs') (by rw [he]; exact hs)
  cases c with
  | node b =>
    obtain ⟨node, hn, hs⟩ := hc
    by_cases hg : s ∈ gInputs
    · refine ⟨.graphInput, trivial, ⟨hg, trivial⟩, fun p' hp' => ?_⟩
      cases p' with
      | graphInput => rfl
      | node a => exact absurd hg hp'.2
    · obtain ⟨a, node', hn', hs'⟩ := mem_outputs_iff.mp ((h.sources node (List.mem_of_getElem? hn) s hs).resolve_left hg)
      refine ⟨.node a, (List.getElem?_eq_some_iff.mp hn').1, ⟨⟨node', hn', hs'⟩, hg⟩, fun p' hp' => ?_⟩
      cases p' with
      | graphInput => exact absurd hp'.1 hg
      | node a' =>
        obtain ⟨⟨node'', hn'', hs''⟩, -⟩ := hp'
        rw [hone a' a node'' node' hn'' hs'' hn' hs']
  | graphOutput =>
    obtain ⟨a, node', hn', hs'⟩ := mem_outputs_iff.mp (h.graphOutputs s hc)
    refine ⟨.node a, (List.getElem?_eq_some_iff.mp hn').1, ⟨⟨node', hn', hs'⟩, trivial⟩, fun p' hp' => ?_⟩
    cases p' with
    | graphInput => exact hp'.2.elim
    | node a' =>
      obtain ⟨⟨node'', hn'', hs''⟩, -⟩ := hp'
      rw [hone a' a node'' node' hn'' hs'' hn' hs']

end Dni
