import Dni.GraphStuck

namespace Dni

/-- Of operations whose last output was `id`, every channel gets its value from the output before its send. -/
def Carries {V : Type} (out value : Nat → V) : Option Nat → List SendOp → Prop
  | _, [] => True
  | _, .output id :: ops => Carries out value (some id) ops
  | id, .clone :: ops => Carries out value id ops
  | id, .send ch :: ops => (∃ o, id = some o ∧ value ch = out o) ∧ Carries out value id ops

/-- AddData still needs the datum that it has sent last. -/
def sending : List SendOp → Bool
  | .clone :: _ => true
  | .send _ :: _ => true
  | _ => false

/-- The data of a node that must not change: those it has received, and those it has not yet sent. -/
def FlowNode.held (m : FlowNode) : List Nat :=
  match m.pos with
  | .subscribe _ got => got.filterMap id
  | .lock _ | .process => m.inputs.filterMap id
  | .addAllData ops output =>
    (if sending ops then [output] else []) ++ ops.filterMap fun op => match op with
      | .output id => m.outputs[id]?
      | _ => none
  | _ => []

theorem FlowNode.Idle.held {m : FlowNode} (h : m.Idle) : m.held = [] := by
  unfold FlowNode.Idle at h
  unfold FlowNode.held
  split at h
  next hpos =>
    rw [hpos]
    simp [h.2]
  next hpos => rw [hpos]
  next hpos => rw [hpos]
  next => exact h.elim

def NodeAt.isProcess : NodeAt → Bool
  | .process => true
  | _ => false

def SourceAt.held : SourceAt → List Nat
  | .adding _ ops output => if sending ops then [output] else []
  | _ => []

def FlowGraph.channels (g : FlowGraph) : List Nat := (List.range g.size).flatMap g.inputs ++ g.outputs

namespace Flow

variable {V : Type} (x : Flow V)

/-- The data on their way, those that node `a` has received aside. -/
def live (s : FlowState V) (a : Nat) : List Nat :=
  x.channels.flatMap (fun ch => (s.chan ch).queue) ++ s.source.held ++
    ((List.range x.size).filter (· ≠ a)).flatMap fun b => (s.node b).held

/-- A Process leaves the data that are on their way as they are. -/
def Spares (s : FlowState V) : FlowEvent → Prop
  | .node a => (s.node a).pos.isProcess = true → ∀ d ∈ x.live s a, (x.process s a).heap[d]? = s.heap[d]?
  | _ => True

instance [DecidableEq V] (s : FlowState V) : ∀ e, Decidable (x.Spares s e)
  | .source => isTrue trivial
  | .node a => inferInstanceAs
    (Decidable ((s.node a).pos.isProcess = true → ∀ d ∈ x.live s a, (x.process s a).heap[d]? = s.heap[d]?))
  | .read _ => isTrue trivial

/-- The values of all rounds: `out` those that the producers put out, `value` those on the channels. -/
structure Evaluates (out : Nat → Producer → Nat → V) (value : Nat → Nat → V) : Prop where
  given : ∀ k id, out k .graphInput id = x.given k id
  node : ∀ k, ∀ a < x.size, out k (.node a) =
    ((x.task a (k + 1) ((x.inputs a).map (value k))).outputs).getD fun _ => x.nil
  carries : ∀ k p, x.Has p → Carries (out k p) (value k) none (x.sends p)

section Valued

variable (out : Nat → Producer → Nat → V) (value : Nat → Nat → V)

/-- A producer that has `ops` left to do in round `k` can send the right data. -/
structure Adds (k : Nat) (p : Producer) (heap : List V) (ops : List SendOp) (output : Nat) : Prop where
  carries : ∃ id, Carries (out k p) (value k) id ops ∧
    (sending ops = true → ∀ o, id = some o → heap[output]? = some (out k p o))

/-- What the data of a node are. -/
structure NodeValued (a : Nat) (m : FlowNode) (heap : List V) : Prop where
  slots : m.outputs.length = x.slots a
  nodup : m.outputs.Nodup
  lt : ∀ d ∈ m.outputs, d < heap.length
  got : ∀ rest got, m.pos = .subscribe rest got → ∀ (j d ch : Nat), got[j]? = some (some d) →
    (x.inputs a)[j]? = some ch → heap[d]? = some (value m.rounds.length ch)
  inputs : m.pos = .process ∨ (∃ allok, m.pos = .lock allok) → m.inputs.length = (x.inputs a).length ∧
    ∀ (j ch : Nat), (x.inputs a)[j]? = some ch → ∃ d, m.inputs[j]? = some (some d) ∧
      heap[d]? = some (value (m.rounds.length - 1) ch)
  adds : ∀ ops output, m.pos = .addAllData ops output → Adds out value (m.rounds.length - 1) (.node a) heap ops output ∧
    ∀ id, .output id ∈ ops → ∃ d, m.outputs[id]? = some d ∧ heap[d]? = some (out (m.rounds.length - 1) (.node a) id)

/-- All data that are on their way are what their round makes them, and so were those that have been read. -/
structure Valued (s : FlowState V) : Prop where
  node : ∀ a, x.Busy a → x.NodeValued out value a (s.node a) s.heap
  source : ∀ k ops output, s.source = .adding k ops output → Adds out value k .graphInput s.heap ops output
  queue : ∀ a ch, x.Reads a ch → ∀ (i d : Nat), (s.chan ch).queue[i]? = some d →
    s.heap[d]? = some (value ((s.node a).received x.rounds ch + i) ch)
  output : ∀ ch ∈ x.outputs, ∀ (i d : Nat), (s.chan ch).queue[i]? = some d →
    s.heap[d]? = some (value ((s.reads ch).length + i) ch)
  reads : ∀ ch ∈ x.outputs, s.reads ch = (List.range (s.reads ch).length).map (value · ch)

end Valued

variable {x} {out : Nat → Producer → Nat → V} {value : Nat → Nat → V} {heap heap' : List V}

theorem Adds.mono {k : Nat} {p : Producer} {ops : List SendOp} {output : Nat}
    (h : Adds out value k p heap ops output)
    (hkeep : sending ops = true → ∀ v, heap[output]? = some v → heap'[output]? = some v) :
    Adds out value k p heap' ops output := by
  obtain ⟨id, hcarries, hvalue⟩ := h.carries
  exact ⟨id, hcarries, fun hsending o ho => hkeep hsending _ (hvalue hsending o ho)⟩

/-- A change of the heap that leaves the data of a node as they are. -/
theorem NodeValued.mono {a : Nat} {m : FlowNode} (h : x.NodeValued out value a m heap)
    (hkeep : ∀ d ∈ m.held, ∀ v, heap[d]? = some v → heap'[d]? = some v) (hlen : heap.length ≤ heap'.length) :
    x.NodeValued out value a m heap' := by
  refine ⟨h.slots, h.nodup, fun d hd => Nat.lt_of_lt_of_le (h.lt d hd) hlen, ?_, ?_, ?_⟩
  · intro rest got hpos j d ch hj hch
    refine hkeep d ?_ _ (h.got rest got hpos j d ch hj hch)
    simp only [FlowNode.held, hpos]
    exact List.mem_filterMap.mpr ⟨some d, List.mem_of_getElem? hj, rfl⟩
  · intro hpos
    obtain ⟨hlength, hvalue⟩ := h.inputs hpos
    refine ⟨hlength, fun j ch hch => ?_⟩
    obtain ⟨d, hd, hheap⟩ := hvalue j ch hch
    refine ⟨d, hd, hkeep d ?_ _ hheap⟩
    have hmem : d ∈ m.inputs.filterMap id := List.mem_filterMap.mpr ⟨some d, List.mem_of_getElem? hd, rfl⟩
    obtain hpos | ⟨allok, hpos⟩ := hpos
    · simpa only [FlowNode.held, hpos] using hmem
    · simpa only [FlowNode.held, hpos] using hmem
  · intro ops output hpos
    obtain ⟨hadds, hpending⟩ := h.adds ops output hpos
    refine ⟨hadds.mono fun hsending => hkeep output ?_, fun id hid => ?_⟩
    · simp [FlowNode.held, hpos, hsending]
    · obtain ⟨d, hd, hheap⟩ := hpending id hid
      refine ⟨d, hd, hkeep d ?_ _ hheap⟩
      simp only [FlowNode.held, hpos]
      exact List.mem_append_right _ (List.mem_filterMap.mpr ⟨.output id, hid, hd⟩)

section Live

variable {s : FlowState V} {a d : Nat}

theorem live_of_queue {ch : Nat} (hch : (∃ b, x.Reads b ch) ∨ ch ∈ x.outputs) (hd : d ∈ (s.chan ch).queue) :
    d ∈ x.live s a := by
  refine List.mem_append_left _ (List.mem_append_left _ (List.mem_flatMap.mpr ⟨ch, List.mem_append.mpr ?_, hd⟩))
  exact hch.imp_left fun ⟨b, hb, hmem⟩ => List.mem_flatMap.mpr ⟨b, List.mem_range.mpr hb.1, hmem⟩

theorem live_of_source (hd : d ∈ s.source.held) : d ∈ x.live s a :=
  List.mem_append_left _ (List.mem_append_right _ hd)

theorem live_of_node {b : Nat} (hb : b < x.size) (hne : b ≠ a) (hd : d ∈ (s.node b).held) : d ∈ x.live s a := by
  refine List.mem_append_right _ (List.mem_flatMap.mpr ⟨b, List.mem_filter.mpr ⟨List.mem_range.mpr hb, ?_⟩, hd⟩)
  simpa using hne

end Live

section Moves

variable {s t : FlowState V}

/-- What a channel holds, after a move that sends it the next datum or none. -/
theorem queue_moves {ch base : Nat} (hheap : ∀ d ∈ (s.chan ch).queue, ∀ v, s.heap[d]? = some v → t.heap[d]? = some v)
    (hmoves : (t.chan ch).queue = (s.chan ch).queue ∨ ∃ d, (t.chan ch).queue = (s.chan ch).queue ++ [d] ∧
      t.heap[d]? = some (value ((s.chan ch).queue.length + base) ch))
    (h : ∀ (i d : Nat), (s.chan ch).queue[i]? = some d → s.heap[d]? = some (value (base + i) ch)) (i d : Nat)
    (hi : (t.chan ch).queue[i]? = some d) : t.heap[d]? = some (value (base + i) ch) := by
  have hkept : (s.chan ch).queue[i]? = some d → t.heap[d]? = some (value (base + i) ch) :=
    fun hs => hheap d (List.mem_of_getElem? hs) _ (h i d hs)
  obtain hsame | ⟨d', hnew, hvalue⟩ := hmoves
  · exact hkept (hsame ▸ hi)
  · rw [hnew] at hi
    obtain hlt | hge := Nat.lt_or_ge i (s.chan ch).queue.length
    · rw [List.getElem?_append_left hlt] at hi
      exact hkept hi
    · obtain ⟨hlast, -⟩ := List.getElem?_eq_some_iff.mp hi
      rw [List.length_append, List.length_singleton] at hlast
      have hend : i = (s.chan ch).queue.length := by omega
      subst hend
      rw [List.getElem?_concat_length] at hi
      cases hi
      rwa [Nat.add_comm]

variable (hg : x.Sound) (hc : x.Counted s) (h : x.Valued out value s)

include hg hc h

/-- A move of one node that leaves the data as they are which are on their way and not in its hands. -/
theorem Valued.node_moves {a : Nat} {m : FlowNode} (hnode : t.node = Function.update s.node a m)
    (hsource : t.source = s.source) (hreads : t.reads = s.reads)
    (hheap : ∀ d ∈ x.live s a, ∀ v, s.heap[d]? = some v → t.heap[d]? = some v)
    (hlen : s.heap.length ≤ t.heap.length) (hm : x.NodeValued out value a m t.heap)
    (hfed : ∀ ch, x.Feeds (.node a) ch → (t.chan ch).queue = (s.chan ch).queue ∨
      ∃ d, (t.chan ch).queue = (s.chan ch).queue ++ [d] ∧ t.heap[d]? = some (value ((s.node a).sent ch) ch))
    (hread : ∀ ch, x.Reads a ch → ∀ (i d : Nat), (t.chan ch).queue[i]? = some d →
      t.heap[d]? = some (value (m.received x.rounds ch + i) ch))
    (hother : ∀ ch, ¬ x.Feeds (.node a) ch → ¬ x.Reads a ch → (t.chan ch).queue = (s.chan ch).queue) :
    x.Valued out value t := by
  have hself : t.node a = m := by rw [hnode, Function.update_self]
  have hrest : ∀ b, b ≠ a → t.node b = s.node b := fun b hb => by rw [hnode, Function.update_of_ne hb]
  have hmoves : ∀ ch base, ¬ x.Reads a ch →
      (∀ p, x.Feeds p ch → (s.chan ch).queue.length + base = s.sent x.rounds p ch) →
      (t.chan ch).queue = (s.chan ch).queue ∨ ∃ d, (t.chan ch).queue = (s.chan ch).queue ++ [d] ∧
        t.heap[d]? = some (value ((s.chan ch).queue.length + base) ch) := by
    intro ch base hnot hcount
    by_cases hf : x.Feeds (.node a) ch
    · rw [hcount _ hf]
      exact hfed ch hf
    · exact Or.inl (hother ch hf hnot)
  refine ⟨?_, ?_, ?_, ?_, ?_⟩
  · intro b hb
    by_cases hba : b = a
    · rw [hba, hself]
      exact hm
    · rw [hrest b hba]
      exact (h.node b hb).mono (fun d hd => hheap d (live_of_node hb.1 hba hd)) hlen
  · intro k ops output hpos
    rw [hsource] at hpos
    refine (h.source k ops output hpos).mono fun hsending => hheap output (live_of_source ?_)
    simp [SourceAt.held, hpos, hsending]
  · intro b ch hr
    by_cases hba : b = a
    · rw [hba, hself]
      exact hread ch (hba ▸ hr)
    · rw [hrest b hba]
      exact queue_moves (fun d hd => hheap d (live_of_queue (Or.inl ⟨b, hr⟩) hd))
        (hmoves ch _ (fun hr' => hba (hg.reader b a ch hr hr')) fun p hf => hc.queue p b ch hf hr) (h.queue b ch hr)
  · intro ch hout
    rw [hreads]
    exact queue_moves (fun d hd => hheap d (live_of_queue (Or.inr hout) hd))
      (hmoves ch _ (fun hr => hg.apart a ch hr hout) fun p hf => hc.output p ch hf hout) (h.output ch hout)
  · intro ch hout
    rw [hreads]
    exact h.reads ch hout

omit hg in
theorem Valued.source_moves (hnode : t.node = s.node) (hreads : t.reads = s.reads)
    (hheap : ∀ (d : Nat) (v : V), s.heap[d]? = some v → t.heap[d]? = some v) (hlen : s.heap.length ≤ t.heap.length)
    (hsource : ∀ k ops output, t.source = .adding k ops output → Adds out value k .graphInput t.heap ops output)
    (hfed : ∀ ch, x.Feeds .graphInput ch → (t.chan ch).queue = (s.chan ch).queue ∨
      ∃ d, (t.chan ch).queue = (s.chan ch).queue ++ [d] ∧
        t.heap[d]? = some (value (s.source.sent x.rounds ch) ch))
    (hother : ∀ ch, ¬ x.Feeds .graphInput ch → (t.chan ch).queue = (s.chan ch).queue) :
    x.Valued out value t := by
  have hmoves : ∀ ch base, (∀ p, x.Feeds p ch → (s.chan ch).queue.length + base = s.sent x.rounds p ch) →
      (t.chan ch).queue = (s.chan ch).queue ∨ ∃ d, (t.chan ch).queue = (s.chan ch).queue ++ [d] ∧
        t.heap[d]? = some (value ((s.chan ch).queue.length + base) ch) := by
    intro ch base hcount
    by_cases hf : x.Feeds .graphInput ch
    · rw [hcount _ hf]
      exact hfed ch hf
    · exact Or.inl (hother ch hf)
  refine ⟨?_, hsource, ?_, ?_, ?_⟩
  · intro b hb
    rw [hnode]
    exact (h.node b hb).mono (fun d _ => hheap d) hlen
  · intro b ch hr
    rw [hnode]
    exact queue_moves (fun d _ => hheap d) (hmoves ch _ fun p hf => hc.queue p b ch hf hr) (h.queue b ch hr)
  · intro ch hout
    rw [hreads]
    exact queue_moves (fun d _ => hheap d) (hmoves ch _ fun p hf => hc.output p ch hf hout) (h.output ch hout)
  · intro ch hout
    rw [hreads]
    exact h.reads ch hout

end Moves

end Flow

end Dni
