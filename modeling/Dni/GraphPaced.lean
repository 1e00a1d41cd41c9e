import Dni.GraphOwners
import Dni.GraphSync

namespace Dni

open GoMap Runs

/-- The rounds of input that have begun, of `n`. -/
def SourceAt.begun (n : Nat) : SourceAt → Nat
  | .between k => k
  | .adding k _ _ => k + 1
  | .closing _ | .returned => n

/-- The rounds that the node has processed. -/
def FlowNode.processed (m : FlowNode) : Nat :=
  match m.pos with
  | .subscribe _ _ | .addAllData _ _ => m.rounds.length
  | _ => m.rounds.length - 1

/-- What the node puts out comes to a graph output, by other nodes or at once. -/
inductive FlowGraph.Leads (g : FlowGraph) : Nat → Prop
  | output (a ch : Nat) (hf : g.Feeds (.node a) ch) (hout : ch ∈ g.outputs) : Leads g a
  | node (a b ch : Nat) (hf : g.Feeds (.node a) ch) (hr : g.Reads b ch) (hb : Leads g b) : Leads g a

theorem FlowGraph.Leads.busy {g : FlowGraph} {a : Nat} (h : g.Leads a) : g.Busy a := by
  cases h with
  | output a ch hf _ => exact hf.1
  | node a b ch hf _ _ => exact hf.1

section Store

variable {V : Type} {values : Nat → V} {heap : List V} {ptrs : List Nat}

theorem store_of_not_mem {d : Nat} (hd : d ∉ ptrs) : (store heap ptrs values)[d]? = heap[d]? := by
  have hloop : ∀ (ptrs : List Nat) (n : Nat) (heap : List V), d ∉ ptrs →
      ((ptrs.zipIdx n).foldl (fun heap e => heap.set e.1 (values e.2)) heap)[d]? = heap[d]? := by
    intro ptrs
    induction ptrs with
    | nil => exact fun _ _ _ => rfl
    | cons p ptrs ih =>
      intro n heap hd
      rw [List.mem_cons, not_or] at hd
      rw [List.zipIdx_cons, List.foldl_cons, ih _ _ hd.2, List.getElem?_set_ne (Ne.symm hd.1)]
  exact hloop ptrs 0 heap hd

/-- Data that are replaced by themselves. -/
theorem store_same (hsame : ∀ j d, ptrs[j]? = some d → heap[d]? = some (values j)) : store heap ptrs values = heap := by
  have hloop : ∀ (ptrs : List Nat) (n : Nat), (∀ j d, ptrs[j]? = some d → heap[d]? = some (values (n + j))) →
      (ptrs.zipIdx n).foldl (fun heap e => heap.set e.1 (values e.2)) heap = heap := by
    intro ptrs
    induction ptrs with
    | nil => exact fun _ _ => rfl
    | cons p ptrs ih =>
      intro n hsame
      have hp := hsame 0 p rfl
      obtain ⟨hlt, hget⟩ := List.getElem?_eq_some_iff.mp hp
      have hset : heap.set p (values n) = heap := by
        rw [← Nat.add_zero n, ← hget]
        exact List.set_getElem_self hlt
      rw [List.zipIdx_cons, List.foldl_cons, hset]
      refine ih (n + 1) fun j d hj => ?_
      have hnext := hsame (j + 1) d hj
      rwa [← Nat.add_assoc, Nat.add_right_comm] at hnext
  exact hloop ptrs 0 fun j d hj => by
    rw [Nat.zero_add]
    exact hsame j d hj

/-- The places of what is found at pointers that are all on the heap. -/
theorem getElem?_found (hlt : ∀ d ∈ ptrs, d < heap.length) {j d : Nat} (hj : ptrs[j]? = some d) :
    (ptrs.filterMap (heap[·]?))[j]? = heap[d]? := by
  induction ptrs generalizing j with
  | nil => cases hj
  | cons p ptrs ih =>
    obtain ⟨hp, hrest⟩ := List.forall_mem_cons.mp hlt
    have hget : heap[p]? = some heap[p] := List.getElem?_eq_getElem hp
    rw [List.filterMap_cons_some (f := (heap[·]?)) hget]
    cases j with
    | zero =>
      cases hj
      rw [List.getElem?_cons_zero, hget]
    | succ j => exact ih hrest hj

end Store

namespace Flow

variable {V : Type} (x : Flow V)

/-- The caller begins a round when it has read all rounds before it from every graph output. -/
def Awaits (s : FlowState V) : FlowEvent → Prop
  | .source => match s.source with
    | .between k => ∀ ch ∈ x.outputs, (s.reads ch).length = k
    | _ => True
  | _ => True

instance (s : FlowState V) : ∀ e, Decidable (x.Awaits s e)
  | .source => by
    unfold Awaits
    dsimp only
    split <;> infer_instance
  | .node _ => isTrue trivial
  | .read _ => isTrue trivial

/-- Every node and every graph output is through the rounds before the one that began last. -/
structure Paced (s : FlowState V) : Prop where
  node : ∀ a, x.Busy a → s.source.begun x.rounds ≤ (s.node a).processed + 1
  output : ∀ ch ∈ x.outputs, s.source.begun x.rounds ≤ (s.reads ch).length + 1

variable {x} {s t : FlowState V}

section Behind

variable (hc : x.Counted s) (ho : x.Open s) {a : Nat} (ha : x.Busy a)

include hc ho ha

/-- What a node has processed lies between what it has received and what it has sent. -/
theorem Open.processed_between : (s.node a).processed ≤ (s.node a).rounds.length ∧
    (s.node a).rounds.length ≤ x.rounds ∧ (∀ ch, (s.node a).sent ch ≤ (s.node a).processed) ∧
    ∀ ch, (s.node a).processed ≤ (s.node a).received x.rounds ch ∧
      (s.node a).rounds.length ≤ (s.node a).received x.rounds ch := by
  obtain ⟨hclosing, hreturned, -⟩ := ho.node a ha
  have hok := hc.node a ha
  unfold NodeOk at hok
  unfold FlowNode.processed FlowNode.sent FlowNode.received
  cases hpos : (s.node a).pos with
  | subscribe rest got =>
    rw [hpos] at hok
    have hle := hok.1.le
    refine ⟨le_refl _, hle, fun _ => le_refl _, fun ch => ?_⟩
    dsimp only
    split <;> omega
  | lock allok =>
    rw [hpos] at hok
    have hle := hok.1.le
    refine ⟨Nat.sub_le _ _, hle, fun _ => le_refl _, fun ch => ?_⟩
    dsimp only
    omega
  | process =>
    rw [hpos] at hok
    have hle := hok.1.le
    refine ⟨Nat.sub_le _ _, hle, fun _ => le_refl _, fun ch => ?_⟩
    dsimp only
    omega
  | addAllData ops output =>
    rw [hpos] at hok
    have hle := hok.1.le
    refine ⟨le_refl _, hle, fun ch => ?_, fun ch => ?_⟩
    · dsimp only
      split <;> omega
    · dsimp only
      omega
  | closing c => exact absurd hpos (hclosing c)
  | returned => exact absurd hpos hreturned

end Behind

section Begun

variable (hg : x.Sound) (hc : x.Counted s) (ho : x.Open s)

include ho

/-- The source sends what it has begun. -/
theorem Open.source_sent_le (ch : Nat) : s.source.sent x.rounds ch ≤ s.source.begun x.rounds := by
  cases hpos : s.source with
  | between k => exact le_refl _
  | adding k ops output =>
    simp only [SourceAt.sent, SourceAt.begun]
    split <;> omega
  | closing c => exact absurd hpos (ho.source c).1
  | returned => exact absurd hpos (ho.source ⟨none, []⟩).2

include hg hc

/-- No node is in a round that has not begun. -/
theorem Open.rounds_le {a : Nat} (ha : x.Busy a) : (s.node a).rounds.length ≤ s.source.begun x.rounds := by
  obtain ⟨rank, hrank⟩ := hg.forward
  have hall : ∀ r a, x.Busy a → rank a = r → (s.node a).rounds.length ≤ s.source.begun x.rounds := by
    intro r
    induction r using Nat.strong_induction_on with
    | _ r ih =>
      intro a ha hr
      obtain ⟨ch, chs, hch⟩ := List.exists_cons_of_ne_nil ha.2
      have hreads : x.Reads a ch := ⟨ha, by rw [hch]; simp⟩
      obtain ⟨p, hf⟩ := hg.fed a ch hreads
      have hcount := hc.queue p a ch hf hreads
      have hreceived := ((ho.processed_between hc ha).2.2.2 ch).2
      cases p with
      | graphInput =>
        have hsent := ho.source_sent_le ch
        simp only [FlowState.sent] at hcount
        omega
      | node b =>
        have hb := ih (rank b) (hr ▸ hrank b a ch hf hreads) b hf.1 rfl
        obtain ⟨hle, -, hsent, -⟩ := ho.processed_between hc hf.1
        have hsent' := hsent ch
        simp only [FlowState.sent] at hcount
        omega
  exact hall _ a ha rfl

/-- What is sent has begun. -/
theorem Open.sent_le {p : Producer} (hp : x.Has p) (ch : Nat) :
    s.sent x.rounds p ch ≤ s.source.begun x.rounds := by
  cases p with
  | graphInput => exact ho.source_sent_le ch
  | node a =>
    obtain ⟨hle, -, hsent, -⟩ := ho.processed_between hc hp
    exact (hsent ch).trans (hle.trans (ho.rounds_le hg hc hp))

omit hg in
/-- A node that leads to a graph output is through the rounds that have been read from all of them. -/
theorem Open.processed_of_reads {k : Nat} (hreads : ∀ ch ∈ x.outputs, (s.reads ch).length = k) {a : Nat}
    (ha : x.Leads a) : k ≤ (s.node a).processed := by
  induction ha with
  | output a ch hf hout =>
    have hcount := hc.output _ ch hf hout
    have hsent := (ho.processed_between hc hf.1).2.2.1 ch
    have hread := hreads ch hout
    simp only [FlowState.sent] at hcount
    omega
  | node a b ch hf hr _ ih =>
    have hcount := hc.queue _ b ch hf hr
    have hsent := (ho.processed_between hc hf.1).2.2.1 ch
    have hreceived := ((ho.processed_between hc hr.1).2.2.2 ch).1
    simp only [FlowState.sent] at hcount
    omega

/-- A channel has at most the datum of the round that began last. -/
theorem Paced.queue_le (h : x.Paced s) {p : Producer} {ch : Nat} (hf : x.Feeds p ch) :
    (s.chan ch).queue.length ≤ 1 := by
  have hsent := ho.sent_le hg hc hf.1 ch
  obtain hout | ⟨b, hr⟩ := hg.taken p ch hf
  · have hcount := hc.output p ch hf hout
    have hread := h.output ch hout
    omega
  · have hcount := hc.queue p b ch hf hr
    have hreceived := ((ho.processed_between hc hr.1).2.2.2 ch).1
    have hprocessed := h.node b hr.1
    omega

end Begun

section Held

variable (hc : x.Counted s) (hw : x.Owned s) {a : Nat} (ha : x.Busy a)

include hc hw ha

/-- The data that a node holds are its own, or it has taken them in a round that it has not processed yet. -/
theorem Owned.held_from {d : Nat} (hd : d ∈ (s.node a).held) : x.From s (.node a) d ∨
    ∃ p ch, x.Feeds p ch ∧ x.Reads a ch ∧ x.From s p d ∧
      ((s.node a).processed < x.rounds → (s.node a).processed < (s.node a).received x.rounds ch) := by
  have htaken : some d ∈ (s.node a).taken →
      (∀ ch, (∀ rest got, (s.node a).pos = .subscribe rest got → ch ∉ rest) →
        (s.node a).processed < x.rounds → (s.node a).processed < (s.node a).received x.rounds ch) →
      ∃ p ch, x.Feeds p ch ∧ x.Reads a ch ∧ x.From s p d ∧
        ((s.node a).processed < x.rounds → (s.node a).processed < (s.node a).received x.rounds ch) := by
    intro hd hahead
    obtain ⟨p, ch, hf, hr, hnot, hfrom⟩ := hw.taken a ha.1 d hd
    exact ⟨p, ch, hf, hr, hfrom, hahead ch hnot⟩
  have hok := hc.node a ha
  unfold NodeOk at hok
  unfold FlowNode.held at hd
  cases hpos : (s.node a).pos with
  | subscribe rest got =>
    rw [hpos] at hok hd
    refine Or.inr (htaken (by simpa [FlowNode.taken, hpos] using hd) fun ch hnot hlt => ?_)
    simp only [FlowNode.processed, hpos] at hlt
    simp only [FlowNode.processed, FlowNode.received, hpos, if_neg (hnot _ _ hpos)]
    omega
  | lock allok =>
    rw [hpos] at hok hd
    obtain ⟨hrun, hpositive, -⟩ := hok
    have hle := hrun.le
    refine Or.inr (htaken (by simpa [FlowNode.taken, hpos] using hd) fun ch _ hlt => ?_)
    simp only [FlowNode.processed, FlowNode.received, hpos]
    omega
  | process =>
    rw [hpos] at hok hd
    obtain ⟨hrun, hpositive⟩ := hok
    have hle := hrun.le
    refine Or.inr (htaken (by simpa [FlowNode.taken, hpos] using hd) fun ch _ hlt => ?_)
    simp only [FlowNode.processed, FlowNode.received, hpos]
    omega
  | addAllData ops output =>
    rw [hpos] at hd
    refine Or.inl ?_
    obtain hd | hd := List.mem_append.mp hd
    · split at hd
      next hsending =>
        rw [List.mem_singleton.mp hd]
        exact hw.adding a ha.1 ops output hpos hsending
      next => cases hd
    · obtain ⟨op, -, hop⟩ := List.mem_filterMap.mp hd
      cases op with
      | output id => exact hw.slot a ha.1 d (List.mem_of_getElem? hop)
      | clone => cases hop
      | send ch => cases hop
  | closing c =>
    rw [hpos] at hd
    cases hd
  | returned =>
    rw [hpos] at hd
    cases hd

end Held

section Process

variable (hg : x.Sound) (hc : x.Counted s) (ho : x.Open s) (hw : x.Owned s) (h : x.Paced s) {a : Nat}
  (ha : x.Busy a) (hpos : (s.node a).pos = .process)

include hg hc ho h ha hpos

/-- When a node processes a round, its own data of earlier rounds are all read. -/
theorem Paced.fed_empty {ch : Nat} (hf : x.Feeds (.node a) ch) : (s.chan ch).queue = [] ∧
    ∀ b, x.Reads b ch → (s.node b).received x.rounds ch ≤ (s.node b).processed ∧
      (s.node b).processed < x.rounds := by
  have hok := hc.node a ha
  simp only [NodeOk, hpos] at hok
  obtain ⟨hrun, hpositive⟩ := hok
  have hle := hrun.le
  have hbegun := ho.rounds_le hg hc ha
  have hsent : (s.node a).sent ch = (s.node a).rounds.length - 1 := by simp only [FlowNode.sent, hpos]
  refine ⟨List.length_eq_zero_iff.mp ?_, fun b hr => ?_⟩
  · obtain hout | ⟨b, hr⟩ := hg.taken _ ch hf
    · have hcount := hc.output _ ch hf hout
      have hread := h.output ch hout
      simp only [FlowState.sent] at hcount
      omega
    · have hcount := hc.queue _ b ch hf hr
      have hreceived := ((ho.processed_between hc hr.1).2.2.2 ch).1
      have hprocessed := h.node b hr.1
      simp only [FlowState.sent] at hcount
      omega
  · have hcount := hc.queue _ b ch hf hr
    have hreceived := ((ho.processed_between hc hr.1).2.2.2 ch).1
    have hprocessed := h.node b hr.1
    simp only [FlowState.sent] at hcount
    omega

include hw

/-- Then no datum on its way is one of its output slots. -/
theorem Paced.live_from {d : Nat} (hd : d ∈ x.live s a) : ∃ p, p ≠ .node a ∧ x.From s p d := by
  have hqueue : ∀ p ch, x.Feeds p ch → d ∈ (s.chan ch).queue → ∃ p, p ≠ .node a ∧ x.From s p d := by
    intro p ch hf hd
    refine ⟨p, fun he => ?_, hw.queue p ch hf d hd⟩
    rw [(h.fed_empty hg hc ho ha hpos (he ▸ hf)).1] at hd
    cases hd
  obtain hd | hd := List.mem_append.mp hd
  · obtain hd | hd := List.mem_append.mp hd
    · obtain ⟨ch, hch, hd⟩ := List.mem_flatMap.mp hd
      obtain hch | hout := List.mem_append.mp hch
      · obtain ⟨b, hb, hch⟩ := List.mem_flatMap.mp hch
        obtain ⟨p, hf⟩ := hg.fed b ch ⟨⟨List.mem_range.mp hb, List.ne_nil_of_mem hch⟩, hch⟩
        exact hqueue p ch hf hd
      · obtain ⟨p, hf⟩ := hg.made ch hout
        exact hqueue p ch hf hd
    · cases hsource : s.source with
      | adding k ops output =>
        simp only [SourceAt.held, hsource] at hd
        split at hd
        next hsending =>
          rw [List.mem_singleton.mp hd]
          exact ⟨.graphInput, by simp, hw.source k ops output hsource hsending⟩
        next => cases hd
      | between k => simp [SourceAt.held, hsource] at hd
      | closing c => simp [SourceAt.held, hsource] at hd
      | returned => simp [SourceAt.held, hsource] at hd
  · obtain ⟨b, hb, hd⟩ := List.mem_flatMap.mp hd
    obtain ⟨hb, hne⟩ := List.mem_filter.mp hb
    have hne' : Producer.node b ≠ .node a := fun he => absurd (Producer.node.inj he) (by simpa using hne)
    have hbusy : x.Busy b := by
      refine ⟨List.mem_range.mp hb, fun hnone => ?_⟩
      rw [(hc.idle b (List.mem_range.mp hb) hnone).held] at hd
      cases hd
    obtain hfrom | ⟨p, ch, hf, hr, hfrom, hahead⟩ := hw.held_from hc hbusy hd
    · exact ⟨.node b, hne', hfrom⟩
    · refine ⟨p, fun he => ?_, hfrom⟩
      obtain ⟨hreceived, hlt⟩ := (h.fed_empty hg hc ho ha hpos (he ▸ hf)).2 b hr
      exact absurd (hahead hlt) (Nat.not_lt.mpr hreceived)

/-- A task that leaves its inputs alone changes no datum on its way. -/
theorem Paced.spares (hkeeps : ∀ values j v, values[j]? = some v →
    (x.task a (s.node a).rounds.length values).inputs j = v) : x.Spares s (.node a) := by
  intro _ d hd
  obtain ⟨p, hne, hfrom⟩ := h.live_from hg hc ho hw ha hpos hd
  have hnot : d ∉ (s.node a).outputs := fun hmem => hne (hfrom.only a ha.1 hmem)
  have hptrs : ∀ d' ∈ (s.node a).inputs.filterMap id, d' < s.heap.length := by
    intro d' hd'
    obtain ⟨o, ho', he⟩ := List.mem_filterMap.mp hd'
    obtain ⟨q, ch, -, -, -, hfrom'⟩ := hw.taken a ha.1 d' (by
      rw [FlowNode.taken, hpos]
      rwa [show o = some d' from he] at ho')
    exact hfrom'.lt
  have hsame : store s.heap ((s.node a).inputs.filterMap id) (x.task a (s.node a).rounds.length
      (((s.node a).inputs.filterMap id).filterMap (s.heap[·]?))).inputs = s.heap := by
    refine store_same fun j d' hj => ?_
    have hlt := hptrs d' (List.mem_of_getElem? hj)
    have hfound := getElem?_found hptrs hj
    rw [List.getElem?_eq_getElem hlt] at hfound ⊢
    rw [hkeeps _ j _ hfound]
  unfold process
  dsimp only
  rw [hsame]
  split
  next => exact store_of_not_mem hnot
  next => exact List.getElem?_append_left hfrom.lt

end Process

end Flow

end Dni
