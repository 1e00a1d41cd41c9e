import Dni.GraphValues

namespace Dni

section Store

variable {V : Type} {values : Nat → V}

theorem length_store (heap : List V) (ptrs : List Nat) : (store heap ptrs values).length = heap.length := by
  unfold store
  induction ptrs.zipIdx generalizing heap with
  | nil => rfl
  | cons e es ih => rw [List.foldl_cons, ih, List.length_set]

/-- Every pointer of a list without duplicates gets its value. -/
theorem getElem_store {heap : List V} {ptrs : List Nat} (hnd : ptrs.Nodup) (hlt : ∀ d ∈ ptrs, d < heap.length)
    {j d : Nat} (hj : ptrs[j]? = some d) : (store heap ptrs values)[d]? = some (values j) := by
  have hframe : ∀ (ptrs : List Nat) (n : Nat) (heap : List V), d ∉ ptrs →
      ((ptrs.zipIdx n).foldl (fun heap e => heap.set e.1 (values e.2)) heap)[d]? = heap[d]? := by
    intro ptrs
    induction ptrs with
    | nil => exact fun _ _ _ => rfl
    | cons p ptrs ih =>
      intro n heap hd
      rw [List.mem_cons, not_or] at hd
      rw [List.zipIdx_cons, List.foldl_cons, ih _ _ hd.2, List.getElem?_set_ne (Ne.symm hd.1)]
  have hloop : ∀ (ptrs : List Nat) (n j : Nat) (heap : List V), ptrs.Nodup → (∀ d ∈ ptrs, d < heap.length) →
      ptrs[j]? = some d →
      ((ptrs.zipIdx n).foldl (fun heap e => heap.set e.1 (values e.2)) heap)[d]? = some (values (n + j)) := by
    intro ptrs
    induction ptrs with
    | nil => exact fun _ _ _ _ _ hj => by cases hj
    | cons p ptrs ih =>
      intro n j heap hnd hlt hj
      obtain ⟨hp, hnd⟩ := List.nodup_cons.mp hnd
      rw [List.zipIdx_cons, List.foldl_cons]
      cases j with
      | zero =>
        obtain rfl : p = d := Option.some.inj hj
        rw [hframe _ _ _ hp, List.getElem?_set_self (hlt p List.mem_cons_self), Nat.add_zero]
      | succ j =>
        rw [List.getElem?_cons_succ] at hj
        rw [ih (n + 1) j _ hnd (fun d hd => by
          rw [List.length_set]
          exact hlt d (List.mem_cons_of_mem _ hd)) hj, Nat.add_right_comm, Nat.add_assoc]
  have hall := hloop ptrs 0 j heap hnd hlt hj
  rwa [Nat.zero_add] at hall

/-- What Process finds in its inputs. -/
theorem inputs_values {heap : List V} {value : Nat → V} {chs : List Nat} {ptrs : List (Option Nat)}
    (hlen : ptrs.length = chs.length)
    (h : ∀ (j ch : Nat), chs[j]? = some ch → ∃ d, ptrs[j]? = some (some d) ∧ heap[d]? = some (value ch)) :
    (ptrs.filterMap id).filterMap (heap[·]?) = chs.map value := by
  induction chs generalizing ptrs with
  | nil =>
    rw [List.length_eq_zero_iff.mp hlen]
    rfl
  | cons ch chs ih =>
    cases ptrs with
    | nil => cases hlen
    | cons p ptrs =>
      obtain ⟨d, hd, hvalue⟩ := h 0 ch rfl
      cases Option.some.inj hd
      have hrest := ih (Nat.succ.inj hlen) fun j ch' hj => h (j + 1) ch' hj
      simp only [List.filterMap_cons_some (show id (some d) = some d from rfl),
        List.filterMap_cons_some (show (heap[·]?) d = some (value ch) from hvalue), hrest, List.map_cons]

end Store

namespace Flow

variable {V : Type} {x : Flow V} {out : Nat → Producer → Nat → V} {value : Nat → Nat → V} {s t u : FlowState V}

/-- What a step of AddData does with the data. -/
theorem Adds.sends {nil : V} {take : Nat → FlowState V × Nat} {output output' k : Nat} {p : Producer} {op : SendOp}
    {ops : List SendOp} (h : Adds out value k p s.heap (op :: ops) output)
    (hsend : s.send nil take output op = some (u, output'))
    (htake : ∀ id, op = .output id → (take id).1.chan = s.chan ∧ s.heap.length ≤ (take id).1.heap.length ∧
      (∀ (d : Nat) (v : V), s.heap[d]? = some v → (take id).1.heap[d]? = some v) ∧
      (take id).1.heap[(take id).2]? = some (out k p id)) :
    Adds out value k p u.heap ops output' ∧ s.heap.length ≤ u.heap.length ∧
      (∀ (d : Nat) (v : V), s.heap[d]? = some v → u.heap[d]? = some v) ∧
      ∀ ch, op ≠ .send ch ∧ (u.chan ch).queue = (s.chan ch).queue ∨
        op = .send ch ∧ (u.chan ch).queue = (s.chan ch).queue ++ [output] ∧ u.heap[output]? = some (value k ch) := by
  obtain ⟨id, hcarries, hvalue⟩ := h.carries
  cases op with
  | output id' =>
    obtain ⟨hchan, hlen, hheap, hnew⟩ := htake id' rfl
    rw [show take id' = (u, output') from Option.some.inj hsend] at hchan hlen hheap hnew
    refine ⟨⟨some id', hcarries, fun _ o ho => ?_⟩, hlen, hheap, fun ch => Or.inl ⟨by simp, by rw [hchan]⟩⟩
    cases ho
    exact hnew
  | clone =>
    cases hsend
    refine ⟨⟨id, hcarries, fun _ o ho => ?_⟩, by simp, fun d v hd => ?_, fun ch => Or.inl ⟨by simp, rfl⟩⟩
    · rw [List.getElem?_concat_length, hvalue rfl o ho]
      rfl
    · obtain ⟨hlt, -⟩ := List.getElem?_eq_some_iff.mp hd
      rwa [List.getElem?_append_left hlt]
  | send ch =>
    simp only [FlowState.send] at hsend
    split at hsend
    next => cases hsend
    next =>
      cases hsend
      obtain ⟨⟨o, ho, hch⟩, hcarries⟩ := hcarries
      refine ⟨⟨id, hcarries, fun _ => hvalue rfl⟩, Nat.le_refl _, fun d v hd => hd, fun ch' => ?_⟩
      by_cases hne : ch' = ch
      · subst hne
        refine Or.inr ⟨rfl, by simp [FlowState.setChan], ?_⟩
        rw [hch]
        exact hvalue rfl o ho
      · exact Or.inl ⟨fun he => hne (SendOp.send.inj he).symm, by simp [FlowState.setChan, hne]⟩

variable (x) in
/-- No channel is closed or going to be: only a node without any returns. -/
structure Open (s : FlowState V) : Prop where
  source : ∀ c, s.source ≠ .closing c ∧ s.source ≠ .returned
  node : ∀ a, x.Busy a → (∀ c, (s.node a).pos ≠ .closing c) ∧ (s.node a).pos ≠ .returned ∧
    ∀ rest got, (s.node a).pos = .subscribe rest got → none ∉ got

/-- What Process puts out is in the output slots of its node, which are its own. -/
theorem process_outputs {a : Nat} (hslots : (s.node a).outputs.length = x.slots a) (hnd : (s.node a).outputs.Nodup)
    (hlt : ∀ d ∈ (s.node a).outputs, d < s.heap.length) :
    ∃ outputs, (x.process s a).node = Function.update s.node a
        { s.node a with pos := .addAllData (x.sends (.node a)) 0, outputs := outputs } ∧
      outputs.length = x.slots a ∧ outputs.Nodup ∧ (∀ d ∈ outputs, d < (x.process s a).heap.length) ∧
      s.heap.length ≤ (x.process s a).heap.length ∧
      ∀ (o d : Nat), outputs[o]? = some d → (x.process s a).heap[d]? = some (((x.task a (s.node a).rounds.length
        (((s.node a).inputs.filterMap id).filterMap (s.heap[·]?))).outputs.getD fun _ => x.nil) o) := by
  unfold process
  dsimp only
  split
  next outs houts =>
    refine ⟨(s.node a).outputs, rfl, hslots, hnd, fun d hd => ?_, ?_, fun o d hd => ?_⟩
    · show d < (store _ _ _).length
      rw [length_store, length_store]
      exact hlt d hd
    · show _ ≤ (store _ _ _).length
      rw [length_store, length_store]
    · rw [houts]
      refine getElem_store hnd (fun d hd => ?_) hd
      rw [length_store]
      exact hlt d hd
  next hnone =>
    refine ⟨_, rfl, List.length_range', List.nodup_range', fun d hd => ?_, ?_, fun o d hd => ?_⟩
    · show d < (store _ _ _ ++ _).length
      rw [List.length_append, List.length_replicate]
      exact (List.mem_range'_1.mp hd).2
    · show _ ≤ (store _ _ _ ++ _).length
      rw [List.length_append, length_store]
      exact Nat.le_add_right _ _
    · rw [hnone]
      obtain ⟨ho, hd⟩ := List.getElem?_eq_some_iff.mp hd
      rw [List.length_range'] at ho
      rw [List.getElem_range', Nat.one_mul] at hd
      show (store _ _ _ ++ _)[d]? = _
      rw [← hd, List.getElem?_append_right (Nat.le_add_right _ _), Nat.add_sub_cancel_left,
        List.getElem?_replicate, if_pos ho]
      rfl

section Step

variable (hg : x.Sound) (hv : x.Evaluates out value) (hc : x.Counted s) (h : x.Valued out value s) {a : Nat}
  (ha : x.Busy a)

include hg hc h ha

omit ha in
/-- A move of a node that leaves all data as they are, and of the channels takes at most what it reads. -/
theorem Valued.node_stays {m : FlowNode} (hnode : t.node = Function.update s.node a m) (hsource : t.source = s.source)
    (hreads : t.reads = s.reads) (hheap : t.heap = s.heap) (hm : x.NodeValued out value a m s.heap)
    (hchan : ∀ ch, ¬ x.Reads a ch → (t.chan ch).queue = (s.chan ch).queue)
    (hread : ∀ ch, x.Reads a ch → ∀ (i d : Nat), (t.chan ch).queue[i]? = some d →
      s.heap[d]? = some (value (m.received x.rounds ch + i) ch)) : x.Valued out value t := by
  refine h.node_moves hg hc hnode hsource hreads (fun d _ v hd => by rwa [hheap]) (by rw [hheap]) (by rwa [hheap]) ?_ ?_ ?_
  · exact fun ch hf => Or.inl (hchan ch (hg.not_reads hf))
  · rw [hheap]
    exact hread
  · exact fun ch _ hr => hchan ch hr

theorem Valued.subscribed {got : List (Option Nat)} (ho : x.Open s) (hpos : (s.node a).pos = .subscribe [] got)
    (ht : x.stepNode s a = some t) : x.Valued out value t := by
  have hok := hc.node a ha
  simp only [NodeOk, hpos, List.append_nil] at hok
  obtain ⟨hrun, pre, hpre, hgot⟩ := hok
  rw [← hpre] at hgot
  have hold := h.node a ha
  have hqueue : ∀ ch, x.Reads a ch → ∀ (i d : Nat), (s.chan ch).queue[i]? = some d →
      s.heap[d]? = some (value (min x.rounds ((s.node a).rounds.length + 1) + i) ch) := by
    intro ch hr i d hi
    have hvalue := h.queue a ch hr i d hi
    simpa [FlowNode.received, hpos] using hvalue
  simp only [stepNode, hpos] at ht
  split at ht
  next hclosed =>
    rw [Option.some.injEq] at ht
    subst ht
    refine h.node_stays hg hc rfl rfl rfl rfl ?_ (fun _ _ => rfl) ?_
    · exact ⟨hold.slots, hold.nodup, hold.lt, by simp, by simp, by simp⟩
    · intro ch hr i d hi
      simpa [FlowNode.received] using hqueue ch hr i d hi
  next =>
    rw [Option.some.injEq] at ht
    subst ht
    refine h.node_stays hg hc rfl rfl rfl rfl ?_ (fun _ _ => rfl) ?_
    · refine ⟨hold.slots, hold.nodup, hold.lt, by simp, fun _ => ?_, by simp⟩
      have hlen : got.length = (x.inputs a).length := by simpa using congrArg List.length hgot
      refine ⟨hlen, fun j ch hj => ?_⟩
      have hlt : j < got.length := by
        rw [hlen]
        exact (List.getElem?_eq_some_iff.mp hj).1
      cases hd : got[j] with
      | none => exact absurd (hd ▸ List.getElem_mem hlt) ((ho.node a ha).2.2 _ _ hpos)
      | some d =>
        have hjd : got[j]? = some (some d) := by rw [List.getElem?_eq_getElem hlt, hd]
        refine ⟨d, hjd, ?_⟩
        simpa using hold.got _ _ hpos j d ch hjd hj
    · intro ch hr i d hi
      simpa [FlowNode.received] using hqueue ch hr i d hi

theorem Valued.receives {ch : Nat} {rest : List Nat} {got : List (Option Nat)}
    (hpos : (s.node a).pos = .subscribe (ch :: rest) got) (ht : x.stepNode s a = some t) : x.Valued out value t := by
  have hok := hc.node a ha
  simp only [NodeOk, hpos] at hok
  obtain ⟨hrun, pre, hpre, hgot⟩ := hok
  have hreads : x.Reads a ch := ⟨ha, by rw [hpre]; simp⟩
  have hnd : ch ∉ rest := by
    have hnodup := hg.nodup a ha.1
    rw [hpre] at hnodup
    exact (List.nodup_cons.mp (List.nodup_append.mp hnodup).2.1).1
  have hold := h.node a ha
  have hlen : got.length = pre.length := by simpa using congrArg List.length hgot
  have hrec : ∀ ch', ch' ≠ ch → ∀ d, ({ s.node a with pos := .subscribe rest (got ++ [d]) } : FlowNode).received x.rounds ch' =
      (s.node a).received x.rounds ch' := fun ch' hne d => by simp [FlowNode.received, hpos, hne]
  simp only [stepNode, hpos] at ht
  split at ht
  next data queue hqueue =>
    rw [Option.some.injEq] at ht
    subst ht
    obtain ⟨p, hf⟩ := hg.fed a ch hreads
    have hle := (hc.sent_le hf.1 ch).1
    have hcount := hc.queue p a ch hf hreads
    have hold' : (s.node a).received x.rounds ch = min x.rounds (s.node a).rounds.length := by
      simp [FlowNode.received, hpos]
    rw [hqueue, List.length_cons, hold'] at hcount
    have hnow : (s.node a).received x.rounds ch = (s.node a).rounds.length := by omega
    have hself : ∀ (i d : Nat), (data :: queue)[i]? = some d →
        s.heap[d]? = some (value ((s.node a).rounds.length + i) ch) := by
      rw [← hqueue, ← hnow]
      exact h.queue a ch hreads
    refine h.node_stays hg hc (m := { s.node a with pos := .subscribe rest (got ++ [some data]) }) rfl rfl rfl rfl
      ?_ ?_ ?_
    · refine ⟨hold.slots, hold.nodup, hold.lt, ?_, by simp, by simp⟩
      intro rest' got' hpos' j d ch' hj hch'
      cases hpos'
      obtain hlt | hge := Nat.lt_or_ge j got.length
      · rw [List.getElem?_append_left hlt] at hj
        exact hold.got _ _ hpos j d ch' hj hch'
      · obtain ⟨hlast, -⟩ := List.getElem?_eq_some_iff.mp hj
        rw [List.length_append, List.length_singleton] at hlast
        have hend : j = got.length := by omega
        subst hend
        rw [List.getElem?_concat_length] at hj
        cases hj
        rw [hpre, hlen, List.getElem?_append_right (Nat.le_refl _), Nat.sub_self] at hch'
        cases hch'
        exact hself 0 data rfl
    · intro ch' hr
      have hne : ch' ≠ ch := fun he => hr (he ▸ hreads)
      simp [FlowState.setNode, FlowState.setChan, hne]
    · intro ch' hr i d hi
      by_cases hne : ch' = ch
      · subst hne
        simp only [FlowState.setNode, FlowState.setChan, Function.update_self] at hi
        have hnew : ({ s.node a with pos := .subscribe rest (got ++ [some data]) } : FlowNode).received x.rounds ch' =
            (s.node a).rounds.length + 1 := by
          simp only [FlowNode.received, hnd, ↓reduceIte]
          omega
        rw [hnew, Nat.add_assoc, Nat.add_comm 1 i]
        exact hself (i + 1) d hi
      · rw [hrec ch' hne]
        simp only [FlowState.setNode, FlowState.setChan, Function.update_of_ne hne] at hi
        exact h.queue a ch' hr i d hi
  next hqueue =>
    split at ht
    next =>
      rw [Option.some.injEq] at ht
      subst ht
      refine h.node_stays hg hc (m := { s.node a with pos := .subscribe rest (got ++ [none]) }) rfl rfl rfl rfl
        ?_ (fun _ _ => rfl) ?_
      · refine ⟨hold.slots, hold.nodup, hold.lt, ?_, by simp, by simp⟩
        intro rest' got' hpos' j d ch' hj hch'
        cases hpos'
        obtain hlt | hge := Nat.lt_or_ge j got.length
        · rw [List.getElem?_append_left hlt] at hj
          exact hold.got _ _ hpos j d ch' hj hch'
        · rw [List.getElem?_append_right hge, List.getElem?_singleton] at hj
          split at hj <;> cases hj
      · intro ch' hr i d hi
        by_cases hne : ch' = ch
        · subst hne
          have hnone : (s.chan ch').queue[i]? = some d := hi
          rw [hqueue] at hnone
          cases hnone
        · rw [hrec ch' hne]
          exact h.queue a ch' hr i d hi
    next => cases ht

theorem Valued.locks {allok : Bool} (hpos : (s.node a).pos = .lock allok) (ht : x.stepNode s a = some t) :
    x.Valued out value t := by
  have hok := hc.node a ha
  simp only [NodeOk, hpos] at hok
  obtain ⟨hrun, -, hallok⟩ := hok
  have hold := h.node a ha
  simp only [stepNode, hpos, hallok, if_neg (Bool.eq_false_iff.mp hrun.unlocked), Bool.not_true,
    Bool.false_eq_true, ↓reduceIte, Option.some.injEq] at ht
  subst ht
  refine h.node_stays hg hc rfl rfl rfl rfl ?_ (fun _ _ => rfl) ?_
  · exact ⟨hold.slots, hold.nodup, hold.lt, by simp, fun _ => hold.inputs (Or.inr ⟨allok, hpos⟩), by simp⟩
  · intro ch hr i d hi
    have hvalue := h.queue a ch hr i d hi
    simpa [FlowNode.received, hpos] using hvalue

theorem Valued.added {output : Nat} (hpos : (s.node a).pos = .addAllData [] output) (ht : x.stepNode s a = some t) :
    x.Valued out value t := by
  have hold := h.node a ha
  simp only [stepNode, hpos, Option.some.injEq] at ht
  subst ht
  refine h.node_stays hg hc (m := { s.node a with pos := .subscribe (x.inputs a) [] }) rfl rfl rfl rfl ?_ (fun _ _ => rfl) ?_
  · refine ⟨hold.slots, hold.nodup, hold.lt, ?_, by simp, by simp⟩
    intro rest got hpos' j d ch hj
    cases hpos'
    cases hj
  · intro ch hr i d hi
    have hvalue := h.queue a ch hr i d hi
    simpa [FlowNode.received, hpos, hr.2] using hvalue

theorem Valued.adds {op : SendOp} {ops : List SendOp} {output : Nat}
    (hpos : (s.node a).pos = .addAllData (op :: ops) output) (ht : x.stepNode s a = some t) : x.Valued out value t := by
  have hok := hc.node a ha
  simp only [NodeOk, hpos] at hok
  obtain ⟨-, -, pre, hpre⟩ := hok
  have hold := h.node a ha
  obtain ⟨hadds, hpending⟩ := hold.adds _ _ hpos
  simp only [stepNode, hpos, Option.map_eq_some_iff] at ht
  obtain ⟨⟨u, output'⟩, hsend, ht⟩ := ht
  subst ht
  have hands := FlowState.hands_of_send hsend fun _ => ⟨rfl, rfl, rfl, rfl⟩
  obtain ⟨hadds', hlen, hheap, hchan⟩ := hadds.sends hsend fun id hid => by
    obtain ⟨d, hd, hvalue⟩ := hpending id (hid ▸ List.mem_cons_self)
    exact ⟨rfl, Nat.le_refl _, fun _ _ hv => hv, by simpa [hd] using hvalue⟩
  have hsends : ∀ ch, op = .send ch → x.Feeds (.node a) ch := fun ch he => ⟨ha, by rw [hpre, he]; simp⟩
  refine h.node_moves hg hc (a := a) (m := { s.node a with pos := .addAllData ops output' }) ?_ hands.source hands.reads
    (fun d _ => hheap d) hlen ?_ ?_ ?_ ?_
  · show Function.update u.node a _ = _
    rw [hands.node]
  · refine ⟨hold.slots, hold.nodup, fun d hd => Nat.lt_of_lt_of_le (hold.lt d hd) hlen, by simp, by simp, ?_⟩
    intro ops' output'' hpos'
    cases hpos'
    refine ⟨hadds', fun id hid => ?_⟩
    obtain ⟨d, hd, hvalue⟩ := hpending id (List.mem_cons_of_mem _ hid)
    exact ⟨d, hd, hheap d _ hvalue⟩
  · intro ch hf
    obtain ⟨-, hsame⟩ | ⟨he, hqueue, hvalue⟩ := hchan ch
    · exact Or.inl hsame
    · refine Or.inr ⟨output, hqueue, ?_⟩
      have hsent : (s.node a).sent ch = (s.node a).rounds.length - 1 := by
        simp [FlowNode.sent, hpos, he]
      rw [hsent]
      exact hvalue
  · intro ch hr i d hi
    obtain ⟨-, hsame⟩ | ⟨he, -, -⟩ := hchan ch
    · have hi' : (s.chan ch).queue[i]? = some d := hsame ▸ hi
      have hrec : ({ s.node a with pos := .addAllData ops output' } : FlowNode).received x.rounds ch =
          (s.node a).received x.rounds ch := by simp [FlowNode.received, hpos]
      rw [hrec]
      exact hheap d _ (h.queue a ch hr i d hi')
    · exact absurd hr (hg.not_reads (hsends ch he))
  · intro ch hf _
    obtain ⟨-, hsame⟩ | ⟨he, -, -⟩ := hchan ch
    · exact hsame
    · exact absurd (hsends ch he) hf

include hv

theorem Valued.processes (hpos : (s.node a).pos = .process) (ht : x.stepNode s a = some t)
    (hspares : x.Spares s (.node a)) : x.Valued out value t := by
  have hok := hc.node a ha
  simp only [NodeOk, hpos] at hok
  obtain ⟨hrun, hpositive⟩ := hok
  have hold := h.node a ha
  obtain ⟨hlen, hinputs⟩ := hold.inputs (Or.inl hpos)
  simp only [stepNode, hpos, Option.some.injEq] at ht
  subst ht
  replace hspares := hspares (by rw [hpos]; rfl)
  obtain ⟨outputs, hnode, hslots, hnd, hlt, hgrows, hvalue⟩ :=
    process_outputs (x := x) hold.slots hold.nodup hold.lt
  obtain ⟨-, -, hsource, hreads, hchan⟩ := process_frame (x := x) s a
  have hround : (s.node a).rounds.length - 1 + 1 = (s.node a).rounds.length := Nat.sub_add_cancel hpositive
  have hout : ((x.task a (s.node a).rounds.length (((s.node a).inputs.filterMap id).filterMap
      (s.heap[·]?))).outputs.getD fun _ => x.nil) = out ((s.node a).rounds.length - 1) (.node a) := by
    rw [hv.node _ a ha.1, hround]
    exact congrArg (fun l => ((x.task a (s.node a).rounds.length l).outputs.getD fun _ => x.nil))
      (inputs_values hlen hinputs)
  refine h.node_moves hg hc (a := a)
    (m := { s.node a with pos := .addAllData (x.sends (.node a)) 0, outputs := outputs }) hnode hsource hreads
    (fun d hd v hs => (hspares d hd).trans hs) hgrows ?_ ?_ ?_ ?_
  · refine ⟨hslots, hnd, hlt, by simp, by simp, ?_⟩
    intro ops output hpos'
    cases hpos'
    refine ⟨⟨none, hv.carries _ _ ha, fun _ o ho => by cases ho⟩, fun id hid => ?_⟩
    have hid' : id < outputs.length := hslots ▸ hg.slots a ha.1 id hid
    refine ⟨outputs[id], List.getElem?_eq_getElem hid', ?_⟩
    rw [hvalue id _ (List.getElem?_eq_getElem hid'), hout]
  · exact fun ch _ => Or.inl (by rw [hchan])
  · intro ch hr i d hi
    rw [hchan] at hi
    have hold := (hspares d (live_of_queue (Or.inl ⟨a, hr⟩) (List.mem_of_getElem? hi))).trans (h.queue a ch hr i d hi)
    simpa [FlowNode.received, hpos] using hold
  · exact fun ch _ _ => by rw [hchan]

theorem Valued.step_node (ho : x.Open s) (ht : x.stepNode s a = some t) (hspares : x.Spares s (.node a)) :
    x.Valued out value t := by
  cases hpos : (s.node a).pos with
  | subscribe rest got =>
    cases rest with
    | nil => exact h.subscribed hg hc ha ho hpos ht
    | cons ch rest => exact h.receives hg hc ha hpos ht
  | lock allok => exact h.locks hg hc ha hpos ht
  | process => exact h.processes hg hv hc ha hpos ht hspares
  | addAllData ops output =>
    cases ops with
    | nil => exact h.added hg hc ha hpos ht
    | cons op ops => exact h.adds hg hc ha hpos ht
  | closing c => exact absurd hpos ((ho.node a ha).1 c)
  | returned => exact absurd hpos (ho.node a ha).2.1

end Step

theorem Valued.step_idle (hg : x.Sound) (hc : x.Counted s) (h : x.Valued out value s) {a : Nat} (ha : a < x.size)
    (hnone : x.inputs a = []) (ht : x.stepNode s a = some t) : x.Valued out value t := by
  obtain ⟨m, rfl, -⟩ := idle_steps hg ha hnone (hc.idle a ha hnone) ht
  have hrest : ∀ b, x.Busy b → (s.setNode a m).node b = s.node b := fun b hb =>
    Function.update_of_ne (ne_of_busy hnone hb) _ _
  refine ⟨fun b hb => ?_, h.source, fun b ch hr => ?_, h.output, h.reads⟩
  · rw [hrest b hb]
    exact h.node b hb
  · rw [hrest b hr.1]
    exact h.queue b ch hr

section SourceStep

variable (hg : x.Sound) (hv : x.Evaluates out value) (hc : x.Counted s) (h : x.Valued out value s)

include hv hc h

theorem Valued.step_source (ho : x.Open s) (hstops : x.stops = false) (ht : x.stepSource s = some t) :
    x.Valued out value t := by
  cases hpos : s.source with
  | between k =>
    simp only [stepSource, hpos, hstops, Bool.false_eq_true, ↓reduceIte] at ht
    split at ht
    next =>
      rw [Option.some.injEq] at ht
      subst ht
      refine h.source_moves hc rfl rfl (fun _ _ hd => hd) (Nat.le_refl _) ?_ (fun _ _ => Or.inl rfl) fun _ _ => rfl
      intro k' ops output hpos'
      cases hpos'
      exact ⟨none, hv.carries _ _ trivial, fun _ o ho => by cases ho⟩
    next => cases ht
  | adding k ops output =>
    have hadds := h.source k ops output hpos
    cases ops with
    | nil =>
      simp only [stepSource, hpos, Option.some.injEq] at ht
      subst ht
      exact h.source_moves hc rfl rfl (fun _ _ hd => hd) (Nat.le_refl _) (by simp) (fun _ _ => Or.inl rfl) fun _ _ => rfl
    | cons op ops =>
      have hok := hc.source
      simp only [SourceOk, hpos] at hok
      obtain ⟨-, pre, hpre⟩ := hok
      simp only [stepSource, hpos, Option.map_eq_some_iff] at ht
      obtain ⟨⟨u, output'⟩, hsend, ht⟩ := ht
      subst ht
      have hands := FlowState.hands_of_send hsend fun _ => ⟨rfl, hpos.symm, rfl, rfl⟩
      obtain ⟨hadds', hlen, hheap, hchan⟩ := hadds.sends hsend fun id _ => by
        refine ⟨rfl, by simp, fun d v hd => ?_, ?_⟩
        · obtain ⟨hlt, -⟩ := List.getElem?_eq_some_iff.mp hd
          rwa [List.getElem?_append_left hlt]
        · rw [hv.given]
          exact List.getElem?_concat_length
      refine h.source_moves hc hands.node hands.reads hheap hlen ?_ ?_ ?_
      · intro k' ops' output'' hpos'
        cases hpos'
        exact hadds'
      · intro ch hf
        obtain ⟨-, hsame⟩ | ⟨he, hqueue, hvalue⟩ := hchan ch
        · exact Or.inl hsame
        · refine Or.inr ⟨output, hqueue, ?_⟩
          have hsent : s.source.sent x.rounds ch = k := by simp [SourceAt.sent, hpos, he]
          rw [hsent]
          exact hvalue
      · intro ch hf
        obtain ⟨-, hsame⟩ | ⟨he, -, -⟩ := hchan ch
        · exact hsame
        · exact absurd ⟨trivial, by rw [hpre, he]; simp⟩ hf
  | closing c => exact absurd hpos (ho.source c).1
  | returned => exact absurd hpos (ho.source ⟨none, []⟩).2

omit hv hc in
theorem Valued.step_read (hg : x.Sound) {ch : Nat} (ht : x.step s (.read ch) = some t) : x.Valued out value t := by
  simp only [step] at ht
  split at ht
  next hout =>
    split at ht
    next data queue hqueue =>
      rw [Option.some.injEq] at ht
      subst ht
      have hold : ∀ (i d : Nat), (data :: queue)[i]? = some d →
          s.heap[d]? = some (value ((s.reads ch).length + i) ch) := hqueue ▸ h.output ch hout
      refine ⟨h.node, h.source, fun b ch' hr i d hi => ?_, fun ch' hout' i d hi => ?_, fun ch' hout' => ?_⟩
      · have hne : ch' ≠ ch := fun he => hg.apart b ch' hr (he ▸ hout)
        simp only [FlowState.setChan, Function.update_of_ne hne] at hi
        exact h.queue b ch' hr i d hi
      · by_cases hne : ch' = ch
        · subst hne
          simp only [FlowState.setChan, Function.update_self] at hi
          have hnext := hold (i + 1) d hi
          simpa [FlowState.setChan, Nat.add_assoc, Nat.add_comm 1 i] using hnext
        · simp only [FlowState.setChan, Function.update_of_ne hne] at hi
          simpa [FlowState.setChan, hne] using h.output ch' hout' i d hi
      · by_cases hne : ch' = ch
        · subst hne
          have hdatum := hold 0 data rfl
          have hread := h.reads ch' hout'
          simp only [Function.update_self, List.length_append, List.length_singleton, List.range_succ,
            List.map_append, ← hread]
          simp [hdatum]
        · simpa [hne] using h.reads ch' hout'
    next => cases ht
  next => cases ht

end SourceStep

section OpenStep

variable (hg : x.Sound) (hc : x.Counted s) (ho : x.Open s)

include hc ho

theorem Open.keeps {e : FlowEvent} (he : ∀ a, e = .node a → a < x.size) : s.Keeps e := by
  intro ch hd
  cases e with
  | source =>
    simp only [FlowState.draining] at hd
    split at hd
    next c hpos => exact absurd hpos (ho.source c).1
    next => cases hd
  | node a =>
    simp only [FlowState.draining] at hd
    split at hd
    next c hpos =>
      by_cases hnone : x.inputs a = []
      · have hidle := hc.idle a (he a rfl) hnone
        simp only [FlowNode.Idle, hpos] at hidle
        rw [hidle.1] at hd
        cases hd
      · exact absurd hpos ((ho.node a ⟨he a rfl, hnone⟩).1 c)
    next => cases hd
  | read ch' => cases hd

include hg

theorem Open.not_closed {a ch : Nat} (hr : x.Reads a ch) : (s.chan ch).closed = false := by
  obtain ⟨p, hf⟩ := hg.fed a ch hr
  refine Bool.eq_false_iff.mpr fun hclosed => ?_
  have hend := (hc.closed p ch hf).mp hclosed
  cases p with
  | graphInput =>
    simp only [FlowState.Closed] at hend
    cases hpos : s.source with
    | closing c => exact (ho.source c).1 hpos
    | returned => exact (ho.source ⟨none, []⟩).2 hpos
    | between k => simp [hpos, SourceAt.Closed] at hend
    | adding k ops output => simp [hpos, SourceAt.Closed] at hend
  | node b =>
    obtain ⟨hclosing, hreturned, -⟩ := ho.node b hf.1
    unfold FlowState.Closed FlowNode.Closed at hend
    cases hpos : (s.node b).pos with
    | closing c => exact hclosing c hpos
    | returned => exact hreturned hpos
    | subscribe rest got => simp only [hpos] at hend
    | lock allok => simp only [hpos] at hend
    | process => simp only [hpos] at hend
    | addAllData ops output => simp only [hpos] at hend

theorem Open.step_node {a : Nat} (ha : x.Busy a) (ht : x.stepNode s a = some t) : x.Open t := by
  -- the other nodes and the source stay where they are
  have hmove : ∀ m, t.source = s.source → t.node = Function.update s.node a m → (∀ c, m.pos ≠ .closing c) →
      m.pos ≠ .returned → (∀ rest got, m.pos = .subscribe rest got → none ∉ got) → x.Open t := by
    intro m hsource hnode hclosing hreturned hgot
    refine ⟨hsource ▸ ho.source, fun b hb => ?_⟩
    by_cases hba : b = a
    · rw [hba, hnode, Function.update_self]
      exact ⟨hclosing, hreturned, hgot⟩
    · rw [hnode, Function.update_of_ne hba]
      exact ho.node b hb
  have hok := hc.node a ha
  unfold NodeOk at hok
  obtain ⟨hclosing, hreturned, hold⟩ := ho.node a ha
  cases hpos : (s.node a).pos with
  | subscribe rest got =>
    rw [hpos] at hok
    obtain ⟨hrun, pre, hpre, hgot⟩ := hok
    cases rest with
    | nil =>
      have hlen : (x.inputs a).length ≠ 0 := fun h0 => ha.2 (List.length_eq_zero_iff.mp h0)
      have hall : got.map Option.isSome = List.replicate (x.inputs a).length true := by
        rw [hpre, List.append_nil, List.eq_replicate_iff]
        refine ⟨by simpa using congrArg List.length hgot, fun b hb => ?_⟩
        obtain ⟨d, hd, rfl⟩ := List.mem_map.mp hb
        cases d with
        | none => exact absurd hd (hold _ _ hpos)
        | some d => rfl
      simp only [stepNode, hpos, hall, subscribe_full hlen, Bool.false_eq_true, ↓reduceIte, Option.some.injEq] at ht
      subst ht
      exact hmove _ rfl rfl (by simp) (by simp) (by simp)
    | cons ch rest =>
      have hreads : x.Reads a ch := ⟨ha, by rw [hpre]; simp⟩
      simp only [stepNode, hpos, ho.not_closed hg hc hreads, Bool.false_eq_true, ↓reduceIte] at ht
      split at ht
      next data queue hqueue =>
        rw [Option.some.injEq] at ht
        subst ht
        refine hmove { s.node a with pos := .subscribe rest (got ++ [some data]) } rfl rfl (by simp) (by simp) ?_
        intro rest' got' hpos'
        cases hpos'
        simpa using hold _ _ hpos
      next => cases ht
  | lock allok =>
    simp only [stepNode, hpos] at ht
    split at ht
    next => cases ht
    next =>
      split at ht <;> rw [Option.some.injEq] at ht <;> subst ht <;> exact hmove _ rfl rfl (by simp) (by simp) (by simp)
  | process =>
    simp only [stepNode, hpos, Option.some.injEq] at ht
    subst ht
    obtain ⟨outputs, hnode, hsource, -, -⟩ := process_frame (x := x) s a
    exact hmove _ hsource hnode (by simp) (by simp) (by simp)
  | addAllData ops output =>
    cases ops with
    | nil =>
      simp only [stepNode, hpos, Option.some.injEq] at ht
      subst ht
      exact hmove _ rfl rfl (by simp) (by simp) (by simp)
    | cons op ops =>
      simp only [stepNode, hpos, Option.map_eq_some_iff] at ht
      obtain ⟨⟨u, output'⟩, hsend, ht⟩ := ht
      subst ht
      have hands := FlowState.hands_of_send hsend fun _ => ⟨rfl, rfl, rfl, rfl⟩
      refine hmove { s.node a with pos := .addAllData ops output' } hands.source ?_ (by simp) (by simp) (by simp)
      show Function.update u.node a _ = _
      rw [hands.node]
  | closing c => exact absurd hpos (hclosing c)
  | returned => exact absurd hpos hreturned

theorem Open.step_idle {a : Nat} (ha : a < x.size) (hnone : x.inputs a = []) (ht : x.stepNode s a = some t) :
    x.Open t := by
  obtain ⟨m, rfl, -⟩ := idle_steps hg ha hnone (hc.idle a ha hnone) ht
  refine ⟨ho.source, fun b hb => ?_⟩
  rw [show (s.setNode a m).node b = s.node b from Function.update_of_ne (ne_of_busy hnone hb) _ _]
  exact ho.node b hb

theorem Open.step {e : FlowEvent} (hstops : x.stops = false) (ht : x.step s e = some t) : x.Open t := by
  cases e with
  | source =>
    simp only [Flow.step] at ht
    cases hpos : s.source with
    | between k =>
      simp only [stepSource, hpos, hstops, Bool.false_eq_true, ↓reduceIte] at ht
      split at ht
      next =>
        rw [Option.some.injEq] at ht
        subst ht
        exact ⟨by simp, ho.node⟩
      next => cases ht
    | adding k ops output =>
      cases ops with
      | nil =>
        simp only [stepSource, hpos, Option.some.injEq] at ht
        subst ht
        exact ⟨by simp, ho.node⟩
      | cons op ops =>
        simp only [stepSource, hpos, Option.map_eq_some_iff] at ht
        obtain ⟨⟨u, output'⟩, hsend, ht⟩ := ht
        subst ht
        have hands := FlowState.hands_of_send hsend fun _ => ⟨rfl, hpos.symm, rfl, rfl⟩
        exact ⟨by simp, hands.node ▸ ho.node⟩
    | closing c => exact absurd hpos (ho.source c).1
    | returned => exact absurd hpos (ho.source ⟨none, []⟩).2
  | node a =>
    simp only [Flow.step] at ht
    split at ht
    next ha =>
      by_cases hnone : x.inputs a = []
      · exact ho.step_idle hg hc ha hnone ht
      · exact ho.step_node hg hc ⟨ha, hnone⟩ ht
    next => cases ht
  | read ch =>
    simp only [Flow.step] at ht
    split at ht
    next =>
      split at ht
      next =>
        rw [Option.some.injEq] at ht
        subst ht
        exact ⟨ho.source, ho.node⟩
      next => cases ht
    next => cases ht

end OpenStep

/-- A run that is not stopped, in which no Process changes a datum on its way. -/
structure InSync (x : Flow V) (out : Nat → Producer → Nat → V) (value : Nat → Nat → V) (s : FlowState V) : Prop where
  counted : x.Counted s
  opened : x.Open s
  valued : x.Valued out value s

theorem InSync.step (hg : x.Sound) (hv : x.Evaluates out value) (hstops : x.stops = false)
    (h : x.InSync out value s) {e : FlowEvent} (ht : x.step s e = some t) (hspares : x.Spares s e) :
    s.Keeps e ∧ x.InSync out value t := by
  have hkeeps : s.Keeps e := h.opened.keeps h.counted fun a he => by
    subst he
    simp only [Flow.step] at ht
    split at ht
    next ha => exact ha
    next => cases ht
  refine ⟨hkeeps, h.counted.step hg ht hkeeps, h.opened.step hg h.counted hstops ht, ?_⟩
  cases e with
  | source => exact h.valued.step_source hv h.counted h.opened hstops ht
  | node a =>
    simp only [Flow.step] at ht
    split at ht
    next ha =>
      by_cases hnone : x.inputs a = []
      · exact h.valued.step_idle hg h.counted ha hnone ht
      · exact h.valued.step_node hg hv h.counted ⟨ha, hnone⟩ h.opened ht hspares
    next => cases ht
  | read ch => exact h.valued.step_read hg ht

theorem inSync_init : x.InSync out value x.init where
  counted := counted_init
  opened := ⟨by simp [init], by simp [init]⟩
  valued :=
    { node := fun a ha => by
        refine ⟨List.length_range', List.nodup_range', fun d hd => ?_, by simp [init], by simp [init], by simp [init]⟩
        have hd' := (List.mem_range'_1.mp hd).2
        rw [init, List.length_replicate]
        exact Nat.lt_of_lt_of_le hd' (x.slots_le ha.1)
      source := by simp [init]
      queue := by simp [init]
      output := by simp [init]
      reads := by simp [init] }

end Flow

end Dni
