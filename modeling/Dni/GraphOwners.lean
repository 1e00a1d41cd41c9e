import Dni.GraphValueSteps

namespace Dni

/-- The data that the node has received and not yet processed. -/
def FlowNode.taken (m : FlowNode) : List (Option Nat) :=
  match m.pos with
  | .subscribe _ got => got
  | .lock _ | .process => m.inputs
  | _ => []

namespace Flow

variable {V : Type} (x : Flow V)

/-- A datum on the heap that no other node than its producer has as an output slot. -/
structure From (s : FlowState V) (p : Producer) (d : Nat) : Prop where
  lt : d < s.heap.length
  only : ∀ a < x.size, d ∈ (s.node a).outputs → p = .node a

/-- A datum that a node has received on one of its channels. -/
def TakenFrom (s : FlowState V) (a : Nat) (m : FlowNode) (d : Nat) : Prop :=
  ∃ p ch, x.Feeds p ch ∧ x.Reads a ch ∧ (∀ rest got, m.pos = .subscribe rest got → ch ∉ rest) ∧ x.From s p d

/-- All data on their way are from the producers of the channels that they are sent on. -/
structure Owned (s : FlowState V) : Prop where
  slot : ∀ a < x.size, ∀ d ∈ (s.node a).outputs, x.From s (.node a) d
  queue : ∀ p ch, x.Feeds p ch → ∀ d ∈ (s.chan ch).queue, x.From s p d
  taken : ∀ a < x.size, ∀ d, some d ∈ (s.node a).taken → x.TakenFrom s a (s.node a) d
  adding : ∀ a < x.size, ∀ ops output, (s.node a).pos = .addAllData ops output → sending ops = true →
    x.From s (.node a) output
  source : ∀ k ops output, s.source = .adding k ops output → sending ops = true → x.From s .graphInput output

variable {x} {s t u : FlowState V}

theorem From.mono {p : Producer} {d : Nat} (h : x.From s p d) (hlen : s.heap.length ≤ t.heap.length)
    (houts : ∀ a < x.size, ∀ d ∈ (t.node a).outputs, d ∈ (s.node a).outputs ∨ s.heap.length ≤ d) : x.From t p d := by
  refine ⟨Nat.lt_of_lt_of_le h.lt hlen, fun a ha hd => ?_⟩
  obtain hold | hnew := houts a ha d hd
  · exact h.only a ha hold
  · exact absurd h.lt (Nat.not_lt.mpr hnew)

theorem owned_init : x.Owned x.init where
  slot a ha d hd := by
    have hslots : ∀ b, d ∈ (x.init.node b).outputs → x.slotsBefore b ≤ d ∧ d < x.slotsBefore b + x.slots b := fun b hb =>
      List.mem_range'_1.mp hb
    have hnext : ∀ b c, b < c → x.slotsBefore b + x.slots b ≤ x.slotsBefore c := by
      intro b c hbc
      induction c, hbc using Nat.le_induction with
      | base => simp [slotsBefore, List.range_succ]
      | succ c _ ih =>
        have hstep : x.slotsBefore (c + 1) = x.slotsBefore c + x.slots c := by simp [slotsBefore, List.range_succ]
        omega
    obtain ⟨hle, hlt⟩ := hslots a hd
    refine ⟨?_, fun b hb hd' => ?_⟩
    · rw [init, List.length_replicate]
      exact Nat.lt_of_lt_of_le hlt (x.slots_le ha)
    · obtain ⟨hle', hlt'⟩ := hslots b hd'
      obtain hab | hab | hab := Nat.lt_trichotomy a b
      · have := hnext a b hab
        omega
      · rw [hab]
      · have := hnext b a hab
        omega
  queue := by simp [init]
  taken := by simp [init, FlowNode.taken]
  adding := by simp [init]
  source := by simp [init]

/-- A move of one node. -/
theorem Owned.node_moves (h : x.Owned s) (hg : x.Sound) {a : Nat} (ha : a < x.size) {m : FlowNode}
    (hnode : t.node = Function.update s.node a m) (hsource : t.source = s.source) (hlen : s.heap.length ≤ t.heap.length)
    (houts : m.outputs = (s.node a).outputs ∨ ∀ d ∈ m.outputs, s.heap.length ≤ d ∧ d < t.heap.length)
    (hqueue : ∀ ch, (t.chan ch).queue ⊆ (s.chan ch).queue ∨
      ∃ d, (t.chan ch).queue = (s.chan ch).queue ++ [d] ∧ x.Feeds (.node a) ch ∧ x.From s (.node a) d)
    (htaken : ∀ d, some d ∈ m.taken → x.TakenFrom s a m d)
    (hadding : ∀ ops output, m.pos = .addAllData ops output → sending ops = true →
      x.From s (.node a) output ∨ s.heap.length ≤ output ∧ output < t.heap.length) : x.Owned t := by
  have hself : t.node a = m := by rw [hnode, Function.update_self]
  have hrest : ∀ b, b ≠ a → t.node b = s.node b := fun b hb => by rw [hnode, Function.update_of_ne hb]
  have hmono : ∀ p d, x.From s p d → x.From t p d := by
    refine fun p d hd => hd.mono hlen fun b hb d hd => ?_
    by_cases hba : b = a
    · subst hba
      rw [hself] at hd
      obtain hsame | hfresh := houts
      · exact Or.inl (hsame ▸ hd)
      · exact Or.inr (hfresh d hd).1
    · exact Or.inl (hrest b hba ▸ hd)
  -- the slots of the other nodes are older
  have hnew : ∀ d, s.heap.length ≤ d → d < t.heap.length → x.From t (.node a) d := by
    refine fun d hle hlt => ⟨hlt, fun b hb hd => ?_⟩
    by_cases hba : b = a
    · rw [hba]
    · rw [hrest b hba] at hd
      have hold := (h.slot b hb d hd).lt
      omega
  refine ⟨fun b hb d hd => ?_, fun p ch hf d hd => ?_, fun b hb d hd => ?_, fun b hb ops output hpos hsending => ?_, ?_⟩
  · by_cases hba : b = a
    · subst hba
      rw [hself] at hd
      obtain hsame | hfresh := houts
      · exact hmono _ _ (h.slot b hb d (hsame ▸ hd))
      · exact hnew d (hfresh d hd).1 (hfresh d hd).2
    · exact hmono _ _ (h.slot b hb d (hrest b hba ▸ hd))
  · obtain hsub | ⟨d', hsent, hfeeds, hfrom⟩ := hqueue ch
    · exact hmono _ _ (h.queue p ch hf d (hsub hd))
    · rw [hsent] at hd
      obtain hd | hd := List.mem_append.mp hd
      · exact hmono _ _ (h.queue p ch hf d hd)
      · rw [List.mem_singleton.mp hd, hg.single p _ ch hf hfeeds]
        exact hmono _ _ hfrom
  · by_cases hba : b = a
    · subst hba
      rw [hself] at hd ⊢
      obtain ⟨p, ch, hf, hr, hnot, hfrom⟩ := htaken d hd
      exact ⟨p, ch, hf, hr, hnot, hmono _ _ hfrom⟩
    · rw [hrest b hba] at hd ⊢
      obtain ⟨p, ch, hf, hr, hnot, hfrom⟩ := h.taken b hb d hd
      exact ⟨p, ch, hf, hr, hnot, hmono _ _ hfrom⟩
  · by_cases hba : b = a
    · subst hba
      rw [hself] at hpos
      obtain hold | hfresh := hadding ops output hpos hsending
      · exact hmono _ _ hold
      · exact hnew output hfresh.1 hfresh.2
    · rw [hrest b hba] at hpos
      exact hmono _ _ (h.adding b hb ops output hpos hsending)
  · intro k ops output hpos hsending
    rw [hsource] at hpos
    exact hmono _ _ (h.source k ops output hpos hsending)

/-- A move of one node that leaves heap, channels and output slots as they are. -/
theorem Owned.node_stays (h : x.Owned s) (hg : x.Sound) {a : Nat} (ha : a < x.size) {m : FlowNode}
    (houts : m.outputs = (s.node a).outputs) (htaken : ∀ d, some d ∈ m.taken → x.TakenFrom s a m d)
    (hadding : ∀ ops output, m.pos ≠ .addAllData ops output) : x.Owned (s.setNode a m) :=
  h.node_moves hg ha rfl rfl (Nat.le_refl _) (Or.inl houts) (fun _ => Or.inl (List.Subset.refl _)) htaken
    fun ops output hpos => absurd hpos (hadding ops output)

section Step

variable (h : x.Owned s) (hg : x.Sound) (hc : x.Counted s) {a : Nat} (ha : x.Busy a)

include h hg hc ha

theorem Owned.receives {ch : Nat} {rest : List Nat} {got : List (Option Nat)}
    (hpos : (s.node a).pos = .subscribe (ch :: rest) got) (ht : x.stepNode s a = some t) : x.Owned t := by
  have hok := hc.node a ha
  simp only [NodeOk, hpos] at hok
  obtain ⟨-, pre, hpre, -⟩ := hok
  have hreads : x.Reads a ch := ⟨ha, by rw [hpre]; simp⟩
  have hnd : ch ∉ rest := by
    have hnodup := hg.nodup a ha.1
    rw [hpre] at hnodup
    exact (List.nodup_cons.mp (List.nodup_append.mp hnodup).2.1).1
  have hgot : ∀ d, some d ∈ got → ∀ got', x.TakenFrom s a { s.node a with pos := .subscribe rest got' } d := by
    intro d hd got'
    obtain ⟨p, ch', hf, hr, hnot, hfrom⟩ := h.taken a ha.1 d (by rw [FlowNode.taken, hpos]; exact hd)
    refine ⟨p, ch', hf, hr, ?_, hfrom⟩
    intro rest' got'' hpos'
    cases hpos'
    exact fun hmem => hnot _ _ hpos (List.mem_cons_of_mem _ hmem)
  simp only [stepNode, hpos] at ht
  split at ht
  next data queue hqueue =>
    rw [Option.some.injEq] at ht
    subst ht
    refine h.node_moves hg ha.1 (m := { s.node a with pos := .subscribe rest (got ++ [some data]) }) rfl rfl
      (Nat.le_refl _) (Or.inl rfl) ?_ ?_ (by simp)
    · intro ch'
      by_cases hne : ch' = ch
      · subst hne
        left
        simp [FlowState.setNode, FlowState.setChan, hqueue]
      · left
        simp [FlowState.setNode, FlowState.setChan, hne]
    · intro d hd
      obtain hd | hd := List.mem_append.mp hd
      · exact hgot d hd _
      · obtain rfl : d = data := by simpa using hd
        obtain ⟨p, hf⟩ := hg.fed a ch hreads
        refine ⟨p, ch, hf, hreads, ?_, h.queue p ch hf d (by rw [hqueue]; exact List.mem_cons_self)⟩
        intro rest' got' hpos'
        cases hpos'
        exact hnd
  next =>
    split at ht
    next =>
      rw [Option.some.injEq] at ht
      subst ht
      refine h.node_stays hg ha.1 rfl (fun d hd => ?_) (by simp)
      obtain hd | hd := List.mem_append.mp hd
      · exact hgot d hd _
      · simp at hd
    next => cases ht

theorem Owned.adds {op : SendOp} {ops : List SendOp} {output : Nat}
    (hpos : (s.node a).pos = .addAllData (op :: ops) output) (ht : x.stepNode s a = some t)
    (hslots : (s.node a).outputs.length = x.slots a) : x.Owned t := by
  have hok := hc.node a ha
  simp only [NodeOk, hpos] at hok
  obtain ⟨-, -, pre, hpre⟩ := hok
  simp only [stepNode, hpos] at ht
  cases op with
  | output id =>
    simp only [FlowState.send, Option.map_some, Option.some.injEq] at ht
    subst ht
    refine h.node_moves hg ha.1 rfl rfl (Nat.le_refl _) (Or.inl rfl) (fun _ => Or.inl (List.Subset.refl _))
      (by simp [FlowNode.taken]) ?_
    intro ops' output' hpos' _
    cases hpos'
    have hid : id < (s.node a).outputs.length := hslots ▸ hg.slots a ha.1 id (by rw [hpre]; simp)
    rw [List.getElem?_eq_getElem hid]
    exact Or.inl (h.slot a ha.1 _ (List.getElem_mem hid))
  | clone =>
    simp only [FlowState.send, Option.map_some, Option.some.injEq] at ht
    subst ht
    refine h.node_moves hg ha.1 rfl rfl (by simp [FlowState.setNode]) (Or.inl rfl) (fun _ => Or.inl (List.Subset.refl _))
      (by simp [FlowNode.taken]) ?_
    intro ops' output' hpos' _
    cases hpos'
    exact Or.inr ⟨Nat.le_refl _, by simp [FlowState.setNode]⟩
  | send ch =>
    have hfrom := h.adding a ha.1 _ _ hpos rfl
    simp only [FlowState.send] at ht
    split at ht
    next => cases ht
    next =>
      simp only [Option.map_some, Option.some.injEq] at ht
      subst ht
      refine h.node_moves hg ha.1 (m := { s.node a with pos := .addAllData ops output }) rfl rfl (Nat.le_refl _)
        (Or.inl rfl) (fun ch' => ?_) (by simp [FlowNode.taken]) ?_
      · by_cases hne : ch' = ch
        · subst hne
          exact Or.inr ⟨output, by simp [FlowState.setNode, FlowState.setChan], ⟨ha, by rw [hpre]; simp⟩, hfrom⟩
        · left
          simp [FlowState.setNode, FlowState.setChan, hne]
      · intro ops' output' hpos' _
        cases hpos'
        exact Or.inl hfrom

omit hc in
theorem Owned.processes (hstart : sending (x.sends (.node a)) = false) (hpos : (s.node a).pos = .process)
    (ht : x.stepNode s a = some t) : x.Owned t := by
  simp only [stepNode, hpos, Option.some.injEq] at ht
  subst ht
  have hnone : ∀ ops output, NodeAt.addAllData (x.sends (.node a)) 0 = .addAllData ops output →
      sending ops ≠ true := by
    intro ops output he
    cases he
    simp [hstart]
  unfold process
  dsimp only
  split
  next =>
    refine h.node_moves hg ha.1 (m := { s.node a with pos := .addAllData (x.sends (.node a)) 0 }) rfl rfl ?_ (Or.inl rfl)
      (fun _ => Or.inl (List.Subset.refl _)) (by simp [FlowNode.taken]) fun ops output he hsending =>
        absurd hsending (hnone ops output he)
    show _ ≤ (store _ _ _).length
    rw [length_store, length_store]
  next =>
    refine h.node_moves hg ha.1 rfl rfl ?_ (Or.inr fun d hd => ?_)
      (fun _ => Or.inl (List.Subset.refl _)) (by simp [FlowNode.taken]) fun ops output he hsending =>
        absurd hsending (hnone ops output he)
    · show _ ≤ (store _ _ _ ++ _).length
      rw [List.length_append, length_store]
      exact Nat.le_add_right _ _
    · have hd' := List.mem_range'_1.mp hd
      show _ ∧ d < (store _ _ _ ++ _).length
      rw [List.length_append, List.length_replicate, length_store]
      rw [length_store] at hd'
      exact hd'

end Step

/-- A move that leaves the nodes as they are. -/
theorem Owned.source_moves (h : x.Owned s) (hg : x.Sound) (hnode : t.node = s.node)
    (hlen : s.heap.length ≤ t.heap.length)
    (hqueue : ∀ ch, (t.chan ch).queue ⊆ (s.chan ch).queue ∨
      ∃ d, (t.chan ch).queue = (s.chan ch).queue ++ [d] ∧ x.Feeds .graphInput ch ∧ x.From s .graphInput d)
    (hsource : ∀ k ops output, t.source = .adding k ops output → sending ops = true →
      x.From s .graphInput output ∨ s.heap.length ≤ output ∧ output < t.heap.length) : x.Owned t := by
  have hmono : ∀ p d, x.From s p d → x.From t p d := fun p d hd =>
    hd.mono hlen fun b _ d hd => Or.inl (hnode ▸ hd)
  refine ⟨fun b hb d hd => ?_, fun p ch hf d hd => ?_, fun b hb d hd => ?_, fun b hb ops output hpos hsending => ?_, ?_⟩
  · rw [hnode] at hd
    exact hmono _ _ (h.slot b hb d hd)
  · obtain hsub | ⟨d', hsent, hfeeds, hfrom⟩ := hqueue ch
    · exact hmono _ _ (h.queue p ch hf d (hsub hd))
    · rw [hsent] at hd
      obtain hd | hd := List.mem_append.mp hd
      · exact hmono _ _ (h.queue p ch hf d hd)
      · rw [List.mem_singleton.mp hd, hg.single p _ ch hf hfeeds]
        exact hmono _ _ hfrom
  · rw [hnode] at hd ⊢
    obtain ⟨p, ch, hf, hr, hnot, hfrom⟩ := h.taken b hb d hd
    exact ⟨p, ch, hf, hr, hnot, hmono _ _ hfrom⟩
  · rw [hnode] at hpos
    exact hmono _ _ (h.adding b hb ops output hpos hsending)
  · intro k ops output hpos hsending
    obtain hold | hfresh := hsource k ops output hpos hsending
    · exact hmono _ _ hold
    · refine ⟨hfresh.2, fun b hb hd => ?_⟩
      rw [hnode] at hd
      have hold := (h.slot b hb output hd).lt
      omega

theorem Owned.step_source (h : x.Owned s) (hg : x.Sound) (hc : x.Counted s) (ho : x.Open s)
    (hstart : sending (x.sends .graphInput) = false) (hstops : x.stops = false) (ht : x.stepSource s = some t) :
    x.Owned t := by
  cases hpos : s.source with
  | between k =>
    simp only [stepSource, hpos, hstops, Bool.false_eq_true, ↓reduceIte] at ht
    split at ht
    next =>
      rw [Option.some.injEq] at ht
      subst ht
      refine h.source_moves hg rfl (Nat.le_refl _) (fun _ => Or.inl (List.Subset.refl _)) fun k' ops output he hsending => ?_
      cases he
      rw [hstart] at hsending
      cases hsending
    next => cases ht
  | adding k ops output =>
    have hok := hc.source
    simp only [SourceOk, hpos] at hok
    obtain ⟨-, pre, hpre⟩ := hok
    cases ops with
    | nil =>
      simp only [stepSource, hpos, Option.some.injEq] at ht
      subst ht
      exact h.source_moves hg rfl (Nat.le_refl _) (fun _ => Or.inl (List.Subset.refl _)) (by simp)
    | cons op ops =>
      simp only [stepSource, hpos] at ht
      cases op with
      | output id =>
        simp only [FlowState.send, Option.map_some, Option.some.injEq] at ht
        subst ht
        refine h.source_moves hg rfl (by simp) (fun _ => Or.inl (List.Subset.refl _)) ?_
        intro k' ops' output' he _
        cases he
        exact Or.inr ⟨Nat.le_refl _, by simp⟩
      | clone =>
        simp only [FlowState.send, Option.map_some, Option.some.injEq] at ht
        subst ht
        refine h.source_moves hg rfl (by simp) (fun _ => Or.inl (List.Subset.refl _)) ?_
        intro k' ops' output' he _
        cases he
        exact Or.inr ⟨Nat.le_refl _, by simp⟩
      | send ch =>
        have hfrom := h.source _ _ _ hpos rfl
        simp only [FlowState.send] at ht
        split at ht
        next => cases ht
        next =>
          simp only [Option.map_some, Option.some.injEq] at ht
          subst ht
          refine h.source_moves hg rfl (Nat.le_refl _) (fun ch' => ?_) ?_
          · by_cases hne : ch' = ch
            · subst hne
              exact Or.inr ⟨output, by simp [FlowState.setChan], ⟨trivial, by rw [hpre]; simp⟩, hfrom⟩
            · left
              simp [FlowState.setChan, hne]
          · intro k' ops' output' he _
            cases he
            exact Or.inl hfrom
  | closing c => exact absurd hpos (ho.source c).1
  | returned => exact absurd hpos (ho.source ⟨none, []⟩).2

/-- What every step preserves. -/
theorem Owned.step (h : x.Owned s) (hg : x.Sound) (hc : x.Counted s) (ho : x.Open s)
    (hbusy : ∀ a < x.size, x.Busy a) (hslots : ∀ a < x.size, (s.node a).outputs.length = x.slots a)
    (hstart : ∀ p, sending (x.sends p) = false) (hstops : x.stops = false) {e : FlowEvent} (ht : x.step s e = some t) : x.Owned t := by
  cases e with
  | source => exact h.step_source hg hc ho (hstart _) hstops ht
  | node a =>
    simp only [Flow.step] at ht
    split at ht
    next ha =>
      cases hpos : (s.node a).pos with
      | subscribe rest got =>
        cases rest with
        | nil =>
          simp only [stepNode, hpos] at ht
          split at ht <;> rw [Option.some.injEq] at ht <;> subst ht
          · exact h.node_stays hg ha rfl (by simp [FlowNode.taken]) (by simp)
          · refine h.node_stays hg ha rfl (fun d hd => ?_) (by simp)
            obtain ⟨p, ch, hf, hr, -, hfrom⟩ := h.taken a ha d (by rw [FlowNode.taken, hpos]; exact hd)
            exact ⟨p, ch, hf, hr, by simp, hfrom⟩
        | cons ch rest => exact h.receives hg hc (hbusy a ha) hpos ht
      | lock allok =>
        simp only [stepNode, hpos] at ht
        split at ht
        next => cases ht
        next =>
          split at ht <;> rw [Option.some.injEq] at ht <;> subst ht
          · exact h.node_stays hg ha rfl (by simp [FlowNode.taken]) (by simp)
          · refine h.node_stays hg ha rfl (fun d hd => ?_) (by simp)
            obtain ⟨p, ch, hf, hr, -, hfrom⟩ := h.taken a ha d (by rw [FlowNode.taken, hpos]; exact hd)
            exact ⟨p, ch, hf, hr, by simp, hfrom⟩
      | process => exact h.processes hg (hbusy a ha) (hstart _) hpos ht
      | addAllData ops output =>
        cases ops with
        | nil =>
          simp only [stepNode, hpos, Option.some.injEq] at ht
          subst ht
          exact h.node_stays hg ha rfl (by simp [FlowNode.taken]) (by simp)
        | cons op ops => exact h.adds hg hc (hbusy a ha) hpos ht (hslots a ha)
      | closing c => exact absurd hpos ((ho.node a (hbusy a ha)).1 c)
      | returned => exact absurd hpos (ho.node a (hbusy a ha)).2.1
    next => cases ht
  | read ch =>
    simp only [Flow.step] at ht
    split at ht
    next =>
      split at ht
      next data queue hqueue =>
        rw [Option.some.injEq] at ht
        subst ht
        refine h.source_moves hg rfl (Nat.le_refl _) (fun ch' => Or.inl ?_) fun k ops output hpos hsending =>
          Or.inl (h.source k ops output hpos hsending)
        by_cases hne : ch' = ch
        · subst hne
          simp [FlowState.setChan, hqueue]
        · simp [FlowState.setChan, hne]
      next => cases ht
    next => cases ht

end Flow

end Dni
