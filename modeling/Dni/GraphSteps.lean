import Dni.GraphCounts

namespace Dni

variable {V : Type}

theorem subscribe_full {k : Nat} (hk : k ≠ 0) : subscribe (List.replicate k true) = (true, false) := by
  obtain ⟨k, rfl⟩ := Nat.exists_eq_succ_of_ne_zero hk
  have hrest : ∀ j, (List.replicate j true).foldl (fun r ok => (r.1 && ok, r.2 && !ok)) (true, false) = (true, false) := by
    intro j
    induction j with
    | zero => rfl
    | succ j ih => exact ih
  exact hrest k

theorem subscribe_closed {k : Nat} : (subscribe (List.replicate k false)).2 = true := by
  have hrest : ∀ j ok, ((List.replicate j false).foldl (fun r ok => (r.1 && ok, r.2 && !ok)) (ok, true)).2 = true := by
    intro j
    induction j with
    | zero => exact fun _ => rfl
    | succ j ih => exact fun ok => ih (ok && false)
  exact hrest k true

namespace FlowState

variable {s t : FlowState V}

/-- How much a producer has sent follows from where it stands. -/
theorem ends_eq (hnode : t.node = s.node) (hsource : t.source = s.source) (n : Nat) (p : Producer) (ch : Nat) :
    t.sent n p ch = s.sent n p ch ∧ (t.Closed p ch ↔ s.Closed p ch) := by
  cases p with
  | graphInput => simp only [sent, Closed, hsource, and_self]
  | node a => simp only [sent, Closed, hnode, and_self]

/-- What AddData changes: the channel that it sends to. -/
structure Hands (s t : FlowState V) (op : SendOp) : Prop where
  node : t.node = s.node
  source : t.source = s.source
  reads : t.reads = s.reads
  sends : ∀ ch, op = .send ch → (t.chan ch).queue.length = (s.chan ch).queue.length + 1 ∧
    (t.chan ch).closed = (s.chan ch).closed
  keeps : ∀ ch, op ≠ .send ch → t.chan ch = s.chan ch

theorem hands_of_send {nil : V} {take : Nat → FlowState V × Nat} {output output' : Nat} {op : SendOp}
    (h : s.send nil take output op = some (t, output'))
    (htake : ∀ id, (take id).1.node = s.node ∧ (take id).1.source = s.source ∧ (take id).1.reads = s.reads ∧
      (take id).1.chan = s.chan) : s.Hands t op := by
  cases op with
  | output id =>
    obtain ⟨hnode, hsource, hreads, hchan⟩ := htake id
    have htaken : take id = (t, output') := Option.some.inj h
    rw [htaken] at hnode hsource hreads hchan
    exact ⟨hnode, hsource, hreads, (fun _ he => by cases he), fun ch _ => congrFun hchan ch⟩
  | clone =>
    cases h
    exact ⟨rfl, rfl, rfl, (fun _ he => by cases he), fun _ _ => rfl⟩
  | send ch =>
    simp only [send] at h
    split at h
    next => cases h
    next =>
      cases h
      refine ⟨rfl, rfl, rfl, ?_, ?_⟩
      · intro ch' he
        cases he
        simp [setChan]
      · intro ch' hne
        have hch : ch' ≠ ch := fun he => hne (congrArg SendOp.send he.symm)
        simp [setChan, hch]

/-- What Close does while its ranges receive nothing. -/
inductive Closes (s : FlowState V) (c : Closing) : FlowState V → Option Closing → Prop
  | drained (ch : Nat) (hdrain : c.draining = some ch) : Closes s c s (some ⟨none, c.rest⟩)
  | done (hrest : c.rest = []) : Closes s c s none
  | close (ch : Nat) (rest : List Nat) (hrest : c.rest = ch :: rest) :
    Closes s c (s.setChan ch { s.chan ch with closed := true }) (some ⟨some ch, rest⟩)

theorem closes_of_close {c : Closing} {c' : Option Closing}
    (hkeeps : ∀ ch, c.draining = some ch → (s.chan ch).queue = []) (h : s.close c = some (t, c')) :
    s.Closes c t c' := by
  obtain ⟨draining, rest⟩ := c
  cases draining with
  | some ch =>
    simp only [close, hkeeps ch rfl] at h
    cases h
    exact .drained ch rfl
  | none =>
    cases rest with
    | nil =>
      cases h
      exact .done rfl
    | cons ch rest =>
      simp only [close] at h
      split at h
      next => cases h
      next =>
        cases h
        exact .close ch rest rfl

end FlowState

/-- Of operations of which each channel has at most one send, the send that is done does not come again. -/
theorem send_mem_rest {pre ops : List SendOp} {op : SendOp} {ch : Nat}
    (h : (pre ++ op :: ops).count (.send ch) ≤ 1) :
    (op = .send ch → SendOp.send ch ∉ ops) ∧
      (op ≠ .send ch → (SendOp.send ch ∈ op :: ops ↔ SendOp.send ch ∈ ops)) := by
  apply And.intro
  · intro he hmem
    subst he
    have hpos := List.count_pos_iff.mpr hmem
    rw [List.count_append, List.count_cons_self] at h
    omega
  · intro hne
    rw [List.mem_cons, or_iff_right (Ne.symm hne)]

namespace Flow

variable {x : Flow V} {s t : FlowState V}

section Bounds

variable (h : x.Counted s)

include h

/-- No producer is ahead of the rounds of input, and one that closes has sent them all. -/
theorem Counted.sent_le {p : Producer} (hp : x.Has p) (ch : Nat) :
    s.sent x.rounds p ch ≤ x.rounds ∧ (s.Closed p ch → s.sent x.rounds p ch = x.rounds) := by
  have hclean : ∀ a, (x.cleanRounds a).length - 1 = x.rounds := fun a => by simp [cleanRounds]
  cases p with
  | graphInput =>
    have hok := h.source
    simp only [FlowState.sent, FlowState.Closed]
    cases hs : s.source with
    | between k =>
      rw [hs] at hok
      exact ⟨hok, fun hc => hc.elim⟩
    | adding k ops output =>
      rw [hs] at hok
      have hlt := hok.1
      refine ⟨?_, fun hc => hc.elim⟩
      simp only [SourceAt.sent]
      split <;> omega
    | closing c => exact ⟨le_refl _, fun _ => rfl⟩
    | returned => exact ⟨le_refl _, fun _ => rfl⟩
  | node a =>
    have hok := h.node a hp
    simp only [FlowState.sent, FlowState.Closed]
    unfold NodeOk at hok
    unfold FlowNode.sent FlowNode.Closed
    cases hs : (s.node a).pos with
    | subscribe rest got =>
      rw [hs] at hok
      exact ⟨hok.1.le, fun hc => hc.elim⟩
    | lock allok =>
      rw [hs] at hok
      have hle := hok.1.le
      exact ⟨by dsimp only; omega, fun hc => hc.elim⟩
    | process =>
      rw [hs] at hok
      have hle := hok.1.le
      exact ⟨by dsimp only; omega, fun hc => hc.elim⟩
    | addAllData ops output =>
      rw [hs] at hok
      have hle := hok.1.le
      refine ⟨?_, fun hc => hc.elim⟩
      dsimp only
      split <;> omega
    | closing c =>
      rw [hs] at hok
      dsimp only
      rw [hok.1, hclean]
      exact ⟨le_refl _, fun _ => rfl⟩
    | returned =>
      rw [hs] at hok
      dsimp only at hok ⊢
      rw [hok, hclean]
      exact ⟨le_refl _, fun _ => rfl⟩

end Bounds

section Step

variable (hg : x.Sound) (h : x.Counted s) {a : Nat} (ha : x.Busy a)

include hg h ha

/-- A move of a node that leaves the channels as they are. -/
theorem Counted.node_stays {m : FlowNode} (hnode : t.node = Function.update s.node a m) (hsource : t.source = s.source)
    (hreads : t.reads = s.reads) (hchan : t.chan = s.chan) (hok : x.NodeOk a m)
    (hfed : ∀ ch, x.Feeds (.node a) ch → m.sent ch = (s.node a).sent ch ∧ (m.Closed ch ↔ (s.node a).Closed ch))
    (hread : ∀ ch, x.Reads a ch → m.received x.rounds ch = (s.node a).received x.rounds ch) : x.Counted t := by
  refine h.node_moves hg ha hnode hsource hreads hok ?_ ?_ ?_
  · intro ch hf
    obtain ⟨hsent, hclosed⟩ := hfed ch hf
    rw [hchan, hsent, hclosed]
    exact ⟨rfl, h.closed (.node a) ch hf⟩
  · intro ch hr
    rw [hchan, hread ch hr]
    exact ⟨rfl, rfl⟩
  · intro ch _ _
    rw [hchan]

/-- The end of a Subscribe: a full round while there are rounds of input, and then the closed one. -/
theorem Counted.subscribed {got : List (Option Nat)} (hpos : (s.node a).pos = .subscribe [] got)
    (ht : x.stepNode s a = some t) : x.Counted t := by
  have hok := h.node a ha
  simp only [NodeOk, hpos, List.append_nil] at hok
  obtain ⟨hrun, pre, hpre, hgot⟩ := hok
  rw [← hpre] at hgot
  have hlen : (x.inputs a).length ≠ 0 := fun h0 => ha.2 (List.length_eq_zero_iff.mp h0)
  simp only [stepNode, hpos, hgot] at ht
  by_cases hlt : (s.node a).rounds.length < x.rounds
  · simp only [hlt, decide_true, subscribe_full hlen, Bool.false_eq_true, ↓reduceIte, Option.some.injEq] at ht
    subst ht
    refine h.node_stays hg ha rfl rfl rfl rfl ?_ ?_ ?_
    · refine ⟨⟨?_, ?_, hrun.unlocked⟩, by simp, rfl⟩
      · rw [List.length_append, List.length_singleton, List.replicate_succ', ← hrun.rounds]
        rfl
      · rw [List.length_append, List.length_singleton]
        exact hlt
    · intro ch _
      simp [FlowNode.sent, FlowNode.Closed, hpos]
    · intro ch _
      simp [FlowNode.received, hpos]
  · have hall : (s.node a).rounds.length = x.rounds := Nat.le_antisymm hrun.le (Nat.le_of_not_lt hlt)
    simp only [hlt, decide_false, subscribe_closed, ↓reduceIte, Option.some.injEq] at ht
    subst ht
    refine h.node_stays hg ha rfl rfl rfl rfl ?_ ?_ ?_
    · refine ⟨?_, [], rfl⟩
      rw [hrun.rounds, hall]
      rfl
    · intro ch hf
      have hclose := (hg.closes (.node a) ch ha).mpr hf.2
      simp [FlowNode.sent, FlowNode.Closed, hpos, hclose]
    · intro ch _
      simp [FlowNode.received, hpos]

/-- A receive: the channel has a datum while there are rounds of input, and is closed then. -/
theorem Counted.receives {ch : Nat} {rest : List Nat} {got : List (Option Nat)}
    (hpos : (s.node a).pos = .subscribe (ch :: rest) got) (ht : x.stepNode s a = some t) : x.Counted t := by
  have hok := h.node a ha
  simp only [NodeOk, hpos] at hok
  obtain ⟨hrun, pre, hpre, hgot⟩ := hok
  have hreads : x.Reads a ch := ⟨ha, by rw [hpre]; simp⟩
  have hnd : ch ∉ rest := by
    have hnodup := hg.nodup a ha.1
    rw [hpre] at hnodup
    exact (List.nodup_cons.mp (List.nodup_append.mp hnodup).2.1).1
  obtain ⟨p, hf⟩ := hg.fed a ch hreads
  obtain ⟨hsent, hall⟩ := h.sent_le hf.1 ch
  have hcount := h.queue p a ch hf hreads
  have hrec : (s.node a).received x.rounds ch = min x.rounds (s.node a).rounds.length := by
    simp [FlowNode.received, hpos]
  have hpre' : x.inputs a = (pre ++ [ch]) ++ rest := by rw [hpre, List.append_assoc, List.singleton_append]
  have hrest : ∀ ch', ch' ≠ ch → (ch' ∈ ch :: rest ↔ ch' ∈ rest) := fun ch' hne => by simp [hne]
  simp only [stepNode, hpos] at ht
  split at ht
  next data queue hqueue =>
    rw [hqueue, List.length_cons, hrec] at hcount
    have hlt : (s.node a).rounds.length < x.rounds := by omega
    rw [Option.some.injEq] at ht
    subst ht
    refine h.node_moves hg ha (m := { s.node a with pos := .subscribe rest (got ++ [some data]) }) rfl rfl rfl ?_ ?_ ?_ ?_
    · refine ⟨⟨hrun.rounds, hrun.le, hrun.unlocked⟩, pre ++ [ch], hpre', ?_⟩
      rw [List.map_append, hgot, List.length_append, List.length_singleton, List.replicate_succ']
      simp [hlt]
    · intro ch' hf'
      have hne : ch' ≠ ch := fun he => hg.not_reads hf' (he ▸ hreads)
      have hclosed := h.closed (.node a) ch' hf'
      simp only [FlowState.Closed, FlowNode.Closed, hpos] at hclosed
      simpa [FlowState.setNode, FlowState.setChan, hne, FlowNode.sent, FlowNode.Closed, hpos] using hclosed
    · intro ch' _
      by_cases hne : ch' = ch
      · subst hne
        simp only [FlowState.setNode, FlowState.setChan, Function.update_self, FlowNode.received, hpos, hnd,
          hqueue, List.length_cons, List.mem_cons, true_or, ↓reduceIte, and_true]
        omega
      · simp [FlowState.setNode, FlowState.setChan, hne, FlowNode.received, hpos]
    · intro ch' _ hr'
      have hne : ch' ≠ ch := fun he => hr' (he ▸ hreads)
      simp [FlowState.setNode, FlowState.setChan, hne]
  next hqueue =>
    split at ht
    next hclosed =>
      rw [hqueue, List.length_nil, hrec, hall ((h.closed p ch hf).mp hclosed)] at hcount
      have hle := hrun.le
      have hend : (s.node a).rounds.length = x.rounds := by omega
      cases ht
      refine h.node_stays hg ha rfl rfl rfl rfl ?_ ?_ ?_
      · refine ⟨⟨hrun.rounds, hrun.le, hrun.unlocked⟩, pre ++ [ch], hpre', ?_⟩
        rw [List.map_append, hgot, List.length_append, List.length_singleton, List.replicate_succ']
        simp [hend]
      · intro ch' _
        simp [FlowNode.sent, FlowNode.Closed, hpos]
      · intro ch' _
        simp only [FlowNode.received, hpos, hend]
        split <;> split <;> omega
    next => cases ht

/-- The mutex is free, and the round was full. -/
theorem Counted.locks {allok : Bool} (hpos : (s.node a).pos = .lock allok) (ht : x.stepNode s a = some t) :
    x.Counted t := by
  have hok := h.node a ha
  simp only [NodeOk, hpos] at hok
  obtain ⟨hrun, hpositive, hallok⟩ := hok
  simp only [stepNode, hpos, hallok, if_neg (Bool.eq_false_iff.mp hrun.unlocked), Bool.not_true,
    Bool.false_eq_true, ↓reduceIte, Option.some.injEq] at ht
  subst ht
  refine h.node_stays hg ha rfl rfl rfl rfl ⟨⟨hrun.rounds, hrun.le, hrun.unlocked⟩, hpositive⟩ ?_ ?_
  · intro ch _
    simp [FlowNode.sent, FlowNode.Closed, hpos]
  · intro ch _
    simp [FlowNode.received, hpos]

omit hg h ha in
/-- Process changes data and the output slots of its node. -/
theorem process_frame (s : FlowState V) (a : Nat) :
    ∃ outputs, (x.process s a).node = Function.update s.node a
        { s.node a with pos := .addAllData (x.sends (.node a)) 0, outputs := outputs } ∧
      (x.process s a).source = s.source ∧ (x.process s a).reads = s.reads ∧ (x.process s a).chan = s.chan := by
  unfold process
  dsimp only
  split
  · exact ⟨(s.node a).outputs, rfl, rfl, rfl, rfl⟩
  · exact ⟨_, rfl, rfl, rfl, rfl⟩

theorem Counted.processes (hpos : (s.node a).pos = .process) (ht : x.stepNode s a = some t) : x.Counted t := by
  have hok := h.node a ha
  simp only [NodeOk, hpos] at hok
  obtain ⟨hrun, hpositive⟩ := hok
  simp only [stepNode, hpos, Option.some.injEq] at ht
  subst ht
  obtain ⟨outputs, hnode, hsource, hreads, hchan⟩ := process_frame (x := x) s a
  refine h.node_stays hg ha hnode hsource hreads hchan
    ⟨⟨hrun.rounds, hrun.le, hrun.unlocked⟩, hpositive, [], rfl⟩ ?_ ?_
  · intro ch hf
    simp [FlowNode.sent, FlowNode.Closed, hpos, hf.2]
  · intro ch _
    simp [FlowNode.received, hpos]

/-- The end of AddAllData. -/
theorem Counted.added {output : Nat} (hpos : (s.node a).pos = .addAllData [] output)
    (ht : x.stepNode s a = some t) : x.Counted t := by
  have hok := h.node a ha
  simp only [NodeOk, hpos] at hok
  obtain ⟨hrun, hpositive, -⟩ := hok
  simp only [stepNode, hpos, Option.some.injEq] at ht
  subst ht
  refine h.node_stays hg ha rfl rfl rfl rfl
    ⟨⟨hrun.rounds, hrun.le, hrun.unlocked⟩, [], rfl, by simp⟩ ?_ ?_
  · intro ch _
    simp [FlowNode.sent, FlowNode.Closed, hpos]
  · intro ch hr
    simp [FlowNode.received, hpos, hr.2]

/-- A step of AddAllData. -/
theorem Counted.adds {op : SendOp} {ops : List SendOp} {output : Nat}
    (hpos : (s.node a).pos = .addAllData (op :: ops) output) (ht : x.stepNode s a = some t) : x.Counted t := by
  have hok := h.node a ha
  simp only [NodeOk, hpos] at hok
  obtain ⟨hrun, hpositive, pre, hpre⟩ := hok
  simp only [stepNode, hpos, Option.map_eq_some_iff] at ht
  obtain ⟨⟨u, output'⟩, hsend, ht⟩ := ht
  subst ht
  have hands := FlowState.hands_of_send hsend fun _ => ⟨rfl, rfl, rfl, rfl⟩
  have hsends : ∀ ch, op = .send ch → x.Feeds (.node a) ch := fun ch he => ⟨ha, by rw [hpre, he]; simp⟩
  refine h.node_moves hg ha (m := { s.node a with pos := .addAllData ops output' }) ?_ hands.source hands.reads
    ⟨⟨hrun.rounds, hrun.le, hrun.unlocked⟩, hpositive, pre ++ [op], ?_⟩ ?_ ?_ ?_
  · show Function.update u.node a _ = _
    rw [hands.node]
  · rw [hpre, List.append_assoc, List.singleton_append]
  · intro ch hf
    have hclosed := h.closed (.node a) ch hf
    simp only [FlowState.Closed, FlowNode.Closed, hpos] at hclosed
    have honce := hg.once (.node a) ch ha
    rw [hpre] at honce
    obtain ⟨hlast, hother⟩ := send_mem_rest honce
    by_cases he : op = .send ch
    · obtain ⟨hqueue, hsame⟩ := hands.sends ch he
      have hnot := hlast he
      subst he
      simp only [FlowState.setNode, FlowNode.sent, FlowNode.Closed, hpos, hqueue, hsame, hclosed, hnot,
        List.mem_cons, true_or, ↓reduceIte, and_true]
      omega
    · rw [show (u.setNode a { s.node a with pos := .addAllData ops output' }).chan ch = u.chan ch from rfl,
        hands.keeps ch he]
      simp only [FlowNode.sent, FlowNode.Closed, hpos, hother he, hclosed, and_self]
  · intro ch hr
    have hne : op ≠ .send ch := fun he => hg.not_reads (hsends ch he) hr
    rw [show (u.setNode a { s.node a with pos := .addAllData ops output' }).chan ch = u.chan ch from rfl,
      hands.keeps ch hne]
    simp [FlowNode.received, hpos]
  · intro ch hf _
    exact hands.keeps ch fun he => hf (hsends ch he)

/-- A step of Close. -/
theorem Counted.closes {c : Closing} (hpos : (s.node a).pos = .closing c) (ht : x.stepNode s a = some t)
    (hkeeps : s.Keeps (.node a)) : x.Counted t := by
  have hok := h.node a ha
  simp only [NodeOk, hpos] at hok
  obtain ⟨hrounds, pre, hpre⟩ := hok
  simp only [stepNode, hpos, Option.map_eq_some_iff] at ht
  obtain ⟨⟨u, c'⟩, hclose, ht⟩ := ht
  subst ht
  have hdrain : ∀ ch, c.draining = some ch → (s.chan ch).queue = [] := fun ch he => hkeeps ch (by
    simp only [FlowState.draining, hpos]
    exact he)
  cases FlowState.closes_of_close hdrain hclose with
  | drained ch _ =>
    refine h.node_stays hg ha rfl rfl rfl rfl ⟨hrounds, pre, hpre⟩ ?_ ?_
    · intro ch _
      simp [FlowNode.sent, FlowNode.Closed, hpos]
    · intro ch _
      simp [FlowNode.received, hpos]
  | done hrest =>
    refine h.node_stays hg ha rfl rfl rfl rfl hrounds ?_ ?_
    · intro ch _
      simp [FlowNode.sent, FlowNode.Closed, hpos, hrest]
    · intro ch _
      simp [FlowNode.received, hpos]
  | close ch rest hrest =>
    rw [hrest] at hpre
    have hfeeds : x.Feeds (.node a) ch := ⟨ha, (hg.closes (.node a) ch ha).mp (by rw [hpre]; simp)⟩
    have hnd : ch ∉ rest := by
      have hnodup := hg.closesNodup (.node a) ha
      rw [hpre] at hnodup
      exact (List.nodup_cons.mp (List.nodup_append.mp hnodup).2.1).1
    refine h.node_moves hg ha (m := { s.node a with pos := .closing ⟨some ch, rest⟩ }) rfl rfl rfl
      ⟨hrounds, pre ++ [ch], ?_⟩ ?_ ?_ ?_
    · rw [hpre, List.append_assoc, List.singleton_append]
    · intro ch' hf
      have hclosed := h.closed (.node a) ch' hf
      simp only [FlowState.Closed, FlowNode.Closed, hpos, hrest] at hclosed
      by_cases hne : ch' = ch
      · subst hne
        simp [FlowState.setNode, FlowState.setChan, FlowNode.sent, FlowNode.Closed, hpos, hnd]
      · simpa [FlowState.setNode, FlowState.setChan, hne, FlowNode.sent, FlowNode.Closed, hpos] using hclosed
    · intro ch' hr
      have hne : ch' ≠ ch := fun he => hg.not_reads hfeeds (he ▸ hr)
      simp [FlowState.setNode, FlowState.setChan, hne, FlowNode.received, hpos]
    · intro ch' hf _
      have hne : ch' ≠ ch := fun he => hf (he ▸ hfeeds)
      simp [FlowState.setNode, FlowState.setChan, hne]

theorem Counted.step_node (ht : x.stepNode s a = some t) (hkeeps : s.Keeps (.node a)) : x.Counted t := by
  cases hpos : (s.node a).pos with
  | subscribe rest got =>
    cases rest with
    | nil => exact h.subscribed hg ha hpos ht
    | cons ch rest => exact h.receives hg ha hpos ht
  | lock allok => exact h.locks hg ha hpos ht
  | process => exact h.processes hg ha hpos ht
  | addAllData ops output =>
    cases ops with
    | nil => exact h.added hg ha hpos ht
    | cons op ops => exact h.adds hg ha hpos ht
  | closing c => exact h.closes hg ha hpos ht hkeeps
  | returned =>
    simp only [stepNode, hpos] at ht
    cases ht

end Step

section Idle

/-- A node without inputs closes its outputs, of which it has none, and returns. -/
theorem idle_steps (hg : x.Sound) {a : Nat} (ha : a < x.size) (hnone : x.inputs a = []) (hidle : (s.node a).Idle)
    (ht : x.stepNode s a = some t) : ∃ m, t = s.setNode a m ∧
      ((s.node a).pos = .subscribe [] [] ∧ m.pos = .closing ⟨none, []⟩ ∨
        (s.node a).pos = .closing ⟨none, []⟩ ∧ m.pos = .returned) := by
  unfold FlowNode.Idle at hidle
  cases hpos : (s.node a).pos with
  | subscribe rest got =>
    rw [hpos] at hidle
    obtain ⟨rfl, rfl⟩ := hidle
    simp only [stepNode, hpos, hg.idle a ha hnone] at ht
    exact ⟨_, (Option.some.inj ht).symm, Or.inl ⟨rfl, rfl⟩⟩
  | closing c =>
    obtain ⟨draining, rest⟩ := c
    rw [hpos] at hidle
    obtain ⟨rfl, rfl⟩ := hidle
    simp only [stepNode, hpos] at ht
    exact ⟨_, (Option.some.inj ht).symm, Or.inr ⟨rfl, rfl⟩⟩
  | returned =>
    simp only [stepNode, hpos] at ht
    cases ht
  | lock allok =>
    rw [hpos] at hidle
    exact hidle.elim
  | process =>
    rw [hpos] at hidle
    exact hidle.elim
  | addAllData ops output =>
    rw [hpos] at hidle
    exact hidle.elim

theorem ne_of_busy {a b : Nat} (hnone : x.inputs a = []) (hb : x.Busy b) : b ≠ a := fun he => hb.2 (he ▸ hnone)

/-- Its moves are seen by no one. -/
theorem Counted.step_idle (hg : x.Sound) (h : x.Counted s) {a : Nat} (ha : a < x.size) (hnone : x.inputs a = [])
    (ht : x.stepNode s a = some t) : x.Counted t := by
  obtain ⟨m, rfl, hmoves⟩ := idle_steps hg ha hnone (h.idle a ha hnone) ht
  have hrest : ∀ b, x.Busy b → (s.setNode a m).node b = s.node b := fun b hb =>
    Function.update_of_ne (ne_of_busy hnone hb) _ _
  have hends : ∀ p ch, x.Feeds p ch → (s.setNode a m).sent x.rounds p ch = s.sent x.rounds p ch ∧
      ((s.setNode a m).Closed p ch ↔ s.Closed p ch) := by
    intro p ch hf
    cases p with
    | graphInput => exact ⟨rfl, Iff.rfl⟩
    | node b => simp only [FlowState.sent, FlowState.Closed, hrest b hf.1, and_self]
  refine ⟨fun b hb => ?_, fun b hb hb' => ?_, h.source, fun p b ch hf hr => ?_, fun p ch hf hout => ?_,
    fun p ch hf => ?_⟩
  · rw [hrest b hb]
    exact h.node b hb
  · by_cases hba : b = a
    · subst hba
      show (Function.update s.node b m b).Idle
      rw [Function.update_self]
      obtain ⟨-, hpos⟩ | ⟨-, hpos⟩ := hmoves <;> simp [FlowNode.Idle, hpos]
    · show (Function.update s.node a m b).Idle
      rw [Function.update_of_ne hba]
      exact h.idle b hb hb'
  · rw [(hends p ch hf).1, hrest b hr.1]
    exact h.queue p b ch hf hr
  · rw [(hends p ch hf).1]
    exact h.output p ch hf hout
  · rw [(hends p ch hf).2]
    exact h.closed p ch hf

end Idle

section SourceStep

variable (hg : x.Sound) (h : x.Counted s)

include hg h

/-- A move of the source that leaves the channels as they are. -/
theorem Counted.source_stays {q : SourceAt} (hnode : t.node = s.node) (hsource : t.source = q)
    (hreads : t.reads = s.reads) (hchan : t.chan = s.chan) (hok : x.SourceOk q)
    (hfed : ∀ ch, x.Feeds .graphInput ch →
      q.sent x.rounds ch = s.source.sent x.rounds ch ∧ (q.Closed ch ↔ s.source.Closed ch)) : x.Counted t := by
  refine h.source_moves hg hnode hsource hreads hok ?_ ?_
  · intro ch hf
    obtain ⟨hsent, hclosed⟩ := hfed ch hf
    rw [hchan, hsent, hclosed]
    exact ⟨rfl, h.closed .graphInput ch hf⟩
  · intro ch _
    rw [hchan]

/-- Between two rounds, the source adds the next one or closes the inputs. -/
theorem Counted.begins {k : Nat} (hpos : s.source = .between k) (ht : x.stepSource s = some t) : x.Counted t := by
  have hok := h.source
  simp only [SourceOk, hpos] at hok
  simp only [stepSource, hpos] at ht
  split at ht
  next hlt =>
    rw [Option.some.injEq] at ht
    subst ht
    refine h.source_stays hg rfl rfl rfl rfl ⟨hlt, [], rfl⟩ ?_
    intro ch hf
    simp [SourceAt.sent, SourceAt.Closed, hpos, hf.2]
  next hlt =>
    split at ht
    next =>
      rw [Option.some.injEq] at ht
      subst ht
      refine h.source_stays hg rfl rfl rfl rfl ⟨[], rfl⟩ ?_
      intro ch hf
      have hclose := (hg.closes .graphInput ch trivial).mpr hf.2
      have hall : k = x.rounds := Nat.le_antisymm hok (Nat.le_of_not_lt hlt)
      simp [SourceAt.sent, SourceAt.Closed, hpos, hclose, hall]
    next => cases ht

/-- A step of AddAllGraphInputData. -/
theorem Counted.source_adds {k : Nat} {op : SendOp} {ops : List SendOp} {output : Nat}
    (hpos : s.source = .adding k (op :: ops) output) (ht : x.stepSource s = some t) : x.Counted t := by
  have hok := h.source
  simp only [SourceOk, hpos] at hok
  obtain ⟨hlt, pre, hpre⟩ := hok
  simp only [stepSource, hpos, Option.map_eq_some_iff] at ht
  obtain ⟨⟨u, output'⟩, hsend, ht⟩ := ht
  subst ht
  have hands := FlowState.hands_of_send hsend fun _ => ⟨rfl, hpos.symm, rfl, rfl⟩
  refine h.source_moves hg (q := .adding k ops output') hands.node rfl hands.reads ⟨hlt, pre ++ [op], ?_⟩ ?_ ?_
  · rw [hpre, List.append_assoc, List.singleton_append]
  · intro ch hf
    have hclosed := h.closed .graphInput ch hf
    simp only [FlowState.Closed, SourceAt.Closed, hpos] at hclosed
    have honce := hg.once .graphInput ch trivial
    rw [hpre] at honce
    obtain ⟨hlast, hother⟩ := send_mem_rest honce
    by_cases he : op = .send ch
    · obtain ⟨hqueue, hsame⟩ := hands.sends ch he
      have hnot := hlast he
      subst he
      simp only [SourceAt.sent, SourceAt.Closed, hpos, hqueue, hsame, hclosed, hnot, List.mem_cons, true_or,
        ↓reduceIte, and_true]
      omega
    · simp only [hands.keeps ch he, SourceAt.sent, SourceAt.Closed, hpos, hother he, hclosed, and_self]
  · intro ch hf
    exact hands.keeps ch fun he => hf ⟨trivial, by rw [hpre, he]; simp⟩

/-- A step of the Close of the graph inputs. -/
theorem Counted.source_closes {c : Closing} (hpos : s.source = .closing c) (ht : x.stepSource s = some t)
    (hkeeps : s.Keeps .source) : x.Counted t := by
  have hok := h.source
  simp only [SourceOk, hpos] at hok
  obtain ⟨pre, hpre⟩ := hok
  simp only [stepSource, hpos, Option.map_eq_some_iff] at ht
  obtain ⟨⟨u, c'⟩, hclose, ht⟩ := ht
  subst ht
  have hdrain : ∀ ch, c.draining = some ch → (s.chan ch).queue = [] := fun ch he => hkeeps ch (by
    simp only [FlowState.draining, hpos]
    exact he)
  cases FlowState.closes_of_close hdrain hclose with
  | drained ch _ =>
    refine h.source_stays hg rfl rfl rfl rfl ⟨pre, hpre⟩ ?_
    intro ch _
    simp [SourceAt.sent, SourceAt.Closed, hpos]
  | done hrest =>
    refine h.source_stays hg rfl rfl rfl rfl trivial ?_
    intro ch _
    simp [SourceAt.sent, SourceAt.Closed, hpos, hrest]
  | close ch rest hrest =>
    rw [hrest] at hpre
    have hfeeds : x.Feeds .graphInput ch := ⟨trivial, (hg.closes .graphInput ch trivial).mp (by rw [hpre]; simp)⟩
    have hnd : ch ∉ rest := by
      have hnodup := hg.closesNodup .graphInput trivial
      rw [hpre] at hnodup
      exact (List.nodup_cons.mp (List.nodup_append.mp hnodup).2.1).1
    refine h.source_moves hg (q := .closing ⟨some ch, rest⟩) rfl rfl rfl ⟨pre ++ [ch], ?_⟩ ?_ ?_
    · rw [hpre, List.append_assoc, List.singleton_append]
    · intro ch' hf
      have hclosed := h.closed .graphInput ch' hf
      simp only [FlowState.Closed, SourceAt.Closed, hpos, hrest] at hclosed
      by_cases hne : ch' = ch
      · subst hne
        simp [FlowState.setChan, SourceAt.sent, SourceAt.Closed, hpos, hnd]
      · simpa [FlowState.setChan, hne, SourceAt.sent, SourceAt.Closed, hpos] using hclosed
    · intro ch' hf
      have hne : ch' ≠ ch := fun he => hf (he ▸ hfeeds)
      simp [FlowState.setChan, hne]

theorem Counted.step_source (ht : x.stepSource s = some t) (hkeeps : s.Keeps .source) : x.Counted t := by
  cases hpos : s.source with
  | between k => exact h.begins hg hpos ht
  | adding k ops output =>
    cases ops with
    | nil =>
      have hok := h.source
      simp only [SourceOk, hpos] at hok
      simp only [stepSource, hpos, Option.some.injEq] at ht
      subst ht
      refine h.source_stays hg rfl rfl rfl rfl hok.1 ?_
      intro ch _
      simp [SourceAt.sent, SourceAt.Closed, hpos]
    | cons op ops => exact h.source_adds hg hpos ht
  | closing c => exact h.source_closes hg hpos ht hkeeps
  | returned =>
    simp only [stepSource, hpos] at ht
    cases ht

/-- A read of a graph output. -/
theorem Counted.reads {ch : Nat} (ht : x.step s (.read ch) = some t) : x.Counted t := by
  simp only [step] at ht
  split at ht
  next hout =>
    split at ht
    next data queue hqueue =>
      rw [Option.some.injEq] at ht
      have hnode : t.node = s.node := by rw [← ht]; rfl
      have hsource : t.source = s.source := by rw [← ht]; rfl
      have hself : (t.chan ch).queue = queue ∧ (t.chan ch).closed = (s.chan ch).closed := by
        rw [← ht]
        simp [FlowState.setChan]
      have hchan : ∀ ch', ch' ≠ ch → t.chan ch' = s.chan ch' := fun ch' hne => by
        rw [← ht]
        exact Function.update_of_ne hne _ _
      have hread : (t.reads ch).length = (s.reads ch).length + 1 := by
        rw [← ht]
        simp
      have hreads : ∀ ch', ch' ≠ ch → t.reads ch' = s.reads ch' := fun ch' hne => by
        rw [← ht]
        exact Function.update_of_ne hne _ _
      have hends := FlowState.ends_eq hnode hsource x.rounds
      refine ⟨hnode ▸ h.node, hnode ▸ h.idle, hsource ▸ h.source, ?_, ?_, ?_⟩
      · intro p b ch' hf hr
        have hne : ch' ≠ ch := fun he => hg.apart b ch' hr (he ▸ hout)
        rw [(hends p ch').1, hnode, hchan ch' hne]
        exact h.queue p b ch' hf hr
      · intro p ch' hf hout'
        have hold := h.output p ch' hf hout'
        rw [(hends p ch').1]
        by_cases hne : ch' = ch
        · subst hne
          rw [hself.1, hread]
          rw [hqueue, List.length_cons] at hold
          omega
        · rw [hchan ch' hne, hreads ch' hne]
          exact hold
      · intro p ch' hf
        rw [(hends p ch').2, ← h.closed p ch' hf]
        by_cases hne : ch' = ch
        · subst hne
          rw [hself.2]
        · rw [hchan ch' hne]
    next => cases ht
  next => cases ht

theorem Counted.step {e : FlowEvent} (ht : x.step s e = some t) (hkeeps : s.Keeps e) : x.Counted t := by
  cases e with
  | source => exact h.step_source hg ht hkeeps
  | node a =>
    simp only [Flow.step] at ht
    split at ht
    next ha =>
      by_cases hnone : x.inputs a = []
      · exact h.step_idle hg ha hnone ht
      · exact h.step_node hg ⟨ha, hnone⟩ ht hkeeps
    next => cases ht
  | read ch => exact h.reads hg ht

end SourceStep

theorem counted_init : x.Counted x.init where
  node a ha := ⟨⟨rfl, Nat.zero_le _, rfl⟩, [], rfl, rfl⟩
  idle a _ hnone := ⟨hnone, rfl⟩
  source := Nat.zero_le _
  queue p a ch hf hr := by
    cases p <;> simp [init, FlowState.sent, SourceAt.sent, FlowNode.sent, FlowNode.received, hr.2]
  output p ch hf hout := by
    cases p <;> simp [init, FlowState.sent, SourceAt.sent, FlowNode.sent]
  closed p ch hf := by
    cases p <;> simp [init, FlowState.Closed, SourceAt.Closed, FlowNode.Closed]

end Flow

end Dni
