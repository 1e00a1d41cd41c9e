import Dni.GraphSteps

namespace Dni

variable {V : Type}

/-- The round that the node is in. -/
def FlowNode.round (m : FlowNode) : Nat :=
  match m.pos with
  | .subscribe _ _ => m.rounds.length
  | _ => m.rounds.length - 1

namespace FlowState

variable {s : FlowState V}

theorem send_stuck {nil : V} {take : Nat → FlowState V × Nat} {output : Nat} {op : SendOp}
    (h : s.send nil take output op = none) :
    ∃ ch, op = .send ch ∧ ((s.chan ch).closed = true ∨ 1000 ≤ (s.chan ch).queue.length) := by
  cases op with
  | output id => cases h
  | clone => cases h
  | send ch =>
    simp only [send] at h
    split at h
    next hfull => exact ⟨ch, rfl, hfull⟩
    next => cases h

theorem close_stuck {c : Closing} (h : s.close c = none) :
    c.draining = none ∧ ∃ ch rest, c.rest = ch :: rest ∧ (s.chan ch).closed = true := by
  obtain ⟨draining, rest⟩ := c
  cases draining with
  | some ch =>
    simp only [close] at h
    split at h <;> cases h
  | none =>
    cases rest with
    | nil => cases h
    | cons ch rest =>
      simp only [close] at h
      split at h
      next hclosed => exact ⟨rfl, ch, rest, rfl, hclosed⟩
      next => cases h

end FlowState

namespace Flow

variable (x : Flow V)

/-- Nothing can go on. -/
def Stuck (s : FlowState V) : Prop := ∀ e, x.step s e = none

variable {x} {s : FlowState V}

theorem Stuck.node (hs : x.Stuck s) {a : Nat} (ha : a < x.size) : x.stepNode s a = none := by
  have h := hs (.node a)
  rwa [step, if_pos ha] at h

/-- What a node is waiting for. -/
inductive WaitsFor (s : FlowState V) (a : Nat) : Prop
  | returned (hpos : (s.node a).pos = .returned)
  | empty (ch : Nat) (rest : List Nat) (got : List (Option Nat)) (hpos : (s.node a).pos = .subscribe (ch :: rest) got)
    (hqueue : (s.chan ch).queue = []) (hclosed : (s.chan ch).closed = false)
  | full (ch : Nat) (ops : List SendOp) (output : Nat) (hpos : (s.node a).pos = .addAllData (.send ch :: ops) output)
    (hfull : 1000 ≤ (s.chan ch).queue.length)

section Waits

variable (hg : x.Sound) (h : x.Counted s)

include hg h

theorem Counted.waitsFor {a : Nat} (ha : x.Busy a) (hs : x.stepNode s a = none) : WaitsFor s a := by
  have hok := h.node a ha
  unfold NodeOk at hok
  cases hpos : (s.node a).pos with
  | subscribe rest got =>
    cases rest with
    | nil =>
      simp only [stepNode, hpos] at hs
      split at hs <;> cases hs
    | cons ch rest =>
      simp only [stepNode, hpos] at hs
      split at hs
      next => cases hs
      next hqueue =>
        split at hs
        next => cases hs
        next hclosed => exact .empty ch rest got hpos hqueue (Bool.eq_false_iff.mpr hclosed)
  | lock allok =>
    rw [hpos] at hok
    simp only [stepNode, hpos, if_neg (Bool.eq_false_iff.mp hok.1.unlocked)] at hs
    split at hs <;> cases hs
  | process =>
    simp only [stepNode, hpos] at hs
    cases hs
  | addAllData ops output =>
    rw [hpos] at hok
    cases ops with
    | nil =>
      simp only [stepNode, hpos] at hs
      cases hs
    | cons op ops =>
      simp only [stepNode, hpos, Option.map_eq_none_iff] at hs
      obtain ⟨ch, rfl, hclosed | hfull⟩ := FlowState.send_stuck hs
      · obtain ⟨-, -, pre, hpre⟩ := hok
        have hno := (h.closed (.node a) ch ⟨ha, by rw [hpre]; simp⟩).mp hclosed
        simp only [FlowState.Closed, FlowNode.Closed, hpos] at hno
      · exact .full ch ops output hpos hfull
  | closing c =>
    rw [hpos] at hok
    simp only [stepNode, hpos, Option.map_eq_none_iff] at hs
    obtain ⟨-, ch, rest, hrest, hclosed⟩ := FlowState.close_stuck hs
    obtain ⟨-, pre, hpre⟩ := hok
    rw [hrest] at hpre
    have hfeeds : x.Feeds (.node a) ch := ⟨ha, (hg.closes (.node a) ch ha).mp (by rw [hpre]; simp)⟩
    have hno := (h.closed (.node a) ch hfeeds).mp hclosed
    simp only [FlowState.Closed, FlowNode.Closed, hpos, hrest] at hno
    exact absurd List.mem_cons_self hno
  | returned => exact .returned hpos

/-- The source is done, or waits for a consumer. -/
theorem Counted.source_waits (hs : x.stepSource s = none) :
    (s.source = .between x.rounds ∧ x.stops = false) ∨ s.source = .returned ∨
      ∃ k ch ops output, s.source = .adding k (.send ch :: ops) output ∧ 1000 ≤ (s.chan ch).queue.length := by
  have hok := h.source
  cases hpos : s.source with
  | between k =>
    rw [hpos] at hok
    simp only [stepSource, hpos] at hs
    split at hs
    next => cases hs
    next hlt =>
      split at hs
      next => cases hs
      next hstops =>
        rw [Nat.le_antisymm hok (Nat.le_of_not_lt hlt)]
        exact Or.inl ⟨rfl, Bool.eq_false_iff.mpr hstops⟩
  | adding k ops output =>
    rw [hpos] at hok
    cases ops with
    | nil =>
      simp only [stepSource, hpos] at hs
      cases hs
    | cons op ops =>
      simp only [stepSource, hpos, Option.map_eq_none_iff] at hs
      obtain ⟨ch, rfl, hclosed | hfull⟩ := FlowState.send_stuck hs
      · obtain ⟨-, pre, hpre⟩ := hok
        have hno := (h.closed .graphInput ch ⟨trivial, by rw [hpre]; simp⟩).mp hclosed
        simp only [FlowState.Closed, SourceAt.Closed, hpos] at hno
      · exact Or.inr (Or.inr ⟨k, ch, ops, output, rfl, hfull⟩)
  | closing c =>
    rw [hpos] at hok
    simp only [stepSource, hpos, Option.map_eq_none_iff] at hs
    obtain ⟨-, ch, rest, hrest, hclosed⟩ := FlowState.close_stuck hs
    obtain ⟨pre, hpre⟩ := hok
    rw [hrest] at hpre
    have hfeeds : x.Feeds .graphInput ch := ⟨trivial, (hg.closes .graphInput ch trivial).mp (by rw [hpre]; simp)⟩
    have hno := (h.closed .graphInput ch hfeeds).mp hclosed
    simp only [FlowState.Closed, SourceAt.Closed, hpos, hrest] at hno
    exact absurd List.mem_cons_self hno
  | returned => exact Or.inr (Or.inl rfl)

omit hg in
theorem Counted.round_le {a : Nat} (ha : x.Busy a) :
    (s.node a).round ≤ x.rounds ∧ (∀ ch, (s.node a).round ≤ (s.node a).sent ch) ∧
      ∀ ch, (s.node a).round ≤ (s.node a).received x.rounds ch := by
  have hok := h.node a ha
  have hclean : (x.cleanRounds a).length - 1 = x.rounds := by simp [cleanRounds]
  unfold NodeOk at hok
  unfold FlowNode.round FlowNode.sent FlowNode.received
  cases hpos : (s.node a).pos with
  | subscribe rest got =>
    rw [hpos] at hok
    have hle := hok.1.le
    refine ⟨hle, fun ch => le_refl _, fun ch => ?_⟩
    dsimp only
    split <;> omega
  | lock allok =>
    rw [hpos] at hok
    have hle := hok.1.le
    refine ⟨?_, fun ch => le_refl _, fun ch => ?_⟩ <;> dsimp only <;> omega
  | process =>
    rw [hpos] at hok
    have hle := hok.1.le
    refine ⟨?_, fun ch => le_refl _, fun ch => ?_⟩ <;> dsimp only <;> omega
  | addAllData ops output =>
    rw [hpos] at hok
    have hle := hok.1.le
    refine ⟨?_, fun ch => ?_, fun ch => ?_⟩
    · dsimp only
      omega
    · dsimp only
      split <;> omega
    · dsimp only
      omega
  | closing c =>
    rw [hpos] at hok
    dsimp only at hok ⊢
    rw [hok.1, hclean]
    refine ⟨le_refl _, fun ch => le_refl _, fun ch => ?_⟩
    omega
  | returned =>
    rw [hpos] at hok
    dsimp only at hok ⊢
    rw [hok, hclean]
    refine ⟨le_refl _, fun ch => le_refl _, fun ch => ?_⟩
    omega

/-- Behind a full channel is a consumer that is in an earlier round. -/
theorem Counted.full_channel (hs : x.Stuck s) {p : Producer} {ch : Nat} (hf : x.Feeds p ch)
    (hfull : 1000 ≤ (s.chan ch).queue.length) : ∃ b, x.Busy b ∧ (s.node b).round < s.sent x.rounds p ch := by
  obtain hout | ⟨b, hr⟩ := hg.taken p ch hf
  · have hread := hs (.read ch)
    simp only [Flow.step, if_pos hout] at hread
    split at hread
    next => cases hread
    next hqueue =>
      rw [hqueue, List.length_nil] at hfull
      omega
  · have hcount := h.queue p b ch hf hr
    have hround := (h.round_le hr.1).2.2 ch
    exact ⟨b, hr.1, by omega⟩

/-- The source holds no one back but behind a consumer that is in an earlier round. -/
theorem Counted.source_ahead (hs : x.Stuck s) (ch : Nat) :
    s.sent x.rounds .graphInput ch = x.rounds ∨
      ∃ b, x.Busy b ∧ (s.node b).round < s.sent x.rounds .graphInput ch := by
  obtain ⟨hpos, -⟩ | hpos | ⟨k, ch', ops, output, hpos, hfull⟩ := h.source_waits hg (hs .source)
  · simp [FlowState.sent, SourceAt.sent, hpos]
  · simp [FlowState.sent, SourceAt.sent, hpos]
  · have hok := h.source
    simp only [SourceOk, hpos] at hok
    obtain ⟨-, pre, hpre⟩ := hok
    have hf : x.Feeds .graphInput ch' := ⟨trivial, by rw [hpre]; simp⟩
    obtain ⟨b, hb, hround⟩ := h.full_channel hg hs hf hfull
    refine Or.inr ⟨b, hb, ?_⟩
    simp only [FlowState.sent, SourceAt.sent, hpos, List.mem_cons, true_or, ↓reduceIte] at hround ⊢
    split <;> omega

/-- A node whose rounds are not through waits for one in an earlier round, or for one before it in the graph. -/
theorem Counted.behind (hs : x.Stuck s) {rank : Nat → Nat}
    (hrank : ∀ a b ch, x.Feeds (.node a) ch → x.Reads b ch → rank a < rank b) {a : Nat} (ha : x.Busy a) :
    x.rounds ≤ (s.node a).round ∨ (∃ b, x.Busy b ∧ (s.node b).round < (s.node a).round) ∨
      ∃ b, x.Busy b ∧ (s.node b).round ≤ (s.node a).round ∧ rank b < rank a := by
  have hok := h.node a ha
  unfold NodeOk at hok
  cases h.waitsFor hg ha (hs.node ha.1) with
  | returned hpos =>
    rw [hpos] at hok
    left
    simp only [FlowNode.round, hpos]
    rw [show (s.node a).rounds = x.cleanRounds a from hok]
    simp [cleanRounds]
  | empty ch rest got hpos hqueue hclosed =>
    rw [hpos] at hok
    obtain ⟨-, pre, hpre, -⟩ := hok
    have hreads : x.Reads a ch := ⟨ha, by rw [hpre]; simp⟩
    obtain ⟨p, hf⟩ := hg.fed a ch hreads
    have hcount := h.queue p a ch hf hreads
    have hround : (s.node a).round = (s.node a).rounds.length := by simp only [FlowNode.round, hpos]
    have hrec : (s.node a).received x.rounds ch = min x.rounds (s.node a).rounds.length := by
      simp [FlowNode.received, hpos]
    rw [hqueue, List.length_nil, Nat.zero_add, hrec] at hcount
    cases p with
    | graphInput =>
      obtain hall | ⟨b, hb, hlt⟩ := h.source_ahead hg hs ch
      · left
        omega
      · exact Or.inr (Or.inl ⟨b, hb, by omega⟩)
    | node b =>
      have hsent := (h.round_le hf.1).2.1 ch
      have hsame : s.sent x.rounds (.node b) ch = (s.node b).sent ch := rfl
      exact Or.inr (Or.inr ⟨b, hf.1, by omega, hrank b a ch hf hreads⟩)
  | full ch ops output hpos hfull =>
    rw [hpos] at hok
    obtain ⟨-, -, pre, hpre⟩ := hok
    have hf : x.Feeds (.node a) ch := ⟨ha, by rw [hpre]; simp⟩
    obtain ⟨b, hb, hlt⟩ := h.full_channel hg hs hf hfull
    refine Or.inr (Or.inl ⟨b, hb, ?_⟩)
    simpa [FlowState.sent, FlowNode.sent, FlowNode.round, hpos] using hlt

/-- Where nothing can go on, every node has been through all rounds. -/
theorem Counted.all_rounds (hs : x.Stuck s) {a : Nat} (ha : x.Busy a) : (s.node a).round = x.rounds := by
  refine Nat.le_antisymm (h.round_le ha).1 ?_
  obtain ⟨rank, hrank⟩ := hg.forward
  have hall : ∀ i r a, x.Busy a → (s.node a).round = i → rank a = r → x.rounds ≤ i := by
    intro i
    induction i using Nat.strong_induction_on with
    | _ i ihround =>
      intro r
      induction r using Nat.strong_induction_on with
      | _ r ihrank =>
        intro a ha hi hr
        obtain hdone | ⟨b, hb, hlt⟩ | ⟨b, hb, hle, hlt⟩ := h.behind hg hs hrank ha
        · rwa [hi] at hdone
        · have hb' := ihround _ (hi ▸ hlt) (rank b) b hb rfl rfl
          omega
        · obtain hlt' | heq := Nat.lt_or_eq_of_le hle
          · have hb' := ihround _ (hi ▸ hlt') (rank b) b hb rfl rfl
            omega
          · exact ihrank (rank b) (hr ▸ hlt) b hb (heq.trans hi) rfl
  exact hall _ _ a ha rfl rfl

/-- Then no one waits to send. -/
theorem Counted.source_through (hs : x.Stuck s) :
    (s.source = .between x.rounds ∧ x.stops = false) ∨ s.source = .returned := by
  obtain hdone | hdone | ⟨k, ch, ops, output, hpos, hfull⟩ := h.source_waits hg (hs .source)
  · exact Or.inl hdone
  · exact Or.inr hdone
  · have hok := h.source
    simp only [SourceOk, hpos] at hok
    obtain ⟨hlt, pre, hpre⟩ := hok
    have hf : x.Feeds .graphInput ch := ⟨trivial, by rw [hpre]; simp⟩
    obtain ⟨b, hb, hround⟩ := h.full_channel hg hs hf hfull
    rw [h.all_rounds hg hs hb] at hround
    simp only [FlowState.sent, SourceAt.sent, hpos, List.mem_cons, true_or, ↓reduceIte] at hround
    omega

/-- And everything has been sent. -/
theorem Counted.sent_all (hs : x.Stuck s) {p : Producer} (hp : x.Has p) (ch : Nat) :
    s.sent x.rounds p ch = x.rounds := by
  cases p with
  | graphInput =>
    obtain ⟨hpos, -⟩ | hpos := h.source_through hg hs
    · simp [FlowState.sent, SourceAt.sent, hpos]
    · simp [FlowState.sent, SourceAt.sent, hpos]
  | node a =>
    refine Nat.le_antisymm (h.sent_le hp ch).1 ?_
    rw [← h.all_rounds hg hs hp]
    exact (h.round_le hp).2.1 ch

theorem Counted.node_through (hs : x.Stuck s) {a : Nat} (ha : x.Busy a) :
    (s.node a).pos = .returned ∨ ∃ ch rest got, (s.node a).pos = .subscribe (ch :: rest) got ∧
      (s.chan ch).closed = false := by
  cases h.waitsFor hg ha (hs.node ha.1) with
  | returned hpos => exact Or.inl hpos
  | empty ch rest got hpos hqueue hclosed => exact Or.inr ⟨ch, rest, got, hpos, hclosed⟩
  | full ch ops output hpos hfull =>
    have hok := h.node a ha
    simp only [NodeOk, hpos] at hok
    obtain ⟨-, -, pre, hpre⟩ := hok
    have hf : x.Feeds (.node a) ch := ⟨ha, by rw [hpre]; simp⟩
    obtain ⟨b, hb, hround⟩ := h.full_channel hg hs hf hfull
    have hall := h.all_rounds hg hs ha
    rw [h.all_rounds hg hs hb] at hround
    simp only [FlowNode.round, hpos] at hall
    simp only [FlowState.sent, FlowNode.sent, hpos, List.mem_cons, true_or, ↓reduceIte] at hround
    omega

/-- With the graph inputs closed, every node returns. -/
theorem Counted.all_return (hs : x.Stuck s) (hstops : x.stops = true) {a : Nat} (ha : x.Busy a) :
    (s.node a).pos = .returned := by
  have hsource : s.source = .returned := by
    obtain ⟨-, hno⟩ | hdone := h.source_through hg hs
    · rw [hstops] at hno
      cases hno
    · exact hdone
  obtain ⟨rank, hrank⟩ := hg.forward
  have hall : ∀ r a, x.Busy a → rank a = r → (s.node a).pos = .returned := by
    intro r
    induction r using Nat.strong_induction_on with
    | _ r ih =>
      intro a ha hr
      obtain hdone | ⟨ch, rest, got, hpos, hclosed⟩ := h.node_through hg hs ha
      · exact hdone
      · have hok := h.node a ha
        simp only [NodeOk, hpos] at hok
        obtain ⟨-, pre, hpre, -⟩ := hok
        have hreads : x.Reads a ch := ⟨ha, by rw [hpre]; simp⟩
        obtain ⟨p, hf⟩ := hg.fed a ch hreads
        have hend : s.Closed p ch := by
          cases p with
          | graphInput => simp only [FlowState.Closed, hsource, SourceAt.Closed]
          | node b =>
            have hb := ih (rank b) (hr ▸ hrank b a ch hf hreads) b hf.1 rfl
            simp only [FlowState.Closed, FlowNode.Closed, hb]
        rw [(h.closed p ch hf).mpr hend] at hclosed
        cases hclosed
  exact hall _ a ha rfl

end Waits

end Flow

end Dni
