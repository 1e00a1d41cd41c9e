import Dni.GraphPaced

namespace Dni

open GoMap Runs

variable {V : Type}

namespace Flow

variable {x : Flow V} {s t : FlowState V}

section Step

variable (hg : x.Sound) (hc : x.Counted s) (ho : x.Open s)

include hc ho

/-- A node goes through its rounds in order. -/
theorem Open.processed_mono {a : Nat} (ha : x.Busy a) (ht : x.stepNode s a = some t) (b : Nat) :
    (s.node b).processed ≤ (t.node b).processed := by
  have hmove : ∀ m, t.node = Function.update s.node a m → (s.node a).processed ≤ m.processed →
      (s.node b).processed ≤ (t.node b).processed := by
    intro m hnode hle
    by_cases hba : b = a
    · rw [hba, hnode, Function.update_self]
      exact hle
    · rw [hnode, Function.update_of_ne hba]
  obtain ⟨hclosing, hreturned, -⟩ := ho.node a ha
  cases hpos : (s.node a).pos with
  | subscribe rest got =>
    cases rest with
    | nil =>
      simp only [stepNode, hpos] at ht
      split at ht <;> rw [Option.some.injEq] at ht <;> subst ht <;>
        exact hmove _ rfl (by simp [FlowNode.processed, hpos])
    | cons ch rest =>
      simp only [stepNode, hpos] at ht
      split at ht
      next =>
        rw [Option.some.injEq] at ht
        subst ht
        exact hmove _ rfl (by simp [FlowNode.processed, hpos])
      next =>
        split at ht
        next =>
          rw [Option.some.injEq] at ht
          subst ht
          exact hmove _ rfl (by simp [FlowNode.processed, hpos])
        next => cases ht
  | lock allok =>
    have hok := hc.node a ha
    simp only [NodeOk, hpos] at hok
    obtain ⟨hrun, -, hallok⟩ := hok
    simp only [stepNode, hpos, hallok, if_neg (Bool.eq_false_iff.mp hrun.unlocked), Bool.not_true,
      Bool.false_eq_true, ↓reduceIte, Option.some.injEq] at ht
    subst ht
    exact hmove _ rfl (by simp [FlowNode.processed, hpos])
  | process =>
    simp only [stepNode, hpos, Option.some.injEq] at ht
    subst ht
    obtain ⟨outputs, hnode, -⟩ := process_frame (x := x) s a
    exact hmove _ hnode (by simp [FlowNode.processed, hpos])
  | addAllData ops output =>
    cases ops with
    | nil =>
      simp only [stepNode, hpos, Option.some.injEq] at ht
      subst ht
      exact hmove _ rfl (by simp [FlowNode.processed, hpos])
    | cons op ops =>
      simp only [stepNode, hpos, Option.map_eq_some_iff] at ht
      obtain ⟨⟨u, output'⟩, hsend, ht⟩ := ht
      subst ht
      have hands := FlowState.hands_of_send hsend fun _ => ⟨rfl, rfl, rfl, rfl⟩
      refine hmove { s.node a with pos := .addAllData ops output' } ?_ (by simp [FlowNode.processed, hpos])
      show Function.update u.node a _ = _
      rw [hands.node]
  | closing c => exact absurd hpos (hclosing c)
  | returned => exact absurd hpos hreturned

omit hc in
/-- The caller stays in its rounds, or begins the next one. -/
theorem Open.source_begins (hstops : x.stops = false) (ht : x.stepSource s = some t) :
    (t.source.begun x.rounds ≤ s.source.begun x.rounds) ∨
      ∃ k, s.source = .between k ∧ t.source.begun x.rounds = k + 1 := by
  cases hpos : s.source with
  | between k =>
    simp only [stepSource, hpos, hstops, Bool.false_eq_true, ↓reduceIte] at ht
    split at ht
    next =>
      rw [Option.some.injEq] at ht
      subst ht
      exact Or.inr ⟨k, rfl, rfl⟩
    next => cases ht
  | adding k ops output =>
    cases ops with
    | nil =>
      simp only [stepSource, hpos, Option.some.injEq] at ht
      subst ht
      exact Or.inl (le_refl _)
    | cons op ops =>
      simp only [stepSource, hpos, Option.map_eq_some_iff] at ht
      obtain ⟨⟨u, output'⟩, -, ht⟩ := ht
      subst ht
      exact Or.inl (le_refl _)
  | closing c => exact absurd hpos (ho.source c).1
  | returned => exact absurd hpos (ho.source ⟨none, []⟩).2

theorem Paced.step (h : x.Paced s) (hstops : x.stops = false) (hleads : ∀ a < x.size, x.Leads a) {e : FlowEvent}
    (hkeeps : s.Keeps e) (hawaits : x.Awaits s e) (ht : x.step s e = some t) : x.Paced t := by
  cases e with
  | source =>
    obtain ⟨hnode, hreads, -⟩ := source_left ht hkeeps
    -- a round begins only when the one before it has been read
    obtain hle | ⟨k, hpos, hk⟩ := ho.source_begins hstops ht
    · refine ⟨fun a ha => ?_, fun ch hout => ?_⟩
      · rw [hnode]
        exact hle.trans (h.node a ha)
      · rw [hreads]
        exact hle.trans (h.output ch hout)
    · have hread : ∀ ch ∈ x.outputs, (s.reads ch).length = k := by simpa only [Awaits, hpos] using hawaits
      refine ⟨fun a ha => ?_, fun ch hout => ?_⟩
      · rw [hnode, hk]
        exact Nat.succ_le_succ (ho.processed_of_reads hc hread (hleads a ha.1))
      · rw [hreads, hk, hread ch hout]
  | node a =>
    simp only [Flow.step] at ht
    split at ht
    next ha =>
      have hbusy := (hleads a ha).busy
      obtain ⟨hsource, hreads, -⟩ := hc.node_left hbusy ht hkeeps
      refine ⟨fun b hb => ?_, fun ch hout => ?_⟩
      · rw [hsource]
        exact (h.node b hb).trans (Nat.succ_le_succ (ho.processed_mono hc hbusy ht b))
      · rw [hsource, hreads]
        exact h.output ch hout
    next => cases ht
  | read ch =>
    simp only [Flow.step] at ht
    split at ht
    next =>
      split at ht
      next =>
        rw [Option.some.injEq] at ht
        subst ht
        refine ⟨h.node, fun ch' hout => ?_⟩
        have hle := h.output ch' hout
        by_cases hne : ch' = ch
        · subst hne
          simp only [Function.update_self, List.length_append]
          exact hle.trans (by omega)
        · simp only [Function.update_of_ne hne]
          exact hle
      next => cases ht
    next => cases ht

end Step

/-- What the caller can do and what the goroutines do has come to an end. -/
def Rests (x : Flow V) (s : FlowState V) : Prop := ∀ e, x.Awaits s e → x.step s e = none

section Rest

variable (hg : x.Sound) (hc : x.Counted s) (ho : x.Open s)

include hg hc ho

/-- Between two rounds a graph is one whose input ends there. -/
theorem Open.counted_until {k : Nat} (hpos : s.source = .between k) :
    ({ x with rounds := k } : Flow V).Counted s := by
  have hbegun : s.source.begun x.rounds = k := by rw [hpos]; rfl
  have hk : k ≤ x.rounds := by
    have hok := hc.source
    rwa [hpos] at hok
  have hsent : ∀ p ch, s.sent k p ch = s.sent x.rounds p ch := by
    intro p ch
    cases p with
    | graphInput => simp only [FlowState.sent, hpos, SourceAt.sent]
    | node a => rfl
  have hsent_le : ∀ p ch, x.Feeds p ch → s.sent x.rounds p ch ≤ k := fun p ch hf => hbegun ▸ ho.sent_le hg hc hf.1 ch
  have hreceived : ∀ p a ch, x.Feeds p ch → x.Reads a ch →
      (s.node a).received x.rounds ch ≤ k ∧ (s.node a).received k ch = (s.node a).received x.rounds ch := by
    intro p a ch hf hr
    have hcount := hc.queue p a ch hf hr
    have hle := hsent_le p ch hf
    have hmin : (s.node a).received x.rounds ch ≤ k := by omega
    refine ⟨hmin, ?_⟩
    unfold FlowNode.received at hmin ⊢
    split at hmin <;> omega
  refine ⟨fun a ha => ?_, hc.idle, ?_, fun p a ch hf hr => ?_, fun p ch hf hout => ?_, hc.closed⟩
  · have hle := hbegun ▸ ho.rounds_le hg hc ha
    obtain ⟨hclosing, hreturned, -⟩ := ho.node a ha
    have hok := hc.node a ha
    unfold NodeOk at hok ⊢
    cases hposa : (s.node a).pos with
    | subscribe rest got =>
      rw [hposa] at hok
      obtain ⟨hrun, pre, hpre, hgot⟩ := hok
      refine ⟨⟨hrun.rounds, hle, hrun.unlocked⟩, pre, hpre, ?_⟩
      cases pre with
      | nil => exact hgot
      | cons ch pre =>
        have hreads : x.Reads a ch := ⟨ha, by rw [hpre]; simp⟩
        have hnot : ch ∉ rest := by
          have hnodup := hg.nodup a ha.1
          rw [hpre] at hnodup
          exact fun hmem => (List.nodup_append.mp hnodup).2.2 ch List.mem_cons_self ch hmem rfl
        obtain ⟨p, hf⟩ := hg.fed a ch hreads
        have hmin := (hreceived p a ch hf hreads).1
        simp only [FlowNode.received, hposa, if_neg hnot] at hmin
        have hiff : (s.node a).rounds.length < x.rounds ↔ (s.node a).rounds.length < k := by omega
        rw [hgot, decide_eq_decide.mpr hiff]
    | lock allok =>
      rw [hposa] at hok
      exact ⟨⟨hok.1.rounds, hle, hok.1.unlocked⟩, hok.2⟩
    | process =>
      rw [hposa] at hok
      exact ⟨⟨hok.1.rounds, hle, hok.1.unlocked⟩, hok.2⟩
    | addAllData ops output =>
      rw [hposa] at hok
      exact ⟨⟨hok.1.rounds, hle, hok.1.unlocked⟩, hok.2⟩
    | closing c => exact absurd hposa (hclosing c)
    | returned => exact absurd hposa hreturned
  · rw [hpos]
    exact le_refl k
  · show _ + (s.node a).received k ch = s.sent k p ch
    rw [(hreceived p a ch hf hr).2, hsent]
    exact hc.queue p a ch hf hr
  · show _ = s.sent k p ch
    rw [hsent]
    exact hc.output p ch hf hout

/-- A caller that waits has read everything: nobody waits for ever. -/
theorem Rests.reads (hrests : x.Rests s) (hstops : x.stops = false) :
    ∀ ch ∈ x.outputs, (s.reads ch).length = x.rounds := by
  have hother : ∀ e, e ≠ .source → x.step s e = none := by
    intro e he
    refine hrests e ?_
    cases e with
    | source => exact absurd rfl he
    | node a => trivial
    | read ch => trivial
  have hread : ∀ k, ({ x with rounds := k } : Flow V).Counted s → ({ x with rounds := k } : Flow V).Stuck s →
      ∀ ch ∈ x.outputs, (s.reads ch).length = k := by
    intro k hck hstuck ch hout
    obtain ⟨p, hf⟩ := hg.made ch hout
    have hcount := hck.output p ch hf hout
    have hsent := hck.sent_all (show ({ x with rounds := k } : Flow V).Sound from hg) hstuck hf.1 ch
    have hqueue := hstuck (.read ch)
    simp only [Flow.step, if_pos hout] at hqueue
    split at hqueue
    next => cases hqueue
    next hempty =>
      rw [hempty, List.length_nil, Nat.zero_add] at hcount
      exact hcount.trans hsent
  cases hpos : s.source with
  | between k =>
    have hk := hread k (ho.counted_until hg hc hpos) fun e => by
      cases e with
      | source => simp [Flow.step, stepSource, hpos, hstops]
      | node a => exact hother (.node a) (by simp)
      | read ch => exact hother (.read ch) (by simp)
    -- so the next round could begin
    have hnone := hrests .source (by simpa only [Awaits, hpos] using hk)
    have hle := hc.source
    rw [hpos] at hle
    simp only [Flow.step, stepSource, hpos, hstops, Bool.false_eq_true, ↓reduceIte] at hnone
    split at hnone
    next => cases hnone
    next hge =>
      have hend : k = x.rounds := Nat.le_antisymm hle (Nat.le_of_not_lt hge)
      rwa [hend] at hk
  | adding k ops output =>
    refine hread x.rounds hc fun e => ?_
    cases e with
    | source => exact hrests .source (by simp only [Awaits, hpos])
    | node a => exact hother (.node a) (by simp)
    | read ch => exact hother (.read ch) (by simp)
  | closing c => exact absurd hpos (ho.source c).1
  | returned => exact absurd hpos (ho.source ⟨none, []⟩).2

end Rest

/-- A run whose caller waits: no datum that is on its way is changed. -/
structure InLockstep (x : Flow V) (out : Nat → Producer → Nat → V) (value : Nat → Nat → V) (s : FlowState V) : Prop where
  sync : x.InSync out value s
  owned : x.Owned s
  paced : x.Paced s

section Run

variable {out : Nat → Producer → Nat → V} {value : Nat → Nat → V}

/-- A graph of which every node leads to an output, with tasks that leave their inputs alone. -/
structure Steady (x : Flow V) (out : Nat → Producer → Nat → V) (value : Nat → Nat → V) : Prop where
  sound : x.Sound
  evaluates : x.Evaluates out value
  stops : x.stops = false
  starts : ∀ p, sending (x.sends p) = false
  leads : ∀ a < x.size, x.Leads a
  keeps : ∀ a k values j v, values[j]? = some v → (x.task a k values).inputs j = v

variable (hx : x.Steady out value) (h : x.InLockstep out value s)

include hx h

theorem InLockstep.synced {e : FlowEvent} (ht : x.step s e = some t) : s.Keeps e ∧ x.InSync out value t := by
  obtain ⟨⟨hc, ho, hvalued⟩, hw, hp⟩ := h
  refine InSync.step hx.sound hx.evaluates hx.stops ⟨hc, ho, hvalued⟩ ht ?_
  cases e with
  | source => trivial
  | read ch => trivial
  | node a =>
    intro hprocess
    have hpos : (s.node a).pos = .process := by
      cases hpos : (s.node a).pos with
      | process => rfl
      | subscribe rest got => simp [hpos, NodeAt.isProcess] at hprocess
      | lock allok => simp [hpos, NodeAt.isProcess] at hprocess
      | addAllData ops output => simp [hpos, NodeAt.isProcess] at hprocess
      | closing c => simp [hpos, NodeAt.isProcess] at hprocess
      | returned => simp [hpos, NodeAt.isProcess] at hprocess
    simp only [Flow.step] at ht
    split at ht
    next ha => exact hp.spares hx.sound hc ho hw (hx.leads a ha).busy hpos (hx.keeps a _) hprocess
    next => cases ht

theorem InLockstep.step {e : FlowEvent} (ht : x.step s e = some t) (hawaits : x.Awaits s e) :
    x.InLockstep out value t ∧ x.left t < x.left s := by
  obtain ⟨hkept, hnext⟩ := h.synced hx ht
  obtain ⟨⟨hc, ho, hvalued⟩, hw, hp⟩ := h
  refine ⟨⟨hnext, ?_, hp.step hc ho hx.stops hx.leads hkept hawaits ht⟩, hc.left_lt hx.sound ht hkept⟩
  exact hw.step hx.sound hc ho (fun a ha => (hx.leads a ha).busy)
    (fun a ha => (hvalued.node a (hx.leads a ha).busy).slots) hx.starts hx.stops ht

theorem InLockstep.node_same {a : Nat} (ht : x.step s (.node a) = some t) :
    t.source = s.source ∧ t.reads = s.reads := by
  obtain ⟨hkept, -⟩ := h.synced hx ht
  simp only [Flow.step] at ht
  split at ht
  next ha =>
    obtain ⟨hsource, hreads, -⟩ := h.sync.counted.node_left (hx.leads a ha).busy ht hkept
    exact ⟨hsource, hreads⟩
  next => cases ht

theorem InLockstep.source_same (ht : x.step s .source = some t) : t.reads = s.reads := by
  obtain ⟨hkept, -⟩ := h.synced hx ht
  exact (source_left ht hkept).2.1

omit hx h in
theorem inLockstep_init : x.InLockstep out value x.init where
  sync := inSync_init
  owned := owned_init
  paced := ⟨fun _ _ => Nat.zero_le _, fun _ _ => Nat.zero_le _⟩

end Run

end Flow

/-- What the node puts out comes to a graph output, by other nodes or at once. -/
inductive GraphUnit.Leads (gu : GraphUnit) : Nat → Prop
  | output (a : Nat) (s : String) (hs : s ∈ gu.outputNames (.node a)) (hout : s ∈ gu.graphOutputStream.name) : Leads gu a
  | node (a b : Nat) (s : String) (hs : s ∈ gu.outputNames (.node a)) (hfree : s ∉ gu.graphInputStream.name)
    (hr : s ∈ gu.inputNames b) (hb : Leads gu b) : Leads gu a

namespace GraphUnit

variable {gu : GraphUnit} {w : Wiring} {cord : Producer → Order String (List Consumer)} {sortedNodes : List Nat}

theorem LinkedRight.leads (hl : gu.LinkedRight w sortedNodes)
    (hinputs : ∀ node ∈ gu.nodes, node.outputStream.name ≠ [] → node.inputStream.name ≠ []) {a : Nat} (h : gu.Leads a) :
    (gu.flow w cord).Leads a := by
  have hpresent : ∀ b s, s ∈ gu.outputNames (.node b) → Present gu.streams (.node b) := by
    intro b s hs
    obtain ⟨node, hnode, -⟩ := makes_iff.mpr hs
    exact (List.getElem?_eq_some_iff.mp hnode).1
  induction h with
  | output a s hs hout =>
    obtain ⟨ch, hch⟩ := (hl.channel .graphOutput s).mpr hout
    refine .output a ch ?_ ((mem_outputs_flow hl.channel).mpr ⟨s, hch⟩)
    exact (feeds_iff hl.wired hl.channel hl.inj hinputs hch).mpr ⟨hpresent a s hs, makes_iff.mpr hs, trivial⟩
  | node a b s hs hfree hr _ ih =>
    obtain ⟨ch, hch⟩ := (hl.channel (.node b) s).mpr (takes_iff.mpr hr)
    refine .node a b ch ?_ ((reads_iff hl.channel).mpr ⟨s, hch⟩) ih
    exact (feeds_iff hl.wired hl.channel hl.inj hinputs hch).mpr ⟨hpresent a s hs, makes_iff.mpr hs, hfree⟩

theorem sending_sends (p : Producer) : sending ((gu.flow w cord).sends p) = false := by
  show sending (addAllData gu.channels w p (gu.outputNames p)) = false
  cases gu.outputNames p with
  | nil => rfl
  | cons s streams => rfl

variable (gu) in
/-- What all rounds put out on a graph output, evaluated one after the other. -/
def outputValues (sortedNodes : List Nat) (x : Flow V) (name : String) : List V :=
  (List.range x.rounds).map fun k =>
    gu.streamValue (gu.evalRound (x.task · (k + 1)) x.nil sortedNodes (x.given k)) .graphOutput name

variable (gu) in
/-- Every graph output has had the values of the first rounds in their order, of all rounds where nothing can go on;
no channel holds the data of two rounds. -/
structure Lockstep (sortedNodes : List Nat) (x : Flow V) (s : FlowState V) : Prop where
  reads : ∀ name ch, gu.channels.channel .graphOutput name = some ch →
    s.reads ch <+: gu.outputValues sortedNodes x name
  ends : x.Rests s → ∀ name ch, gu.channels.channel .graphOutput name = some ch →
    s.reads ch = gu.outputValues sortedNodes x name
  queue : ∀ ch ∈ x.channels, (s.chan ch).queue.length ≤ 1

/-- A linked graph is one that can be run in lockstep. -/
theorem LinkedRight.steady (hl : gu.LinkedRight w sortedNodes)
    (hinputs : ∀ node ∈ gu.nodes, node.inputStream.name ≠ [])
    (hnames : ∀ node ∈ gu.nodes, ∀ s ∈ node.inputStream.name, gu.graphInputStream.name.count s ≤ 1)
    (hleads : ∀ a < gu.nodes.length, gu.Leads a)
    {x : Flow V} (hx : x.toFlowGraph = gu.flow w cord) (hstops : x.stops = false)
    (hkeeps : ∀ a k values j v, values[j]? = some v → (x.task a k values).inputs j = v) :
    ∃ value : Nat → Nat → V,
      x.Steady (fun k => gu.evalRound (x.task · (k + 1)) x.nil sortedNodes (x.given k)) value ∧
      ∀ k name ch, gu.channels.channel .graphOutput name = some ch →
        value k ch =
          gu.streamValue (gu.evalRound (x.task · (k + 1)) x.nil sortedNodes (x.given k)) .graphOutput name := by
  obtain ⟨value, hv, hvalue⟩ := hl.evaluates_each hnames hx
  have hfed : ∀ node ∈ gu.nodes, node.outputStream.name ≠ [] → node.inputStream.name ≠ [] :=
    fun node hnode _ => hinputs node hnode
  refine ⟨value, ⟨hx ▸ hl.sound hnames hfed, hv, hstops, ?_, ?_, hkeeps⟩, fun k name ch => hvalue k _ name ch⟩
  · rw [hx]
    exact sending_sends
  · rw [hx]
    exact fun a ha => hl.leads hfed (hleads a ha)

/-- The runs of a linked graph whose caller waits. -/
theorem LinkedRight.lockstep (hl : gu.LinkedRight w sortedNodes)
    (hinputs : ∀ node ∈ gu.nodes, node.inputStream.name ≠ [])
    (hnames : ∀ node ∈ gu.nodes, ∀ s ∈ node.inputStream.name, gu.graphInputStream.name.count s ≤ 1)
    (hleads : ∀ a < gu.nodes.length, gu.Leads a)
    {x : Flow V} (hx : x.toFlowGraph = gu.flow w cord) (hstops : x.stops = false)
    (hkeeps : ∀ a k values j v, values[j]? = some v → (x.task a k values).inputs j = v) :
    ∃ bound, ∀ es, Meets x.step x.Awaits x.init es →
      Always x.step (gu.Lockstep sortedNodes x) x.init es ∧
        ∀ t, es.foldlM x.step x.init = some t → es.length ≤ bound := by
  obtain ⟨value, hsteady, hvalue⟩ := hl.steady hinputs hnames hleads hx hstops hkeeps
  have hg := hsteady.sound
  have hstep : ∀ s e t, x.InLockstep (fun k => gu.evalRound (x.task · (k + 1)) x.nil sortedNodes (x.given k)) value s →
      x.step s e = some t → x.Awaits s e →
      x.InLockstep (fun k => gu.evalRound (x.task · (k + 1)) x.nil sortedNodes (x.given k)) value t ∧
        x.left t < x.left s :=
    fun s e t hs ht hawaits => hs.step hsteady ht hawaits
  have hgood : ∀ s, x.InLockstep (fun k => gu.evalRound (x.task · (k + 1)) x.nil sortedNodes (x.given k)) value s →
      gu.Lockstep sortedNodes x s := by
    intro s hs
    have hsync := hs.sync
    have hc := hsync.counted
    have ho := hsync.opened
    have hout : ∀ name ch, gu.channels.channel .graphOutput name = some ch → ch ∈ x.outputs ∧
        (List.range x.rounds).map (value · ch) = gu.outputValues sortedNodes x name := by
      intro name ch hch
      refine ⟨?_, List.map_congr_left fun k _ => hvalue k _ _ hch⟩
      rw [hx]
      exact (mem_outputs_flow hl.channel).mpr ⟨name, hch⟩
    have hfirst : ∀ name ch, gu.channels.channel .graphOutput name = some ch →
        s.reads ch <+: gu.outputValues sortedNodes x name := by
      intro name ch hch
      rw [← (hout name ch hch).2]
      exact (hsync.reads_values hg (hout name ch hch).1).1
    refine ⟨hfirst, fun hrests name ch hch => ?_, fun ch hch => ?_⟩
    · refine (hfirst name ch hch).eq_of_length ?_
      rw [hrests.reads hg hc ho hstops ch (hout name ch hch).1, outputValues, List.length_map, List.length_range]
    · obtain hch | hch := List.mem_append.mp hch
      · obtain ⟨a, ha, hch⟩ := List.mem_flatMap.mp hch
        obtain ⟨p, hf⟩ := hg.fed a ch ⟨⟨List.mem_range.mp ha, List.ne_nil_of_mem hch⟩, hch⟩
        exact hs.paced.queue_le hg hc ho hf
      · obtain ⟨p, hf⟩ := hg.made ch hch
        exact hs.paced.queue_le hg hc ho hf
  refine ⟨x.left x.init, fun es hmeets => ⟨?_, fun t ht => length_le_of_less hstep Flow.inLockstep_init hmeets ht⟩⟩
  exact (always_of_meets (fun s e t hs ht hawaits => (hstep s e t hs ht hawaits).1) Flow.inLockstep_init hmeets).imp hgood

/-- In an accepted graph whose nodes all have inputs and lead to a graph output, of which no graph input is listed
twice and no task changes its inputs, every run whose caller reads each round before it adds the next one puts out
what an evaluation of each round gives. None of these runs goes on for ever, and none is blocked before its end. -/
theorem lockstep_dataflow (gu : GraphUnit) (ord : EdgeOrders) (lord : Order String (List Nat))
    (cord : Producer → Order String (List Consumer)) {nodeEdge : NodeEdges} {sortedNodes : List Nat}
    (h : gu.getNodeEdge ord = some (.ok (nodeEdge, sortedNodes)))
    (hinputs : ∀ node ∈ gu.nodes, node.inputStream.name ≠ [])
    (hnames : ∀ node ∈ gu.nodes, ∀ s ∈ node.inputStream.name, gu.graphInputStream.name.count s ≤ 1)
    (hleads : ∀ a < gu.nodes.length, gu.Leads a)
    (x : Flow V) (hx : x.toFlowGraph = gu.flow (gu.wiring lord nodeEdge) cord) (hstops : x.stops = false)
    (hkeeps : ∀ a k values j v, values[j]? = some v → (x.task a k values).inputs j = v) :
    ∃ bound, ∀ es, Meets x.step x.Awaits x.init es →
      Always x.step (gu.Lockstep sortedNodes x) x.init es ∧
        ∀ t, es.foldlM x.step x.init = some t → es.length ≤ bound := by
  exact (gu.accepted_linked ord lord h).lockstep hinputs hnames hleads hx hstops hkeeps

/-- Two rounds, each of which is read before the next is added. -/
theorem lockstep_dataflow_join : Always (joinFlow 2 false).step
    (joinGraph.Lockstep [0, 1] (joinFlow 2 false)) (joinFlow 2 false).init (joinRound ++ joinRound) := by
  have hlast : joinGraph.Leads 1 := .output 1 "d" (by decide) (by decide)
  have hleads : ∀ a < joinGraph.nodes.length, joinGraph.Leads a := by
    intro a ha
    match a, ha with
    | 0, _ => exact .node 0 1 "c" (by decide) (by decide) (by decide) hlast
    | 1, _ => exact hlast
  have hkeeps : ∀ (a k : Nat) (values : List Nat) (j v : Nat), values[j]? = some v →
      ((joinFlow 2 false).task a k values).inputs j = v := by
    intro a k values j v hj
    simp [joinFlow, hj]
  obtain ⟨bound, h⟩ := @lockstep_dataflow Nat joinGraph ⟨.stored, fun _ => .stored⟩ .stored
    (fun _ => .stored) joinEdge [0, 1] rfl (by decide) (by decide) hleads (joinFlow 2 false) rfl rfl hkeeps
  exact (h _ (by decide)).1

end GraphUnit

end Dni
