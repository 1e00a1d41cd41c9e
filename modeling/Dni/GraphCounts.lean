import Dni.GraphRun

namespace Dni

namespace FlowGraph

variable (g : FlowGraph)

/-- A node with inputs; one without any leaves its loop at once. -/
def Busy (a : Nat) : Prop := a < g.size ∧ g.inputs a ≠ []

/-- A producer of the graph. -/
def Has : Producer → Prop
  | .graphInput => True
  | .node a => g.Busy a

/-- The producer sends to the channel in every round. -/
def Feeds (p : Producer) (ch : Nat) : Prop := g.Has p ∧ SendOp.send ch ∈ g.sends p

/-- The node subscribes to the channel. -/
def Reads (a ch : Nat) : Prop := g.Busy a ∧ ch ∈ g.inputs a

/-- Every channel has one producer and one consumer, which are in the order of a rank; a node without inputs closes
nothing. -/
structure Sound : Prop where
  idle : ∀ a < g.size, g.inputs a = [] → g.closes (.node a) = []
  nodup : ∀ a < g.size, (g.inputs a).Nodup
  reader : ∀ a b ch, g.Reads a ch → g.Reads b ch → a = b
  apart : ∀ a ch, g.Reads a ch → ch ∉ g.outputs
  fed : ∀ a ch, g.Reads a ch → ∃ p, g.Feeds p ch
  single : ∀ p q ch, g.Feeds p ch → g.Feeds q ch → p = q
  made : ∀ ch ∈ g.outputs, ∃ p, g.Feeds p ch
  taken : ∀ p ch, g.Feeds p ch → ch ∈ g.outputs ∨ ∃ a, g.Reads a ch
  once : ∀ p ch, g.Has p → (g.sends p).count (.send ch) ≤ 1
  closes : ∀ p ch, g.Has p → (ch ∈ g.closes p ↔ SendOp.send ch ∈ g.sends p)
  closesNodup : ∀ p, g.Has p → (g.closes p).Nodup
  slots : ∀ a < g.size, ∀ id, SendOp.output id ∈ g.sends (.node a) → id < g.slots a
  forward : ∃ rank : Nat → Nat, ∀ a b ch, g.Feeds (.node a) ch → g.Reads b ch → rank a < rank b

theorem Sound.not_reads {g : FlowGraph} (h : g.Sound) {a ch : Nat} (hf : g.Feeds (.node a) ch) : ¬ g.Reads a ch := by
  intro hr
  obtain ⟨rank, hrank⟩ := h.forward
  exact Nat.lt_irrefl _ (hrank a a ch hf hr)

end FlowGraph

/-- What the source has sent to a channel, of `n` rounds. -/
def SourceAt.sent (n ch : Nat) : SourceAt → Nat
  | .between k => k
  | .adding k ops _ => if SendOp.send ch ∈ ops then k else k + 1
  | .closing _ | .returned => n

def SourceAt.Closed (ch : Nat) : SourceAt → Prop
  | .closing c => ch ∉ c.rest
  | .returned => True
  | _ => False

namespace FlowNode

variable (m : FlowNode)

/-- What the node has sent to a channel: one datum for every Subscribe of which it has sent the outputs. -/
def sent (ch : Nat) : Nat :=
  match m.pos with
  | .subscribe _ _ => m.rounds.length
  | .addAllData ops _ => if SendOp.send ch ∈ ops then m.rounds.length - 1 else m.rounds.length
  | _ => m.rounds.length - 1

/-- What the node has received from a channel that `n` data go through. -/
def received (n ch : Nat) : Nat :=
  match m.pos with
  | .subscribe rest _ => min n (if ch ∈ rest then m.rounds.length else m.rounds.length + 1)
  | _ => min n m.rounds.length

def Closed (ch : Nat) : Prop :=
  match m.pos with
  | .closing c => ch ∉ c.rest
  | .returned => True
  | _ => False

/-- Where a node stands that has neither inputs nor outputs. -/
def Idle : Prop :=
  match m.pos with
  | .subscribe rest got => rest = [] ∧ got = []
  | .closing c => c.draining = none ∧ c.rest = []
  | .returned => True
  | _ => False

end FlowNode

variable {V : Type}

namespace FlowState

variable (s : FlowState V)

def sent (n : Nat) (p : Producer) (ch : Nat) : Nat :=
  match p with
  | .graphInput => s.source.sent n ch
  | .node a => (s.node a).sent ch

def Closed (p : Producer) (ch : Nat) : Prop :=
  match p with
  | .graphInput => s.source.Closed ch
  | .node a => (s.node a).Closed ch

/-- The channel that the closer ranges over in the next step. -/
def draining : FlowEvent → Option Nat
  | .source => match s.source with
    | .closing c => c.draining
    | _ => none
  | .node a => match (s.node a).pos with
    | .closing c => c.draining
    | _ => none
  | .read _ => none

/-- The range of CloseInputChannel receives nothing. -/
def Keeps (e : FlowEvent) : Prop := ∀ ch, s.draining e = some ch → (s.chan ch).queue = []

end FlowState

namespace Flow

variable (x : Flow V)

def full (a : Nat) : List Bool := List.replicate (x.inputs a).length true

/-- The rounds of a clean shutdown. -/
def cleanRounds (a : Nat) : List (List Bool) :=
  List.replicate x.rounds (x.full a) ++ [List.replicate (x.inputs a).length false]

/-- All rounds of the node so far were full. -/
structure Running (a : Nat) (m : FlowNode) : Prop where
  rounds : m.rounds = List.replicate m.rounds.length (x.full a)
  le : m.rounds.length ≤ x.rounds
  unlocked : m.locked = false

/-- Where a node can stand. -/
def NodeOk (a : Nat) (m : FlowNode) : Prop :=
  match m.pos with
  | .subscribe rest got => x.Running a m ∧ ∃ pre, x.inputs a = pre ++ rest ∧
      got.map Option.isSome = List.replicate pre.length (decide (m.rounds.length < x.rounds))
  | .lock allok => x.Running a m ∧ 0 < m.rounds.length ∧ allok = true
  | .process => x.Running a m ∧ 0 < m.rounds.length
  | .addAllData ops _ => x.Running a m ∧ 0 < m.rounds.length ∧ ∃ pre, x.sends (.node a) = pre ++ ops
  | .closing c => m.rounds = x.cleanRounds a ∧ ∃ pre, x.closes (.node a) = pre ++ c.rest
  | .returned => m.rounds = x.cleanRounds a

def SourceOk : SourceAt → Prop
  | .between k => k ≤ x.rounds
  | .adding k ops _ => k < x.rounds ∧ ∃ pre, x.sends .graphInput = pre ++ ops
  | .closing c => ∃ pre, x.closes .graphInput = pre ++ c.rest
  | .returned => True

/-- What holds while nothing is lost. -/
structure Counted (s : FlowState V) : Prop where
  node : ∀ a, x.Busy a → x.NodeOk a (s.node a)
  idle : ∀ a < x.size, x.inputs a = [] → (s.node a).Idle
  source : x.SourceOk s.source
  queue : ∀ p a ch, x.Feeds p ch → x.Reads a ch →
    (s.chan ch).queue.length + (s.node a).received x.rounds ch = s.sent x.rounds p ch
  output : ∀ p ch, x.Feeds p ch → ch ∈ x.outputs →
    (s.chan ch).queue.length + (s.reads ch).length = s.sent x.rounds p ch
  closed : ∀ p ch, x.Feeds p ch → ((s.chan ch).closed = true ↔ s.Closed p ch)

variable {x} {s t : FlowState V}

section Moves

variable (hg : x.Sound) (h : x.Counted s)

include hg h

/-- A move of one node: the channels that it feeds and reads keep up with it, and the others stay. -/
theorem Counted.node_moves {a : Nat} (ha : x.Busy a) {m : FlowNode} (hnode : t.node = Function.update s.node a m)
    (hsource : t.source = s.source) (hreads : t.reads = s.reads) (hok : x.NodeOk a m)
    (hfed : ∀ ch, x.Feeds (.node a) ch →
      (t.chan ch).queue.length + (s.node a).sent ch = (s.chan ch).queue.length + m.sent ch ∧
        ((t.chan ch).closed = true ↔ m.Closed ch))
    (hread : ∀ ch, x.Reads a ch →
      (t.chan ch).queue.length + m.received x.rounds ch =
          (s.chan ch).queue.length + (s.node a).received x.rounds ch ∧
        (t.chan ch).closed = (s.chan ch).closed)
    (hother : ∀ ch, ¬ x.Feeds (.node a) ch → ¬ x.Reads a ch → t.chan ch = s.chan ch) : x.Counted t := by
  have hself : t.node a = m := by rw [hnode, Function.update_self]
  have hrest : ∀ b, b ≠ a → t.node b = s.node b := fun b hb => by rw [hnode, Function.update_of_ne hb]
  have hsent : ∀ p, p ≠ .node a → ∀ ch, t.sent x.rounds p ch = s.sent x.rounds p ch ∧ (t.Closed p ch ↔ s.Closed p ch) := by
    intro p hp ch
    cases p with
    | graphInput => simp only [FlowState.sent, FlowState.Closed, hsource, and_self]
    | node b =>
      have hb : b ≠ a := fun he => hp (congrArg Producer.node he)
      simp only [FlowState.sent, FlowState.Closed, hrest b hb, and_self]
  have hchan : ∀ p, p ≠ .node a → ∀ ch, x.Feeds p ch → ¬ x.Reads a ch → t.chan ch = s.chan ch := by
    intro p hp ch hf hr
    exact hother ch (fun hf' => hp (hg.single p _ ch hf hf')) hr
  refine ⟨?_, ?_, ?_, ?_, ?_, ?_⟩
  · intro b hb
    by_cases hba : b = a
    · rw [hba, hself]
      exact hok
    · rw [hrest b hba]
      exact h.node b hb
  · intro b hb hnone
    have hba : b ≠ a := fun he => ha.2 (he ▸ hnone)
    rw [hrest b hba]
    exact h.idle b hb hnone
  · rw [hsource]
    exact h.source
  · intro p b ch hf hr
    have hold := h.queue p b ch hf hr
    by_cases hp : p = .node a
    · subst hp
      have hba : b ≠ a := fun he => hg.not_reads hf (he ▸ hr)
      have hnew := (hfed ch hf).1
      rw [hrest b hba]
      simp only [FlowState.sent, hself] at hold ⊢
      omega
    · rw [(hsent p hp ch).1]
      by_cases hba : b = a
      · subst hba
        have hnew := (hread ch hr).1
        rw [hself]
        omega
      · rw [hrest b hba, hchan p hp ch hf fun hr' => hba (hg.reader b a ch hr hr')]
        exact hold
  · intro p ch hf hout
    have hold := h.output p ch hf hout
    rw [hreads]
    by_cases hp : p = .node a
    · subst hp
      have hnew := (hfed ch hf).1
      simp only [FlowState.sent, hself] at hold ⊢
      omega
    · rw [(hsent p hp ch).1, hchan p hp ch hf fun hr => hg.apart a ch hr hout]
      exact hold
  · intro p ch hf
    by_cases hp : p = .node a
    · subst hp
      simp only [FlowState.Closed, hself]
      exact (hfed ch hf).2
    · rw [(hsent p hp ch).2, ← h.closed p ch hf]
      by_cases hr : x.Reads a ch
      · rw [(hread ch hr).2]
      · rw [hchan p hp ch hf hr]

theorem Counted.source_moves {q : SourceAt} (hnode : t.node = s.node) (hsource : t.source = q)
    (hreads : t.reads = s.reads) (hok : x.SourceOk q)
    (hfed : ∀ ch, x.Feeds .graphInput ch →
      (t.chan ch).queue.length + s.source.sent x.rounds ch = (s.chan ch).queue.length + q.sent x.rounds ch ∧
        ((t.chan ch).closed = true ↔ q.Closed ch))
    (hother : ∀ ch, ¬ x.Feeds .graphInput ch → t.chan ch = s.chan ch) : x.Counted t := by
  have hchan : ∀ p, p ≠ .graphInput → ∀ ch, x.Feeds p ch → t.chan ch = s.chan ch := by
    intro p hp ch hf
    exact hother ch fun hf' => hp (hg.single p _ ch hf hf')
  refine ⟨?_, ?_, ?_, ?_, ?_, ?_⟩
  · rw [hnode]
    exact h.node
  · rw [hnode]
    exact h.idle
  · rw [hsource]
    exact hok
  · intro p b ch hf hr
    have hold := h.queue p b ch hf hr
    rw [hnode]
    cases p with
    | graphInput =>
      have hnew := (hfed ch hf).1
      simp only [FlowState.sent, hsource] at hold ⊢
      omega
    | node a =>
      simp only [FlowState.sent, hnode] at hold ⊢
      rw [hchan (.node a) (by simp) ch hf]
      exact hold
  · intro p ch hf hout
    have hold := h.output p ch hf hout
    rw [hreads]
    cases p with
    | graphInput =>
      have hnew := (hfed ch hf).1
      simp only [FlowState.sent, hsource] at hold ⊢
      omega
    | node a =>
      simp only [FlowState.sent, hnode] at hold ⊢
      rw [hchan (.node a) (by simp) ch hf]
      exact hold
  · intro p ch hf
    cases p with
    | graphInput =>
      simp only [FlowState.Closed, hsource]
      exact (hfed ch hf).2
    | node a =>
      have hold := h.closed (.node a) ch hf
      simp only [FlowState.Closed, hnode] at hold ⊢
      rw [hchan (.node a) (by simp) ch hf]
      exact hold

end Moves

end Flow

end Dni
