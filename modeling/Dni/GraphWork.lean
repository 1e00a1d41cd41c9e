import Dni.GraphSteps
import Mathlib.Algebra.Order.BigOperators.Group.Finset

namespace Dni

variable {V : Type}

def Closing.left (c : Closing) : Nat := 2 * c.rest.length + (if c.draining.isSome then 1 else 0) + 1

namespace Flow

variable (x : Flow V)

/-- The steps of a Close. -/
def closeWork (p : Producer) : Nat := 2 * (x.closes p).length + 2

/-- The steps of a round. -/
def roundWork (a : Nat) : Nat := (x.inputs a).length + (x.sends (.node a)).length + 4

/-- The steps that the node has before it. -/
def nodeLeft (a : Nat) (m : FlowNode) : Nat :=
  let rounds := (x.rounds - m.rounds.length) * x.roundWork a + x.closeWork (.node a)
  match m.pos with
  | .subscribe rest _ => rounds + rest.length + 1
  | .lock _ => rounds + (x.inputs a).length + (x.sends (.node a)).length + 4
  | .process => rounds + (x.inputs a).length + (x.sends (.node a)).length + 3
  | .addAllData ops _ => rounds + (x.inputs a).length + ops.length + 2
  | .closing c => c.left
  | .returned => 0

def sourceLeft : SourceAt → Nat
  | .between k => (x.rounds - k) * ((x.sends .graphInput).length + 2) + x.closeWork .graphInput + 1
  | .adding k ops _ =>
    (x.rounds - (k + 1)) * ((x.sends .graphInput).length + 2) + x.closeWork .graphInput + ops.length + 2
  | .closing c => c.left
  | .returned => 0

/-- The steps that a run has before it. -/
def left (s : FlowState V) : Nat :=
  x.sourceLeft s.source + (∑ a ∈ Finset.range x.size, x.nodeLeft a (s.node a)) +
    ∑ ch ∈ x.outputs.toFinset, (x.rounds - (s.reads ch).length)

variable {x} {s t : FlowState V}

theorem left_closes {c : Closing} {c' : Option Closing} (h : s.Closes c t c') :
    c'.elim 0 Closing.left < c.left := by
  cases h with
  | drained ch hdrain => simp [Closing.left, hdrain]
  | done hrest => exact Nat.succ_pos _
  | close ch rest hrest =>
    simp only [Option.elim_some, Closing.left, hrest, List.length_cons, Option.isSome_some, ↓reduceIte]
    omega

theorem rounds_left {n k c : Nat} (hk : k < n) : (n - k) * c = (n - (k + 1)) * c + c := by
  rw [← Nat.succ_mul, show (n - (k + 1)).succ = n - k by omega]

section Left

variable (h : x.Counted s)

include h

theorem Counted.node_left {a : Nat} (ha : x.Busy a) (ht : x.stepNode s a = some t) (hkeeps : s.Keeps (.node a)) :
    t.source = s.source ∧ t.reads = s.reads ∧ ∃ m, t.node = Function.update s.node a m ∧
      x.nodeLeft a m < x.nodeLeft a (s.node a) := by
  have hok := h.node a ha
  unfold NodeOk at hok
  cases hpos : (s.node a).pos with
  | subscribe rest got =>
    rw [hpos] at hok
    obtain ⟨hrun, pre, hpre, hgot⟩ := hok
    cases rest with
    | nil =>
      simp only [stepNode, hpos] at ht
      split at ht
      next =>
        rw [Option.some.injEq] at ht
        subst ht
        refine ⟨rfl, rfl, _, rfl, ?_⟩
        simp only [nodeLeft, hpos, Closing.left, closeWork, List.length_nil, Option.isSome_none, Bool.false_eq_true,
          ↓reduceIte]
        omega
      next hno =>
        have hlt : (s.node a).rounds.length < x.rounds := by
          by_contra hge
          rw [hgot, decide_eq_false hge] at hno
          exact hno subscribe_closed
        rw [Option.some.injEq] at ht
        subst ht
        refine ⟨rfl, rfl, _, rfl, ?_⟩
        simp only [nodeLeft, hpos, List.length_append, List.length_singleton, List.length_nil, rounds_left hlt,
          roundWork]
        omega
    | cons ch rest =>
      simp only [stepNode, hpos] at ht
      split at ht
      next =>
        rw [Option.some.injEq] at ht
        subst ht
        refine ⟨rfl, rfl, _, rfl, ?_⟩
        simp only [nodeLeft, hpos, List.length_cons]
        omega
      next =>
        split at ht
        next =>
          rw [Option.some.injEq] at ht
          subst ht
          refine ⟨rfl, rfl, _, rfl, ?_⟩
          simp only [nodeLeft, hpos, List.length_cons]
          omega
        next => cases ht
  | lock allok =>
    rw [hpos] at hok
    obtain ⟨hrun, -, hallok⟩ := hok
    simp only [stepNode, hpos, hallok, if_neg (Bool.eq_false_iff.mp hrun.unlocked), Bool.not_true,
      Bool.false_eq_true, ↓reduceIte, Option.some.injEq] at ht
    subst ht
    refine ⟨rfl, rfl, _, rfl, ?_⟩
    simp only [nodeLeft, hpos]
    omega
  | process =>
    simp only [stepNode, hpos, Option.some.injEq] at ht
    subst ht
    obtain ⟨outputs, hnode, hsource, hreads, -⟩ := process_frame (x := x) s a
    refine ⟨hsource, hreads, _, hnode, ?_⟩
    simp only [nodeLeft, hpos]
    omega
  | addAllData ops output =>
    cases ops with
    | nil =>
      simp only [stepNode, hpos, Option.some.injEq] at ht
      subst ht
      refine ⟨rfl, rfl, _, rfl, ?_⟩
      simp only [nodeLeft, hpos, List.length_nil]
      omega
    | cons op ops =>
      simp only [stepNode, hpos, Option.map_eq_some_iff] at ht
      obtain ⟨⟨u, output'⟩, hsend, ht⟩ := ht
      subst ht
      have hands := FlowState.hands_of_send hsend fun _ => ⟨rfl, rfl, rfl, rfl⟩
      refine ⟨hands.source, hands.reads, { s.node a with pos := .addAllData ops output' }, ?_, ?_⟩
      · show Function.update u.node a _ = _
        rw [hands.node]
      · simp only [nodeLeft, hpos, List.length_cons]
        omega
  | closing c =>
    simp only [stepNode, hpos, Option.map_eq_some_iff] at ht
    obtain ⟨⟨u, c'⟩, hclose, ht⟩ := ht
    subst ht
    have hcloses := FlowState.closes_of_close (fun ch he => hkeeps ch (by
      simp only [FlowState.draining, hpos]
      exact he)) hclose
    have hleft := left_closes hcloses
    cases hcloses <;> refine ⟨rfl, rfl, _, rfl, ?_⟩ <;> simpa only [nodeLeft, hpos, Option.elim_some, Option.elim_none] using hleft
  | returned =>
    simp only [stepNode, hpos] at ht
    cases ht

theorem Counted.idle_left (hg : x.Sound) {a : Nat} (ha : a < x.size) (hnone : x.inputs a = [])
    (ht : x.stepNode s a = some t) : t.source = s.source ∧ t.reads = s.reads ∧
      ∃ m, t.node = Function.update s.node a m ∧ x.nodeLeft a m < x.nodeLeft a (s.node a) := by
  obtain ⟨m, rfl, hmoves⟩ := idle_steps hg ha hnone (h.idle a ha hnone) ht
  refine ⟨rfl, rfl, m, rfl, ?_⟩
  obtain ⟨hpos, hpos'⟩ | ⟨hpos, hpos'⟩ := hmoves
  · simp only [nodeLeft, hpos, hpos', Closing.left, closeWork, List.length_nil, Option.isSome_none, Bool.false_eq_true,
      ↓reduceIte]
    omega
  · simp [nodeLeft, hpos, hpos', Closing.left]

omit h in
theorem source_left (ht : x.stepSource s = some t) (hkeeps : s.Keeps .source) :
    t.node = s.node ∧ t.reads = s.reads ∧ x.sourceLeft t.source < x.sourceLeft s.source := by
  cases hpos : s.source with
  | between k =>
    simp only [stepSource, hpos] at ht
    split at ht
    next hlt =>
      rw [Option.some.injEq] at ht
      subst ht
      refine ⟨rfl, rfl, ?_⟩
      simp only [sourceLeft, rounds_left hlt]
      omega
    next =>
      split at ht
      next =>
        rw [Option.some.injEq] at ht
        subst ht
        refine ⟨rfl, rfl, ?_⟩
        simp only [sourceLeft, Closing.left, closeWork, Option.isSome_none, Bool.false_eq_true, ↓reduceIte]
        omega
      next => cases ht
  | adding k ops output =>
    cases ops with
    | nil =>
      simp only [stepSource, hpos, Option.some.injEq] at ht
      subst ht
      refine ⟨rfl, rfl, ?_⟩
      simp only [sourceLeft, List.length_nil]
      omega
    | cons op ops =>
      simp only [stepSource, hpos, Option.map_eq_some_iff] at ht
      obtain ⟨⟨u, output'⟩, hsend, ht⟩ := ht
      subst ht
      have hands := FlowState.hands_of_send hsend fun _ => ⟨rfl, hpos.symm, rfl, rfl⟩
      refine ⟨hands.node, hands.reads, ?_⟩
      simp only [sourceLeft, List.length_cons]
      omega
  | closing c =>
    simp only [stepSource, hpos, Option.map_eq_some_iff] at ht
    obtain ⟨⟨u, c'⟩, hclose, ht⟩ := ht
    subst ht
    have hcloses := FlowState.closes_of_close (fun ch he => hkeeps ch (by
      simp only [FlowState.draining, hpos]
      exact he)) hclose
    have hleft := left_closes hcloses
    cases hcloses <;> exact ⟨rfl, rfl, hleft⟩
  | returned =>
    simp only [stepSource, hpos] at ht
    cases ht

theorem Counted.left_lt (hg : x.Sound) {e : FlowEvent} (ht : x.step s e = some t) (hkeeps : s.Keeps e) :
    x.left t < x.left s := by
  unfold left
  cases e with
  | source =>
    obtain ⟨hnode, hreads, hlt⟩ := source_left ht hkeeps
    rw [hnode, hreads]
    omega
  | node a =>
    simp only [Flow.step] at ht
    split at ht
    next ha =>
      obtain ⟨hsource, hreads, m, hnode, hlt⟩ : t.source = s.source ∧ t.reads = s.reads ∧
          ∃ m, t.node = Function.update s.node a m ∧ x.nodeLeft a m < x.nodeLeft a (s.node a) := by
        by_cases hnone : x.inputs a = []
        · exact h.idle_left hg ha hnone ht
        · exact h.node_left ⟨ha, hnone⟩ ht hkeeps
      have hself : t.node a = m := by rw [hnode, Function.update_self]
      have hsum : (∑ b ∈ Finset.range x.size, x.nodeLeft b (t.node b)) <
          ∑ b ∈ Finset.range x.size, x.nodeLeft b (s.node b) := by
        refine Finset.sum_lt_sum (fun b _ => ?_) ⟨a, Finset.mem_range.mpr ha, by rw [hself]; exact hlt⟩
        by_cases hb : b = a
        · rw [hb, hself]
          exact Nat.le_of_lt hlt
        · rw [hnode, Function.update_of_ne hb]
      rw [hsource, hreads]
      omega
    next => cases ht
  | read ch =>
    simp only [Flow.step] at ht
    split at ht
    next hout =>
      split at ht
      next data queue hqueue =>
        rw [Option.some.injEq] at ht
        subst ht
        obtain ⟨p, hf⟩ := hg.made ch hout
        have hcount := h.output p ch hf hout
        have hle := (h.sent_le hf.1 ch).1
        rw [hqueue, List.length_cons] at hcount
        refine Nat.add_lt_add_left (Finset.sum_lt_sum (fun ch' _ => ?_) ⟨ch, List.mem_toFinset.mpr hout, ?_⟩) _
        · by_cases hne : ch' = ch
          · subst hne
            simp only [Function.update_self, List.length_append]
            omega
          · simp [hne]
        · simp only [Function.update_self, List.length_append, List.length_singleton]
          omega
      next => cases ht
    next => cases ht

end Left

end Flow

end Dni
