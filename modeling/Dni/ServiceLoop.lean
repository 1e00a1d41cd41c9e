import Dni.GraphLockstep
import Mathlib.Algebra.Order.BigOperators.Group.Finset
import Mathlib.Data.Int.CardIntervalMod

namespace Dni

/-- Where main stands: it adds the data of a slot to the slot's graph, or reads the outputs of that graph. -/
inductive MainAt
  | adding
  | reading (rest : List Nat)

/-- The graphs of the service, and the number of the slots that main is through with. -/
structure ServiceState (V : Type) where
  graphs : Nat → FlowState V
  id : Nat
  main : MainAt

inductive ServiceEvent
  | main
  | node (graph a : Nat)

/-- The graphs, and how many slots come. -/
structure Service (V : Type) where
  gNum : Nat
  graphs : Nat → Flow V
  slots : Nat

namespace Service

variable {V : Type} (x : Service V)

def init : ServiceState V := ⟨fun i => (x.graphs i).init, 0, .adding⟩

/-- The next step of main: a slot goes to its graph, and main waits for what the graph makes of it. -/
def stepMain (s : ServiceState V) : Option (ServiceState V) :=
  let graphID := s.id % x.gNum
  match s.main with
  | .adding =>
    if x.gNum = 0 ∨ x.slots ≤ s.id then none
    else ((x.graphs graphID).step (s.graphs graphID) .source).map fun f =>
      { s with
        graphs := Function.update s.graphs graphID f
        main := match f.source with
          | .between _ => .reading (x.graphs graphID).outputs
          | _ => .adding }
  | .reading (ch :: rest) => ((x.graphs graphID).step (s.graphs graphID) (.read ch)).map fun f =>
      { s with graphs := Function.update s.graphs graphID f, main := .reading rest }
  | .reading [] => some { s with id := s.id + 1, main := .adding }

def step (s : ServiceState V) : ServiceEvent → Option (ServiceState V)
  | .main => x.stepMain s
  | .node i a =>
    if i < x.gNum then ((x.graphs i).step (s.graphs i) (.node a)).map fun f =>
      { s with graphs := Function.update s.graphs i f }
    else none

/-- The slots before the `n`-th that have gone to a graph. -/
def turns (i n : Nat) : Nat := n.count (· % x.gNum = i)

theorem turns_succ (i n : Nat) : x.turns i (n + 1) = x.turns i n + if n % x.gNum = i then 1 else 0 :=
  Nat.count_succ _ _

/-- A slot is the next of its graph. -/
theorem turns_own (h : 0 < x.gNum) (n : Nat) : x.turns (n % x.gNum) n = n / x.gNum := by
  have hcount := Nat.count_modEq_card n h n
  rwa [if_neg (Nat.lt_irrefl _), Nat.add_zero] at hcount

theorem turns_mono (i : Nat) {m n : Nat} (h : m ≤ n) : x.turns i m ≤ x.turns i n :=
  Nat.count_monotone _ h

end Service

namespace Flow

variable {V : Type} {x : Flow V} {s t : FlowState V}

/-- A graph that is through with `k` rounds, which have all been read. -/
structure Through (x : Flow V) (s : FlowState V) (k : Nat) : Prop where
  source : s.source = .between k
  reads : ∀ ch ∈ x.outputs, (s.reads ch).length = k

/-- The caller adds to the round it is in, until the next one could begin. -/
theorem source_cases (hstops : x.stops = false) (ht : x.stepSource s = some t) {k : Nat}
    (hpos : s.source = .between k ∨ ∃ ops output, s.source = .adding k ops output) :
    (∃ ops output, t.source = .adding k ops output) ∨ t.source = .between (k + 1) := by
  obtain hpos | ⟨ops, output, hpos⟩ := hpos
  · simp only [stepSource, hpos, hstops, Bool.false_eq_true, ↓reduceIte] at ht
    split at ht
    next =>
      rw [Option.some.injEq] at ht
      subst ht
      exact Or.inl ⟨_, _, rfl⟩
    next => cases ht
  · cases ops with
    | nil =>
      simp only [stepSource, hpos, Option.some.injEq] at ht
      subst ht
      exact Or.inr rfl
    | cons op ops =>
      simp only [stepSource, hpos, Option.map_eq_some_iff] at ht
      obtain ⟨⟨u, output'⟩, -, ht⟩ := ht
      subst ht
      exact Or.inl ⟨_, _, rfl⟩

/-- A reader takes one datum. -/
theorem read_cases {ch : Nat} (ht : x.step s (.read ch) = some t) : t.source = s.source ∧
    (t.reads ch).length = (s.reads ch).length + 1 ∧ ∀ ch', ch' ≠ ch → t.reads ch' = s.reads ch' := by
  simp only [Flow.step] at ht
  split at ht
  next =>
    split at ht
    next =>
      rw [Option.some.injEq] at ht
      subst ht
      exact ⟨rfl, by simp, fun ch' hne => Function.update_of_ne hne _ _⟩
    next => cases ht
  next => cases ht

section Waits

variable (hg : x.Sound) (hc : x.Counted s) (ho : x.Open s) (hp : x.Paced s)
  (hstuck : ∀ a < x.size, x.stepNode s a = none)

include hg hc ho hp hstuck

/-- Where the nodes cannot go on, they are through with the rounds that have been added. -/
theorem Paced.nodes_through {k : Nat} (hpos : s.source = .between k) {a : Nat} (ha : x.Busy a) (ch : Nat) :
    k ≤ (s.node a).sent ch := by
  obtain ⟨rank, hrank⟩ := hg.forward
  have hall : ∀ r a, x.Busy a → rank a = r →
      ∃ rest got, (s.node a).pos = .subscribe rest got ∧ k ≤ (s.node a).rounds.length := by
    intro r
    induction r using Nat.strong_induction_on with
    | _ r ih =>
      intro a ha hr
      cases hc.waitsFor hg ha (hstuck a ha.1) with
      | returned hret => exact absurd hret (ho.node a ha).2.1
      | empty ch rest got hposa hqueue hclosed =>
        refine ⟨_, _, hposa, ?_⟩
        have hok := hc.node a ha
        simp only [NodeOk, hposa] at hok
        obtain ⟨-, pre, hpre, -⟩ := hok
        have hreads : x.Reads a ch := ⟨ha, by rw [hpre]; simp⟩
        obtain ⟨p, hf⟩ := hg.fed a ch hreads
        have hcount := hc.queue p a ch hf hreads
        rw [hqueue, List.length_nil, Nat.zero_add] at hcount
        simp only [FlowNode.received, hposa, List.mem_cons, true_or, ↓reduceIte] at hcount
        have hsent : k ≤ s.sent x.rounds p ch := by
          cases p with
          | graphInput => simp only [FlowState.sent, SourceAt.sent, hpos, le_refl]
          | node b =>
            obtain ⟨rest', got', hposb, hle⟩ := ih (rank b) (hr ▸ hrank b a ch hf hreads) b hf.1 rfl
            simpa only [FlowState.sent, FlowNode.sent, hposb] using hle
        omega
      | full ch ops output hposa hfull =>
        have hok := hc.node a ha
        simp only [NodeOk, hposa] at hok
        obtain ⟨-, -, pre, hpre⟩ := hok
        have hf : x.Feeds (.node a) ch := ⟨ha, by rw [hpre]; simp⟩
        have hle := hp.queue_le hg hc ho hf
        omega
  obtain ⟨rest, got, hposa, hle⟩ := hall _ a ha rfl
  simpa only [FlowNode.sent, hposa] using hle

/-- Then the next datum of every output is there. -/
theorem Paced.read_next {k : Nat} (hpos : s.source = .between (k + 1)) {ch : Nat} (hout : ch ∈ x.outputs)
    (hread : (s.reads ch).length = k) : ∃ t, x.step s (.read ch) = some t := by
  obtain ⟨p, hf⟩ := hg.made ch hout
  have hcount := hc.output p ch hf hout
  have hsent : k + 1 ≤ s.sent x.rounds p ch := by
    cases p with
    | graphInput => simp only [FlowState.sent, SourceAt.sent, hpos, le_refl]
    | node a => exact hp.nodes_through hg hc ho hstuck hpos hf.1 ch
  simp only [Flow.step, if_pos hout]
  split
  next => exact ⟨_, rfl⟩
  next hempty =>
    rw [hempty, List.length_nil] at hcount
    omega

omit hstuck in
/-- The caller is never held up where it adds. -/
theorem Paced.add_next {k : Nat} (hlt : k < x.rounds)
    (hpos : s.source = .between k ∨ ∃ ops output, s.source = .adding k ops output) :
    ∃ t, x.stepSource s = some t := by
  obtain hpos | ⟨ops, output, hpos⟩ := hpos
  · simp only [stepSource, hpos, if_pos hlt]
    exact ⟨_, rfl⟩
  · cases hstep : x.stepSource s with
    | some t => exact ⟨t, rfl⟩
    | none =>
      obtain ⟨hend, -⟩ | hend | ⟨k', ch, ops', output', hpos', hfull⟩ := hc.source_waits hg hstep
      · rw [hpos] at hend
        cases hend
      · rw [hpos] at hend
        cases hend
      · have hok := hc.source
        simp only [SourceOk, hpos'] at hok
        obtain ⟨-, pre, hpre⟩ := hok
        have hf : x.Feeds .graphInput ch := ⟨trivial, by rw [hpre]; simp⟩
        have hle := hp.queue_le hg hc ho hf
        omega

end Waits

end Flow

namespace Service

variable {V : Type} (x : Service V)

/-- The graph of the slot that main is at. -/
def Current (s : ServiceState V) : Prop :=
  let graph := x.graphs (s.id % x.gNum)
  let f := s.graphs (s.id % x.gNum)
  let k := s.id / x.gNum
  match s.main with
  | .adding => (f.source = .between k ∨ ∃ ops output, f.source = .adding k ops output) ∧
      ∀ ch ∈ graph.outputs, (f.reads ch).length = k
  | .reading rest => s.id < x.slots ∧ f.source = .between (k + 1) ∧ rest.Nodup ∧ (∀ ch ∈ rest, ch ∈ graph.outputs) ∧
      ∀ ch ∈ graph.outputs, (f.reads ch).length = if ch ∈ rest then k else k + 1

/-- The graphs run in lockstep, and those that main is not at are through with the slots that they have had. -/
structure InTurn (out : Nat → Nat → Producer → Nat → V) (value : Nat → Nat → Nat → V) (s : ServiceState V) : Prop where
  lockstep : ∀ i < x.gNum, (x.graphs i).InLockstep (out i) (value i) (s.graphs i)
  idle : ∀ i < x.gNum, i ≠ s.id % x.gNum → (x.graphs i).Through (s.graphs i) (x.turns i s.id)
  current : x.Current s
  id_le : s.id ≤ x.slots

/-- What is left to do for the graphs and for main. -/
def left (s : ServiceState V) : Nat :=
  ∑ i ∈ Finset.range x.gNum, (x.graphs i).left (s.graphs i) + (x.slots - s.id)

/-- The graphs of a service that can be run in lockstep. -/
structure Steady (out : Nat → Nat → Producer → Nat → V) (value : Nat → Nat → Nat → V) : Prop where
  pos : 0 < x.gNum
  graphs : ∀ i < x.gNum, (x.graphs i).Steady (out i) (value i)
  outputs : ∀ i < x.gNum, (x.graphs i).outputs.Nodup
  rounds : ∀ i < x.gNum, (x.graphs i).rounds = x.slots

variable {x} {s t : ServiceState V} {out : Nat → Nat → Producer → Nat → V} {value : Nat → Nat → Nat → V}

theorem left_graph {i : Nat} (hi : i < x.gNum) {f : FlowState V}
    (hlt : (x.graphs i).left f < (x.graphs i).left (s.graphs i)) (main : MainAt) :
    x.left { s with graphs := Function.update s.graphs i f, main := main } < x.left s := by
  refine Nat.add_lt_add_right (Finset.sum_lt_sum (fun j _ => ?_) ⟨i, Finset.mem_range.mpr hi, ?_⟩) _
  · by_cases hj : j = i
    · subst hj
      dsimp only
      rw [Function.update_self]
      exact hlt.le
    · dsimp only
      rw [Function.update_of_ne hj]
  · dsimp only
    rw [Function.update_self]
    exact hlt

theorem InTurn.lockstep_update (h : x.InTurn out value s) {i : Nat} {f : FlowState V}
    (hf : (x.graphs i).InLockstep (out i) (value i) f) :
    ∀ j < x.gNum, (x.graphs j).InLockstep (out j) (value j) (Function.update s.graphs i f j) := by
  intro j hj
  by_cases hji : j = i
  · subst hji
    rwa [Function.update_self]
  · rw [Function.update_of_ne hji]
    exact h.lockstep j hj

/-- What main does not do changes neither where it is nor what it has read. -/
theorem InTurn.node (hx : x.Steady out value) (h : x.InTurn out value s) {i a : Nat}
    (ht : x.step s (.node i a) = some t) :
    x.InTurn out value t ∧ x.left t < x.left s := by
  simp only [step] at ht
  split at ht
  next hi =>
    obtain ⟨f, hf, rfl⟩ := Option.map_eq_some_iff.mp ht
    obtain ⟨hlock, hlt⟩ := (h.lockstep i hi).step (hx.graphs i hi) hf trivial
    obtain ⟨hsource, hreads⟩ := (h.lockstep i hi).node_same (hx.graphs i hi) hf
    have hsame : ∀ j, (Function.update s.graphs i f j).source = (s.graphs j).source ∧
        (Function.update s.graphs i f j).reads = (s.graphs j).reads := by
      intro j
      by_cases hji : j = i
      · subst hji
        rw [Function.update_self]
        exact ⟨hsource, hreads⟩
      · rw [Function.update_of_ne hji]
        exact ⟨rfl, rfl⟩
    refine ⟨⟨h.lockstep_update hlock, fun j hj hne => ?_, ?_, ?_⟩, left_graph hi hlt s.main⟩
    · have hidle := h.idle j hj hne
      exact ⟨(hsame j).1.trans hidle.source, by rw [(hsame j).2]; exact hidle.reads⟩
    · have hcurrent := h.current
      unfold Current at hcurrent ⊢
      simp only [hsame]
      exact hcurrent
    · exact h.id_le
  next => cases ht

/-- When main has read everything, every graph is through with its slots. -/
theorem InTurn.through (hx : x.Steady out value) (h : x.InTurn out value s) (hmain : s.main = .reading []) :
    ∀ i < x.gNum, (x.graphs i).Through (s.graphs i) (x.turns i (s.id + 1)) := by
  intro i hi
  rw [turns_succ]
  by_cases hcur : s.id % x.gNum = i
  · subst hcur
    have hcurrent := h.current
    simp only [Current, hmain] at hcurrent
    obtain ⟨-, hsource, -, -, hreads⟩ := hcurrent
    rw [if_pos rfl, x.turns_own hx.pos]
    exact ⟨hsource, fun ch hout => by simpa using hreads ch hout⟩
  · rw [if_neg hcur, Nat.add_zero]
    exact h.idle i hi (Ne.symm hcur)

/-- What main does to the graph that it is at. -/
theorem InTurn.update (hx : x.Steady out value) (h : x.InTurn out value s) {e : FlowEvent} {f : FlowState V}
    (hf : (x.graphs (s.id % x.gNum)).step (s.graphs (s.id % x.gNum)) e = some f)
    (hawaits : (x.graphs (s.id % x.gNum)).Awaits (s.graphs (s.id % x.gNum)) e) {main : MainAt}
    (hcurrent : x.Current { s with graphs := Function.update s.graphs (s.id % x.gNum) f, main := main }) :
    x.InTurn out value { s with graphs := Function.update s.graphs (s.id % x.gNum) f, main := main } ∧
      x.left { s with graphs := Function.update s.graphs (s.id % x.gNum) f, main := main } < x.left s := by
  have hi : s.id % x.gNum < x.gNum := Nat.mod_lt _ hx.pos
  obtain ⟨hlock, hlt⟩ := (h.lockstep _ hi).step (hx.graphs _ hi) hf hawaits
  refine ⟨⟨h.lockstep_update hlock, fun j hj hne => ?_, hcurrent, h.id_le⟩, left_graph hi hlt main⟩
  dsimp only
  rw [Function.update_of_ne hne]
  exact h.idle j hj hne

theorem InTurn.add (hx : x.Steady out value) (h : x.InTurn out value s) (hmain : s.main = .adding)
    (hslot : s.id < x.slots) {f : FlowState V}
    (hf : (x.graphs (s.id % x.gNum)).step (s.graphs (s.id % x.gNum)) .source = some f) {t : ServiceState V}
    (ht : t = { s with
      graphs := Function.update s.graphs (s.id % x.gNum) f
      main := match f.source with
        | .between _ => .reading (x.graphs (s.id % x.gNum)).outputs
        | _ => .adding }) : x.InTurn out value t ∧ x.left t < x.left s := by
  subst ht
  have hi : s.id % x.gNum < x.gNum := Nat.mod_lt _ hx.pos
  have hcurrent := h.current
  simp only [Current, hmain] at hcurrent
  obtain ⟨hsource, hreads⟩ := hcurrent
  have hsame := (h.lockstep _ hi).source_same (hx.graphs _ hi) hf
  refine h.update hx hf ?_ ?_
  · obtain hpos | ⟨ops, output, hpos⟩ := hsource
    · simpa only [Flow.Awaits, hpos] using hreads
    · simp only [Flow.Awaits, hpos]
  · obtain ⟨ops, output, hpos⟩ | hpos := Flow.source_cases (hx.graphs _ hi).stops hf hsource
    · simp only [Current, Function.update_self, hpos, hsame]
      exact ⟨Or.inr ⟨ops, output, rfl⟩, hreads⟩
    · simp only [Current, Function.update_self, hpos, hsame]
      refine ⟨hslot, trivial, hx.outputs _ hi, fun _ hch => hch, fun ch hch => ?_⟩
      rw [if_pos hch]
      exact hreads ch hch

theorem InTurn.read (hx : x.Steady out value) (h : x.InTurn out value s) {ch : Nat} {rest : List Nat}
    (hmain : s.main = .reading (ch :: rest)) {f : FlowState V}
    (hf : (x.graphs (s.id % x.gNum)).step (s.graphs (s.id % x.gNum)) (.read ch) = some f) {t : ServiceState V}
    (ht : t = { s with graphs := Function.update s.graphs (s.id % x.gNum) f, main := .reading rest }) :
    x.InTurn out value t ∧ x.left t < x.left s := by
  subst ht
  have hcurrent := h.current
  simp only [Current, hmain] at hcurrent
  obtain ⟨hslot, hsource, hnodup, hrest, hreads⟩ := hcurrent
  obtain ⟨hkept, hread, hother⟩ := Flow.read_cases hf
  obtain ⟨hnot, hnodup⟩ := List.nodup_cons.mp hnodup
  obtain ⟨hch, hrest⟩ := List.forall_mem_cons.mp hrest
  refine h.update hx hf trivial ?_
  simp only [Current, Function.update_self]
  refine ⟨hslot, hkept.trans hsource, hnodup, hrest, fun ch' hch' => ?_⟩
  by_cases hne : ch' = ch
  · subst hne
    rw [if_neg hnot, hread, hreads ch' hch', if_pos List.mem_cons_self]
  · rw [hother ch' hne, hreads ch' hch']
    simp only [List.mem_cons, hne, false_or]

theorem InTurn.next (hx : x.Steady out value) (h : x.InTurn out value s) (hmain : s.main = .reading [])
    {t : ServiceState V} (ht : t = { s with id := s.id + 1, main := .adding }) :
    x.InTurn out value t ∧ x.left t < x.left s := by
  subst ht
  have hthrough := h.through hx hmain
  have hslot : s.id < x.slots := by
    have hcurrent := h.current
    simp only [Current, hmain] at hcurrent
    exact hcurrent.1
  refine ⟨⟨h.lockstep, fun j hj _ => hthrough j hj, ?_, hslot⟩, ?_⟩
  · obtain ⟨hsource, hreads⟩ := hthrough _ (Nat.mod_lt (s.id + 1) hx.pos)
    rw [x.turns_own hx.pos] at hsource hreads
    exact ⟨Or.inl hsource, hreads⟩
  · exact Nat.add_lt_add_left (by dsimp only; omega) _

theorem InTurn.main (hx : x.Steady out value) (h : x.InTurn out value s) (ht : x.step s .main = some t) :
    x.InTurn out value t ∧ x.left t < x.left s := by
  simp only [step, stepMain] at ht
  cases hmain : s.main with
  | adding =>
    simp only [hmain] at ht
    split at ht
    next => cases ht
    next hslot =>
      obtain ⟨f, hf, ht⟩ := Option.map_eq_some_iff.mp ht
      exact h.add hx hmain (by omega) hf ht.symm
  | reading rest =>
    simp only [hmain] at ht
    cases rest with
    | nil => exact h.next hx hmain (Option.some.inj ht).symm
    | cons ch rest =>
      obtain ⟨f, hf, ht⟩ := Option.map_eq_some_iff.mp ht
      exact h.read hx hmain hf ht.symm

theorem inTurn_init : x.InTurn out value x.init := by
  have hzero : ∀ i, x.turns i x.init.id = 0 := fun i => Nat.count_zero _
  refine ⟨fun i _ => Flow.inLockstep_init, fun i _ _ => ?_, ?_, Nat.zero_le _⟩
  · rw [hzero]
    exact ⟨rfl, fun _ _ => rfl⟩
  · have hdiv : x.init.id / x.gNum = 0 := Nat.zero_div _
    simp only [Current, hdiv]
    exact ⟨Or.inl rfl, fun _ _ => rfl⟩

/-- The graphs have had their slots read. -/
theorem InTurn.turns_le (hx : x.Steady out value) (h : x.InTurn out value s) {i : Nat} (hi : i < x.gNum) {ch : Nat}
    (hch : ch ∈ (x.graphs i).outputs) : x.turns i s.id ≤ ((s.graphs i).reads ch).length := by
  by_cases hcur : i = s.id % x.gNum
  · subst hcur
    rw [x.turns_own hx.pos]
    have hcurrent := h.current
    unfold Current at hcurrent
    split at hcurrent
    next => exact (hcurrent.2 ch hch).ge
    next =>
      rw [hcurrent.2.2.2.2 ch hch]
      split <;> omega
  · exact ((h.idle i hi hcur).reads ch hch).ge

/-- What has been read for a slot that main is through with. -/
theorem InTurn.delivered (hx : x.Steady out value) (h : x.InTurn out value s) {k : Nat} (hk : k < s.id) {ch : Nat}
    (hch : ch ∈ (x.graphs (k % x.gNum)).outputs) :
    ((s.graphs (k % x.gNum)).reads ch)[k / x.gNum]? = some (value (k % x.gNum) (k / x.gNum) ch) := by
  have hi : k % x.gNum < x.gNum := Nat.mod_lt _ hx.pos
  have hturns : k / x.gNum < ((s.graphs (k % x.gNum)).reads ch).length := by
    have hle := (x.turns_mono (k % x.gNum) hk).trans (h.turns_le hx hi hch)
    rw [Nat.succ_eq_add_one, turns_succ, if_pos rfl, x.turns_own hx.pos] at hle
    exact hle
  obtain ⟨rest, hrest⟩ := ((h.lockstep _ hi).sync.reads_values (hx.graphs _ hi).sound hch).1
  have hlen := congrArg List.length hrest
  rw [List.length_append, List.length_map, List.length_range] at hlen
  calc
    ((s.graphs (k % x.gNum)).reads ch)[k / x.gNum]? = (((s.graphs (k % x.gNum)).reads ch) ++ rest)[k / x.gNum]? :=
      (List.getElem?_append_left hturns).symm
    _ = some (value (k % x.gNum) (k / x.gNum) ch) := by
      rw [hrest, List.getElem?_map, List.getElem?_range (by omega)]
      rfl

/-- Where nothing can go on, main is through with all slots. -/
theorem InTurn.all_slots (hx : x.Steady out value) (h : x.InTurn out value s) (hstuck : ∀ e, x.step s e = none) :
    x.slots ≤ s.id := by
  by_contra hlt
  have hi : s.id % x.gNum < x.gNum := Nat.mod_lt _ hx.pos
  obtain ⟨⟨hc, ho, -⟩, -, hp⟩ := h.lockstep _ hi
  have hg := (hx.graphs _ hi).sound
  have hnode : ∀ a < (x.graphs (s.id % x.gNum)).size,
      (x.graphs (s.id % x.gNum)).stepNode (s.graphs (s.id % x.gNum)) a = none := by
    intro a ha
    have hnone := hstuck (.node (s.id % x.gNum) a)
    simpa only [step, if_pos hi, Option.map_eq_none_iff, Flow.step, if_pos ha] using hnone
  have hmain := hstuck .main
  have hcurrent := h.current
  simp only [step, stepMain] at hmain
  cases hpos : s.main with
  | adding =>
    simp only [hpos] at hmain
    simp only [Current, hpos] at hcurrent
    have hround : s.id / x.gNum < (x.graphs (s.id % x.gNum)).rounds := by
      rw [hx.rounds _ hi]
      exact (Nat.div_le_self _ _).trans_lt (Nat.lt_of_not_le hlt)
    obtain ⟨t, ht⟩ := hp.add_next hg hc ho hround hcurrent.1
    have hpos := hx.pos
    rw [if_neg (by omega), Option.map_eq_none_iff] at hmain
    exact absurd (hmain.symm.trans ht) (by simp)
  | reading rest =>
    simp only [Current, hpos] at hcurrent
    obtain ⟨-, hsource, -, hrest, hreads⟩ := hcurrent
    cases rest with
    | nil =>
      simp only [hpos] at hmain
      cases hmain
    | cons ch rest =>
      simp only [hpos, Option.map_eq_none_iff] at hmain
      have hch := hrest ch List.mem_cons_self
      have hread := hreads ch hch
      rw [if_pos List.mem_cons_self] at hread
      obtain ⟨t, ht⟩ := hp.read_next hg hc ho hnode hsource hch hread
      exact absurd (hmain.symm.trans ht) (by simp)

theorem InTurn.step (hx : x.Steady out value) (h : x.InTurn out value s) {e : ServiceEvent}
    (ht : x.step s e = some t) : x.InTurn out value t ∧ x.left t < x.left s := by
  cases e with
  | main => exact h.main hx ht
  | node i a => exact h.node hx ht

end Service

end Dni
