import Dni.Lib.Threads
import Mathlib.Algebra.Order.BigOperators.Group.List
import Mathlib.Algebra.Order.Ring.Nat

namespace Threads

variable {κ : Type} {υ : κ → Type} {β ι : Type}

inductive Phase
  | waiting
  | running
  | ended
  deriving DecidableEq

namespace Phase

/-- The steps that a thread takes beside its accesses. -/
def left : Phase → Nat
  | waiting => 2
  | running => 1
  | ended => 0

end Phase

/-- Threads that begin when those they wait for are over. When the pool is cancelled no thread begins any more; those
that run go on. -/
structure Pool (υ : κ → Type) (ι β : Type) where
  threads : State υ ι β
  phase : ι → Phase
  cancelled : Bool

namespace Pool

variable [DecidableEq ι]

/-- The threads of the list are still to begin. -/
def start (l : List ι) (s : State υ ι β) : Pool υ ι β where
  threads := s
  phase i := if i ∈ l then .waiting else .ended
  cancelled := false

def stopped (s : State υ ι β) : Pool υ ι β where
  threads := s
  phase _ := .ended
  cancelled := false

def enter (p : Pool υ ι β) (i : ι) (phase : Phase) : Pool υ ι β := { p with phase := Function.update p.phase i phase }

/-- What holds of a pool whatever its threads have done. -/
structure Sound (after : ι → List ι) (cancels : β → Bool) (l : List ι) (p : Pool υ ι β) : Prop where
  ended : ∀ i, p.phase i = .ended → (p.threads.todo i).ended = true
  begun : ∀ i, p.phase i = .running → ∀ j ∈ after i, p.phase j = .ended
  outside : ∀ i, i ∉ l → p.phase i = .ended
  cancelled : p.cancelled = true → ∃ i b, p.threads.todo i = .done b ∧ cancels b = true

def left (l : List ι) (p : Pool υ ι β) : Nat := (l.map fun i => (p.phase i).left).sum

variable {after : ι → List ι} {cancels : β → Bool} {l : List ι} {p q : Pool υ ι β} {i j : ι}

theorem enter_phase_self (phase : Phase) : (p.enter i phase).phase i = phase := Function.update_self _ _ _

theorem enter_phase_of_ne (h : j ≠ i) (phase : Phase) : (p.enter i phase).phase j = p.phase j :=
  Function.update_of_ne h _ _

theorem ended_enter {phase : Phase} (hj : p.phase j = .ended) (h : p.phase i ≠ .ended ∨ phase = .ended) :
    (p.enter i phase).phase j = .ended := by
  by_cases hji : j = i
  · subst hji
    rw [enter_phase_self]
    exact h.resolve_left fun hne => hne hj
  · rw [enter_phase_of_ne hji]
    exact hj

theorem left_enter {phase : Phase} (hi : i ∈ l) (hlt : phase.left < (p.phase i).left) : (p.enter i phase).left l < p.left l := by
  refine List.sum_lt_sum _ _ (fun j _ => ?_) ⟨i, hi, ?_⟩
  · by_cases hji : j = i
    · subst hji
      rw [enter_phase_self]
      exact Nat.le_of_lt hlt
    · rw [enter_phase_of_ne hji]
  · rw [enter_phase_self]
    exact hlt

theorem start_sound {s : State υ ι β} (hall : ∀ i, i ∉ l → (s.todo i).ended = true) :
    (start l s).Sound after cancels l where
  ended i hi := by
    by_cases hmem : i ∈ l
    · rw [start] at hi
      simp only [if_pos hmem] at hi
      cases hi
    · exact hall i hmem
  begun i hi := by
    rw [start] at hi
    simp only at hi
    split at hi <;> cases hi
  outside i hi := if_neg hi
  cancelled hcancelled := by cases hcancelled

variable [DecidableEq κ]

/-- A thread begins, makes an access or is over; what it returns may cancel the pool. -/
def step (after : ι → List ι) (cancels : β → Bool) (p : Pool υ ι β) (i : ι) : Option (Pool υ ι β) :=
  match p.phase i with
  | .waiting =>
    if p.cancelled = false ∧ ∀ j ∈ after i, p.phase j = .ended then some (p.enter i .running) else none
  | .running =>
    match p.threads.todo i with
    | .done b => some { p.enter i .ended with cancelled := p.cancelled || cancels b }
    | .access c write next => some { p with threads := p.threads.access i c write next }
  | .ended => none

/-- All that a step can be. -/
theorem step_cases (h : p.step after cancels i = some q) :
    (p.phase i = .waiting ∧ p.cancelled = false ∧ (∀ j ∈ after i, p.phase j = .ended) ∧ q = p.enter i .running) ∨
    (∃ b, p.phase i = .running ∧ p.threads.todo i = .done b ∧
      q = { p.enter i .ended with cancelled := p.cancelled || cancels b }) ∨
    ∃ c write next, p.phase i = .running ∧ p.threads.todo i = .access c write next ∧
      q = { p with threads := p.threads.access i c write next } := by
  unfold step at h
  split at h
  next hphase =>
    split at h
    next hready => exact .inl ⟨hphase, hready.1, hready.2, (Option.some.inj h).symm⟩
    next => cases h
  next hphase =>
    split at h
    next b hdone => exact .inr (.inl ⟨b, hphase, hdone, (Option.some.inj h).symm⟩)
    next c write next haccess => exact .inr (.inr ⟨c, write, next, hphase, haccess, (Option.some.inj h).symm⟩)
  next => cases h

theorem Sound.step (hp : p.Sound after cancels l) (h : p.step after cancels i = some q) : q.Sound after cancels l := by
  obtain ⟨hphase, _, hready, rfl⟩ | ⟨b, hphase, hdone, rfl⟩ | ⟨c, write, next, hphase, haccess, rfl⟩ := step_cases h
  · have hnot : p.phase i ≠ .ended := by simp [hphase]
    refine ⟨fun j hj => ?_, fun j hj k hk => ?_, fun j hj => ended_enter (hp.outside j hj) (.inl hnot), hp.cancelled⟩
    · by_cases hji : j = i
      · subst hji
        rw [enter_phase_self] at hj
        cases hj
      · rw [enter_phase_of_ne hji] at hj
        exact hp.ended j hj
    · refine ended_enter ?_ (.inl hnot)
      by_cases hji : j = i
      · subst hji
        exact hready k hk
      · rw [enter_phase_of_ne hji] at hj
        exact hp.begun j hj k hk
  · refine ⟨fun j hj => ?_, fun j hj k hk => ?_, fun j hj => ended_enter (hp.outside j hj) (.inr rfl), fun hcancelled => ?_⟩
    · by_cases hji : j = i
      · subst hji
        show (p.threads.todo j).ended = true
        rw [hdone]
        rfl
      · exact hp.ended j ((enter_phase_of_ne hji _).symm.trans hj)
    · refine ended_enter (hp.begun j ?_ k hk) (.inr rfl)
      by_cases hji : j = i
      · subst hji
        exact hphase
      · exact (enter_phase_of_ne hji _).symm.trans hj
    · obtain hbefore | hcancels := Bool.or_eq_true_iff.mp hcancelled
      · exact hp.cancelled hbefore
      · exact ⟨i, b, hdone, hcancels⟩
  · -- Only the thread itself changes, and it has not ended.
    have hkept : ∀ j, (p.threads.todo j).ended = true → (p.threads.access i c write next).todo j = p.threads.todo j := by
      intro j hj
      refine access_todo_of_ne ?_ c write next
      rintro rfl
      rw [haccess] at hj
      cases hj
    refine ⟨fun j hj => ?_, hp.begun, hp.outside, fun hcancelled => ?_⟩
    · have hended := hp.ended j hj
      exact (congrArg Prog.ended (hkept j hended)).trans hended
    · obtain ⟨j, b, hdone, hcancels⟩ := hp.cancelled hcancelled
      exact ⟨j, b, (hkept j (by rw [hdone]; rfl)).trans hdone, hcancels⟩

/-- A step of the pool is an access of the thread, or the threads do nothing and the pool has less to do. -/
theorem Sound.step_threads (hp : p.Sound after cancels l) (h : p.step after cancels i = some q) :
    (p.threads.step after i = some q.threads ∧ q.left l = p.left l) ∨ (q.threads = p.threads ∧ q.left l < p.left l) := by
  have hi : p.phase i ≠ .ended → i ∈ l := fun hnot => by_contra fun hout => hnot (hp.outside i hout)
  obtain ⟨hphase, _, _, rfl⟩ | ⟨b, hphase, _, rfl⟩ | ⟨c, write, next, hphase, haccess, rfl⟩ := step_cases h
  · exact .inr ⟨rfl, left_enter (hi (by simp [hphase])) (by simp [hphase, Phase.left])⟩
  · exact .inr ⟨rfl, left_enter (hi (by simp [hphase])) (by simp [hphase, Phase.left])⟩
  · refine .inl ⟨step_of_access ?_ haccess, rfl⟩
    rw [State.ready, List.all_eq_true]
    exact fun j hj => hp.ended j (hp.begun i hphase j hj)

/-- A run of the pool is a run of its threads, and has not many more steps. -/
theorem Sound.run_threads (hp : p.Sound after cancels l) {es : List ι}
    (h : es.foldlM (Pool.step after cancels) p = some q) : q.Sound after cancels l ∧
      ∃ fs : List ι, fs.foldlM (State.step after) p.threads = some q.threads ∧
        es.length + q.left l ≤ fs.length + p.left l := by
  induction es generalizing p with
  | nil =>
    cases h
    exact ⟨hp, [], rfl, Nat.le_refl _⟩
  | cons e es ih =>
    rw [List.foldlM_cons] at h
    obtain ⟨r, hr, h⟩ := Option.bind_eq_some_iff.mp h
    obtain ⟨hq, fs, hfs, hle⟩ := ih (hp.step hr) h
    refine ⟨hq, ?_⟩
    obtain ⟨hstep, hleft⟩ | ⟨hthreads, hleft⟩ := hp.step_threads hr
    · refine ⟨e :: fs, ?_, ?_⟩
      · rw [List.foldlM_cons, hstep]
        exact hfs
      · rw [List.length_cons, List.length_cons]
        omega
    · refine ⟨fs, hthreads ▸ hfs, ?_⟩
      rw [List.length_cons]
      omega

/-- Where no thread can go on, none is in the middle of its program. -/
theorem stuck_running (h : Runs.Stuck (Pool.step after cancels) p) (i : ι) : p.phase i ≠ .running := by
  intro hphase
  have hnone := h i
  rw [Pool.step, hphase] at hnone
  cases htodo : p.threads.todo i with
  | done b => simp [htodo] at hnone
  | access c write next => simp [htodo] at hnone

/-- Where no thread can go on and the pool is not cancelled, all threads are over. -/
theorem Sound.ended_of_stuck (hp : p.Sound after cancels l) (hl : ReadyOrder.Ordered (fun j i => j ∈ after i) l)
    (h : Runs.Stuck (Pool.step after cancels) p) (hcancelled : p.cancelled = false) : ∀ i, p.phase i = .ended := by
  have hpre : ∀ pre post, l = pre ++ post → ∀ i ∈ pre, p.phase i = .ended := by
    intro pre
    induction pre using List.reverseRecOn with
    | nil => exact fun _ _ i hi => absurd hi List.not_mem_nil
    | append_singleton pre x ih =>
      intro post heq
      rw [List.append_assoc, List.singleton_append] at heq
      have hbefore := ih _ heq
      have hready : ∀ j ∈ after x, p.phase j = .ended := fun j hj => hbefore j (hl pre x post heq j hj)
      refine List.forall_mem_append.mpr ⟨hbefore, List.forall_mem_singleton.mpr ?_⟩
      cases hphase : p.phase x with
      | waiting =>
        have hnone := h x
        rw [Pool.step, hphase] at hnone
        simp only [if_pos (And.intro hcancelled hready)] at hnone
        cases hnone
      | running => exact absurd hphase (stuck_running h x)
      | ended => rfl
  intro i
  by_cases hi : i ∈ l
  · exact hpre l [] (List.append_nil l).symm i hi
  · exact hp.outside i hi

section Sequential

variable {cells : ι → κ → Prop} {s : State υ ι β} (hrace : RaceFree after cells)
  (hl : ReadyOrder.Ordered (fun j i => j ∈ after i) l) (hall : ∀ i, i ∉ l → (s.todo i).ended = true)
  (hs : Disciplined cells s)
include hrace hl hall hs

/-- A pool takes no more steps than some number that does not depend on the interleaving. -/
theorem bounded (cancels : β → Bool) : ∃ n, ∀ (es : List ι) p,
    es.foldlM (Pool.step after cancels) (start l s) = some p → es.length ≤ n := by
  obtain ⟨n, hn⟩ := interleaving_completes hrace hl hall hs
  refine ⟨n + (start l s).left l, ?_⟩
  intro es p hrun
  obtain ⟨_, fs, hfs, hle⟩ := (start_sound hall).run_threads hrun
  have hfsn := (hn fs _ hfs).1
  omega

/-- Cancelled or not, a thread that has ended has left in the cells of its own what it leaves when the threads run one
after the other. -/
theorem settled {es : List ι} (hrun : es.foldlM (Pool.step after cancels) (start l s) = some p)
    (hended : (p.threads.todo i).ended = true) : p.threads.todo i = (l.foldl State.finish s).todo i ∧
      ∀ c, (∀ j, cells j c → j = i) → p.threads.mem c = (l.foldl State.finish s).mem c := by
  obtain ⟨_, fs, hfs, _⟩ := (start_sound hall).run_threads hrun
  exact interleaving_settled hrace hl hall hs hfs hended

variable (hreturns : ∀ i b, (l.foldl State.finish s).todo i = .done b → cancels b = false)
include hreturns

theorem not_cancelled {es : List ι} (hrun : es.foldlM (Pool.step after cancels) (start l s) = some p) :
    p.cancelled = false := by
  cases hcancelled : p.cancelled with
  | false => rfl
  | true =>
    obtain ⟨i, b, hdone, hcancels⟩ := ((start_sound hall).run_threads hrun).1.cancelled hcancelled
    have hended : (p.threads.todo i).ended = true := by
      rw [hdone]
      rfl
    rw [hreturns i b (((settled hrace hl hall hs hrun hended).1).symm.trans hdone)] at hcancels
    cases hcancels

/-- When no thread returns what cancels the pool: where no thread can go on, the threads have done what they do one
after the other. -/
theorem run_end {es : List ι} (hrun : es.foldlM (Pool.step after cancels) (start l s) = some p)
    (hstuck : Runs.Stuck (Pool.step after cancels) p) : p = stopped (l.foldl State.finish s) := by
  obtain ⟨hp, fs, hfs, _⟩ := (start_sound hall).run_threads hrun
  have hcancelled := not_cancelled hrace hl hall hs hreturns hrun
  have hnot := hp.ended_of_stuck hl hstuck hcancelled
  have hthreads := interleaving_end hrace hl hall hs hfs (State.Ended.stuck fun i => hp.ended i (hnot i))
  cases p with
  | mk threads phase cancelled =>
    simp only at hnot hthreads hcancelled
    rw [hthreads, hcancelled, funext hnot]
    rfl

/-- And the pool can always go on to that state. -/
theorem run_completes {es : List ι} (hrun : es.foldlM (Pool.step after cancels) (start l s) = some p) :
    ∃ fs : List ι, fs.foldlM (Pool.step after cancels) p = some (stopped (l.foldl State.finish s)) := by
  obtain ⟨n, hn⟩ := bounded hrace hl hall hs cancels
  have hrest : ∀ fs q, fs.foldlM (Pool.step after cancels) p = some q →
      (es ++ fs).foldlM (Pool.step after cancels) (start l s) = some q := by
    intro fs q hq
    rw [List.foldlM_append, hrun]
    exact hq
  obtain ⟨fs, q, hq, hstuck⟩ := Runs.exists_stuck (n := n) fun fs q hq => by
    have hle := hn _ q (hrest fs q hq)
    rw [List.length_append] at hle
    omega
  exact ⟨fs, run_end hrace hl hall hs hreturns (hrest fs q hq) hstuck ▸ hq⟩

end Sequential

end Pool

end Threads
