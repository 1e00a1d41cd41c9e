import Dni.StreamLifecycle

namespace Dni.Cpp

open ManagerOp

variable {α : Type}

namespace InputStreamManager

/-- `popAt` where `unset` is what the timestamp of a new datum happens to be, which no code sets. -/
def popAtFrom (unset : Int) (m : InputStreamManager α) (ts : Int) (numDropped : Nat) :
    Datum α × InputStreamManager α × Nat × Bool :=
  let nextTsBound := if m.nextTsBound ≤ ts then ts + 1 else m.nextTsBound
  let (ret, curr, dropped, queue) := popAtLoop ts m.queue ⟨none, unset⟩ ctimeMin numDropped
  let m' := { m with queue := queue, nextTsBound := nextTsBound }
  if curr = ts then (ret, m', dropped, m'.isDone)
  else (⟨none, m'.nextTimestampOrBound - 1⟩, m', dropped + 1, m'.isDone)

theorem popAt_eq (m : InputStreamManager α) (ts : Int) (numDropped : Nat) :
    m.popAt ts numDropped = m.popAtFrom 0 ts numDropped := rfl

/-- The datum at a time is popped, all data after it stay, and all data before it are dropped and counted. -/
structure PopsAt (m : InputStreamManager α) (ts : Int) (numDropped : Nat)
    (r : Datum α × InputStreamManager α × Nat × Bool) : Prop where
  found : ∀ d ∈ m.queue, d.ts = ts → r.1 = d
  missing : (∀ d ∈ m.queue, d.ts ≠ ts) → r.1 = ⟨none, r.2.1.nextTimestampOrBound - 1⟩
  rest : r.2.1.queue = m.queue.filter fun d => ts < d.ts
  dropped : r.2.2.1 = numDropped + m.queue.countP fun d => d.ts < ts

/-- The time is the least there is, no datum has it, and a new datum happens to have the timestamp before
the first datum or the bound. -/
structure LuckyAtMin (unset : Int) (m : InputStreamManager α) (ts : Int) : Prop where
  least : ts = ctimeMin
  missing : ∀ d ∈ m.queue, d.ts ≠ ts
  unset : unset =
    { m with nextTsBound := if m.nextTsBound ≤ ts then ts + 1 else m.nextTsBound }.nextTimestampOrBound - 1

/-- The loop takes what is not after the time; the last datum that it takes is the one at the time, when there is one. -/
theorem popAtLoop_spec {queue : List (Datum α)} (hsorted : queue.Pairwise fun a b => a.ts < b.ts) (ts : Int)
    (ret : Datum α) (curr : Int) (n : Nat) :
    ∃ ret' curr', popAtLoop ts queue ret curr n =
        (ret', curr', n + queue.countP (fun d => d.ts ≤ ts), queue.filter fun d => ts < d.ts) ∧
      (∀ d ∈ queue, d.ts = ts → ret' = d ∧ curr' = ts) ∧
      ((∀ d ∈ queue, d.ts ≠ ts) →
        (∀ d ∈ queue, ts < d.ts) ∧ ret' = ret ∧ curr' = curr ∨ ∃ d ∈ queue, d.ts < ts ∧ curr' = d.ts) := by
  induction queue generalizing ret curr n with
  | nil => exact ⟨ret, curr, rfl, by simp, fun _ => Or.inl ⟨by simp, rfl, rfl⟩⟩
  | cons d queue ih =>
    obtain ⟨hfirst, hrest⟩ := List.pairwise_cons.mp hsorted
    by_cases hd : d.ts ≤ ts
    · obtain ⟨ret', curr', hloop, hfound, hmissing⟩ := ih hrest d d.ts (n + 1)
      refine ⟨ret', curr', ?_, ?_, ?_⟩
      · rw [popAtLoop, if_pos hd, hloop, List.countP_cons_of_pos (by simpa using hd),
          List.filter_cons_of_neg (by simpa using hd), Nat.add_right_comm, Nat.add_assoc]
      · intro e he hts
        rcases List.mem_cons.mp he with heq | hmem
        · -- the data behind this one are later, so that the loop stops here
          subst heq
          obtain ⟨_, hret, hcurr⟩ | ⟨f, hf, hlt, _⟩ := hmissing fun f hf => by
            have := hfirst f hf
            omega
          · exact ⟨hret, hcurr.trans hts⟩
          · have := hfirst f hf
            omega
        · exact hfound e hmem hts
      · intro hno
        obtain ⟨hne, hno⟩ := List.forall_mem_cons.mp hno
        obtain ⟨_, _, hcurr⟩ | ⟨f, hf, hlt, hcurr⟩ := hmissing hno
        · exact Or.inr ⟨d, List.mem_cons_self, by omega, hcurr⟩
        · exact Or.inr ⟨f, List.mem_cons_of_mem _ hf, hlt, hcurr⟩
    · have hlater : ∀ e ∈ d :: queue, ts < e.ts := by
        intro e he
        rcases List.mem_cons.mp he with heq | hmem
        · rw [heq]
          omega
        · have := hfirst e hmem
          omega
      have hnone : (d :: queue).countP (fun d => d.ts ≤ ts) = 0 := by
        rw [List.countP_eq_zero]
        intro e he
        have := hlater e he
        simpa using this
      have hall : (d :: queue).filter (fun d => ts < d.ts) = d :: queue := by
        rw [List.filter_eq_self]
        intro e he
        simpa using hlater e he
      refine ⟨ret, curr, ?_, ?_, fun _ => Or.inl ⟨hlater, rfl, rfl⟩⟩
      · rw [popAtLoop, if_neg hd, hnone, hall, Nat.add_zero]
      · intro e he hts
        have := hlater e he
        omega

/-- What is popped is what is before the time and what is at it. -/
theorem countP_le_eq (ts : Int) (queue : List (Datum α)) :
    queue.countP (fun d => d.ts ≤ ts) = queue.countP (fun d => d.ts < ts) + queue.countP fun d => d.ts = ts := by
  induction queue with
  | nil => rfl
  | cons d queue ih =>
    simp only [List.countP_cons, decide_eq_true_eq, ih]
    split_ifs <;> omega

/-- One more than the dropped data is counted, except at the least time when no datum has it: then the
count is right, and the datum has a timestamp that nobody set. -/
theorem popAtFrom_popsAt_iff (unset : Int) (m : InputStreamManager α) (ts : Int) (numDropped : Nat)
    (hsorted : m.queue.Pairwise fun a b => a.ts < b.ts) (htime : ∀ d ∈ m.queue, IsTime d.ts) :
    m.PopsAt ts numDropped (m.popAtFrom unset ts numDropped) ↔ LuckyAtMin unset m ts := by
  obtain ⟨ret, curr, hloop, hfound, hmissing⟩ :=
    popAtLoop_spec hsorted ts ⟨none, unset⟩ ctimeMin numDropped
  have hcount := countP_le_eq ts m.queue
  rw [popAtFrom, hloop]
  by_cases hin : ∃ d ∈ m.queue, d.ts = ts
  · obtain ⟨d, hd, heq⟩ := hin
    obtain ⟨_, hcurr⟩ := hfound d hd heq
    have hone : 0 < m.queue.countP fun d => d.ts = ts := by
      rw [List.countP_pos_iff]
      exact ⟨d, hd, by simpa using heq⟩
    simp only [hcurr, if_true]
    apply Iff.intro
    · intro h
      have hdropped := h.dropped
      simp only at hdropped
      omega
    · intro h
      exact absurd heq (h.missing d hd)
  · have hno : ∀ d ∈ m.queue, d.ts ≠ ts := fun d hd heq => hin ⟨d, hd, heq⟩
    have hnone : m.queue.countP (fun d => d.ts = ts) = 0 := by
      rw [List.countP_eq_zero]
      intro d hd
      simpa using hno d hd
    by_cases hcurr : curr = ts
    · simp only [if_pos hcurr]
      obtain ⟨hlater, hret, hmin⟩ | ⟨d, _, hlt, hd⟩ := hmissing hno
      · have hqueue : m.queue.filter (fun d => ts < d.ts) = m.queue := by
          rw [List.filter_eq_self]
          intro d hd
          simpa using hlater d hd
        apply Iff.intro
        · intro h
          refine ⟨by omega, hno, ?_⟩
          have hdatum := h.missing hno
          rw [hret, hqueue] at hdatum
          exact congrArg Datum.ts hdatum
        · intro h
          refine ⟨fun d hd heq => absurd heq (hno d hd), fun _ => ?_, rfl, ?_⟩
          · rw [hret, h.unset, hqueue]
          · simp only
            omega
      · omega
    · simp only [if_neg hcurr]
      apply Iff.intro
      · intro h
        have hdropped := h.dropped
        simp only at hdropped
        omega
      · intro h
        obtain ⟨_, _, hmin⟩ | ⟨d, hd, hlt, _⟩ := hmissing hno
        · exact absurd (hmin.trans h.least.symm) hcurr
        · have hleast := h.least
          have hmin := (htime d hd).1
          omega

/-- A queue with one datum, which is popped at its time. -/
def oneQueued : InputStreamManager Nat := ⟨[⟨some 7, 5⟩], 6, false⟩

theorem popAtFrom_popsAt_iff_oneQueued :
    oneQueued.PopsAt 5 0 (oneQueued.popAtFrom 0 5 0) ↔ LuckyAtMin 0 oneQueued 5 :=
  popAtFrom_popsAt_iff 0 oneQueued 5 0 (by decide) (by decide)

/-- Nothing is dropped, and one datum is counted. -/
theorem oneQueued_counted : (oneQueued.popAtFrom 0 5 0).1 = ⟨some 7, 5⟩ ∧ (oneQueued.popAtFrom 0 5 0).2.2.1 = 1 ∧
    ¬ oneQueued.PopsAt 5 0 (oneQueued.popAtFrom 0 5 0) := by
  refine ⟨by decide, by decide, ?_⟩
  intro h
  have hdropped := h.dropped
  revert hdropped
  decide

end InputStreamManager

end Dni.Cpp
