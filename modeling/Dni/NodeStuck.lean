import Dni.NodeLoop
import Mathlib.Logic.Relation

namespace Dni.NodeLoop

variable {s t : NodeLoop}

/-- Who holds the mutex in any run, and what `GetNodeErrorList` returns. -/
structure Held (s : NodeLoop) : Prop where
  call : ∀ c, s.mutex = some (.call c) ↔ s.calls c = .destroy .locked ∨ s.calls c = .getNodeErrorList .locked
  held : ∀ allok, s.pos = .held allok → s.mutex = some .execute
  empty : ∀ c errs, s.calls c = .getNodeErrorList (.returned errs) → errs = []

/-- `Execute` has gone on with the mutex, or is about to. -/
def Stuck (s : NodeLoop) : Prop := s.mutex = some .execute ∧ ¬ (s.pos = .held true ∧ s.stopinfo = false)

theorem init_held (nodeID : Nat) : (init nodeID).Held :=
  ⟨by simp [init], by simp [init], by simp [init]⟩

theorem Held.step {e : NodeEvent} (h : s.Held) (ht : s.step e = some t) : t.Held := by
  refine ⟨step_holds ht h.held h.call, ?_, fun c errs hc => ?_⟩
  · cases step_moves ht with
    | run _ hnew => exact fun allok hp => absurd hp (hnew allok)
    | lock => exact fun _ _ => rfl
    | leave => exact fun _ hp => (nomatch hp)
    | unlock => exact fun _ hp => (nomatch hp)
    | call => exact h.held
    | callLock _ hm =>
      intro allok hp
      cases hm.symm.trans (h.held allok hp)
    | callUnlock hnew =>
      intro allok hp
      cases ((h.call _).mpr (hnew.imp And.right And.right)).symm.trans (h.held allok hp)
  · obtain hsame | ⟨_, _, hreturned⟩ := step_calls ht c
    · exact h.empty c errs (hsame ▸ hc)
    · exact (hreturned errs hc).1

/-- The mutex stays with `Execute`, and no call that has not returned returns. -/
theorem Stuck.step {e : NodeEvent} (h : s.Stuck) (hs : s.Held) (ht : s.step e = some t) :
    t.Stuck ∧ ∀ c, (∀ errs, s.calls c ≠ .getNodeErrorList (.returned errs)) →
      ∀ errs, t.calls c ≠ .getNodeErrorList (.returned errs) := by
  obtain ⟨hexecute, hleft⟩ := h
  have hfree : ∀ c, ¬ (s.calls c = .destroy .locked ∨ s.calls c = .getNodeErrorList .locked) := by
    intro c hc
    cases hexecute.symm.trans ((hs.call c).mpr hc)
  refine ⟨?_, fun c hc errs ht' => ?_⟩
  · cases step_moves ht with
    | run _ hnew hm => exact ⟨hm.trans hexecute, fun hp => hnew true hp.1⟩
    | lock _ hm => cases hexecute.symm.trans hm
    | leave => exact ⟨hexecute, fun hp => (nomatch hp.1)⟩
    | unlock hp hstop => exact absurd ⟨hp, hstop⟩ hleft
    | call => exact ⟨hexecute, hleft⟩
    | callLock _ hm => cases hexecute.symm.trans hm
    | callUnlock hnew => exact absurd (hnew.imp And.right And.right) (hfree _)
  · obtain hsame | ⟨_, _, hreturned⟩ := step_calls ht c
    · exact hc errs (hsame ▸ ht')
    · exact hfree c (.inr (hreturned errs ht').2)

theorem calls_none {e : NodeEvent} {c : Nat} (ht : s.step e = some t) (he : e ≠ .getNodeErrorList c ∧ e ≠ .destroy c)
    (hc : s.calls c = .none) : t.calls c = .none := by
  obtain hsame | ⟨hstart, _⟩ := step_calls ht c
  · exact hsame.trans hc
  · exact ((hstart hc).elim he.2 he.1).elim

/-- No other call becomes one of `Destroy`. -/
theorem calls_ne_destroy {e : NodeEvent} {c : Nat} (ht : s.step e = some t) (he : e ≠ .destroy c)
    (hc : ∀ pos, s.calls c ≠ .destroy pos) (pos : LockAt Unit) : t.calls c ≠ .destroy pos := by
  intro hdestroy
  obtain hsame | ⟨_, hkind, _⟩ := step_calls ht c
  · exact hc pos (hsame ▸ hdestroy)
  · obtain heq | ⟨pos', hpos⟩ := hkind ⟨pos, hdestroy⟩
    · exact he heq
    · exact hc pos' hpos

/-- A step of a call, or the one of `Execute` that follows its `Lock`. -/
def Forward (s t : NodeLoop) : Prop :=
  (∃ c, s.step (.next c) = some t) ∨ (∃ allok, s.pos = .held allok) ∧ s.step (.execute [] none) = some t

/-- Unless the mutex is stuck, its holder gives it back by the next step, and no other call has moved then. -/
theorem Held.frees (h : s.Held) (hfree : ¬ s.Stuck) {c : Nat} {call : NodeCall} (hc : s.calls c = call)
    (hcall : call ≠ .destroy .locked ∧ call ≠ .getNodeErrorList .locked) :
    ∃ t, Relation.ReflTransGen Forward s t ∧ t.mutex = none ∧ t.calls c = call := by
  cases hm : s.mutex with
  | none => exact ⟨s, .refl, hm, hc⟩
  | some thread =>
    cases thread with
    | execute =>
      obtain ⟨hp, hstop⟩ : s.pos = .held true ∧ s.stopinfo = false := not_not.mp fun hleft => hfree ⟨hm, hleft⟩
      refine ⟨{ s with mutex := none, pos := .process }, .single (.inr ⟨⟨true, hp⟩, ?_⟩), rfl, hc⟩
      simp [NodeLoop.step, NodeLoop.execute, hp, hstop]
    | call c' =>
      have hne : c ≠ c' := by
        intro heq
        subst heq
        exact ((h.call c).mp hm).elim (hc ▸ hcall.1) (hc ▸ hcall.2)
      obtain hlocked | hlocked := (h.call c').mp hm
      · refine ⟨{ s.goto c' (.destroy (.returned ())) with mutex := none, stopinfo := true }, .single (.inl ⟨c', ?_⟩),
          rfl, ?_⟩
        · rw [NodeLoop.step, hlocked]
          rfl
        · exact (calls_goto.trans (if_neg hne)).trans hc
      · refine ⟨{ s.goto c' (.getNodeErrorList (.returned (s.errorList.take 0))) with mutex := none },
          .single (.inl ⟨c', ?_⟩), rfl, ?_⟩
        · rw [NodeLoop.step, hlocked]
          rfl
        · exact (calls_goto.trans (if_neg hne)).trans hc

theorem locked_returns {c : Nat} (hc : s.calls c = .getNodeErrorList .locked) :
    ∃ t errs, Relation.ReflTransGen Forward s t ∧ t.calls c = .getNodeErrorList (.returned errs) := by
  refine ⟨{ s.goto c (.getNodeErrorList (.returned (s.errorList.take 0))) with mutex := none }, _,
    .single (.inl ⟨c, ?_⟩), calls_goto.trans (if_pos rfl)⟩
  rw [NodeLoop.step, hc]
  rfl

theorem Held.locking_returns (h : s.Held) (hfree : ¬ s.Stuck) {c : Nat} (hc : s.calls c = .getNodeErrorList .locking) :
    ∃ t errs, Relation.ReflTransGen Forward s t ∧ t.calls c = .getNodeErrorList (.returned errs) := by
  obtain ⟨u, hu, hm, hcu⟩ := h.frees hfree hc (by simp)
  have hlock : u.step (.next c) = some { u.goto c (.getNodeErrorList .locked) with mutex := some (.call c) } := by
    rw [NodeLoop.step, hcu]
    exact if_pos hm
  obtain ⟨t, errs, ht, hct⟩ := locked_returns
    (s := { u.goto c (.getNodeErrorList .locked) with mutex := some (.call c) }) (calls_goto.trans (if_pos rfl))
  exact ⟨t, errs, (hu.tail (.inl ⟨c, hlock⟩)).trans ht, hct⟩

/-- A call gets through unless the mutex is stuck. -/
theorem Held.returns (h : s.Held) (hfree : ¬ s.Stuck) {c : Nat} {pos : LockAt (List String)}
    (hc : s.calls c = .getNodeErrorList pos) :
    ∃ t errs, Relation.ReflTransGen Forward s t ∧ t.calls c = .getNodeErrorList (.returned errs) := by
  cases pos with
  | called =>
    have hnext : s.step (.next c) = some (s.goto c (.getNodeErrorList .locking)) := by
      rw [NodeLoop.step, hc]
      rfl
    obtain ⟨t, errs, ht, hct⟩ := (h.step hnext).locking_returns hfree (calls_goto.trans (if_pos rfl))
    exact ⟨t, errs, .head (.inl ⟨c, hnext⟩) ht, hct⟩
  | locking => exact h.locking_returns hfree hc
  | locked => exact locked_returns hc
  | returned errs => exact ⟨s, errs, .refl, hc⟩

end Dni.NodeLoop
