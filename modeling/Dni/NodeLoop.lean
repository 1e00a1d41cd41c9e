import Dni.Lib.Runs
import Mathlib.Logic.Function.Basic

namespace Dni

open Runs

inductive NodeStatus
  | none
  | ready
  | running
  | failed
  deriving DecidableEq

/-- Who may hold the mutex of a node. -/
inductive NodeThread
  | execute
  | call (c : Nat)
  deriving DecidableEq

/-- Where `Execute` stands: `lock` is after a `Subscribe` that was not all closed, `held` after its `Lock`. -/
inductive ExecuteAt
  | start
  | head
  | lock (allok : Bool)
  | held (allok : Bool)
  | process
  | stop
  | close
  | returned (result : Except String Unit)

/-- Where a call that takes the mutex stands. -/
inductive LockAt (α : Type)
  | called
  | locking
  | locked
  | returned (result : α)

inductive NodeCall
  | none
  | destroy (pos : LockAt Unit)
  | getNodeErrorList (pos : LockAt (List String))

structure NodeLoop where
  nodeID : Nat
  status : NodeStatus
  mutex : Option NodeThread
  stopinfo : Bool
  errorList : List String
  pos : ExecuteAt
  calls : Nat → NodeCall

/-- A node as `InitNode` leaves it. -/
def NodeLoop.init (nodeID : Nat) : NodeLoop := ⟨nodeID, .ready, none, false, [], .start, fun _ => .none⟩

/-- The next step of `Execute`, with what the streams and the task give there; a new call; the next step of
a call. -/
inductive NodeEvent
  | execute (oks : List Bool) (err : Option String)
  | destroy (c : Nat)
  | getNodeErrorList (c : Nat)
  | next (c : Nat)

/-- `allok` and `allclosed`, from whether each input channel gave a datum. -/
def subscribe (oks : List Bool) : Bool × Bool :=
  oks.foldl (fun r ok => (r.1 && ok, r.2 && !ok)) (true, true)

namespace NodeLoop

variable (s : NodeLoop)

def statusCheckBeforExecute : Except String Unit :=
  match s.status with
  | .none => .error ("node(id:" ++ Nat.repr s.nodeID ++ ") is not ready")
  | .ready => .ok ()
  | .running => .error ("node(id:" ++ Nat.repr s.nodeID ++ ") is already running")
  | .failed => .error ("node(id:" ++ Nat.repr s.nodeID ++ ") initialization error, please re-initialize")

def execute (oks : List Bool) (err : Option String) : Option NodeLoop :=
  match s.pos with
  | .start =>
    match s.statusCheckBeforExecute with
    | .error e => some { s with pos := .returned (.error e) }
    | .ok () => some { s with status := .running, pos := .head }
  | .head =>
    let (allok, allclosed) := subscribe oks
    if allclosed then some { s with pos := .stop } else some { s with pos := .lock allok }
  | .lock allok => if s.mutex = none then some { s with mutex := some .execute, pos := .held allok } else none
  | .held allok =>
    -- `continue` skips the unlock
    if s.stopinfo || !allok then some { s with pos := .head }
    else some { s with mutex := none, pos := .process }
  | .process =>
    match err with
    | none => some { s with pos := .head }
    | some e => some { s with errorList := s.errorList ++ ["task process error:" ++ e], pos := .head }
  | .stop =>
    match err with
    | none => some { s with pos := .close }
    | some e => some { s with
        status := .failed
        errorList := s.errorList ++ ["node " ++ Nat.repr s.nodeID ++ " task stop error:" ++ e]
        pos := .close }
  | .close => some { s with status := .none, pos := .returned (.ok ()) }
  | .returned _ => none

def goto (c : Nat) (call : NodeCall) : NodeLoop := { s with calls := Function.update s.calls c call }

def nextDestroy (c : Nat) : LockAt Unit → Option NodeLoop
  | .called =>
    if s.status = .failed ∨ s.status = .running then some (s.goto c (.destroy .locking))
    else some (s.goto c (.destroy (.returned ())))
  | .locking =>
    if s.mutex = none then some { s.goto c (.destroy .locked) with mutex := some (.call c) } else none
  | .locked => some { s.goto c (.destroy (.returned ())) with mutex := none, stopinfo := true }
  | .returned _ => none

/-- The copy goes into an empty slice, so that nothing of the list is copied. -/
def nextGetNodeErrorList (c : Nat) : LockAt (List String) → Option NodeLoop
  | .called => some (s.goto c (.getNodeErrorList .locking))
  | .locking =>
    if s.mutex = none then some { s.goto c (.getNodeErrorList .locked) with mutex := some (.call c) } else none
  | .locked => some { s.goto c (.getNodeErrorList (.returned (s.errorList.take 0))) with mutex := none }
  | .returned _ => none

def step : NodeEvent → Option NodeLoop
  | .execute oks err => s.execute oks err
  | .destroy c =>
    match s.calls c with
    | .none => some (s.goto c (.destroy .called))
    | _ => none
  | .getNodeErrorList c =>
    match s.calls c with
    | .none => some (s.goto c (.getNodeErrorList .called))
    | _ => none
  | .next c =>
    match s.calls c with
    | .none => none
    | .destroy pos => s.nextDestroy c pos
    | .getNodeErrorList pos => s.nextGetNodeErrorList c pos

end NodeLoop

/-- The lock discipline: `Execute` does not hold the mutex at the head of its loop, before a `Lock` or after
its return, and whoever holds it gives it back by its next step. -/
structure NodeLoop.Disciplined (s : NodeLoop) : Prop where
  head : s.pos = .head → s.mutex ≠ some .execute
  returned : ∀ result, s.pos = .returned result → s.mutex ≠ some .execute
  once : ∀ allok, s.pos = .lock allok → s.mutex ≠ some .execute
  execute : s.mutex = some .execute → ∃ t, s.step (.execute [] none) = some t ∧ t.mutex = none
  call : ∀ c, s.mutex = some (.call c) → ∃ t, s.step (.next c) = some t ∧ t.mutex = none

/-- `Execute` takes the mutex only when every stream gave a datum and no stop was asked for. -/
def NodeLoop.Flowing (s : NodeLoop) : NodeEvent → Prop
  | .execute _ _ => ∀ allok, s.pos = .lock allok → allok = true ∧ s.stopinfo = false
  | _ => True

/-- What a step does to the mutex and to the calls. -/
inductive NodeLoop.Moves (s : NodeLoop) : NodeEvent → NodeLoop → Prop
  | run {oks err t} (hold : ∀ allok, s.pos ≠ .held allok) (hnew : ∀ allok, t.pos ≠ .held allok)
      (hm : t.mutex = s.mutex) (hstop : t.stopinfo = s.stopinfo) (hcalls : t.calls = s.calls) :
      Moves s (.execute oks err) t
  | lock {oks err allok} (hp : s.pos = .lock allok) (hm : s.mutex = none) :
      Moves s (.execute oks err) { s with mutex := some .execute, pos := .held allok }
  | leave {oks err allok} (hp : s.pos = .held allok) (hskip : (s.stopinfo || !allok) = true) :
      Moves s (.execute oks err) { s with pos := .head }
  | unlock {oks err} (hp : s.pos = .held true) (hstop : s.stopinfo = false) :
      Moves s (.execute oks err) { s with mutex := none, pos := .process }
  | call {e c call} (hold : s.calls c ≠ .destroy .locked ∧ s.calls c ≠ .getNodeErrorList .locked)
      (hnew : call ≠ .destroy .locked ∧ call ≠ .getNodeErrorList .locked)
      (hreturned : ∀ errs, call ≠ .getNodeErrorList (.returned errs))
      (hstart : s.calls c = .none → e = .destroy c ∨ e = .getNodeErrorList c)
      (hkind : (∃ pos, call = .destroy pos) → e = .destroy c ∨ ∃ pos, s.calls c = .destroy pos) :
      Moves s e (s.goto c call)
  | callLock {c call} (hnew : call = .destroy .locked ∧ s.calls c = .destroy .locking ∨
      call = .getNodeErrorList .locked ∧ s.calls c = .getNodeErrorList .locking) (hm : s.mutex = none) :
      Moves s (.next c) { s.goto c call with mutex := some (.call c) }
  | callUnlock {c call stopinfo} (hnew : call = .destroy (.returned ()) ∧ s.calls c = .destroy .locked ∨
      call = .getNodeErrorList (.returned []) ∧ s.calls c = .getNodeErrorList .locked) :
      Moves s (.next c) { s.goto c call with mutex := none, stopinfo := stopinfo }

/-- What holds while `Execute` takes the mutex only then. -/
structure NodeLoop.Inv (s : NodeLoop) : Prop where
  execute : s.mutex = some .execute ↔ ∃ allok, s.pos = .held allok
  flow : ∀ allok, s.pos = .held allok → allok = true ∧ s.stopinfo = false
  call : ∀ c, s.mutex = some (.call c) ↔ s.calls c = .destroy .locked ∨ s.calls c = .getNodeErrorList .locked

namespace NodeLoop

variable {s t : NodeLoop}

theorem init_inv (nodeID : Nat) : (init nodeID).Inv :=
  ⟨by simp [init], by simp [init], by simp [init]⟩

theorem calls_goto {c c' : Nat} {call : NodeCall} :
    (s.goto c call).calls c' = if c' = c then call else s.calls c' := Function.update_apply ..

theorem Inv.disciplined (h : s.Inv) : s.Disciplined := by
  refine ⟨fun hp hm => ?_, fun result hp hm => ?_, fun allok hp hm => ?_, fun hm => ?_, fun c hm => ?_⟩
  · obtain ⟨allok, hheld⟩ := h.execute.mp hm
    cases hp.symm.trans hheld
  · obtain ⟨allok, hheld⟩ := h.execute.mp hm
    cases hp.symm.trans hheld
  · obtain ⟨allok, hheld⟩ := h.execute.mp hm
    cases hp.symm.trans hheld
  · obtain ⟨allok, hheld⟩ := h.execute.mp hm
    obtain ⟨hok, hstop⟩ := h.flow allok hheld
    refine ⟨{ s with mutex := none, pos := .process }, ?_, rfl⟩
    simp [step, NodeLoop.execute, hheld, hok, hstop]
  · obtain hc | hc := (h.call c).mp hm
    · refine ⟨{ s.goto c (.destroy (.returned ())) with mutex := none, stopinfo := true }, ?_, rfl⟩
      rw [step, hc]
      rfl
    · refine ⟨{ s.goto c (.getNodeErrorList (.returned (s.errorList.take 0))) with mutex := none }, ?_, rfl⟩
      rw [step, hc]
      rfl

/-- A step of `Execute`. -/
theorem execute_moves {oks : List Bool} {err : Option String} (ht : s.execute oks err = some t) :
    s.Moves (.execute oks err) t := by
  simp only [NodeLoop.execute] at ht
  split at ht
  next hp =>
    split at ht <;> (cases ht; exact .run (by simp [hp]) (by simp) rfl rfl rfl)
  next hp =>
    split at ht <;> (cases ht; exact .run (by simp [hp]) (by simp) rfl rfl rfl)
  next allok hp =>
    split at ht
    next hm =>
      cases ht
      exact .lock hp hm
    next => cases ht
  next allok hp =>
    split at ht
    next hskip =>
      cases ht
      exact .leave hp hskip
    next hrun =>
      cases ht
      obtain ⟨hstop, hok⟩ : s.stopinfo = false ∧ allok = true := by simpa using hrun
      subst hok
      exact .unlock hp hstop
  next hp =>
    split at ht <;> (cases ht; exact .run (by simp [hp]) (by simp) rfl rfl rfl)
  next hp =>
    split at ht <;> (cases ht; exact .run (by simp [hp]) (by simp) rfl rfl rfl)
  next hp =>
    cases ht
    exact .run (by simp [hp]) (by simp) rfl rfl rfl
  next => cases ht

/-- A step of a call that has been made. -/
theorem next_moves {c : Nat} (ht : s.step (.next c) = some t) : s.Moves (.next c) t := by
  simp only [NodeLoop.step] at ht
  split at ht
  next => cases ht
  next pos hc =>
    cases pos with
    | called =>
      simp only [nextDestroy] at ht
      split at ht <;>
        (cases ht; exact .call (by simp [hc]) (by simp) (by simp) (by simp [hc]) fun _ => .inr ⟨_, hc⟩)
    | locking =>
      simp only [nextDestroy] at ht
      split at ht
      next hm =>
        cases ht
        exact .callLock (.inl ⟨rfl, hc⟩) hm
      next => cases ht
    | locked =>
      cases ht
      exact .callUnlock (.inl ⟨rfl, hc⟩)
    | returned result => cases ht
  next pos hc =>
    cases pos with
    | called =>
      cases ht
      exact .call (by simp [hc]) (by simp) (by simp) (by simp [hc]) (by simp)
    | locking =>
      simp only [nextGetNodeErrorList] at ht
      split at ht
      next hm =>
        cases ht
        exact .callLock (.inr ⟨rfl, hc⟩) hm
      next => cases ht
    | locked =>
      cases ht
      exact .callUnlock (.inr ⟨rfl, hc⟩)
    | returned result => cases ht

theorem step_moves {e : NodeEvent} (ht : s.step e = some t) : s.Moves e t := by
  cases e with
  | execute oks err => exact execute_moves ht
  | destroy c =>
    simp only [NodeLoop.step] at ht
    split at ht
    next hc =>
      cases ht
      exact .call (by simp [hc]) (by simp) (by simp) (fun _ => .inl rfl) fun _ => .inl rfl
    next => cases ht
  | getNodeErrorList c =>
    simp only [NodeLoop.step] at ht
    split at ht
    next hc =>
      cases ht
      exact .call (by simp [hc]) (by simp) (by simp) (fun _ => .inr rfl) (by simp)
    next => cases ht
  | next c => exact next_moves ht

/-- What a step does to one of the calls. -/
theorem step_calls {e : NodeEvent} (ht : s.step e = some t) (c : Nat) : t.calls c = s.calls c ∨
    (s.calls c = .none → e = .destroy c ∨ e = .getNodeErrorList c) ∧
    ((∃ pos, t.calls c = .destroy pos) → e = .destroy c ∨ ∃ pos, s.calls c = .destroy pos) ∧
    ∀ errs, t.calls c = .getNodeErrorList (.returned errs) → errs = [] ∧ s.calls c = .getNodeErrorList .locked := by
  cases step_moves ht with
  | run _ _ _ _ hcalls => exact .inl (congrFun hcalls c)
  | lock => exact .inl rfl
  | leave => exact .inl rfl
  | unlock => exact .inl rfl
  | call _ _ hreturned hstart hkind =>
    rw [calls_goto]
    split
    next heq =>
      subst heq
      exact .inr ⟨hstart, hkind, fun errs h => absurd h (hreturned errs)⟩
    next => exact .inl rfl
  | callLock hnew =>
    simp only [calls_goto]
    split
    next heq =>
      subst heq
      obtain ⟨hcall, hold⟩ | ⟨hcall, hold⟩ := hnew <;> simp [hcall, hold]
    next => exact .inl rfl
  | callUnlock hnew =>
    simp only [calls_goto]
    split
    next heq =>
      subst heq
      obtain ⟨hcall, hold⟩ | ⟨hcall, hold⟩ := hnew <;> simp [hcall, hold, eq_comm]
    next => exact .inl rfl

/-- The mutex is with the call that has locked it, as long as `Execute` has it behind its own `Lock`. -/
theorem step_holds {e : NodeEvent} (ht : s.step e = some t)
    (hheld : ∀ allok, s.pos = .held allok → s.mutex = some .execute)
    (h : ∀ c, s.mutex = some (.call c) ↔ s.calls c = .destroy .locked ∨ s.calls c = .getNodeErrorList .locked)
    (c : Nat) : t.mutex = some (.call c) ↔ t.calls c = .destroy .locked ∨ t.calls c = .getNodeErrorList .locked := by
  have hc := h c
  cases step_moves ht with
  | run _ _ hm _ hcalls => rwa [hm, hcalls]
  | lock _ hm =>
    rw [hm] at hc
    simpa using hc
  | leave => exact hc
  | unlock hp =>
    rw [hheld true hp] at hc
    simpa using hc
  | call hold hnew =>
    rw [calls_goto]
    split
    next heq =>
      subst heq
      exact iff_of_false (fun hm => (hc.mp hm).elim hold.1 hold.2) (not_or.mpr hnew)
    next => exact hc
  | callLock hnew hm =>
    simp only [calls_goto, Option.some.injEq, NodeThread.call.injEq]
    split
    next heq => exact iff_of_true heq.symm (hnew.imp And.left And.left)
    next hne =>
      rw [hm] at hc
      exact iff_of_false (fun heq => hne heq.symm) fun hl => absurd (hc.mpr hl) (by simp)
  | @callUnlock c' _ _ hnew =>
    have hm := (h c').mpr (hnew.imp And.right And.right)
    simp only [calls_goto]
    split
    next => obtain ⟨hcall, _⟩ | ⟨hcall, _⟩ := hnew <;> simp [hcall]
    next hne =>
      rw [hm, Option.some.injEq, NodeThread.call.injEq] at hc
      exact iff_of_false (by simp) fun hl => hne (hc.mpr hl).symm

theorem Inv.step {e : NodeEvent} (h : s.Inv) (ht : s.step e = some t) (hflow : s.Flowing e) : t.Inv := by
  have hcall := step_holds ht (fun allok hp => h.execute.mpr ⟨allok, hp⟩) h.call
  have hfree : s.mutex ≠ some .execute → ¬ ∃ allok, s.pos = .held allok := fun hm hp => hm (h.execute.mpr hp)
  cases step_moves ht with
  | run hold hnew hm hstop hcalls =>
    refine ⟨?_, fun allok hp => absurd hp (hnew allok), hcall⟩
    rw [hm, h.execute]
    exact iff_of_false (fun ⟨allok, hp⟩ => hold allok hp) fun ⟨allok, hp⟩ => hnew allok hp
  | @lock oks err allok hp hm =>
    refine ⟨by simp, fun allok' hp' => ?_, hcall⟩
    cases hp'
    exact hflow allok hp
  | leave hp hskip =>
    obtain ⟨hok, hstop⟩ := h.flow _ hp
    rw [hok, hstop] at hskip
    cases hskip
  | unlock => exact ⟨by simp, fun allok' hp' => (nomatch hp'), hcall⟩
  | call => exact ⟨h.execute, h.flow, hcall⟩
  | callLock hnew hm =>
    have hno := hfree (by simp [hm])
    exact ⟨iff_of_false (by simp) hno, fun allok hp => absurd ⟨allok, hp⟩ hno, hcall⟩
  | callUnlock hnew =>
    have hm := (h.call _).mpr (hnew.imp And.right And.right)
    have hno := hfree (by simp [hm])
    exact ⟨iff_of_false (by simp) hno, fun allok hp => absurd ⟨allok, hp⟩ hno, hcall⟩

/-- A step into a state with the discipline meets the condition. -/
theorem Disciplined.flowing {e : NodeEvent} (ht : s.step e = some t) (hd : t.Disciplined) : s.Flowing e := by
  cases e with
  | execute oks err =>
    intro allok hp
    have hlock : (if s.mutex = none then some { s with mutex := some .execute, pos := .held allok } else none) =
        some t := by
      rw [← ht]
      simp only [NodeLoop.step, NodeLoop.execute, hp]
    split at hlock
    next hm =>
      cases hlock
      obtain ⟨u, hu, hfree⟩ := hd.execute rfl
      simp only [NodeLoop.step, NodeLoop.execute] at hu
      split at hu
      · cases hu
        cases hfree
      next hrun => simpa [and_comm] using hrun
    next => cases hlock
  | destroy c => trivial
  | getNodeErrorList c => trivial
  | next c => trivial

end NodeLoop

/-- A run of a node keeps the lock discipline exactly when `Execute` takes the mutex only after every stream
gave a datum and while no stop was asked for. -/
theorem NodeLoop.disciplined_iff_flowing (nodeID : Nat) (es : List NodeEvent) :
    Always NodeLoop.step NodeLoop.Disciplined (.init nodeID) es ↔
      Meets NodeLoop.step NodeLoop.Flowing (.init nodeID) es :=
  always_iff_meets (fun _ => Inv.disciplined) (fun _ _ _ h ht hflow => h.step ht hflow)
    (fun _ _ _ _ ht hd => hd.flowing ht) (init_inv nodeID)

/-- A round in which one of two streams is closed, and a round after a `Destroy`, end at the head of the loop
with the mutex locked. -/
theorem NodeLoop.closed_stream_not_disciplined :
    ¬ Always NodeLoop.step NodeLoop.Disciplined (.init 0)
        [.execute [] none, .execute [true, false] none, .execute [] none, .execute [] none] ∧
      ¬ Always NodeLoop.step NodeLoop.Disciplined (.init 0)
        [.execute [] none, .destroy 0, .next 0, .next 0, .next 0, .execute [true, true] none,
          .execute [] none, .execute [] none] := by
  refine ⟨fun h => ?_, fun h => ?_⟩
  · exact ((((h.2 _ rfl).2 _ rfl).2 _ rfl).2 _ rfl).head.head rfl rfl
  · exact ((((((((h.2 _ rfl).2 _ rfl).2 _ rfl).2 _ rfl).2 _ rfl).2 _ rfl).2 _ rfl).2 _ rfl).head.head rfl rfl

end Dni
