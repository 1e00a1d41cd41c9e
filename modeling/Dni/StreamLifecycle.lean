import Dni.SyncSet
import Dni.Lib.Runs
import Mathlib.Data.List.Induction

namespace Dni.Cpp

open Runs

variable {α : Type}

namespace InputStreamManager

/-- A manager as it is allocated: its fields are zero. -/
def fresh : InputStreamManager α := ⟨[], 0, false⟩

def prepareForRun (m : InputStreamManager α) : InputStreamManager α :=
  { m with queue := [], nextTsBound := timestampBegin }

/-- The loop of `PopAt`: the last datum popped, its timestamp, the count of the popped, and what is left. -/
def popAtLoop (ts : Int) : List (Datum α) → Datum α → Int → Nat → Datum α × Int × Nat × List (Datum α)
  | [], ret, curr, dropped => (ret, curr, dropped, [])
  | d :: queue, ret, curr, dropped =>
    if d.ts ≤ ts then popAtLoop ts queue d d.ts (dropped + 1) else (ret, curr, dropped, d :: queue)

/-- The datum, what is left, the count of the dropped, and whether that is done. The timestamp of an empty
datum that nobody set is not read. -/
def popAt (m : InputStreamManager α) (ts : Int) (numDropped : Nat) :
    Datum α × InputStreamManager α × Nat × Bool :=
  let nextTsBound := if m.nextTsBound ≤ ts then ts + 1 else m.nextTsBound
  let (ret, curr, dropped, queue) := popAtLoop ts m.queue ⟨none, 0⟩ ctimeMin numDropped
  let m' := { m with queue := queue, nextTsBound := nextTsBound }
  if curr = ts then (ret, m', dropped, m'.isDone)
  else
    let bound := match queue with
      | [] => nextTsBound
      | d :: _ => d.ts
    (⟨none, bound - 1⟩, m', dropped + 1, m'.isDone)

end InputStreamManager

/-- The calls of a manager. -/
inductive ManagerOp (α : Type)
  | prepareForRun
  | addData (data : List (Datum α))
  | moveData (data : List (Datum α))
  | setNextTimestampBound (ts : Int)
  | close
  | pop
  | popAt (ts : Int)

namespace ManagerOp

def IsTime (ts : Int) : Prop := ctimeMin ≤ ts ∧ ts ≤ ctimeMax

/-- The timestamps that the call gives are numbers of `time_t`. -/
def Timed : ManagerOp α → Prop
  | .addData data | .moveData data => ∀ d ∈ data, IsTime d.ts
  | .setNextTimestampBound ts | .popAt ts => IsTime ts
  | _ => True

instance (ts : Int) : Decidable (IsTime ts) := inferInstanceAs (Decidable (_ ∧ _))

instance (op : ManagerOp α) : Decidable op.Timed := by
  cases op <;> unfold Timed <;> infer_instance

def apply : ManagerOp α → InputStreamManager α → InputStreamManager α
  | .prepareForRun, m => m.prepareForRun
  | .addData data, m => m.addData data
  | .moveData data, m => m.addData data
  | .setNextTimestampBound ts, m => m.setNextTimestampBound ts
  | .close, m => m.close
  | .pop, m =>
    match m.pop with
    | none => m
    | some (_, m', _) => m'
  | .popAt ts, m => (m.popAt ts 0).2.1

def isClose : ManagerOp α → Bool
  | .close => true
  | _ => false

/-- The call adds one to the last number of `time_t`. -/
def Overflows (op : ManagerOp α) (m : InputStreamManager α) : Prop :=
  match op with
  | .addData data | .moveData data => ∃ d ∈ data, d.ts = ctimeMax
  | .popAt ts => m.nextTsBound ≤ ts ∧ ts = ctimeMax
  | _ => False

instance (op : ManagerOp α) (m : InputStreamManager α) : Decidable (op.Overflows m) := by
  cases op <;> unfold Overflows <;> infer_instance

end ManagerOp

/-- A manager with what was seen of it: whether it was made ready to run and whether that was the last call,
the greatest bound of the run, whether it was closed in the run, and whether a sum left `time_t`. -/
structure ManagerLife (α : Type) where
  manager : InputStreamManager α
  inRun : Bool
  atStart : Bool
  top : Int
  closed : Bool
  overflowed : Bool

namespace ManagerLife

def fresh : ManagerLife α := ⟨.fresh, false, false, 0, false, false⟩

def apply (s : ManagerLife α) (op : ManagerOp α) : ManagerLife α :=
  match op with
  | .prepareForRun =>
    { s with
      manager := op.apply s.manager
      inRun := true
      atStart := true
      top := (op.apply s.manager).nextTsBound
      closed := false }
  | _ =>
    { s with
      manager := op.apply s.manager
      atStart := false
      top := max s.top (op.apply s.manager).nextTsBound
      closed := s.closed || op.isClose
      overflowed := s.overflowed || op.Overflows s.manager }

def step (s : ManagerLife α) (op : ManagerOp α) : Option (ManagerLife α) :=
  if op.Timed then some (s.apply op) else none

/-- What a manager promises: sums stay in `time_t`, the bound has not gone down in the run, a closed manager
stays at the end of time, and one made ready to run is empty, open and can be closed. -/
structure Good (s : ManagerLife α) : Prop where
  exact : ¬ s.overflowed
  mono : s.inRun → s.top ≤ s.manager.nextTsBound
  closed : s.inRun → s.closed → s.manager.nextTsBound = ctimeMax
  done : s.inRun → s.closed → s.manager.queue = [] → s.manager.isDone
  start : s.atStart → s.manager = ⟨[], timestampBegin, false⟩
  again : s.atStart → s.manager.close = ⟨[], ctimeMax, true⟩

/-- The data come behind the bound and before the end of time, and a closed manager is not used again. -/
def Ordered (s : ManagerLife α) : ManagerOp α → Prop
  | .prepareForRun => s.manager.closed = false
  | .addData data | .moveData data =>
    (∀ d ∈ data, d.ts < ctimeMax) ∧ (s.inRun → ∀ d ∈ data.getLast?, s.manager.nextTsBound ≤ d.ts + 1)
  | .popAt ts => ts < ctimeMax
  | _ => True

end ManagerLife

namespace InputStreamManager

variable (m : InputStreamManager α)

theorem addData_closed (data : List (Datum α)) : (m.addData data).closed = m.closed := by
  induction data generalizing m with
  | nil => rfl
  | cons d data ih => exact ih (m.push d)

theorem addData_bound (data : List (Datum α)) :
    (m.addData data).nextTsBound = (data.getLast?.map fun d => d.ts + 1).getD m.nextTsBound := by
  induction data using List.reverseRecOn with
  | nil => rfl
  | append_singleton data d ih => simp [addData, push]

theorem setNextTimestampBound_closed (ts : Int) : (m.setNextTimestampBound ts).closed = m.closed := by
  unfold setNextTimestampBound
  split
  · rfl
  · split <;> rfl

theorem setNextTimestampBound_bound (ts : Int) :
    (m.setNextTimestampBound ts).nextTsBound = if m.closed then m.nextTsBound else max m.nextTsBound ts := by
  unfold setNextTimestampBound
  split
  · rfl
  · split
    next h => exact (max_eq_left (le_of_lt h)).symm
    next h => exact (max_eq_right (not_lt.mp h)).symm

theorem pop_apply : (ManagerOp.pop.apply m).nextTsBound = m.nextTsBound ∧
    (ManagerOp.pop.apply m).closed = m.closed := by
  obtain ⟨queue, nextTsBound, closed⟩ := m
  cases queue with
  | nil => exact ⟨rfl, rfl⟩
  | cons d queue => exact ⟨rfl, rfl⟩

theorem popAt_apply (ts : Int) : ((ManagerOp.popAt ts).apply m).nextTsBound =
      (if m.nextTsBound ≤ ts then ts + 1 else m.nextTsBound) ∧
    ((ManagerOp.popAt ts).apply m).closed = m.closed := by
  simp only [ManagerOp.apply, popAt]
  split <;> exact ⟨rfl, rfl⟩

end InputStreamManager

namespace ManagerLife

variable {s t : ManagerLife α}

/-- What holds while every call is in order. -/
structure Inv (s : ManagerLife α) : Prop where
  exact : s.overflowed = false
  bound : s.manager.nextTsBound ≤ ctimeMax
  top : s.inRun → s.top = s.manager.nextTsBound
  flag : s.inRun → s.manager.closed = s.closed
  closed : s.inRun → s.closed → s.manager.nextTsBound = ctimeMax
  start : s.atStart → s.manager = ⟨[], timestampBegin, false⟩

theorem fresh_inv : (fresh : ManagerLife α).Inv where
  exact := rfl
  bound := by
    show (0 : Int) ≤ ctimeMax
    decide
  top h := by cases h
  flag h := by cases h
  closed h := by cases h
  start h := by cases h

theorem Inv.good (h : s.Inv) : s.Good where
  exact := by simp [h.exact]
  mono hrun := by rw [h.top hrun]
  closed := h.closed
  done hrun hc hq := by simp [InputStreamManager.isDone, hq, timestampDone, h.closed hrun hc]
  start := h.start
  again hs := by rw [h.start hs]; rfl

/-- A call that raises the bound of an open manager, or keeps it, and leaves the flag. -/
theorem Inv.raise {op : ManagerOp α} (h : s.Inv) (hop : s.apply op = { s with
      manager := op.apply s.manager
      atStart := false
      top := max s.top (op.apply s.manager).nextTsBound
      overflowed := s.overflowed || op.Overflows s.manager })
    (hexact : ¬ op.Overflows s.manager)
    (hlow : s.inRun → s.manager.nextTsBound ≤ (op.apply s.manager).nextTsBound)
    (hhigh : (op.apply s.manager).nextTsBound ≤ ctimeMax) (hflag : (op.apply s.manager).closed = s.manager.closed) :
    (s.apply op).Inv := by
  rw [hop]
  refine ⟨by simp [h.exact, hexact], hhigh, fun hrun => ?_, fun hrun => ?_, fun hrun hc => ?_, fun hs => by cases hs⟩
  · show max s.top _ = _
    rw [h.top hrun]
    exact max_eq_right (hlow hrun)
  · exact hflag.trans (h.flag hrun)
  · have hold := h.closed hrun hc
    have hup := hlow hrun
    rw [hold] at hup
    exact le_antisymm hhigh hup

theorem Inv.add {data : List (Datum α)} (h : s.Inv) (htimed : ∀ d ∈ data, d.ts < ctimeMax)
    (horder : s.inRun → ∀ d ∈ data.getLast?, s.manager.nextTsBound ≤ d.ts + 1) :
    (s.inRun → s.manager.nextTsBound ≤ (s.manager.addData data).nextTsBound) ∧
      (s.manager.addData data).nextTsBound ≤ ctimeMax := by
  rw [InputStreamManager.addData_bound]
  cases hlast : data.getLast? with
  | none => exact ⟨fun _ => le_refl _, h.bound⟩
  | some d =>
    have hd := htimed d (List.mem_of_getLast? hlast)
    refine ⟨fun hrun => horder hrun d hlast, ?_⟩
    show d.ts + 1 ≤ ctimeMax
    omega

theorem Inv.close (h : s.Inv) : (s.apply .close).Inv := by
  have hop : s.apply .close = { s with
      manager := s.manager.close
      atStart := false
      top := max s.top s.manager.close.nextTsBound
      closed := true } := by
    have hno : ¬ ManagerOp.close.Overflows s.manager := id
    simp [apply, ManagerOp.apply, ManagerOp.isClose, hno]
  rw [hop]
  cases hflag : s.manager.closed with
  | true =>
    -- the manager is closed already, in the run by an earlier call of the run
    have hm : s.manager.close = s.manager := by simp [InputStreamManager.close, hflag]
    rw [hm]
    refine ⟨h.exact, h.bound, fun hrun => ?_, fun hrun => hflag, fun hrun _ => ?_, fun hs => (nomatch hs)⟩
    · show max s.top _ = _
      rw [h.top hrun, max_self]
    · exact h.closed hrun ((h.flag hrun).symm.trans hflag)
  | false =>
    have hm : s.manager.close = ⟨s.manager.queue, ctimeMax, true⟩ := by
      simp [InputStreamManager.close, hflag]
    rw [hm]
    refine ⟨h.exact, le_refl _, fun hrun => ?_, fun _ => rfl, fun _ _ => rfl, fun hs => (nomatch hs)⟩
    show max s.top ctimeMax = ctimeMax
    rw [h.top hrun]
    exact max_eq_right h.bound

theorem Inv.step {op : ManagerOp α} (h : s.Inv) (ht : s.step op = some t) (ho : s.Ordered op) : t.Inv := by
  unfold ManagerLife.step at ht
  split at ht
  next htimed =>
    cases ht
    cases op with
    | prepareForRun =>
      refine ⟨h.exact, ?_, fun _ => rfl, fun _ => ho, fun _ hc => (nomatch hc), fun _ => ?_⟩
      · show timestampBegin ≤ ctimeMax
        decide
      · show s.manager.prepareForRun = _
        rw [InputStreamManager.prepareForRun, ho]
    | addData data =>
      obtain ⟨hlow, hhigh⟩ := h.add ho.1 ho.2
      refine h.raise (by simp [apply, ManagerOp.isClose]) ?_ hlow hhigh (s.manager.addData_closed data)
      intro ⟨d, hd, he⟩
      have := ho.1 d hd
      omega
    | moveData data =>
      obtain ⟨hlow, hhigh⟩ := h.add ho.1 ho.2
      refine h.raise (by simp [apply, ManagerOp.isClose]) ?_ hlow hhigh (s.manager.addData_closed data)
      intro ⟨d, hd, he⟩
      have := ho.1 d hd
      omega
    | setNextTimestampBound ts =>
      have hbound := s.manager.setNextTimestampBound_bound ts
      have hold := h.bound
      have hts : ts ≤ ctimeMax := htimed.2
      refine h.raise (by simp [apply, ManagerOp.isClose]) (by simp [ManagerOp.Overflows]) (fun _ => ?_) ?_
        (s.manager.setNextTimestampBound_closed ts)
      · show _ ≤ (s.manager.setNextTimestampBound ts).nextTsBound
        rw [hbound]
        split
        · exact le_refl _
        · exact le_max_left ..
      · show (s.manager.setNextTimestampBound ts).nextTsBound ≤ _
        rw [hbound]
        split
        · exact hold
        · exact max_le hold hts
    | close => exact h.close
    | pop =>
      obtain ⟨hbound, hclosed⟩ := s.manager.pop_apply
      exact h.raise (by simp [apply, ManagerOp.isClose]) (by simp [ManagerOp.Overflows])
        (fun _ => by rw [hbound]) (by rw [hbound]; exact h.bound) hclosed
    | popAt ts =>
      obtain ⟨hbound, hclosed⟩ := s.manager.popAt_apply ts
      have hold := h.bound
      have hts : ts < ctimeMax := ho
      refine h.raise (by simp [apply, ManagerOp.isClose]) ?_ (fun _ => ?_) ?_ hclosed
      · intro ⟨_, he⟩
        omega
      · rw [hbound]
        split <;> omega
      · rw [hbound]
        split <;> omega
  next => cases ht

theorem Good.ordered {data : List (Datum α)} (h : s.Inv) (hexact : ¬ ∃ d ∈ data, d.ts = ctimeMax)
    (htimed : ∀ d ∈ data, ManagerOp.IsTime d.ts)
    (hmono : s.inRun → max s.top (s.manager.addData data).nextTsBound ≤ (s.manager.addData data).nextTsBound) :
    (∀ d ∈ data, d.ts < ctimeMax) ∧ (s.inRun → ∀ d ∈ data.getLast?, s.manager.nextTsBound ≤ d.ts + 1) := by
  refine ⟨fun d hd => ?_, fun hrun d hd => ?_⟩
  · exact lt_of_le_of_ne (htimed d hd).2 fun he => hexact ⟨d, hd, he⟩
  · have hlow := hmono hrun
    rw [InputStreamManager.addData_bound, Option.mem_def.mp hd, h.top hrun] at hlow
    exact (le_max_left ..).trans hlow

/-- A call into a good state is in order. -/
theorem Inv.needs {op : ManagerOp α} (h : s.Inv) (ht : s.step op = some t) (hg : t.Good) : s.Ordered op := by
  unfold ManagerLife.step at ht
  split at ht
  next htimed =>
    cases ht
    cases op with
    | prepareForRun =>
      have hm := hg.start rfl
      exact congrArg InputStreamManager.closed hm
    | addData data =>
      have hexact := hg.exact
      simp only [apply, Bool.or_eq_true, decide_eq_true_eq, not_or] at hexact
      exact Good.ordered h hexact.2 htimed hg.mono
    | moveData data =>
      have hexact := hg.exact
      simp only [apply, Bool.or_eq_true, decide_eq_true_eq, not_or] at hexact
      exact Good.ordered h hexact.2 htimed hg.mono
    | setNextTimestampBound ts => trivial
    | close => trivial
    | pop => trivial
    | popAt ts =>
      have hexact := hg.exact
      simp only [apply, Bool.or_eq_true, decide_eq_true_eq, not_or] at hexact
      refine lt_of_le_of_ne htimed.2 fun he => hexact.2 ⟨?_, he⟩
      rw [he]
      exact h.bound
  next => cases ht

end ManagerLife

/-- Over any calls, a manager keeps what it promises exactly when the data come in order, before the end of
time, and it is not made ready again once it was closed. -/
theorem ManagerLife.good_iff_ordered (ops : List (ManagerOp α)) :
    Always ManagerLife.step ManagerLife.Good .fresh ops ↔ Meets ManagerLife.step ManagerLife.Ordered .fresh ops :=
  always_iff_meets (fun _ => Inv.good) (fun _ _ _ h ht ho => h.step ht ho)
    (fun _ _ _ h ht hg => h.needs ht hg) fresh_inv

/-- A manager closed in one run is closed at the start of the next and cannot be closed again; a datum that
comes after `Close` takes the bound back. -/
theorem ManagerLife.second_run_not_good :
    ¬ Always ManagerLife.step ManagerLife.Good (fresh : ManagerLife Nat)
        [.prepareForRun, .close, .prepareForRun] ∧
      ¬ Always ManagerLife.step ManagerLife.Good (fresh : ManagerLife Nat)
        [.prepareForRun, .close, .addData [⟨some 1, 5⟩]] := by
  refine ⟨fun h => ?_, fun h => ?_⟩
  · have hm := (((h.2 _ rfl).2 _ rfl).2 _ rfl).head.start rfl
    cases congrArg InputStreamManager.closed hm
  · have hm := (((h.2 _ rfl).2 _ rfl).2 _ rfl).head.closed rfl rfl
    cases hm

end Dni.Cpp
