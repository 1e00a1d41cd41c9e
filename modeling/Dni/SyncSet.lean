import Mathlib.Data.List.Basic
import Mathlib.Tactic.Ring

namespace Dni.Cpp

/-- A value, or none, with its timestamp. -/
structure Datum (α : Type) where
  value : Option α
  ts : Int
deriving DecidableEq

def ctimeMin : Int := -2 ^ 63

def ctimeMax : Int := 2 ^ 63 - 1

def timestampBegin : Int := ctimeMin + 1

def timestampDone (ts : Int) : Bool := ts = ctimeMax

/-- `At` changes the timestamp only. -/
def Datum.at {α : Type} (d : Datum α) (ts : Int) : Datum α := { d with ts := ts }

structure InputStreamManager (α : Type) where
  queue : List (Datum α)
  nextTsBound : Int
  closed : Bool

structure InputStreamImpl (α : Type) where
  queue : List (Datum α)
  done : Bool

variable {α : Type}

namespace InputStreamManager

def push (m : InputStreamManager α) (d : Datum α) : InputStreamManager α :=
  { m with nextTsBound := d.ts + 1, queue := m.queue ++ [d] }

/-- `MoveData` is the same: the data it moves from are not read again. -/
def addData (m : InputStreamManager α) (data : List (Datum α)) : InputStreamManager α :=
  data.foldl push m

def close (m : InputStreamManager α) : InputStreamManager α :=
  if m.closed then m else { m with nextTsBound := ctimeMax, closed := true }

def isDone (m : InputStreamManager α) : Bool := m.queue.isEmpty && timestampDone m.nextTsBound

/-- The datum, what is left, and whether that is done. -/
def pop (m : InputStreamManager α) : Option (Datum α × InputStreamManager α × Bool) :=
  match m.queue with
  | [] => none
  | d :: queue => let m' := { m with queue := queue }; some (d, m', m'.isDone)

def setNextTimestampBound (m : InputStreamManager α) (ts : Int) : InputStreamManager α :=
  if m.closed then m else if ts < m.nextTsBound then m else { m with nextTsBound := ts }

def nextTimestampOrBound (m : InputStreamManager α) : Int :=
  match m.queue with
  | [] => m.nextTsBound
  | d :: _ => d.ts

end InputStreamManager

def InputStreamImpl.addDatum (s : InputStreamImpl α) (d : Datum α) (done : Bool) :
    InputStreamImpl α :=
  if s.done && d.value.isSome then s else { queue := s.queue ++ [d], done := done }

/-- One input stream: its two ends, and every value ever queued in it. -/
structure Stream (α : Type) where
  manager : InputStreamManager α
  impl : InputStreamImpl α
  queued : List (Option α) := []

namespace Stream

/-- The loop of `Sync`: every round pops, so as many rounds as there are data suffice. -/
def syncLoop (ts : Int) : Nat → Stream α → Stream α
  | 0, s => s
  | rounds + 1, s =>
    match s.manager.pop with
    | none => s
    | some (d, m, done) =>
      if done then { s with manager := m }
      else syncLoop ts rounds { s with manager := m, impl := s.impl.addDatum (d.at (ts - 1)) done }

def sync (s : Stream α) : Stream α :=
  syncLoop s.manager.nextTimestampOrBound s.manager.queue.length s

def addData (data : List (Datum α)) (s : Stream α) : Stream α :=
  { s with manager := s.manager.addData data, queued := s.queued ++ data.map Datum.value }

def close (s : Stream α) : Stream α := { s with manager := s.manager.close }

def setNextTimestampBound (ts : Int) (s : Stream α) : Stream α :=
  { s with manager := s.manager.setNextTimestampBound ts }

end Stream

/-- The calls. `close` is the handler's, of all streams. -/
inductive SyncOp (α : Type)
  | addData (id : Nat) (data : List (Datum α))
  | moveData (id : Nat) (data : List (Datum α))
  | setNextTimestampBound (id : Nat) (ts : Int)
  | closeManager (id : Nat)
  | close
  | sync

def SyncOp.apply : SyncOp α → List (Stream α) → List (Stream α)
  | .addData id data, ss => ss.modify id (Stream.addData data)
  | .moveData id data, ss => ss.modify id (Stream.addData data)
  | .setNextTimestampBound id ts, ss => ss.modify id (Stream.setNextTimestampBound ts)
  | .closeManager id, ss => ss.modify id Stream.close
  | .close, ss => ss.map Stream.close
  | .sync, ss => ss.map Stream.sync

/-- The values handed over and those still in the queue are the values queued, in order. -/
def Stream.Exact (s : Stream α) : Prop :=
  s.impl.queue.map Datum.value ++ s.manager.queue.map Datum.value = s.queued

/-- No stream has lost, doubled or reordered a value, after any of the calls, and a call of `Sync` leaves none to hand
over. -/
def ExactRun (ss : List (Stream α)) : List (SyncOp α) → Prop
  | [] => ∀ s ∈ ss, s.Exact
  | op :: ops => (∀ s ∈ ss, s.Exact) ∧ (op = .sync → ∀ s ∈ ss, s.sync.manager.queue = []) ∧ ExactRun (op.apply ss) ops

/-- There is nothing to hand over, or the stream has not come to its end. -/
def Stream.Open (s : Stream α) : Prop := s.manager.queue = [] ∨ s.manager.nextTsBound ≠ ctimeMax

def OpenRun (ss : List (Stream α)) : List (SyncOp α) → Prop
  | [] => True
  | op :: ops => (op = .sync → ∀ s ∈ ss, s.Open) ∧ OpenRun (op.apply ss) ops

/-- A stream made ready to run: the flag of the manager is set nowhere before it is read. -/
structure Stream.Start (s : Stream α) : Prop where
  queue : s.manager.queue = []
  bound : s.manager.nextTsBound = timestampBegin
  handed : s.impl.queue = []
  done : s.impl.done = false
  queued : s.queued = []

end Dni.Cpp
