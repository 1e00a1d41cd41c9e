import Dni.Lib.GoMap
import Dni.Lib.Runs
import Mathlib.Logic.Function.Basic

namespace Dni

open GoMap Runs

/-- A graph, named after the call of `RunGraph` that built it. -/
structure ManagedGraph where
  call : Nat
  name : String
  deriving DecidableEq

/-- Where a call of `RunGraph` stands. -/
inductive RunGraphAt
  | called
  | checked
  | started
  | returned (result : Except String String)

/-- Where a call of `DestroyGraph` stands; it holds the mutex at `found` and `destroyed`. -/
inductive DestroyGraphAt
  | called
  | found (g : ManagedGraph)
  | destroyed (g : ManagedGraph)
  | returned (result : Except String Unit)

inductive ManagerCall
  | none
  | runGraph (name : String) (pos : RunGraphAt)
  | destroyGraph (name : String) (pos : DestroyGraphAt)

/-- The service: the fields of the manager, where every call stands, and what was done to the graphs. -/
structure GraphManager where
  mutex : Option Nat
  graphMap : GoMap String ManagedGraph
  calls : Nat → ManagerCall
  started : List ManagedGraph
  destroyed : List ManagedGraph

def GraphManager.init : GraphManager := ⟨none, ∅, fun _ => .none, [], []⟩

/-- A new call, or the next step of a call; `start` is what starting the graph gives there. -/
inductive ManagerEvent
  | runGraph (c : Nat) (name : String)
  | destroyGraph (c : Nat) (name : String)
  | next (c : Nat) (start : Except String Unit)

namespace GraphManager

variable (s : GraphManager)

def goto (c : Nat) (call : ManagerCall) : GraphManager := { s with calls := Function.update s.calls c call }

/-- The next step of a call of `RunGraph`. -/
def runGraph (c : Nat) (name : String) (start : Except String Unit) : RunGraphAt → Option GraphManager
  | .called =>
    if s.mutex = none then
      -- the error return leaves the mutex locked
      if name ∈ s.graphMap then
        some { s.goto c (.runGraph name (.returned (.error ("graph (" ++ name ++ ") already exist")))) with
          mutex := some c }
      else some (s.goto c (.runGraph name .checked))
    else none
  | .checked =>
    match start with
    | .error err => some (s.goto c (.runGraph name (.returned (.error err))))
    | .ok () => some { s.goto c (.runGraph name .started) with started := ⟨c, name⟩ :: s.started }
  | .started =>
    if s.mutex = none then
      some { s.goto c (.runGraph name (.returned (.ok name))) with
        graphMap := s.graphMap.insert name ⟨c, name⟩ }
    else none
  | .returned _ => none

/-- The next step of a call of `DestroyGraph`. -/
def destroyGraph (c : Nat) (name : String) : DestroyGraphAt → Option GraphManager
  | .called =>
    if s.mutex = none then
      match s.graphMap.lookup name with
      | none => some (s.goto c (.destroyGraph name (.returned (.error ("graph (" ++ name ++ ") does not exist")))))
      | some g => some { s.goto c (.destroyGraph name (.found g)) with mutex := some c }
    else none
  | .found g => some { s.goto c (.destroyGraph name (.destroyed g)) with destroyed := g :: s.destroyed }
  | .destroyed _ =>
    some { s.goto c (.destroyGraph name (.returned (.ok ()))) with
      graphMap := s.graphMap.erase name
      mutex := none }
  | .returned _ => none

def step : ManagerEvent → Option GraphManager
  | .runGraph c name =>
    match s.calls c with
    | .none => some (s.goto c (.runGraph name .called))
    | _ => none
  | .destroyGraph c name =>
    match s.calls c with
    | .none => some (s.goto c (.destroyGraph name .called))
    | _ => none
  | .next c start =>
    match s.calls c with
    | .none => none
    | .runGraph name pos => s.runGraph c name start pos
    | .destroyGraph name pos => s.destroyGraph c name pos

end GraphManager

def ManagerCall.Returned : ManagerCall → Prop
  | .runGraph _ (.returned _) => True
  | .destroyGraph _ (.returned _) => True
  | _ => False

/-- Started and not yet destroyed. -/
def GraphManager.Running (s : GraphManager) (g : ManagedGraph) : Prop := g ∈ s.started ∧ g ∉ s.destroyed

/-- What the registry promises. -/
structure GraphManager.Good (s : GraphManager) : Prop where
  mutex : ∀ c, s.mutex = some c → ¬ (s.calls c).Returned
  single : ∀ g g', s.Running g → s.Running g' → g.name = g'.name → g = g'
  registered : ∀ c name r, s.calls c = .runGraph name (.returned (.ok r)) →
    s.graphMap.lookup name = some ⟨c, name⟩ ∨
      ∃ d pos, s.calls d = .destroyGraph name pos ∧ pos ≠ .called ∧ ⟨c, name⟩ ∈ s.destroyed
  reachable : ∀ g, s.Running g → (s.calls g.call).Returned → s.graphMap.lookup g.name = some g

/-- `RunGraph` checks a name that is not registered, and starts a graph when no other of the name runs:
none registered that is not destroyed yet, and none that its call has not registered yet. -/
def GraphManager.Alone (s : GraphManager) : ManagerEvent → Prop
  | .next c start =>
    (∀ name, s.calls c = .runGraph name .called → name ∉ s.graphMap) ∧
      ∀ name, s.calls c = .runGraph name .checked → start = .ok () →
        (∀ g, s.graphMap.lookup name = some g → g ∈ s.destroyed) ∧
          ∀ c', s.calls c' ≠ .runGraph name .started
  | _ => True

end Dni
