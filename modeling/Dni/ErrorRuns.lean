import Dni.GraphRun
import Dni.NodeStuck

namespace Dni

/-- What a task does in a round: the data that it makes, what it writes into any data, the pointers that it leaves in
the output slots, and the error of Process, or of Close in the end. -/
structure TaskRun (V : Type) where
  news : Nat
  writes : List (Nat × V)
  values : List Nat
  err : Option String

/-- A pointer that was sent, with the call of Process behind which it was. -/
structure Message where
  time : Nat
  failed : Bool
  ch : Nat
  data : Nat

/-- A node with its output slots, what AddAllData still has to send, the last call of Process and what has been sent. -/
structure ErrorNode where
  loop : NodeLoop
  values : List Nat
  sends : List SendOp
  output : Option Nat
  time : Nat
  failed : Bool
  sent : List Message

/-- Where a call of GetGraphErrorList stands. -/
inductive CollectAt
  | none
  | visiting (rest : List Nat) (graphErrList : List String)
  | returned (graphErrList : List String)

/-- The calls of Process of all nodes are counted by `time`. Each datum on the heap has the call that wrote it. -/
structure ErrorState (V : Type) where
  heap : List (Option (Nat × V))
  time : Nat
  node : Nat → ErrorNode
  collect : Nat → CollectAt

/-- The next step of the goroutine of a node, with what its streams and its task give there; of a call that has a node's
mutex to take; a new call of Destroy for a node; the next step of a call of GetGraphErrorList. -/
inductive ErrorEvent (V : Type)
  | execute (a : Nat) (oks : List Bool) (r : TaskRun V)
  | next (a c : Nat)
  | destroy (a c : Nat)
  | collect (c : Nat)

variable {V : Type}

/-- The data that the Process call at a time writes. -/
def writeAll (time : Nat) (heap : List (Option (Nat × V))) (writes : List (Nat × V)) : List (Option (Nat × V)) :=
  writes.foldl (fun heap e => heap.set e.1 (some (time, e.2))) heap

namespace ErrorState

variable (s : ErrorState V)

def setNode (a : Nat) (n : ErrorNode) : ErrorState V := { s with node := Function.update s.node a n }

def setLoop (a : Nat) (loop : NodeLoop) : ErrorState V := s.setNode a { s.node a with loop := loop }

def setCollect (c : Nat) (pos : CollectAt) : ErrorState V := { s with collect := Function.update s.collect c pos }

/-- Process, and the Reset of the outputs after an error; then AddAllData has `sends` to do. -/
def process (sends : List SendOp) (a : Nat) (loop : NodeLoop) (r : TaskRun V) : Option (ErrorState V) :=
  let node := s.node a
  let heap := writeAll s.time (s.heap ++ List.replicate r.news none) r.writes
  if r.values.length = node.values.length ∧ ∀ p ∈ r.values, p < heap.length then
    let node := { node with loop := loop, sends := sends, output := none, time := s.time }
    match r.err with
    | none => some { s.setNode a { node with values := r.values, failed := false } with
        heap := heap, time := s.time + 1 }
    | some _ => some { s.setNode a
          { node with values := List.range' heap.length node.values.length, failed := true } with
        heap := heap ++ List.replicate node.values.length none, time := s.time + 1 }
  else none

/-- The next step of AddAllData; an index out of range ends the program. -/
def send (a : Nat) (ops : List SendOp) : SendOp → Option (ErrorState V)
  | .output id => (s.node a).values[id]?.map fun data => s.setNode a { s.node a with sends := ops, output := some data }
  | .clone => (s.node a).output.bind fun data => s.heap[data]?.map fun d =>
      { s.setNode a { s.node a with sends := ops, output := some s.heap.length } with heap := s.heap ++ [d] }
  | .send ch => (s.node a).output.map fun data => s.setNode a
      { s.node a with sends := ops, sent := (s.node a).sent ++ [⟨(s.node a).time, (s.node a).failed, ch, data⟩] }

end ErrorState

/-- The graph with the order in which GetGraphErrorList visits its nodes. -/
structure ErrorGraph extends FlowGraph where
  sortedNodes : List Nat

namespace ErrorGraph

variable (x : ErrorGraph)

def init : ErrorState V where
  heap := List.replicate ((List.range x.size).map x.slots).sum none
  time := 0
  node a := ⟨.init a, List.range' ((List.range a).map x.slots).sum (x.slots a), [], none, 0, false, []⟩
  collect _ := .none

def execute (s : ErrorState V) (a : Nat) (oks : List Bool) (r : TaskRun V) : Option (ErrorState V) :=
  match (s.node a).sends with
  | op :: ops => s.send a ops op
  | [] => ((s.node a).loop.execute oks r.err).bind fun loop =>
    match (s.node a).loop.pos with
    | .process => s.process (x.sends (.node a)) a loop r
    | _ => some (s.setLoop a loop)

/-- The call of GetNodeErrorList that is made for the `c`-th call of GetGraphErrorList has the number `2 * c`. -/
def collect (s : ErrorState V) (c : Nat) : Option (ErrorState V) :=
  match s.collect c with
  | .none => some (s.setCollect c (.visiting x.sortedNodes []))
  | .visiting [] graphErrList => some (s.setCollect c (.returned graphErrList))
  | .visiting (a :: rest) graphErrList =>
    match (s.node a).loop.calls (2 * c) with
    | .none => ((s.node a).loop.step (.getNodeErrorList (2 * c))).map (s.setLoop a)
    | .getNodeErrorList (.returned nodeErrList) =>
      some (s.setCollect c (.visiting rest (graphErrList ++ nodeErrList)))
    | _ => none
  | .returned _ => none

def step (s : ErrorState V) : ErrorEvent V → Option (ErrorState V)
  | .execute a oks r => if a < x.size then x.execute s a oks r else none
  | .next a c => if a < x.size then ((s.node a).loop.step (.next c)).map (s.setLoop a) else none
  | .destroy a c => if a < x.size then ((s.node a).loop.step (.destroy (2 * c + 1))).map (s.setLoop a) else none
  | .collect c => x.collect s c

end ErrorGraph

/-- An accepted graph with its tasks running. -/
def GraphUnit.errorGraph (gu : GraphUnit) (w : Wiring) (cord : Producer → GoMap.Order String (List Consumer))
    (sortedNodes : List Nat) : ErrorGraph := { gu.flow w cord with sortedNodes := sortedNodes }

end Dni
