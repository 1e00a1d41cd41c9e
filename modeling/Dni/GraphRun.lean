import Dni.GraphChannels
import Dni.NodeLoop
import Mathlib.Algebra.GroupWithZero.Nat

namespace Dni

open GoMap

/-- What AddAllData does: it takes the pointer of an output, clones what it points to, or sends it. -/
inductive SendOp
  | output (id : Nat)
  | clone
  | send (ch : Nat)
  deriving DecidableEq

/-- The consumers after the first get clones. -/
def sendNext (chs : Channels) (s : String) : List Consumer → List SendOp
  | [] => []
  | c :: cs =>
    .clone :: match chs.channel c s with
      | none => []
      | some ch => .send ch :: sendNext chs s cs

/-- OutputManager.AddData: a consumer without the channel ends the loop. -/
def sendAll (chs : Channels) (s : String) : List Consumer → List SendOp
  | [] => []
  | c :: cs =>
    match chs.channel c s with
    | none => []
    | some ch => .send ch :: sendNext chs s cs

/-- AddAllData of a node, or AddAllGraphInputData. -/
def addAllData (chs : Channels) (w : Wiring) (p : Producer) (streams : List String) : List SendOp :=
  streams.zipIdx.flatMap fun e => .output e.2 :: sendAll chs e.1 (w.consumers p e.1)

/-- The channels that OutputManager.Close closes. -/
def closeChannels (chs : Channels) (next : List (String × List Consumer)) : List Nat :=
  next.flatMap fun e => e.2.filterMap fun c => chs.channel c e.1

/-- What the goroutines run through: the channels that each node subscribes to and those of the graph outputs, and
what each producer sends in a round and closes in the end. -/
structure FlowGraph where
  size : Nat
  slots : Nat → Nat
  inputs : Nat → List Nat
  outputs : List Nat
  sends : Producer → List SendOp
  closes : Producer → List Nat

/-- The slots of a node lie among those of all nodes. -/
theorem FlowGraph.slots_le (x : FlowGraph) {a : Nat} (ha : a < x.size) :
    ((List.range a).map x.slots).sum + x.slots a ≤ ((List.range x.size).map x.slots).sum := by
  have hsucc : ∀ b, ((List.range (b + 1)).map x.slots).sum = ((List.range b).map x.slots).sum + x.slots b := fun b => by
    simp [List.range_succ]
  have hmono : Monotone fun b => ((List.range b).map x.slots).sum := monotone_nat_of_le_succ fun b => by
    rw [hsucc]
    exact Nat.le_add_right _ _
  rw [← hsucc]
  exact hmono ha

namespace GraphUnit

variable (gu : GraphUnit)

def outputNames : Producer → List String
  | .graphInput => gu.graphInputStream.name
  | .node a => match gu.nodes[a]? with
    | none => []
    | some node => node.outputStream.name

def inputNames (a : Nat) : List String :=
  match gu.nodes[a]? with
  | none => []
  | some node => node.inputStream.name

/-- The linked graph; `ord` gives the order in which a producer ranges over its map when it closes. -/
def flow (w : Wiring) (ord : Producer → Order String (List Consumer)) : FlowGraph where
  size := gu.nodes.length
  slots a := (gu.outputNames (.node a)).length
  inputs a := (gu.inputNames a).filterMap (gu.channels.channel (.node a))
  outputs := gu.graphOutputStream.name.filterMap (gu.channels.channel .graphOutput)
  sends p := addAllData gu.channels w p (gu.outputNames p)
  closes p := closeChannels gu.channels ((ord p).run (w.next p))

end GraphUnit

/-- What a Process leaves in the data of its inputs and puts into those of its outputs; `none` is an error. -/
structure TaskResult (V : Type) where
  inputs : Nat → V
  outputs : Option (Nat → V)

/-- A graph with its tasks, each with what it does in every of its rounds, and the rounds of input that the graph is
given; `stops` says whether the inputs are closed then. -/
structure Flow (V : Type) extends FlowGraph where
  rounds : Nat
  stops : Bool
  given : Nat → Nat → V
  task : Nat → Nat → List V → TaskResult V
  nil : V

structure Chan where
  queue : List Nat := []
  closed : Bool := false

/-- Where OutputManager.Close stands: in CloseInputChannel of a channel, or between two of them. -/
structure Closing where
  draining : Option Nat
  rest : List Nat

/-- Where the caller of AddAllGraphInputData stands, who closes the graph inputs in the end. -/
inductive SourceAt
  | between (rounds : Nat)
  | adding (rounds : Nat) (ops : List SendOp) (output : Nat)
  | closing (c : Closing)
  | returned

/-- Where Execute stands; `got` are the data that this Subscribe has received so far. -/
inductive NodeAt
  | subscribe (rest : List Nat) (got : List (Option Nat))
  | lock (allok : Bool)
  | process
  | addAllData (ops : List SendOp) (output : Nat)
  | closing (c : Closing)
  | returned

/-- A node, with what each of its calls of Subscribe has found. -/
structure FlowNode where
  pos : NodeAt
  inputs : List (Option Nat)
  outputs : List Nat
  locked : Bool
  rounds : List (List Bool)

/-- The state of a run, with what has been read from the channels of the graph outputs. -/
structure FlowState (V : Type) where
  heap : List V
  chan : Nat → Chan
  source : SourceAt
  node : Nat → FlowNode
  reads : Nat → List V

inductive FlowEvent
  | source
  | node (a : Nat)
  | read (ch : Nat)

variable {V : Type}

namespace FlowState

variable (s : FlowState V)

def setChan (ch : Nat) (c : Chan) : FlowState V := { s with chan := Function.update s.chan ch c }

def setNode (a : Nat) (n : FlowNode) : FlowState V := { s with node := Function.update s.node a n }

/-- The next step of AddData: a full channel blocks it, and a closed one ends the program. -/
def send (nil : V) (take : Nat → FlowState V × Nat) (output : Nat) : SendOp → Option (FlowState V × Nat)
  | .output id => some (take id)
  | .clone => some ({ s with heap := s.heap ++ [(s.heap[output]?).getD nil] }, s.heap.length)
  | .send ch =>
    let c := s.chan ch
    if c.closed ∨ 1000 ≤ c.queue.length then none
    else some (s.setChan ch { c with queue := c.queue ++ [output] }, output)

/-- The next step of Close: CloseInputChannel closes the channel and then ranges over what is left in it. A channel
that is closed already ends the program. -/
def close (c : Closing) : Option (FlowState V × Option Closing) :=
  match c.draining with
  | some ch =>
    match (s.chan ch).queue with
    | [] => some (s, some ⟨none, c.rest⟩)
    | _ :: queue => some (s.setChan ch { s.chan ch with queue := queue }, some c)
  | none =>
    match c.rest with
    | [] => some (s, none)
    | ch :: rest =>
      if (s.chan ch).closed then none
      else some (s.setChan ch { s.chan ch with closed := true }, some ⟨some ch, rest⟩)

end FlowState

/-- The data at the pointers are replaced one after the other. -/
def store (heap : List V) (ptrs : List Nat) (values : Nat → V) : List V :=
  ptrs.zipIdx.foldl (fun heap e => heap.set e.1 (values e.2)) heap

namespace Flow

variable (x : Flow V)

/-- Output slots before those of a node. -/
def slotsBefore (a : Nat) : Nat := ((List.range a).map x.slots).sum

/-- The graph after Run, with the output slots of all nodes on the heap. -/
def init : FlowState V where
  heap := List.replicate (x.slotsBefore x.size) x.nil
  chan _ := {}
  source := .between 0
  node a := ⟨.subscribe (x.inputs a) [], [], List.range' (x.slotsBefore a) (x.slots a), false, []⟩
  reads _ := []

def stepSource (s : FlowState V) : Option (FlowState V) :=
  match s.source with
  | .between k =>
    if k < x.rounds then some { s with source := .adding k (x.sends .graphInput) 0 }
    else if x.stops then some { s with source := .closing ⟨none, x.closes .graphInput⟩ }
    else none
  | .adding k [] _ => some { s with source := .between (k + 1) }
  | .adding k (op :: ops) output =>
    (s.send x.nil (fun id => ({ s with heap := s.heap ++ [x.given k id] }, s.heap.length)) output op).map
      fun r => { r.1 with source := .adding k ops r.2 }
  | .closing c =>
    (s.close c).map fun r => { r.1 with source := match r.2 with | none => .returned | some c => .closing c }
  | .returned => none

/-- Process of the task; after an error the outputs are reset. -/
def process (s : FlowState V) (a : Nat) : FlowState V :=
  let node := s.node a
  let ptrs := node.inputs.filterMap id
  let result := x.task a node.rounds.length (ptrs.filterMap (s.heap[·]?))
  let heap := store s.heap ptrs result.inputs
  let pos : NodeAt := .addAllData (x.sends (.node a)) 0
  match result.outputs with
  | some outputs => { s with heap := store heap node.outputs outputs }.setNode a { node with pos := pos }
  | none => { s with heap := heap ++ List.replicate (x.slots a) x.nil }.setNode a
      { node with pos := pos, outputs := List.range' heap.length (x.slots a) }

def stepNode (s : FlowState V) (a : Nat) : Option (FlowState V) :=
  let node := s.node a
  match node.pos with
  | .subscribe [] got =>
    let oks := got.map Option.isSome
    let (allok, allclosed) := subscribe oks
    let node := { node with inputs := got, rounds := node.rounds ++ [oks] }
    if allclosed then some (s.setNode a { node with pos := .closing ⟨none, x.closes (.node a)⟩ })
    else some (s.setNode a { node with pos := .lock allok })
  | .subscribe (ch :: rest) got =>
    match (s.chan ch).queue with
    | data :: queue =>
      some ((s.setChan ch { s.chan ch with queue := queue }).setNode a
        { node with pos := .subscribe rest (got ++ [some data]) })
    | [] =>
      if (s.chan ch).closed then some (s.setNode a { node with pos := .subscribe rest (got ++ [none]) })
      else none
  | .lock allok =>
    if node.locked then none
    -- `continue` skips the unlock
    else if !allok then some (s.setNode a { node with locked := true, pos := .subscribe (x.inputs a) [] })
    else some (s.setNode a { node with pos := .process })
  | .process => some (x.process s a)
  | .addAllData [] _ => some (s.setNode a { node with pos := .subscribe (x.inputs a) [] })
  | .addAllData (op :: ops) output =>
    (s.send x.nil (fun id => (s, (node.outputs[id]?).getD 0)) output op).map fun r =>
      r.1.setNode a { node with pos := .addAllData ops r.2 }
  | .closing c =>
    (s.close c).map fun r =>
      r.1.setNode a { node with pos := match r.2 with | none => .returned | some c => .closing c }
  | .returned => none

/-- The next step of the source, of a node, or of a reader of a graph output. -/
def step (s : FlowState V) : FlowEvent → Option (FlowState V)
  | .source => x.stepSource s
  | .node a => if a < x.size then x.stepNode s a else none
  | .read ch =>
    if ch ∈ x.outputs then
      match (s.chan ch).queue with
      | data :: queue => some { s.setChan ch { s.chan ch with queue := queue } with
          reads := Function.update s.reads ch (s.reads ch ++ [(s.heap[data]?).getD x.nil]) }
      | [] => none
    else none

end Flow

end Dni
