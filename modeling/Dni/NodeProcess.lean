import Dni.SideDelivery
import Dni.Propagation
import Dni.Lib.Threads

namespace Dni.Cpp

open Utils Threads

inductive NodeStatus
  | kStateUninitialized
  | kStatePrepared
  | kStateOpened
  | kStateClosed
deriving DecidableEq

def timestampEnd : Int := ctimeMax - 1

structure OutputStreamImpl (α : Type) where
  queue : List (Datum α)
  closed : Bool

variable {α σ : Type}

def OutputStreamImpl.addDatum (s : OutputStreamImpl α) (d : Datum α) : OutputStreamImpl α × Int :=
  if s.closed then (s, -1)
  else if d.ts ≤ timestampBegin ∨ d.ts ≥ timestampEnd then (s, -1)
  else if d.IsEmpty then (s, 0)
  else ({ s with queue := s.queue ++ [d] }, 0)

/-- AddDatum drops what addDatum returns. -/
def OutputStreamImpl.AddData (s : OutputStreamImpl α) (data : List (Datum α)) : OutputStreamImpl α :=
  data.foldl (fun s d => (s.addDatum d).1) s

def InputStreamImpl.clear (s : InputStreamImpl α) : InputStreamImpl α := { s with queue := [] }

/-- What only the node itself uses: its status, the timestamps and the streams of its context, and the fields of its
task. The streams are arrays, of which the slots are used that the node has. -/
structure NodeData (α σ : Type) where
  status : NodeStatus
  timestamps : List Int
  inputs : Nat → InputStreamImpl α
  outputs : Nat → OutputStreamImpl α
  task : σ

/-- What the Process of a task leaves behind: the data that it added to each output, the output side data that it set
one after the other, its own fields and its result. -/
structure ProcessResult (α σ : Type) (nOutputs nOutputSideData : Nat) where
  added : Fin nOutputs → List (Datum α)
  set : List (Fin nOutputSideData × Datum α)
  task : σ
  ret : Int

/-- A task is a function of its input streams, its input side data and its own fields. -/
structure TaskBase (α σ : Type) (nOutputs nOutputSideData : Nat) where
  Process : List (InputStreamImpl α) → List (Datum α) → σ → ProcessResult α σ nOutputs nOutputSideData
  Close : List (InputStreamImpl α) → List (Datum α) → σ → ProcessResult α σ nOutputs nOutputSideData

/-- A task for a node has its outputs and its output side data. -/
abbrev Node.Task (α σ : Type) (node : Node) : Type :=
  TaskBase α σ node.info.Config.Outputs.names.length node.info.Config.OutputSideData.names.length

namespace NodeData

variable {m n : Nat}

def NextTimestamp (data : NodeData α σ) : Int := data.timestamps.head?.getD ctimeMin

def marshal (slot : Nat) (d : Datum α) (done : Bool) (data : NodeData α σ) : NodeData α σ :=
  { data with inputs := Function.update data.inputs slot ((data.inputs slot).addDatum d done) }

/-- What the task's own calls change in the context. -/
def leave (result : ProcessResult α σ m n) (data : NodeData α σ) : NodeData α σ where
  status := data.status
  timestamps := data.timestamps
  inputs := data.inputs
  outputs o := if h : o < m then (data.outputs o).AddData (result.added ⟨o, h⟩) else data.outputs o
  task := result.task

/-- InputStreamHandler::PostProcess. -/
def PostProcess (nInputs : Nat) (data : NodeData α σ) : NodeData α σ where
  status := data.status
  timestamps := data.timestamps.tail
  inputs slot := if slot < nInputs then (data.inputs slot).clear else data.inputs slot
  outputs := data.outputs
  task := data.task

def clearOutput (o : Nat) (data : NodeData α σ) : NodeData α σ :=
  { data with outputs := Function.update data.outputs o { data.outputs o with queue := [] } }

theorem clearOutput_of_ne {o o' : Nat} (hne : o' ≠ o) (data : NodeData α σ) :
    (data.clearOutput o).outputs o' = data.outputs o' := Function.update_of_ne hne _ _

theorem clearOutput_self (o : Nat) (data : NodeData α σ) :
    (data.clearOutput o).outputs o = { data.outputs o with queue := [] } := Function.update_self _ _ _

end NodeData

/-- A place of the memory that the nodes share. -/
inductive Cell
  | manager (ref : ManagerRef)
  | inputSideDatum (node slot : Nat)
  | outputSideDatum (k : Nat)
  | node (i : Nat)
deriving DecidableEq

abbrev Cell.Value (α σ : Type) : Cell → Type
  | .manager _ => InputStreamManager α
  | .inputSideDatum _ _ => Datum α
  | .outputSideDatum _ => Datum α
  | .node _ => NodeData α σ

/-- What the nodes of a running graph share. -/
abbrev GraphMemory (α σ : Type) := ∀ c, Cell.Value α σ c

/-- The memory when PrepareForRun and the Open of the nodes are done; the fields of a task are what its Open left. -/
def GraphMemory.opened (unset : Int) (fields : Nat → σ) : GraphMemory α σ
  | .manager _ => InputStreamManager.fresh.prepareForRun
  | .inputSideDatum _ _ => ⟨none, unset⟩
  | .outputSideDatum _ => ⟨none, unset⟩
  | .node i => ⟨.kStateOpened, [], fun _ => ⟨[], false⟩, fun _ => ⟨[], false⟩, fields i⟩

/-- A program of a node: its accesses are those that hold the lock of a stream, or that need none. -/
abbrev NodeProg (α σ β : Type) := Prog (Cell.Value α σ) β

def Datum.Reset (d : Datum α) : Datum α := { d with value := none }

/-- An empty queue gives an empty datum, and the flag stays as it was. -/
def InputStreamManager.popOrEmpty (m : InputStreamManager α) : (Datum α × Bool) × InputStreamManager α :=
  match m.pop with
  | none => ((⟨none, 0⟩, false), m)
  | some (d, m', done) => ((d, done), m')

namespace NodeProg

def readManager (ref : ManagerRef) : NodeProg α σ (InputStreamManager α) := Prog.read (Cell.manager ref)

def popManager (ref : ManagerRef) : NodeProg α σ (Datum α × Bool) :=
  Prog.take (Cell.manager ref) InputStreamManager.popOrEmpty

def modifyManager (ref : ManagerRef) (f : InputStreamManager α → InputStreamManager α) : NodeProg α σ Unit :=
  Prog.modify (Cell.manager ref) f

def readNode (i : Nat) : NodeProg α σ (NodeData α σ) := Prog.read (Cell.node i)

def modifyNode (i : Nat) (f : NodeData α σ → NodeData α σ) : NodeProg α σ Unit := Prog.modify (Cell.node i) f

/-- The loop of Sync over one stream; nobody else adds to it, so that as many rounds as it has data suffice. -/
def syncLoop (i slot : Nat) (ref : ManagerRef) (ts : Int) : Nat → NodeProg α σ Unit
  | 0 => pure ()
  | rounds + 1 => do
    let m ← readManager ref
    if m.queue.isEmpty then pure ()
    else
      let r ← popManager ref
      if r.2 then pure ()
      else
        modifyNode i (NodeData.marshal slot (r.1.at (ts - 1)) r.2)
        syncLoop i slot ref ts rounds

def Sync (node : Node) : NodeProg α σ Unit :=
  (List.range node.info.Config.Inputs.names.length).forM fun slot => do
    let ref := ManagerRef.input (node.info.inputStreamBaseIndex + slot)
    let m ← readManager ref
    syncLoop node.index slot ref m.nextTimestampOrBound m.queue.length

def readSideData (i : Nat) : List Nat → NodeProg α σ (List (Datum α))
  | [] => pure []
  | slot :: slots => do
    let d ← Prog.read (Cell.inputSideDatum i slot)
    let ds ← readSideData i slots
    pure (d :: ds)

/-- A slot that is not empty refuses the datum, which nobody looks at. -/
def setInputSideDatum (i slot : Nat) (d : Datum α) : NodeProg α σ Unit :=
  Prog.modify (Cell.inputSideDatum i slot) fun old : Datum α =>
    if old.IsEmpty = false then old else if Dtype.Validate d ≠ 0 then old else d

def setOutputSideDatum (g : ObservedGraph) (k : Nat) (d : Datum α) : NodeProg α σ Unit := do
  Prog.modify (Cell.outputSideDatum k) fun _ : Datum α => d
  (g.graph.sideMirrors k).forM fun m => setInputSideDatum m.1 m.2 d

/-- The task's Process, or its Close. -/
def callTask (g : ObservedGraph) (node : Node) {m n : Nat}
    (body : List (InputStreamImpl α) → List (Datum α) → σ → ProcessResult α σ m n) : NodeProg α σ Int := do
  let sideData ← readSideData node.index (List.range node.info.Config.InputSideData.names.length)
  let data ← readNode node.index
  let inputs := (List.range node.info.Config.Inputs.names.length).map data.inputs
  let result := body inputs sideData data.task
  modifyNode node.index (NodeData.leave result)
  result.set.forM fun e => setOutputSideDatum g (node.info.outputSideDataBaseIndex + e.1) e.2
  pure result.ret

/-- A datum that is moved is copied, so that the last mirror gets the same as the others. -/
def sendMirror (g : ObservedGraph) (data : List (Datum α)) (m : Mirror) : NodeProg α σ Unit :=
  match g.inputStreamManager m with
  | none => pure ()
  | some ref => modifyManager ref fun manager => manager.addData data

/-- The round of Propagate for one output. -/
def propagateOutput (g : ObservedGraph) (node : Node) (o : Nat) : NodeProg α σ Unit := do
  let data ← readNode node.index
  (g.Mirrors (node.info.outputStreamBaseIndex + o)).forM (sendMirror g (data.outputs o).queue)
  modifyNode node.index (NodeData.clearOutput o)

def Propagate (g : ObservedGraph) (node : Node) : NodeProg α σ Unit :=
  (List.range node.info.Config.Outputs.names.length).forM (propagateOutput g node)

def resetSideData (node : Node) : NodeProg α σ Unit :=
  (List.range node.info.Config.InputSideData.names.length).forM fun slot =>
    Prog.modify (Cell.inputSideDatum node.index slot) fun d : Datum α => d.Reset

/-- The handler's part of Close; a node that is closed already is left as it is. -/
def closeInputStreams (node : Node) : NodeProg α σ Unit := do
  let data ← readNode node.index
  if data.status = .kStateClosed then pure ()
  else
    (List.range node.info.Config.Inputs.names.length).forM fun slot =>
      modifyManager (.input (node.info.inputStreamBaseIndex + slot)) InputStreamManager.close

end NodeProg

open NodeProg

/-- ResetOutputs and the Close of the outputs are empty. -/
def Node.Close (g : ObservedGraph) (node : Node) (task : node.Task α σ) : NodeProg α σ Int := do
  let data ← readNode node.index
  if data.status = .kStateClosed then pure 0
  else
    closeInputStreams node
    let ret ← callTask g node task.Close
    modifyNode node.index fun data => { data with status := .kStateClosed }
    pure ret

def Node.Process (g : ObservedGraph) (node : Node) (task : node.Task α σ) : NodeProg α σ Int := do
  let data ← readNode node.index
  if timestampDone data.NextTimestamp then
    let _ ← node.Close g task
    pure 0
  else
    Sync node
    let ret ← callTask g node task.Process
    modifyNode node.index (NodeData.PostProcess node.info.Config.Inputs.names.length)
    resetSideData node
    Propagate g node
    pure ret

end Dni.Cpp
