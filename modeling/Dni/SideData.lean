import Dni.GraphWiring

namespace Dni

open GoMap

structure DataSpec (α : Type) where
  streamName : String
  data : Option α

/-- The slots of a node's inputs or of the graph's outputs; a slot that nobody set has none. -/
structure DataSlice (α : Type) where
  nameMap : GoMap String Nat
  values : List (Option (DataSpec α))

/-- NewStreamUnit's NameMap: a name that is repeated stands for its last place. -/
def nameMap (names : List String) : GoMap String Nat :=
  names.zipIdx.foldl (fun m e => m.insert e.1 e.2) ∅

def newDataSlice (α : Type) (names : List String) : DataSlice α :=
  ⟨nameMap names, List.replicate names.length none⟩

/-- DataSlice.Set; an unknown name is an error that its callers drop. -/
def DataSlice.set {α : Type} (ds : DataSlice α) (name : String) (data : DataSpec α) : DataSlice α :=
  match ds.nameMap.lookup name with
  | none => ds
  | some pos => { ds with values := ds.values.set pos (some data) }

/-- A call of a task's Open: the input slots it finds, and the output slots it leaves or its error. -/
structure OpenCall (α : Type) where
  nid : Nat
  inputs : List (Option (DataSpec α))
  outputs : Except String (List (DataSpec α))

structure SideState (α : Type) where
  inputs : Nat → DataSlice α
  graphOutput : DataSlice α

inductive PrepareResult
  | ok
  | error (text : String)
  | panic

namespace SideState

variable {α : Type}

def set (st : SideState α) (c : Consumer) (name : String) (data : DataSpec α) : SideState α :=
  match c with
  | .node b => { st with inputs := Function.update st.inputs b ((st.inputs b).set name data) }
  | .graphOutput => { st with graphOutput := st.graphOutput.set name data }

variable (clone : DataSpec α → DataSpec α)

/-- The loop of OutputSideDataManager.AddData: every consumer but the first gets a clone of what the one
before it got. -/
def setAll (name : String) : List Consumer → DataSpec α → SideState α → SideState α
  | [], _, st => st
  | c :: cs, data, st => setAll name cs (clone data) (st.set c name data)

def addData (next : GoMap String (List Consumer)) (data : DataSpec α) (sidedata : String)
    (st : SideState α) : Except String (SideState α) :=
  match next.lookup sidedata with
  | none => .error ("sidedata (" ++ sidedata ++ ") not exist")
  | some consumers => .ok (setAll clone sidedata consumers data st)

/-- OutputSideDataManager.AddAllData, which drops the errors; a missing slot is an index out of range. -/
def addAllData (next : GoMap String (List Consumer)) (outputs : List (DataSpec α)) :
    List (String × Nat) → SideState α → Option (SideState α)
  | [], st => some st
  | (sidedata, id) :: rest, st =>
    match outputs[id]? with
    | none => none
    | some data =>
      match addData clone next data sidedata st with
      | .error _ => addAllData next outputs rest st
      | .ok st => addAllData next outputs rest st

/-- The loop of PrepareForRun over the graph input side data. -/
def addGraphInputs (next : GoMap String (List Consumer)) (given : GoMap String α) :
    List String → SideState α → Except String (SideState α)
  | [], st => .ok st
  | sidedata :: rest, st =>
    match given.lookup sidedata with
    | none => .error ("sidedata (" ++ sidedata ++ ") not exist")
    | some data =>
      match addData clone next ⟨sidedata, some data⟩ sidedata st with
      | .error err =>
        .error ("sidedata (" ++ sidedata ++ ") transport error:graph input handler error:" ++ err)
      | .ok st => addGraphInputs next given rest st

/-- The loop of PrepareForRun over the sorted nodes, with the calls of Open that it makes. -/
def openNodes (outputNames : Nat → List String) (next : Nat → GoMap String (List Consumer))
    (opens : Nat → List (Option (DataSpec α)) → Except String (List (DataSpec α))) :
    List Nat → SideState α → List (OpenCall α) × PrepareResult
  | [], _ => ([], .ok)
  | nid :: rest, st =>
    let inputs := (st.inputs nid).values
    let call : OpenCall α := ⟨nid, inputs, opens nid inputs⟩
    match call.outputs with
    | .error err =>
      ([call], .error ("node " ++ Nat.repr nid ++ " prepare for run error:task open failed:" ++ err))
    | .ok outputs =>
      match addAllData clone (next nid) outputs (outputNames nid).zipIdx st with
      | none => ([call], .panic)
      | some st =>
        let (calls, result) := openNodes outputNames next opens rest st
        (call :: calls, result)

end SideState

namespace GraphUnit

variable {α : Type}

def sideData (gu : GraphUnit) : Streams :=
  gu.nodes.map fun node => (node.inputSideData.name, node.outputSideData.name)

/-- The side data links of PrepareForRun. -/
def sideWiring (gu : GraphUnit) (ord : Order String (List Nat)) (sideNodeEdge : NodeEdges) : Wiring :=
  link ord gu.graphInputSideData.name gu.graphOutputSideData.name gu.getSideSourceEdge sideNodeEdge

def sideOutputs (gu : GraphUnit) (nid : Nat) : List String :=
  match gu.nodes[nid]? with
  | none => []
  | some node => node.outputSideData.name

/-- The slots as InitialGraph makes them. -/
def newSideState (α : Type) (gu : GraphUnit) : SideState α where
  inputs nid :=
    match gu.nodes[nid]? with
    | none => newDataSlice α []
    | some node => newDataSlice α node.inputSideData.name
  graphOutput := newDataSlice α gu.graphOutputSideData.name

/-- Graph.PrepareForRun: the calls of Open it makes and its result. -/
def prepareForRun (gu : GraphUnit) (ord : Order String (List Nat)) (sideNodeEdge : NodeEdges)
    (sideDataSortedNodes : List Nat) (clone : DataSpec α → DataSpec α)
    (opens : Nat → List (Option (DataSpec α)) → Except String (List (DataSpec α)))
    (gInputSideData : GoMap String α) : List (OpenCall α) × PrepareResult :=
  let w := gu.sideWiring ord sideNodeEdge
  match SideState.addGraphInputs clone w.source gInputSideData gu.graphInputSideData.name
      (gu.newSideState α) with
  | .error err => ([], .error err)
  | .ok st => SideState.openNodes clone gu.sideOutputs w.node opens sideDataSortedNodes st

end GraphUnit

end Dni
