import Dni.Lib.GoMap

namespace Dni

structure StreamUnit where
  name : List String

structure NodeUnit where
  inputStream : StreamUnit
  outputStream : StreamUnit
  inputSideData : StreamUnit
  outputSideData : StreamUnit

structure GraphUnit where
  graphInputStream : StreamUnit
  graphOutputStream : StreamUnit
  graphInputSideData : StreamUnit
  graphOutputSideData : StreamUnit
  nodes : List NodeUnit

/-- The reasons for which a graph is refused. -/
inductive GraphError
  | sameInput (nid : Nat) (input : String)
  | sameOutput (output : String)
  | outputSource (output : String)
  | inputSource (nid : Nat) (input : String)
  | loop
deriving DecidableEq

def GraphError.text : GraphError → String
  | .sameInput nid input => s!"node {nid} hase multi same input stream:{input}"
  | .sameOutput output => s!"graph hase multi same output stream:{output}"
  | .outputSource output => s!"graph output ({output}) not found source"
  | .inputSource nid input => s!"node[{nid}] input ({input}) can not find source"
  | .loop => "graph has loop"

/-- For each node and each of its output streams the nodes that read the stream. -/
abbrev NodeEdges := GoMap Nat (GoMap String (List Nat))

/-- A set of nodes for each node. -/
abbrev NodeLinks := GoMap Nat (GoMap Nat Unit)

def nameSet (names : List String) : GoMap String Unit :=
  names.foldl (fun m name => m.insert name ()) ∅

def checkInputs (nid : Nat) : List String → GoMap String Unit → Except GraphError Unit
  | [], _ => .ok ()
  | input :: inputs, inputsSet =>
    if input ∈ inputsSet then .error (.sameInput nid input)
    else checkInputs nid inputs (inputsSet.insert input ())

def addOutputs (nid : Nat) : List String → GoMap String Nat → GoMap String (List Nat) →
    Except GraphError (GoMap String Nat × GoMap String (List Nat))
  | [], nodeOutputs, edge => .ok (nodeOutputs, edge)
  | output :: outputs, nodeOutputs, edge =>
    if output ∈ nodeOutputs then .error (.sameOutput output)
    else addOutputs nid outputs (nodeOutputs.insert output nid) (edge.insert output [])

/-- The loop over the nodes; a node is its inputs and its outputs. -/
def addNodes (nid : Nat) : List (List String × List String) → GoMap String Nat → NodeEdges →
    Except GraphError (GoMap String Nat × NodeEdges)
  | [], nodeOutputs, nodeEdge => .ok (nodeOutputs, nodeEdge)
  | (inputs, outputs) :: nodes, nodeOutputs, nodeEdge => do
    checkInputs nid inputs ∅
    let (nodeOutputs, edge) ← addOutputs nid outputs nodeOutputs ∅
    addNodes (nid + 1) nodes nodeOutputs (nodeEdge.insert nid edge)

def checkGraphOutputs (ord : GoMap.Order String Unit) (gOutputs : GoMap String Unit)
    (nodeOutputs : GoMap String Nat) : Except GraphError Unit :=
  match (ord.keys gOutputs).find? fun output => output ∉ nodeOutputs with
  | some output => .error (.outputSource output)
  | none => .ok ()

/-- The maps that the linking of inputs to their sources fills. -/
structure Links where
  nodeEdge : NodeEdges
  preMap : NodeLinks
  nextMap : NodeLinks

/-- Writing into a map that was never made panics. -/
def Links.link (st : Links) (nid : Nat) (input : String) (preNID : Nat) : Option Links := do
  let edge ← st.nodeEdge.lookup preNID
  let pre ← st.preMap.lookup nid
  let next ← st.nextMap.lookup preNID
  return ⟨st.nodeEdge.insert preNID (edge.insert input ((edge.lookup input).getD [] ++ [nid])),
    st.preMap.insert nid (pre.insert preNID ()), st.nextMap.insert preNID (next.insert nid ())⟩

def linkInputs (gInputs : GoMap String Unit) (nodeOutputs : GoMap String Nat) (nid : Nat) :
    List String → Links → Option (Except GraphError Links)
  | [], st => some (.ok st)
  | input :: inputs, st =>
    if input ∈ gInputs then linkInputs gInputs nodeOutputs nid inputs st
    else
      match nodeOutputs.lookup input with
      | none => some (.error (.inputSource nid input))
      | some preNID =>
        (st.link nid input preNID).bind fun st => linkInputs gInputs nodeOutputs nid inputs st

def linkNodes (gInputs : GoMap String Unit) (nodeOutputs : GoMap String Nat) (nid : Nat) :
    List (List String) → Links → Option (Except GraphError Links)
  | [], st => some (.ok st)
  | inputs :: nodeInputs, st =>
    (linkInputs gInputs nodeOutputs nid inputs st).bind fun
      | .error e => some (.error e)
      | .ok st => linkNodes gInputs nodeOutputs (nid + 1) nodeInputs st

def emptyLinks (n : Nat) : NodeLinks := (List.range n).foldl (fun m nid => m.insert nid ∅) ∅

def getNodeEdge (gInputs : GoMap String Unit) (nodeInputs : List (List String))
    (nodeOutputs : GoMap String Nat) (nodeEdge : NodeEdges) : Option (Except GraphError Links) :=
  linkNodes gInputs nodeOutputs 0 nodeInputs
    ⟨nodeEdge, emptyLinks nodeInputs.length, emptyLinks nodeInputs.length⟩

/-- The loop over the successors of a popped node: a count that drops to zero queues its node. -/
def visitNext : List Nat → List Int → List Nat → Option (List Int × List Nat)
  | [], nodeCount, q => some (nodeCount, q)
  | nnode :: nextNodes, nodeCount, q => do
    let count ← nodeCount[nnode]?
    visitNext nextNodes (nodeCount.set nnode (count - 1)) (if count - 1 = 0 then q ++ [nnode] else q)

/-- The set stored for a node; a node without one has the empty set. -/
def linked (m : NodeLinks) (nid : Nat) : GoMap Nat Unit := (m.lookup nid).getD ∅

/-- The queue loop; `ord` gives each node the order in which its successors are visited. -/
def sortLoop (ord : Nat → GoMap.Order Nat Unit) (nextList : NodeLinks) :
    Nat → List Int → List Nat → List Nat → Option (List Nat)
  | _, _, [], sortedNodes => some sortedNodes
  | 0, _, _ :: _, _ => none
  | fuel + 1, nodeCount, node :: q, sortedNodes => do
    let (nodeCount, q) ← visitNext ((ord node).keys (linked nextList node)) nodeCount q
    sortLoop ord nextList fuel nodeCount q (sortedNodes ++ [node])

/-- The sorted nodes and whether some node is missing from them. -/
def isExistLoop (ord : Nat → GoMap.Order Nat Unit) (preList nextList : NodeLinks) :
    Option (List Nat × Bool) := do
  let nodeNumber := preList.keys.length
  let nodeCount := (List.range nodeNumber).map fun nid => ((linked preList nid).keys.length : Int)
  let q := (List.range nodeNumber).filter fun nid => (linked preList nid).keys.length = 0
  let sortedNodes ← sortLoop ord nextList nodeNumber nodeCount q []
  return (sortedNodes, sortedNodes.length ≠ nodeNumber)

/-- The orders in which one call ranges over its maps. -/
structure EdgeOrders where
  outputs : GoMap.Order String Unit
  next : Nat → GoMap.Order Nat Unit

/-- The common body of GetNodeEdge and GetSideNodeEdge; `none` is a panic or an endless loop. -/
def getEdges (ord : EdgeOrders) (gInputNames gOutputNames : List String)
    (nodes : List (List String × List String)) : Option (Except GraphError (NodeEdges × List Nat)) :=
  match addNodes 0 nodes ∅ ∅ with
  | .error e => some (.error e)
  | .ok (nodeOutputs, nodeEdge) =>
    match checkGraphOutputs ord.outputs (nameSet gOutputNames) nodeOutputs with
    | .error e => some (.error e)
    | .ok () =>
      (getNodeEdge (nameSet gInputNames) (nodes.map Prod.fst) nodeOutputs nodeEdge).bind fun
        | .error e => some (.error e)
        | .ok st =>
          (isExistLoop ord.next st.preMap st.nextMap).map fun
            | (_, true) => .error .loop
            | (sortedNodes, false) => .ok (st.nodeEdge, sortedNodes)

namespace GraphUnit

def getNodeEdge (gu : GraphUnit) (ord : EdgeOrders) : Option (Except GraphError (NodeEdges × List Nat)) :=
  getEdges ord gu.graphInputStream.name gu.graphOutputStream.name
    (gu.nodes.map fun node => (node.inputStream.name, node.outputStream.name))

def getSideNodeEdge (gu : GraphUnit) (ord : EdgeOrders) :
    Option (Except GraphError (NodeEdges × List Nat)) :=
  getEdges ord gu.graphInputSideData.name gu.graphOutputSideData.name
    (gu.nodes.map fun node => (node.inputSideData.name, node.outputSideData.name))

end GraphUnit

end Dni
