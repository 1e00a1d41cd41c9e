import Dni.TagMap
import Dni.Lib.GoMap

namespace Dni.Cpp

open Utils

namespace GraphConfig

/-- A node of the message; each field of `inputStreamInfo` is its tag. -/
structure Node where
  name : Text
  task : Text
  inputStream : List Text
  outputStream : List Text
  inputSideData : List Text
  outputSideData : List Text
  inputStreamInfo : List Text

end GraphConfig

structure GraphConfig where
  node : List GraphConfig.Node
  inputStream : List Text
  outputStream : List Text
  inputSideData : List Text

def GraphConfig.Node.baseName (node : GraphConfig.Node) : Text :=
  if node.name = [] then node.task else node.name

def CanonicalNodeName (config : GraphConfig) (node : GraphConfig.Node) (nodeId : Nat) : Text :=
  let same := fun node' : GraphConfig.Node => node'.baseName = node.baseName
  let count := config.node.countP same
  let seq := (config.node.take nodeId).countP same
  if count ≤ 1 then node.baseName else node.baseName ++ '_' :: Nat.toDigits 10 seq

structure NodeConfig where
  proto : GraphConfig.Node
  nodeName : Text
  Inputs : TagMap
  Outputs : TagMap
  InputSideData : TagMap
  OutputSideData : TagMap

/-- The constructor asks the map for its size, also when there is no map. -/
def DtypeSet : Option TagMap → Except Stop TagMap
  | some m => .ok m
  | none => .error .nullDeref

def NodeConfig.Initialize (nodeName : Text) (node : GraphConfig.Node) : Except Stop NodeConfig := do
  let inputTags ← NewTagMap node.inputStream
  let outputTags ← NewTagMap node.outputStream
  let inputSideDataTags ← NewTagMap node.inputSideData
  let outputSideDataTags ← NewTagMap node.outputSideData
  .ok ⟨node, nodeName, ← DtypeSet inputTags, ← DtypeSet outputTags, ← DtypeSet inputSideDataTags,
    ← DtypeSet outputSideDataTags⟩

inductive NodeType
  | UNKNOWN
  | TASK
  | DATA_GENERATOR
  | GRAPH_INPUT_STREAM
deriving DecidableEq

structure NodeRef where
  type : NodeType
  index : Int
deriving DecidableEq

/-- The reference that the default constructor makes. -/
def NodeRef.unset : NodeRef := ⟨.UNKNOWN, -1⟩

structure NodeInfo where
  Config : NodeConfig
  Node : NodeRef
  inputStreamBaseIndex : Nat
  outputStreamBaseIndex : Nat
  inputSideDataBaseIndex : Nat
  outputSideDataBaseIndex : Nat
  Predecessors : List Text

/-- The loop over `input_stream_info`; `idUsed` are the slots that a field took. -/
def checkInfo (inputs : TagMap) : List Text → List Int → Except Stop Unit
  | [], _ => .ok ()
  | info :: infos, idUsed => do
    let (tag, index) ← ParseTagIndex info
    let id := inputs.FindByTagIndex tag index
    if id < 0 then .error .failed
    else if id ∈ idUsed then .error .failed
    else checkInfo inputs infos (id :: idUsed)

def NodeInfo.Initialize (graph : GraphConfig) (node : GraphConfig.Node) (index : Nat) :
    Except Stop NodeInfo := do
  let cfg ← NodeConfig.Initialize (CanonicalNodeName graph node index) node
  checkInfo cfg.Inputs node.inputStreamInfo []
  .ok ⟨cfg, ⟨.TASK, index⟩, 0, 0, 0, 0, []⟩

structure EdgeInfo where
  name : Text
  parent : NodeRef
  upstreamId : Int
deriving DecidableEq

/-- The edges of one kind, streams or side data, with the two maps that find a producer by name. -/
structure Edges where
  inputs : List EdgeInfo
  outputs : List EdgeInfo
  toIndex : GoMap Text Nat
  toNode : GoMap Text Text

namespace Edges

def empty : Edges := ⟨[], [], ∅, ∅⟩

def addOutput (parent : NodeRef) (name : Text) (g : Edges) : Edges :=
  { g with
    outputs := g.outputs ++ [⟨name, parent, -1⟩]
    toIndex := g.toIndex.insert name g.outputs.length }

def addNodeOutput (node : NodeInfo) (name : Text) (g : Edges) : Edges :=
  { g.addOutput node.Node name with toNode := g.toNode.insert name node.Config.nodeName }

def upstream (g : Edges) (name : Text) : Int :=
  match g.toIndex.lookup name with
  | some index => index
  | none => -1

def addInput (node : NodeInfo) (name : Text) (g : Edges) : Edges :=
  { g with inputs := g.inputs ++ [⟨name, node.Node, g.upstream name⟩] }

/-- The node that makes a known output; an output of the graph's own has no node. -/
def predecessor (g : Edges) (name : Text) : Option Text :=
  (g.toIndex.lookup name).bind fun _ => g.toNode.lookup name

def addOutputs (node : NodeInfo) (names : List Text) (g : Edges) : Edges :=
  names.foldl (fun g name => g.addNodeOutput node name) g

def addInputs (node : NodeInfo) (names : List Text) (g : Edges) : Edges :=
  names.foldl (fun g name => g.addInput node name) g

end Edges

def NodeInfo.AddPredecessors (node : NodeInfo) (names : List Text) : NodeInfo :=
  { node with Predecessors := names.foldl (fun ps p => ps.insert p) node.Predecessors }

/-- A node's inputs are looked up before its own outputs are known. -/
def initializeNodeSideData (node : NodeInfo) (g : Edges) : NodeInfo × Edges :=
  let inputs := node.Config.InputSideData.names
  let outputs := node.Config.OutputSideData.names
  let g' := g.addInputs node inputs
  ({ node.AddPredecessors (inputs.filterMap g.predecessor) with
      inputSideDataBaseIndex := g.inputs.length
      outputSideDataBaseIndex := g'.outputs.length }, g'.addOutputs node outputs)

/-- A node's inputs are looked up when its own outputs are known. -/
def initializeNodeStreams (node : NodeInfo) (g : Edges) : NodeInfo × Edges :=
  let inputs := node.Config.Inputs.names
  let outputs := node.Config.Outputs.names
  let g' := g.addOutputs node outputs
  ({ node.AddPredecessors (inputs.filterMap g'.predecessor) with
      outputStreamBaseIndex := g.outputs.length
      inputStreamBaseIndex := g'.inputs.length }, g'.addInputs node inputs)

/-- The loop over the nodes, each of them changed in its place. -/
def forNodes (f : NodeInfo → Edges → NodeInfo × Edges) : List NodeInfo → Edges →
    Except Stop (List NodeInfo × Edges)
  | [], g => .ok ([], g)
  | node :: nodes, g =>
    if node.Node.type ≠ .TASK then .error .failed
    else do
      let (node, g) := f node g
      let (nodes, g) ← forNodes f nodes g
      .ok (node :: nodes, g)

structure ParsedGraphConfig where
  Proto : GraphConfig
  Nodes : List NodeInfo
  sideData : Edges
  streams : Edges

namespace ParsedGraphConfig

def InitializeNodes (config : GraphConfig) (i : Nat) :
    List GraphConfig.Node → Except Stop (List NodeInfo)
  | [] => .ok []
  | node :: nodes => do
    let info ← NodeInfo.Initialize config node i
    .ok (info :: (← InitializeNodes config (i + 1) nodes))

def InitializeSideData (config : GraphConfig) (nodes : List NodeInfo) :
    Except Stop (List NodeInfo × Edges) :=
  if config.inputSideData = [] then forNodes initializeNodeSideData nodes .empty
  else do
    match ← NewTagMap config.inputSideData with
    | none => .error .failed
    | some m =>
      forNodes initializeNodeSideData nodes
        (m.names.foldl (fun g name => g.addOutput .unset name) .empty)

def InitializeStreams (config : GraphConfig) (nodes : List NodeInfo) :
    Except Stop (List NodeInfo × Edges) := do
  match ← NewTagMap config.inputStream with
  | none => .error .failed
  | some m =>
    let result ← forNodes initializeNodeStreams nodes
      (m.names.zipIdx.foldl
        (fun g e => g.addOutput ⟨.GRAPH_INPUT_STREAM, e.2 + config.node.length⟩ e.1) .empty)
    match ← NewTagMap config.outputStream with
    | none => .error .failed
    | some _ => .ok result

def topologicalSorting (nodes : List NodeInfo) : Except Stop (List NodeInfo) := .ok nodes

def initializeEdges (config : GraphConfig) (nodes : List NodeInfo) : Except Stop ParsedGraphConfig := do
  let (nodes, sideData) ← InitializeSideData config nodes
  let (nodes, streams) ← InitializeStreams config nodes
  .ok ⟨config, nodes, sideData, streams⟩

def Initialize (config : GraphConfig) : Except Stop ParsedGraphConfig := do
  let nodes ← InitializeNodes config 0 config.node
  let parsed ← initializeEdges config nodes
  -- no code sets the flag, so the second pass never runs
  let needSorting := false
  if needSorting then initializeEdges config (← topologicalSorting parsed.Nodes)
  else .ok parsed

/-- The index is that of the last output with the name. -/
def OutputStreamIndex (g : ParsedGraphConfig) (name : Text) : Int :=
  match g.streams.toIndex.lookup name with
  | some index => index
  | none => -1

end ParsedGraphConfig

end Dni.Cpp
