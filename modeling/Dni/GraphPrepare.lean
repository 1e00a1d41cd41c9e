import Dni.ParsedConfig

namespace Dni.Cpp

open Utils

/-- What surrounds a graph: whether a null pointer that is dereferenced ends the process, the task
types there are, what each task's Open returns, and the orders in which the executor runs the Opens
and the Processes. A node that waits for itself is run in neither. -/
structure Env where
  traps : Bool
  registered : Text → Bool
  openCode : Nat → Int
  opened : List Nat
  processed : List Nat

/-- An error of a node, by the node's place. -/
inductive Fault
  | initRet (i : Nat)
  | prepare (i : Nat)
  | «open» (i : Nat)
deriving DecidableEq

/-- For each output that has consumers the nodes and the slots that its data go to. -/
structure Mirrors where
  sideData : List (Nat × Nat × Nat)
  streams : List (Nat × Nat × Nat)

structure Node where
  index : Nat
  info : NodeInfo
  /-- The context and the task, which PrepareForRun makes. -/
  task : Option Text

namespace Node

/-- The slots of a node whose edge has a producer: the producer, the node and the slot. -/
def mirrors (edges : List EdgeInfo) (index base size : Nat) : List (Nat × Nat × Nat) :=
  (List.range size).filterMap fun i =>
    (edges[base + i]?).bind fun e => if e.upstreamId < 0 then none else some (e.upstreamId.toNat, index, i)

def initializeOutputSideData : Int := 0

def initializeInputSideData (cfg : ParsedGraphConfig) (node : Node) (m : Mirrors) : Mirrors × Int :=
  let base := node.info.inputSideDataBaseIndex
  let size := node.info.Config.InputSideData.names.length
  ({ m with sideData := m.sideData ++ mirrors cfg.sideData.inputs node.index base size }, 0)

def initializeOutputStreamHandler : Int := 0

def initializeOutputStream : Int := 0

def initializeInputStreamHandler : Int := 0

def initializeInputStream (cfg : ParsedGraphConfig) (node : Node) (m : Mirrors) : Mirrors × Int :=
  let base := node.info.inputStreamBaseIndex
  let size := node.info.Config.Inputs.names.length
  ({ m with streams := m.streams ++ mirrors cfg.streams.inputs node.index base size }, 0)

def Initialize (cfg : ParsedGraphConfig) (node : Node) (m : Mirrors) : Mirrors × Int :=
  if initializeOutputSideData ≠ 0 then (m, -1)
  else
    let (m, ret) := initializeInputSideData cfg node m
    if ret ≠ 0 then (m, -1)
    else if initializeOutputStreamHandler ≠ 0 then (m, -1)
    else if initializeOutputStream ≠ 0 then (m, -1)
    else if initializeInputStreamHandler ≠ 0 then (m, -1)
    else
      let (m, ret) := initializeInputStream cfg node m
      if ret ≠ 0 then (m, -1) else (m, 0)

end Node

/-- InputSideDataHandler::PrepareForRun: every name needs its datum. -/
def prepareInputSideData (names allSideData : List Text) : Int :=
  if ∀ name ∈ names, name ∈ allSideData then 0 else -1

namespace Node

/-- An unknown task type is an exception of the factory. -/
def PrepareForRun (env : Env) (allSideData : List Text) (node : Node) : Except Stop (Node × Int) :=
  if prepareInputSideData node.info.Config.InputSideData.names allSideData ≠ 0 then .ok (node, -1)
  else
    let type := node.info.Config.proto.task
    if env.registered type then .ok ({ node with task := some type }, 0) else .error .terminated

/-- The result of the task's Open, which nobody looks at, and that of the node's. -/
def Open (env : Env) (node : Node) : Except Stop (Int × Int) :=
  match node.task with
  | none => .error .nullDeref
  | some _ => .ok (env.openCode node.index, 0)

end Node

structure Graph where
  cfg : ParsedGraphConfig
  nodes : List Node
  mirrors : Mirrors

namespace Graph

/-- The loop over the graph's input streams; `count` of them are done. -/
def checkInputs (cfg : ParsedGraphConfig) (count : Nat) : List Text → Except Stop Unit
  | [] => .ok ()
  | name :: names =>
    let osi := cfg.OutputStreamIndex name
    if osi < 0 then .error .failed
    else
      match cfg.streams.outputs[osi.toNat]? with
      | none => .error .failed
      | some edge =>
        if edge.parent.type ≠ .GRAPH_INPUT_STREAM then .error .failed
        else if edge.parent.index ≠ (cfg.Nodes.length + count : Nat) then .error .failed
        else checkInputs cfg (count + 1) names

def InitializeStreams (cfg : ParsedGraphConfig) : Except Stop Unit := do
  match ← NewTagMap cfg.Proto.inputStream with
  | none => .error .nullDeref
  | some m => checkInputs cfg 0 m.names

/-- The loop over the nodes drops what Initialize returns. -/
def initializeEach (cfg : ParsedGraphConfig) (i : Nat) :
    List NodeInfo → Mirrors → List Fault × List Node × Mirrors
  | [], m => ([], [], m)
  | info :: infos, m =>
    let node : Node := ⟨i, info, none⟩
    let (m, ret) := node.Initialize cfg m
    let (faults, nodes, m) := initializeEach cfg (i + 1) infos m
    ((if ret ≠ 0 then [.initRet i] else []) ++ faults, node :: nodes, m)

def InitializeNodes (cfg : ParsedGraphConfig) : List Fault × Graph :=
  let (faults, nodes, m) := initializeEach cfg 0 cfg.Nodes ⟨[], []⟩
  (faults, ⟨cfg, nodes, m⟩)

def Initialize (config : GraphConfig) : Except Stop (List Fault × Graph) := do
  let cfg ← ParsedGraphConfig.Initialize config
  InitializeStreams cfg
  .ok (InitializeNodes cfg)

/-- The loop over the nodes drops what PrepareForRun returns. -/
def prepareEach (env : Env) (allSideData : List Text) :
    List Node → List Fault × Except Stop (List Node)
  | [] => ([], .ok [])
  | node :: nodes =>
    match node.PrepareForRun env allSideData with
    | .error e => ([], .error e)
    | .ok (node', ret) =>
      let (faults, result) := prepareEach env allSideData nodes
      ((if ret ≠ 0 then [.prepare node.index] else []) ++ faults, result.map (node' :: ·))

/-- The executor runs the lambda of each node, which exits when Node::Open fails. -/
def openEach (env : Env) (nodes : List Node) : List Nat → List Fault × Except Stop Unit
  | [] => ([], .ok ())
  | i :: is =>
    match nodes[i]? with
    | none => openEach env nodes is
    | some node =>
      match node.Open env with
      | .error e => ([], .error e)
      | .ok (code, ret) =>
        let failed := if code ≠ 0 then [.open i] else []
        if ret ≠ 0 then (failed, .error .terminated)
        else
          let (faults, result) := openEach env nodes is
          (failed ++ faults, result)

def PrepareForRun (env : Env) (graph : Graph) : List Fault × Except Stop Graph :=
  let (faults, result) := prepareEach env (graph.cfg.sideData.outputs.map EdgeInfo.name) graph.nodes
  match result with
  | .error e => (faults, .error e)
  | .ok nodes =>
    let (faults', result) := openEach env nodes env.opened
    (faults ++ faults', result.map fun _ => { graph with nodes := nodes })

/-- No timestamp is queued before the first Process, so no node takes itself for closed. -/
def RunOnce (env : Env) (graph : Graph) : List Nat :=
  env.processed.filter fun i => i < graph.nodes.length

end Graph

/-- A run up to the first Process of each node: the errors there were, how it ended, and the nodes
whose task's Process was called. -/
structure Run where
  faults : List Fault
  ending : Except Stop Unit
  processed : List Nat

/-- A caller that goes on as long as the calls return zero. -/
def Graph.start (env : Env) (config : GraphConfig) : Run :=
  match Graph.Initialize config with
  | .error e => ⟨[], .error e, []⟩
  | .ok (faults, graph) =>
    match graph.PrepareForRun env with
    | (faults', .error e) => ⟨faults ++ faults', .error e, []⟩
    | (faults', .ok graph) => ⟨faults ++ faults', .ok (), graph.RunOnce env⟩

/-- A result that is not zero, or the end of the process. -/
def Run.Stopped (env : Env) (run : Run) : Prop :=
  run.ending = .error .failed ∨ run.ending = .error .terminated ∨
    run.ending = .error .nullDeref ∧ env.traps = true

def GraphConfig.Node.fields (node : GraphConfig.Node) : List (List Text) :=
  [node.inputStream, node.outputStream, node.inputSideData, node.outputSideData]

/-- The tags of a list of fields parse. -/
def Parses (fields : List Text) : Prop := ∃ m, TagMap.Initialize fields = .ok m

/-- An error of a node, when its tags are parsed or when it is set up, prepared or opened, stops the
graph before any Process. -/
def ErrorsStop (env : Env) (config : GraphConfig) : Prop :=
  (∃ node ∈ config.node, ∃ fields ∈ node.fields, ¬ Parses fields) ∨
      (Graph.start env config).faults ≠ [] →
    (Graph.start env config).Stopped env ∧ (Graph.start env config).processed = []

end Dni.Cpp
