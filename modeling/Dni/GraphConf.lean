import Dni.GraphRun
import Dni.StreamSlots

namespace Dni

open FlowManager (FormatError)

structure NodeConf where
  task : String
  inputStream : List String
  outputStream : List String
  inputSideData : List String := []
  outputSideData : List String := []

structure GraphConf where
  graphInputStream : List String
  graphOutputStream : List String
  graphInputSideData : List String := []
  graphOutputSideData : List String := []
  nodes : List NodeConf

/-- `NewStreamUnit`, of which a graph keeps the names. -/
def StreamUnit.new (streams : List String) : Except FormatError StreamUnit :=
  (FlowManager.newStreamUnit (streams.map String.toList)).map fun su => ⟨su.name.map String.ofList⟩

def NodeUnit.new (nodeConf : NodeConf) : Except FormatError NodeUnit := do
  let inputStream ← StreamUnit.new nodeConf.inputStream
  let outputStream ← StreamUnit.new nodeConf.outputStream
  let inputSideData ← StreamUnit.new nodeConf.inputSideData
  let outputSideData ← StreamUnit.new nodeConf.outputSideData
  return ⟨inputStream, outputStream, inputSideData, outputSideData⟩

def getGraphUnit (gc : GraphConf) : Except FormatError GraphUnit := do
  let gInputStream ← StreamUnit.new gc.graphInputStream
  let gOutputStream ← StreamUnit.new gc.graphOutputStream
  let gInputSideData ← StreamUnit.new gc.graphInputSideData
  let gOutputSideData ← StreamUnit.new gc.graphOutputSideData
  let nodes ← gc.nodes.mapM NodeUnit.new
  return ⟨gInputStream, gOutputStream, gInputSideData, gOutputSideData, nodes⟩

/-- The place of the slot that `Get` finds, if it does not make a new one. -/
def slotOf (streams : List String) (tag : String) (index : Int) : Option Nat :=
  if tag = "" then some index.toNat
  else
    match FlowManager.newStreamUnit (streams.map String.toList) with
    | .error _ => none
    | .ok su => su.tagIndexMap.lookup (FlowManager.sprintf tag.toList index)

/-- What Process makes of its input slots: an error, or the data that it sets in output slots. -/
abbrev Process (V : Type) := (String → Int → V) → Option (List (String × Int × V))

/-- A task at the slots of its node; it leaves its inputs as they are. -/
def NodeConf.run {V : Type} (nodeConf : NodeConf) (nil : V) (process : Process V) (values : List V) : TaskResult V where
  inputs j := values.getD j nil
  outputs :=
    (process fun tag index => ((slotOf nodeConf.inputStream tag index).bind (values[·]?)).getD nil).map
      fun outputs id => ((outputs.find? fun e => slotOf nodeConf.outputStream e.1 e.2.1 = some id).map (·.2.2)).getD nil

end Dni
