import Dni.Lib.Breakpoints
import Mathlib.Data.Rat.Defs
import Mathlib.Algebra.Order.Ring.Rat

namespace Dni

open Breakpoints LastGiven

structure ThresholdScore where
  threshold : ℚ
  score : ℚ

def ThresholdScore.entry (t : ThresholdScore) : ℚ × ℚ := (t.threshold, t.score)

/-- What a datum may hold that a task casts to a number or to a list of numbers. -/
inductive TaskData
  | float64 (x : ℚ)
  | float64s (xs : List ℚ)
  | other

/-- The loop over the condition values: whether each of them reaches its condition. `none` is an index out of range. -/
def reachesConditions (conditions : List ℚ) (id : Nat) : List ℚ → Option Bool
  | [] => some true
  | condval :: condvals =>
    match conditions[id]? with
    | none => none
    | some condition => if condval < condition then some false else reachesConditions conditions (id + 1) condvals

section Go

/-- The options as mapstructure decodes them. -/
structure ThresholdOptions where
  thresholdScores : List ThresholdScore
  default : ℚ

structure ConditionThresholdOptions where
  conditions : List ℚ
  thresholdScores : List ThresholdScore
  default : ℚ

def castError (taskName : String) : String := "[" ++ taskName ++ "] cast error"

/-- `threshold_score_map`: a later score of the same threshold replaces an earlier one. -/
def thresholdScoreMap (ts : List ThresholdScore) : Std.TreeMap ℚ ℚ := ofList (ts.map ThresholdScore.entry)

/-- The loop that counts all thresholds that the value reaches. -/
def countThresholds (val : ℚ) (scoreId : Int) (thresholds : List ℚ) : Int :=
  thresholds.foldl (fun scoreId threshold => if threshold ≤ val then scoreId + 1 else scoreId) scoreId

/-- The loop that counts the thresholds up to the first one that the value does not reach. -/
def countFirstThresholds (val : ℚ) (scoreId : Int) : List ℚ → Int
  | [] => scoreId
  | threshold :: thresholds =>
    if threshold ≤ val then countFirstThresholds val (scoreId + 1) thresholds else scoreId

/-- The score at an index of the sorted map; `none` is an index out of range. -/
def scoreAt (m : Std.TreeMap ℚ ℚ) (default : ℚ) (scoreId : Int) : Option ℚ :=
  if scoreId = -1 then some default else (m.toList.map Prod.snd)[scoreId.toNat]?

/-- `Process`; `none` is a panic. -/
def ConditionThresholdOptions.process (o : ConditionThresholdOptions) (taskName : String) :
    TaskData → TaskData → Option (Except String ℚ)
  | .float64 val, .float64s condvals =>
    if o.conditions.length < condvals.length then some (.error ("[" ++ taskName ++ "] not enough conditions"))
    else
      let m := thresholdScoreMap o.thresholdScores
      (reachesConditions o.conditions 0 condvals).bind fun cond =>
        let scoreId := if cond then countThresholds val (-1) (m.toList.map Prod.fst) else -1
        (scoreAt m o.default scoreId).map .ok
  | _, _ => some (.error (castError taskName))

def ThresholdOptions.process (o : ThresholdOptions) (taskName : String) : TaskData → Option (Except String ℚ)
  | .float64 val =>
    let m := thresholdScoreMap o.thresholdScores
    (scoreAt m o.default (countFirstThresholds val (-1) (m.toList.map Prod.fst))).map .ok
  | _ => some (.error (castError taskName))

end Go

namespace Cpp

/-- The options of the C++ tasks; the default may be left out. -/
structure ThresholdTaskOptions where
  threshScores : List ThresholdScore
  default : Option ℚ

structure CondThresholdTaskOptions where
  conditions : List ℚ
  threshScores : List ThresholdScore
  default : Option ℚ

/-- The task, whose `tsmap` is sorted by its thresholds. -/
structure ThresholdTask where
  tsmap : Std.TreeMap ℚ ℚ := ∅
  default : ℚ := 0

structure ConditionThresholdTask where
  conditions : List ℚ
  tsmap : Std.TreeMap ℚ ℚ
  default : ℚ

/-- The same in the Open of both tasks: what it returns, and the task as it is left. Without thresholds it returns
before the default is taken. -/
def openScores (threshScores : List ThresholdScore) (default : Option ℚ) : Int × ThresholdTask :=
  if threshScores.length ≤ 0 then (-1, {})
  else (0, ⟨ofList (threshScores.map ThresholdScore.entry), default.getD 0⟩)

def ThresholdTaskOptions.open (o : ThresholdTaskOptions) : Int × ThresholdTask := openScores o.threshScores o.default

def CondThresholdTaskOptions.open (o : CondThresholdTaskOptions) : Int × ConditionThresholdTask :=
  let (ret, t) := openScores o.threshScores o.default
  (ret, ⟨o.conditions, t.tsmap, t.default⟩)

/-- The loop over the sorted map, which keeps the last score up to the first threshold that is not reached. -/
def lastScore (statistic : ℚ) (score : ℚ) : List (ℚ × ℚ) → ℚ
  | [] => score
  | thScore :: thScores => if thScore.1 ≤ statistic then lastScore statistic thScore.2 thScores else score

/-- `Process`: the score that is put out. -/
def ThresholdTask.process (t : ThresholdTask) : TaskData → Except Int ℚ
  | .float64 statistic => .ok (lastScore statistic t.default t.tsmap.toList)
  | _ => .error (-1)

/-- `Process`; `none` is an access out of range. -/
def ConditionThresholdTask.process (t : ConditionThresholdTask) : TaskData → TaskData → Option (Except Int ℚ)
  | .float64 stat, .float64s condVals =>
    if condVals.length ≠ t.conditions.length then some (.ok (-1))
    else (reachesConditions t.conditions 0 condVals).map fun reached =>
      .ok (if reached then lastScore stat t.default t.tsmap.toList else t.default)
  | _, _ => some (.error (-1))

/-- `Node::Open` drops what the task's Open returns, and `Node::Process` runs the task as it is left. -/
def ThresholdTaskOptions.run (o : ThresholdTaskOptions) (data : TaskData) : Except Int ℚ := o.open.2.process data

def CondThresholdTaskOptions.run (o : CondThresholdTaskOptions) (stat cond : TaskData) : Option (Except Int ℚ) :=
  o.open.2.process stat cond

end Cpp

end Dni
