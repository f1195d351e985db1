import Romp.Access.Record
import Romp.Core.HappensBefore
import Romp.Tasks.TaskDepGraph

namespace Romp

/-- What a check reads beside the access itself: the segments behind the labels, the task data
    and the dependence graph of the region that `queryParallelInfo` finds, if it finds one. -/
structure Context where
  heap : Heap
  tasks : Nat → TaskData
  taskDepGraph : Option TaskDepGraph

def analyzeMutualExclusion (histRecord curRecord : Record) : Bool :=
  match histRecord.lockSet, curRecord.lockSet with
  | some histLockSet, some curLockSet =>
    histLockSet.hasCommonLock curLockSet || (histRecord.hasHwLock && curRecord.hasHwLock)
  | _, _ => false

/-- The order that `analyzeRaceCondition` decides: `happensBefore`, and for two explicit tasks the
    dependence graph, which is returned with the entries that the search inserted. -/
def decideOrder (ctx : Context) (histRecord curRecord : Record) :
    Except Abort (Bool × Option TaskDepGraph) := do
  if ← happensBefore (ctx.heap.read histRecord.label) (ctx.heap.read curRecord.label) then
    .ok (true, ctx.taskDepGraph)
  else if (ctx.tasks curRecord.taskPtr).isExplicitTask && (ctx.tasks histRecord.taskPtr).isExplicitTask then
    match ctx.taskDepGraph with
    | none => .ok (false, none)
    | some g =>
      match TaskDepGraph.hasPath g.graph histRecord.taskPtr curRecord.taskPtr with
      | none => .ok (false, some g)
      | some (path, graph) => .ok (path, some { g with graph })
  else .ok (false, ctx.taskDepGraph)

structure RaceAnalysis where
  race : Bool
  isHistBeforeCur : Bool
  diffIndex : Int
  taskDepGraph : Option TaskDepGraph

/-- The first two returns leave both out-parameters as the caller passed them. -/
def analyzeRaceCondition (ctx : Context) (histRecord curRecord : Record) (isHistBeforeCur : Bool)
    (diffIndex : Int) : Except Abort RaceAnalysis := do
  if analyzeMutualExclusion histRecord curRecord then
    .ok ⟨false, isHistBeforeCur, diffIndex, ctx.taskDepGraph⟩
  else if (ctx.tasks curRecord.taskPtr).inReduction then
    .ok ⟨false, isHistBeforeCur, diffIndex, ctx.taskDepGraph⟩
  else
    let (isHistBeforeCur, taskDepGraph) ← decideOrder ctx histRecord curRecord
    let diffIndex := compareLabels (ctx.heap.read histRecord.label) (ctx.heap.read curRecord.label)
    .ok ⟨!isHistBeforeCur && (histRecord.isWrite || curRecord.isWrite), isHistBeforeCur, diffIndex,
      taskDepGraph⟩

inductive RecordManagement where
  | eNoOp | eSkipAddCur | eDelHist
  deriving DecidableEq

def manageAccessRecord (histRecord curRecord : Record) (isHistBeforeCurrent : Bool) (diffIndex : Int) :
    RecordManagement :=
  let histIsWrite := histRecord.isWrite
  let curIsWrite := curRecord.isWrite
  if ((histIsWrite && curIsWrite) || !histIsWrite) && isHistBeforeCurrent &&
      isSubset curRecord.lockSet histRecord.lockSet then .eDelHist
  else if diffIndex = eSameLabel ∧ ((!histIsWrite && !curIsWrite) || histIsWrite) ∧
      isSubset histRecord.lockSet curRecord.lockSet then .eSkipAddCur
  else .eNoOp

end Romp
