import Romp.Core.RaceCondition

namespace Romp

structure ParRegionData where
  numParallelism : Nat
  parallelFlag : Int
  expTaskCount : BitVec 32
  taskDepGraph : TaskDepGraph

def ParRegionData.new (n : Nat) (p : Int) : ParRegionData := ⟨n, p, 0, TaskDepGraph.empty⟩

/-- All that the callbacks read and write. Tasks and regions, whose data the source reaches through
    pointers, are numbered. -/
structure Detector where
  heap : Heap
  data : Nat → TaskData
  regions : Nat → ParRegionData

namespace Detector

def empty : Detector := ⟨Heap.empty, fun _ => TaskData.new, fun _ => ParRegionData.new 0 0⟩

def setData (d : Detector) (t : Nat) (data : TaskData) : Detector :=
  { d with data := Function.update d.data t data }

@[simp] theorem setData_heap (d : Detector) (t : Nat) (data : TaskData) : (d.setData t data).heap = d.heap :=
  rfl

@[simp] theorem setData_data (d : Detector) (t : Nat) (data : TaskData) (x : Nat) :
    (d.setData t data).data x = if x = t then data else d.data x := by
  simp [setData, Function.update_apply]

def setLabel (d : Detector) (t : Nat) (label : Option Label) : Detector :=
  d.setData t { d.data t with label }

@[simp] theorem setLabel_heap (d : Detector) (t : Nat) (label : Option Label) :
    (d.setLabel t label).heap = d.heap :=
  rfl

@[simp] theorem setLabel_label (d : Detector) (t : Nat) (label : Option Label) (x : Nat) :
    ((d.setLabel t label).data x).label = if x = t then label else (d.data x).label := by
  rw [setLabel, setData_data]
  by_cases same : x = t <;> simp [same]

def getLabel (d : Detector) (t : Nat) : Except Abort Label :=
  match (d.data t).label with
  | none => .error "label is nullptr"
  | some label => .ok label

def mutateLabel (d : Detector) (t : Nat) (mutate : Heap → Label → Except Abort (Heap × Label)) :
    Except Abort Detector := do
  let label ← d.getLabel t
  let (heap, mutatedLabel) ← mutate d.heap label
  .ok ({ d with heap }.setLabel t (some mutatedLabel))

end Detector

inductive ScopeEndpoint where
  | scope_begin | scope_end
  deriving DecidableEq

inductive SyncRegion where
  | barrier | barrier_explicit | barrier_implementation | barrier_implicit | taskwait | taskgroup
  | reduction | other
  deriving DecidableEq

inductive WorkType where
  | loop | sections | single_executor | single_other | workshare | distribute | taskloop | other
  deriving DecidableEq

inductive TaskStatus where
  | complete | yield | cancel | detach | early_fulfill | late_fulfill | switch
  deriving DecidableEq

inductive MutexKind where
  | ordered | other
  deriving DecidableEq

open Detector

/-- `on_ompt_callback_implicit_task` with the flag `ompt_task_initial`. -/
def on_initial_task (d : Detector) (taskData : Nat) : Except Abort Detector := do
  let (heap, newTaskLabel) ← genInitTaskLabel d.heap
  .ok ({ d with heap }.setData taskData { TaskData.new with label := some newTaskLabel })

/-- The parent is what `queryTaskInfo(1, ..)` finds. At the end the parallelism is 0, and only the
    task of index 0 hands its label back. -/
def on_ompt_callback_implicit_task (d : Detector) (endPoint : ScopeEndpoint) (taskData parent : Nat)
    (actualParallelism index : Nat) : Except Abort Detector :=
  if actualParallelism = 0 ∧ index ≠ 0 then .ok d
  else match endPoint with
  | .scope_begin => do
    let parentLabel ← d.getLabel parent
    let (heap, newTaskLabel) ← genImpTaskLabel d.heap parentLabel index actualParallelism
    .ok ({ d with heap }.setData taskData { TaskData.new with label := some newTaskLabel })
  | .scope_end => do
    let label ← d.getLabel taskData
    let mutatedLabel ← mutateParentImpEnd label
    .ok (d.setLabel parent (some mutatedLabel))

def markTaskwait (phase : Nat) (d : Detector) (child : Nat) : Except Abort Detector := do
  let label ← d.getLabel child
  let last ← label.getLastKthSegment 1
  .ok { d with heap := d.heap.modify last fun s => s.setTaskwaited.setTaskwaitPhase phase }

def markExpChildSyncTaskwait (d : Detector) (taskData : Nat) (curLabel : Label) :
    Except Abort Detector := do
  let last ← curLabel.getLastKthSegment 1
  let phase := (d.heap.objects last).getPhase
  let marked ← (d.data taskData).childExpTaskData.foldlM (markTaskwait phase) d
  .ok (marked.setData taskData { marked.data taskData with childExpTaskData := [] })

/-- One step of the loop of `markExpChildSyncTaskGroupEnd`, and whether the child stays in the list. -/
def markTaskGroup (lenParentLabel taskGroupId : Nat) (d : Detector) (child : Nat) :
    Except Abort (Detector × Bool) := do
  let childLabel ← d.getLabel child
  if childLabel.length > lenParentLabel then .ok (d, true)
  else
    let last ← childLabel.getLastKthSegment 1
    if (d.heap.objects last).getTaskGroupId = taskGroupId then
      let (heap, mutatedChildLabel) ← mutateTaskGroupSyncChild d.heap childLabel
      .ok ({ d with heap }.setLabel child (some mutatedChildLabel), false)
    else .ok (d, true)

def markTaskGroups (lenParentLabel taskGroupId : Nat) :
    Detector → List Nat → Except Abort (Detector × List Nat)
  | d, [] => .ok (d, [])
  | d, child :: children => do
    let (d, stays) ← markTaskGroup lenParentLabel taskGroupId d child
    let (d, rest) ← markTaskGroups lenParentLabel taskGroupId d children
    .ok (d, if stays then child :: rest else rest)

def markExpChildSyncTaskGroupEnd (d : Detector) (taskData : Nat) (curLabel : Label) :
    Except Abort Detector := do
  let last ← curLabel.getLastKthSegment 1
  let taskGroupId := (d.heap.objects last).getTaskGroupId
  let (d, children) ←
    markTaskGroups curLabel.length taskGroupId d (d.data taskData).childExpTaskData
  .ok (d.setData taskData { d.data taskData with childExpTaskData := children })

/-- The label is mutated first, and stored only after the children have been marked. -/
def on_ompt_callback_sync_region (d : Detector) (kind : SyncRegion) (endPoint : ScopeEndpoint)
    (taskData : Nat) : Except Abort Detector :=
  match endPoint, kind with
  | .scope_begin, .reduction => .ok (d.setData taskData { d.data taskData with inReduction := true })
  | .scope_begin, .taskgroup => d.mutateLabel taskData mutateTaskGroupBegin
  | .scope_begin, _ => .ok d
  | .scope_end, .taskwait => do
    let label ← d.getLabel taskData
    let (heap, mutatedLabel) ← mutateTaskWait d.heap label
    let d ← markExpChildSyncTaskwait { d with heap } taskData label
    .ok (d.setLabel taskData (some mutatedLabel))
  | .scope_end, .taskgroup => do
    let label ← d.getLabel taskData
    let (heap, mutatedLabel) ← mutateTaskGroupEnd d.heap label
    let d ← markExpChildSyncTaskGroupEnd { d with heap } taskData label
    .ok (d.setLabel taskData (some mutatedLabel))
  | .scope_end, .barrier | .scope_end, .barrier_explicit | .scope_end, .barrier_implementation
  | .scope_end, .barrier_implicit => d.mutateLabel taskData mutateBarrierEnd
  | .scope_end, .reduction => .ok (d.setData taskData { d.data taskData with inReduction := false })
  | .scope_end, .other => .ok d

def on_ompt_callback_mutex_acquired (d : Detector) (kind : MutexKind) (waitId : BitVec 64)
    (taskData : Nat) : Except Abort Detector :=
  match kind with
  | .ordered => d.mutateLabel taskData mutateOrderSection
  | .other => do
    let held := ((d.data taskData).lockSet).getD SmallLockSet.empty
    let locks ← held.addLock waitId
    .ok (d.setData taskData { d.data taskData with lockSet := some locks })

def on_ompt_callback_mutex_released (d : Detector) (kind : MutexKind) (waitId : BitVec 64)
    (taskData : Nat) : Except Abort Detector :=
  match kind with
  | .ordered => d.mutateLabel taskData mutateOrderSection
  | .other =>
    match (d.data taskData).lockSet with
    | none => .error "lock set is nullptr"
    | some held => do
      let locks ← held.removeLock waitId
      .ok (d.setData taskData { d.data taskData with lockSet := some locks })

/-- The kinds that no case sets a label for leave the task without one. -/
def on_ompt_callback_work (d : Detector) (wsType : WorkType) (endPoint : ScopeEndpoint)
    (taskData : Nat) : Except Abort Detector :=
  match wsType, endPoint with
  | .loop, .scope_begin => d.mutateLabel taskData fun h label => .ok (mutateLoopBegin h label)
  | .loop, .scope_end => d.mutateLabel taskData mutateLoopEnd
  | .sections, .scope_begin => d.mutateLabel taskData fun h label => .ok (mutateSectionBegin h label)
  | .sections, .scope_end => d.mutateLabel taskData mutateSectionEnd
  | .single_executor, .scope_begin =>
    d.mutateLabel taskData fun h label => .ok (mutateSingleExecBegin h label)
  | .single_other, .scope_begin =>
    d.mutateLabel taskData fun h label => .ok (mutateSingleOtherBegin h label)
  | .single_executor, .scope_end | .single_other, .scope_end =>
    d.mutateLabel taskData fun h label => do .ok (h, ← mutateSingleEnd label)
  | .workshare, _ => .error "c++ openmp does not support workshare construct"
  | .distribute, _ => .error "not implemented yet"
  | .taskloop, _ | .other, _ => .ok (d.setLabel taskData none)

inductive DispatchKind where
  | iteration | section_ | other
  deriving DecidableEq

def on_ompt_callback_dispatch (d : Detector) (taskData : Nat) (kind : DispatchKind)
    (instanceValue : BitVec 64) : Except Abort Detector :=
  match kind with
  | .iteration => d.mutateLabel taskData fun h label => mutateIterDispatch h label instanceValue
  | .section_ => d.mutateLabel taskData fun h label => mutateSectionDispatch h label instanceValue
  | .other => .ok (d.setLabel taskData none)

def on_ompt_callback_parallel_begin (d : Detector) (parallelData : Nat)
    (requestedParallelism : Nat) (flags : Int) : Detector :=
  { d with
    regions := Function.update d.regions parallelData (ParRegionData.new requestedParallelism flags) }

/-- The values of `ompt_task_flag_t` that the callback compares its flags with. In a call the bits above
    them can be set, too: undeferred, untied, final, mergeable and merged tasks. -/
def ompt_task_initial : BitVec 32 := 0x1

def ompt_task_explicit : BitVec 32 := 0x4

def ompt_task_target : BitVec 32 := 0x8

/-- The region is what `queryParallelInfo(0, ..)` finds, if it finds one. A task with other flags gets its
    data, but no label, and its parent does not hear of it. -/
def on_ompt_callback_task_create (d : Detector) (encounteringTaskData newTaskData : Nat) (flags : BitVec 32)
    (parallelData : Option Nat) : Except Abort Detector :=
  if flags = ompt_task_initial then do
    let (heap, newTaskLabel) ← genInitTaskLabel d.heap
    .ok ({ d with heap }.setData newTaskData { TaskData.new with label := some newTaskLabel })
  else if flags = ompt_task_explicit then do
    let parentLabel ← d.getLabel encounteringTaskData
    let (heap, newTaskLabel) ← genExpTaskLabel d.heap parentLabel
    let (heap, mutatedParentLabel) ← mutateParentTaskCreate heap parentLabel
    let parent := d.data encounteringTaskData
    let created := { TaskData.new with label := some newTaskLabel, isExplicitTask := true }
    let d := { d with heap }.setData encounteringTaskData
      { parent with
        label := some mutatedParentLabel
        childExpTaskData := parent.childExpTaskData ++ [newTaskData] }
    match parallelData with
    | none => .ok (d.setData newTaskData created)
    | some region =>
      let data := d.regions region
      let d :=
        { d with
          regions :=
            Function.update d.regions region { data with expTaskCount := data.expTaskCount + 1 } }
      .ok (d.setData newTaskData { created with expLocalId := data.expTaskCount.toInt })
  else if flags = ompt_task_target then .error "ompt_task_target not implemented yet"
  else .ok (d.setData newTaskData TaskData.new)

def handleTaskComplete (d : Detector) (taskData : Nat) : Except Abort Detector := do
  let mutatedLabel ← mutateTaskComplete d.heap (d.data taskData).label
  .ok (d.setLabel taskData mutatedLabel)

/-- The recycling of the memory of the prior task concerns the access histories alone. -/
def on_ompt_callback_task_schedule (d : Detector) (priorTaskData : Nat)
    (priorTaskStatus : TaskStatus) : Except Abort Detector :=
  match priorTaskStatus with
  | .complete => handleTaskComplete d priorTaskData
  | _ => .ok d

def maintainTaskDeps (d : Detector) (parallelData : Nat) (taskData : Nat)
    (dependence : Dependence) : Detector :=
  let data := d.regions parallelData
  let graph := data.taskDepGraph.addDeps (fun t => (d.data t).expLocalId) dependence taskData
  let d :=
    { d with regions := Function.update d.regions parallelData { data with taskDepGraph := graph } }
  d.setData taskData (TaskDepGraph.markMutexTask (d.data taskData) dependence)

def on_ompt_callback_dependences (d : Detector) (parallelData : Option Nat) (taskData : Nat)
    (deps : List Dependence) : Detector :=
  match parallelData with
  | none => d
  | some region => deps.foldl (fun d dep => maintainTaskDeps d region taskData dep) d

end Romp
