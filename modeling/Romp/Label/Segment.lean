import Romp.Bits.Field

open Bits

namespace Romp

/-- The text of a RAW_LOG(FATAL) or of a failing RAW_CHECK, after which the process is gone. -/
abbrev Abort := String

theorem ok_of_bind {ε α β : Type} {x : Except ε α} {f : α → Except ε β} {b : β}
    (bound : x.bind f = .ok b) : ∃ a, x = .ok a ∧ f a = .ok b := by
  cases x with
  | error text => cases bound
  | ok a => exact ⟨a, rfl, bound⟩

inductive SegmentType where
  | eImplicit | eExplicit | eWorkShare
  deriving DecidableEq, Repr

def SegmentType.code : SegmentType → BitVec 64
  | eImplicit => 1
  | eExplicit => 2
  | eWorkShare => 3

def SEG_TYPE_MASK : BitVec 64 := 0x0000000000000003
def OFFSET_MASK : BitVec 64 := 0xffff000000000000
def SPAN_MASK : BitVec 64 := 0x0000ffff00000000
def TASKWAIT_MASK : BitVec 64 := 0xffffffff0fffffff
def PHASE_MASK : BitVec 64 := 0x000000000f000000
def WS_PLACE_HOLDER_MASK : BitVec 64 := 0xfffffffffffffffb
def LOOP_CNT_MASK : BitVec 64 := 0x0000000000f00000
def TASK_CREATE_MASK : BitVec 64 := 0x00000000000fffe0
def SINGLE_MASK : BitVec 64 := 0xc000000000000000
def WORKSHARE_TYPE_MASK : BitVec 64 := 0x0000000000000004
def TASKWAIT_SYNC_MASK : BitVec 64 := 0x0000000000000008
def TASKGROUP_SYNC_MASK : BitVec 64 := 0x0000000000000010
def TASKGROUP_ID_MASK : BitVec 32 := 0xffff0000
def TASKGROUP_LEVEL_MASK : BitVec 32 := 0x0000ffff
def TASKGROUP_PHASE_MASK : BitVec 32 := 0xffff0000
def TASKWAIT_PHASE_MASK : BitVec 32 := 0x0000ffff

/-- `workShareId` is absent in a plain `BaseSegment` and present in a `WorkShareSegment`. -/
structure Segment where
  value : BitVec 64
  taskGroup : BitVec 32
  orderSecVal : BitVec 32
  workShareId : Option (BitVec 64)
  deriving DecidableEq, Repr

namespace Segment

def getType (s : Segment) : Except Abort SegmentType :=
  if s.value &&& SEG_TYPE_MASK = 1 then .ok .eImplicit
  else if s.value &&& SEG_TYPE_MASK = 2 then .ok .eExplicit
  else if s.value &&& SEG_TYPE_MASK = 3 then .ok .eWorkShare
  else .error "undefined segment type"

def setType (s : Segment) (type : SegmentType) : Segment := { s with value := s.value ||| type.code }

def getOffset (s : Segment) : Nat := ((s.value &&& OFFSET_MASK) >>> 48).toNat
def getSpan (s : Segment) : Nat := ((s.value &&& SPAN_MASK) >>> 32).toNat

def setOffsetSpan (s : Segment) (offset span : Nat) : Segment :=
  let cleared := s.value &&& ~~~(OFFSET_MASK ||| SPAN_MASK)
  let withOffset := cleared ||| ((BitVec.ofNat 64 offset <<< 48) &&& OFFSET_MASK)
  { s with value := withOffset ||| ((BitVec.ofNat 64 span <<< 32) &&& SPAN_MASK) }

def getTaskwait (s : Segment) : Nat := ((s.value &&& ~~~TASKWAIT_MASK) >>> 28).toNat

def setTaskwait (s : Segment) (taskwait : Nat) : Except Abort Segment :=
  if taskwait < 16 then
    .ok { s with value := (s.value &&& TASKWAIT_MASK) |||
      ((BitVec.ofNat 64 taskwait <<< 28) &&& ~~~TASKWAIT_MASK) }
  else .error "taskwait count is overflowing"

def getTaskcreate (s : Segment) : Nat := ((s.value &&& TASK_CREATE_MASK) >>> 5).toNat

def setTaskcreate (s : Segment) (taskcreate : Nat) : Except Abort Segment :=
  if taskcreate < 2 ^ 15 then
    .ok { s with value := (s.value &&& ~~~TASK_CREATE_MASK) |||
      ((BitVec.ofNat 64 taskcreate <<< 5) &&& TASK_CREATE_MASK) }
  else .error "taskcreate count is overflowing"

def getPhase (s : Segment) : Nat := ((s.value &&& PHASE_MASK) >>> 24).toNat

def setPhase (s : Segment) (phase : Nat) : Except Abort Segment :=
  if phase < 16 then
    .ok { s with value := (s.value &&& ~~~PHASE_MASK) ||| ((BitVec.ofNat 64 phase <<< 24) &&& PHASE_MASK) }
  else .error "phase count is overflowing"

def getLoopCount (s : Segment) : Nat := ((s.value &&& LOOP_CNT_MASK) >>> 20).toNat

def setLoopCount (s : Segment) (loopCount : Nat) : Except Abort Segment :=
  if loopCount < 16 then
    .ok { s with value := (s.value &&& ~~~LOOP_CNT_MASK) |||
      ((BitVec.ofNat 64 loopCount <<< 20) &&& LOOP_CNT_MASK) }
  else .error "loop count is overflowing"

def getTaskGroupId (s : Segment) : Nat := (s.taskGroup >>> 16).toNat
def getTaskGroupLevel (s : Segment) : Nat := (s.taskGroup &&& TASKGROUP_LEVEL_MASK).toNat

/-- The argument is a `uint16_t`: the mask keeps sixteen of its bits. -/
def setTaskGroupId (s : Segment) (taskGroupId : Nat) : Segment :=
  { s with taskGroup := (s.taskGroup &&& ~~~TASKGROUP_ID_MASK) |||
      ((BitVec.ofNat 32 taskGroupId <<< 16) &&& TASKGROUP_ID_MASK) }

def setTaskGroupLevel (s : Segment) (taskGroupLevel : Nat) : Segment :=
  { s with taskGroup := (s.taskGroup &&& ~~~TASKGROUP_LEVEL_MASK) |||
      (BitVec.ofNat 32 taskGroupLevel &&& TASKGROUP_LEVEL_MASK) }

-- Both phase setters keep the half they are about to write, and drop the other one.
def setTaskGroupPhase (s : Segment) (phase : Nat) : Segment :=
  { s with orderSecVal := (s.orderSecVal &&& TASKGROUP_PHASE_MASK) |||
      ((BitVec.ofNat 32 phase <<< 16) &&& TASKGROUP_PHASE_MASK) }

def setTaskwaitPhase (s : Segment) (phase : Nat) : Segment :=
  { s with orderSecVal := (s.orderSecVal &&& TASKWAIT_PHASE_MASK) |||
      (BitVec.ofNat 32 phase &&& TASKWAIT_PHASE_MASK) }

def getTaskwaitPhase (s : Segment) : Nat := (s.orderSecVal &&& TASKWAIT_PHASE_MASK).toNat

-- The source reads `_taskGroup` here, not `_orderSecVal`.
def getTaskGroupPhase (s : Segment) : Nat := ((s.taskGroup &&& TASKGROUP_PHASE_MASK) >>> 16).toNat

def setTaskwaited (s : Segment) : Segment := { s with value := s.value ||| TASKWAIT_SYNC_MASK }
def isTaskwaited (s : Segment) : Bool := s.value &&& TASKWAIT_SYNC_MASK != 0
def setTaskGroupSync (s : Segment) : Segment := { s with value := s.value ||| TASKGROUP_SYNC_MASK }
def isTaskGroupSync (s : Segment) : Bool := s.value &&& TASKGROUP_SYNC_MASK != 0

def setPlaceHolderFlag (s : Segment) (toggle : Bool) : Segment :=
  { s with value := if toggle then s.value ||| (1 <<< 2) else s.value &&& WS_PLACE_HOLDER_MASK }

def isPlaceHolder (s : Segment) : Bool := (s.value &&& ~~~WS_PLACE_HOLDER_MASK) >>> 2 == 1

def setWorkShareType (s : Segment) (isSection : Bool) : Segment :=
  { s with value := if isSection then (s.value &&& ~~~WORKSHARE_TYPE_MASK) ||| WORKSHARE_TYPE_MASK
      else s.value &&& ~~~WORKSHARE_TYPE_MASK }

def isSection (s : Segment) : Bool := s.value &&& WORKSHARE_TYPE_MASK != 0

def getWorkShareId (s : Segment) : BitVec 64 := s.workShareId.getD 0

def setSingleFlag (s : Segment) (isExecutor : Bool) : Segment :=
  { s with workShareId := some ((s.getWorkShareId &&& ~~~SINGLE_MASK) |||
      (1 <<< (if isExecutor then 63 else 62))) }

def isSingleExecutor (s : Segment) : Bool := (s.getWorkShareId &&& SINGLE_MASK) >>> 63 == 1
def isSingleOther (s : Segment) : Bool := (s.getWorkShareId &&& SINGLE_MASK) >>> 62 == 1

/-- The virtual `operator==`: a base segment compares `_value` alone, whatever the other one is. -/
def equals (left right : Segment) : Bool :=
  match left.workShareId with
  | none => left.value == right.value
  | some id => left.value == right.value && right.workShareId == some id

/-- The constructor `BaseSegment(type, offset, span)`. -/
def base (type : SegmentType) (offset span : Nat) : Except Abort Segment :=
  if span < 2 ^ 16 then .ok (setOffsetSpan (setType ⟨0, 0, 0, none⟩ type) offset span)
  else .error "span is overflowing"

/-- The constructor `WorkShareSegment()`. -/
def workShare : Segment := setOffsetSpan (setType ⟨0, 0, 0, some 0⟩ .eWorkShare) 0 1

/-- The constructor `WorkShareSegment(id, isSection)`. -/
def workShareUnit (id : BitVec 64) (isSection : Bool) : Segment :=
  setOffsetSpan (setWorkShareType (setType ⟨0, 0, 0, some id⟩ .eWorkShare) isSection) 0 1

end Segment

end Romp
