import Romp.Access.LockSet
import Romp.Tasks.TaskData

namespace Romp

/-- One access kept in a history; `state` is the byte with the write and the hardware lock flag. -/
structure Record where
  state : BitVec 8
  label : Label
  lockSet : Option SmallLockSet
  taskPtr : Nat
  instnAddr : BitVec 64
  deriving DecidableEq

namespace Record

def setAccessType (r : Record) (isWrite : Bool) : Record :=
  { r with state := if isWrite then r.state ||| 1 else r.state &&& 0xfe }

def setHasHwLock (r : Record) (hwLock : Bool) : Record :=
  { r with state := if hwLock then r.state ||| 2 else r.state &&& 0xfd }

def isWrite (r : Record) : Bool := r.state &&& 1 == 1
def hasHwLock (r : Record) : Bool := r.state &&& 2 == 2

/-- The constructor of five arguments does not initialise `_state`: the byte is whatever `state`
    was there, with its lowest bit set or cleared. -/
def make (state : BitVec 8) (isWrite : Bool) (label : Label) (lockSet : Option SmallLockSet)
    (taskPtr : Nat) (instnAddr : BitVec 64) : Record :=
  setAccessType ⟨state, label, lockSet, taskPtr, instnAddr⟩ isWrite

variable (state : BitVec 8) (write : Bool) (label : Label) (lockSet : Option SmallLockSet)
  (taskPtr : Nat) (instnAddr : BitVec 64)

@[simp] theorem make_isWrite : (make state write label lockSet taskPtr instnAddr).isWrite = write := by
  cases write <;> simp only [make, setAccessType, isWrite, Bool.false_eq_true, if_false, if_true] <;>
    rw [Bool.eq_iff_iff, beq_iff_eq] <;> simp only [Bool.false_eq_true, iff_false, iff_true]
  · intro set
    have bit := congrArg (BitVec.getLsbD · 0) set
    simp at bit
  · apply BitVec.eq_of_getLsbD_eq
    intro i bound
    by_cases first : i = 0 <;> simp [first, BitVec.getLsbD_one, BitVec.getLsbD_or]

@[simp] theorem make_label : (make state write label lockSet taskPtr instnAddr).label = label := rfl
@[simp] theorem make_lockSet : (make state write label lockSet taskPtr instnAddr).lockSet = lockSet := rfl
@[simp] theorem make_taskPtr : (make state write label lockSet taskPtr instnAddr).taskPtr = taskPtr := rfl

end Record

inductive AccessHistoryFlag where
  | eDataRaceFound | eMemoryRecycled
  deriving DecidableEq

def AccessHistoryFlag.code : AccessHistoryFlag → BitVec 64
  | eDataRaceFound => 1
  | eMemoryRecycled => 2

structure AccessHistory where
  state : BitVec 64
  records : List Record

namespace AccessHistory

def new : AccessHistory := ⟨0, []⟩

def setFlag (h : AccessHistory) (flag : AccessHistoryFlag) : AccessHistory :=
  { h with state := h.state ||| flag.code }

def clearFlags (h : AccessHistory) : AccessHistory := { h with state := 0 }

def dataRaceFound (h : AccessHistory) : Bool :=
  h.state &&& AccessHistoryFlag.eDataRaceFound.code != 0

def memIsRecycled (h : AccessHistory) : Bool :=
  h.state &&& AccessHistoryFlag.eMemoryRecycled.code != 0

end AccessHistory

inductive DataSharingType where
  | eStaticThreadPrivate | eNonThreadPrivate | eThreadPrivateBelowExit | eThreadPrivateAboveExit
  | eUndefined
  deriving DecidableEq

structure CheckInfo where
  taskPtr : Nat
  instnAddr : BitVec 64
  isWrite : Bool
  hwLock : Bool
  byteAddress : BitVec 64
  dataSharingType : DataSharingType

structure DataRaceInfo where
  instnAddrPrev : BitVec 64
  instnAddrCur : BitVec 64
  memAddr : BitVec 64
  deriving DecidableEq

end Romp
