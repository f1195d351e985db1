import Romp.Label.Contents

open Bits

namespace Romp

/-- The enumeration `SegmentType` of the source, with the value that stands for an error. -/
inductive SegmentTag where
  | of (type : SegmentType)
  | eError
  deriving DecidableEq, Repr

def SegmentTag.code : SegmentTag → BitVec 64
  | of type => type.code
  | eError => 4

inductive BaseCall where
  | setOffsetSpan (offset span : Fin (2 ^ 16))
  | setTaskwait (taskwait : Fin 16)
  | setTaskcreate (taskcreate : Fin (2 ^ 15))
  | setPhase (phase : Fin 16)
  | setLoopCount (loopCount : Fin 16)
  | setTaskGroupId (taskGroupId : Fin (2 ^ 16))
  | setTaskGroupLevel (taskGroupLevel : Fin (2 ^ 16))
  | setTaskGroupPhase (phase : Fin (2 ^ 16))
  | setTaskwaitPhase (phase : Fin (2 ^ 16))
  | setTaskwaited
  | setTaskGroupSync
  deriving DecidableEq, Repr

inductive SegmentCall where
  | base (call : BaseCall)
  | setPlaceHolderFlag (toggle : Bool)
  | setWorkShareType (isSection : Bool)
  | setSingleFlag (isExecutor : Bool)
  deriving DecidableEq, Repr

def BaseCall.apply (s : Segment) : BaseCall → Except Abort Segment
  | setOffsetSpan offset span => .ok (s.setOffsetSpan offset span)
  | setTaskwait taskwait => s.setTaskwait taskwait
  | setTaskcreate taskcreate => s.setTaskcreate taskcreate
  | setPhase phase => s.setPhase phase
  | setLoopCount loopCount => s.setLoopCount loopCount
  | setTaskGroupId taskGroupId => .ok (s.setTaskGroupId taskGroupId)
  | setTaskGroupLevel taskGroupLevel => .ok (s.setTaskGroupLevel taskGroupLevel)
  | setTaskGroupPhase phase => .ok (s.setTaskGroupPhase phase)
  | setTaskwaitPhase phase => .ok (s.setTaskwaitPhase phase)
  | setTaskwaited => .ok s.setTaskwaited
  | setTaskGroupSync => .ok s.setTaskGroupSync

def SegmentCall.apply (s : Segment) : SegmentCall → Except Abort Segment
  | base call => call.apply s
  | setPlaceHolderFlag toggle => .ok (s.setPlaceHolderFlag toggle)
  | setWorkShareType isSection => .ok (s.setWorkShareType isSection)
  | setSingleFlag isExecutor => .ok (s.setSingleFlag isExecutor)

def Segment.runCalls (s : Segment) : List SegmentCall → Except Abort Segment
  | [] => .ok s
  | call :: calls => do
    let s ← call.apply s
    s.runCalls calls

def Segment.ofTag (tag : SegmentTag) (offset span : Nat) : Except Abort Segment :=
  if span < 2 ^ 16 then .ok (setOffsetSpan ⟨0 ||| tag.code, 0, 0, none⟩ offset span)
  else .error "span is overflowing"

/-- A segment under one of its constructors, with the setters called on it since. A plain segment
    has no setter of a workshare segment. -/
inductive SegmentUse where
  | base (tag : SegmentTag) (offset : Nat) (span : Fin (2 ^ 16)) (calls : List BaseCall)
  | workShare (calls : List SegmentCall)
  | workShareUnit (id : BitVec 64) (isSection : Bool) (calls : List SegmentCall)

namespace SegmentUse

def made : SegmentUse → Except Abort Segment
  | base tag offset span _ => Segment.ofTag tag offset span
  | workShare _ => .ok Segment.workShare
  | workShareUnit id isSection _ => .ok (Segment.workShareUnit id isSection)

def calls : SegmentUse → List SegmentCall
  | base _ _ _ calls => calls.map .base
  | workShare calls => calls
  | workShareUnit _ _ calls => calls

def run (u : SegmentUse) : Except Abort Segment := do
  let s ← u.made
  s.runCalls u.calls

end SegmentUse

/-- What a workshare segment has been told: `single` is the last flag of `setSingleFlag`, if any. -/
structure UnitTold where
  isPlaceHolder : Bool
  isSection : Bool
  single : Option Bool
  workShareId : BitVec 64
  deriving DecidableEq, Repr

/-- What a segment has been told, each setter keeping to its own entry. -/
structure Told where
  tag : SegmentTag
  offset : Nat
  span : Nat
  taskwait : Nat
  taskcreate : Nat
  phase : Nat
  loopCount : Nat
  taskGroupId : Nat
  taskGroupLevel : Nat
  taskGroupPhase : Nat
  taskwaitPhase : Nat
  taskwaited : Bool
  taskGroupSync : Bool
  unit : Option UnitTold
  deriving DecidableEq, Repr

def BaseCall.tell (t : Told) : BaseCall → Told
  | setOffsetSpan offset span => { t with offset, span }
  | setTaskwait taskwait => { t with taskwait }
  | setTaskcreate taskcreate => { t with taskcreate }
  | setPhase phase => { t with phase }
  | setLoopCount loopCount => { t with loopCount }
  | setTaskGroupId taskGroupId => { t with taskGroupId }
  | setTaskGroupLevel taskGroupLevel => { t with taskGroupLevel }
  | setTaskGroupPhase phase => { t with taskGroupPhase := phase }
  | setTaskwaitPhase phase => { t with taskwaitPhase := phase }
  | setTaskwaited => { t with taskwaited := true }
  | setTaskGroupSync => { t with taskGroupSync := true }

def SegmentCall.tell (t : Told) : SegmentCall → Told
  | base call => call.tell t
  | setPlaceHolderFlag toggle => { t with unit := t.unit.map fun u => { u with isPlaceHolder := toggle } }
  | setWorkShareType isSection => { t with unit := t.unit.map fun u => { u with isSection } }
  | setSingleFlag isExecutor => { t with unit := t.unit.map fun u => { u with single := some isExecutor } }

def SegmentUse.first : SegmentUse → Told
  | base tag offset span _ => ⟨tag, offset, span, 0, 0, 0, 0, 0, 0, 0, 0, false, false, none⟩
  | workShare _ => ⟨.of .eWorkShare, 0, 1, 0, 0, 0, 0, 0, 0, 0, 0, false, false, some ⟨false, false, none, 0⟩⟩
  | workShareUnit id isSection _ =>
    ⟨.of .eWorkShare, 0, 1, 0, 0, 0, 0, 0, 0, 0, 0, false, false, some ⟨false, isSection, none, id⟩⟩

/-- For each setter the value of its last call, or that of the constructor. -/
def SegmentUse.told (u : SegmentUse) : Told := u.calls.foldl SegmentCall.tell u.first

namespace Segment

structure ReadsUnit (s : Segment) (u : UnitTold) : Prop where
  isPlaceHolder : s.isPlaceHolder = u.isPlaceHolder
  isSection : s.isSection = u.isSection
  isSingleExecutor : s.isSingleExecutor = decide (u.single = some true)
  isSingleOther : s.isSingleOther = decide (u.single = some false)
  getWorkShareId : s.getWorkShareId = u.workShareId

/-- Every getter returns what the segment was told under that name. -/
structure Reads (s : Segment) (t : Told) : Prop where
  getType : ∃ type, t.tag = .of type ∧ s.getType = .ok type
  getOffset : s.getOffset = t.offset
  getSpan : s.getSpan = t.span
  getTaskwait : s.getTaskwait = t.taskwait
  getTaskcreate : s.getTaskcreate = t.taskcreate
  getPhase : s.getPhase = t.phase
  getLoopCount : s.getLoopCount = t.loopCount
  getTaskGroupId : s.getTaskGroupId = t.taskGroupId
  getTaskGroupLevel : s.getTaskGroupLevel = t.taskGroupLevel
  getTaskGroupPhase : s.getTaskGroupPhase = t.taskGroupPhase
  getTaskwaitPhase : s.getTaskwaitPhase = t.taskwaitPhase
  isTaskwaited : s.isTaskwaited = t.taskwaited
  isTaskGroupSync : s.isTaskGroupSync = t.taskGroupSync
  unit : ∀ u, t.unit = some u → s.ReadsUnit u

end Segment

end Romp
