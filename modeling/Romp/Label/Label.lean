import Mathlib.Logic.Function.Basic
import Romp.Label.Segment

namespace Romp

/-- A label is a vector of `shared_ptr<Segment>`, each given as the number of its object in the heap:
    labels that hold the same number share the object. -/
abbrev Label := List Nat

structure Heap where
  objects : Nat → Segment
  next : Nat

namespace Heap

def empty : Heap := ⟨fun _ => ⟨0, 0, 0, none⟩, 0⟩

def alloc (h : Heap) (s : Segment) : Heap × Nat :=
  (⟨Function.update h.objects h.next s, h.next + 1⟩, h.next)

def modify (h : Heap) (r : Nat) (f : Segment → Segment) : Heap :=
  { h with objects := Function.update h.objects r (f (h.objects r)) }

def read (h : Heap) (label : Label) : List Segment := label.map h.objects

end Heap

def eSameLabel : Int := -3
def eLeftIsPrefix : Int := -1
def eRightIsPrefix : Int := -2

namespace Label

def popSegment (label : Label) : Except Abort (Nat × Label) :=
  match label.getLast? with
  | none => .error "label is empty"
  | some last => .ok (last, label.dropLast)

def getLastKthSegment (label : Label) (k : Nat) : Except Abort Nat :=
  if k > label.length then .error "index is out of bound"
  else match label[label.length - k]? with
    | none => .error "out_of_range"
    | some r => .ok r

def setLastKthSegment (label : Label) (k : Nat) (r : Nat) : Except Abort Label :=
  if k > label.length then .error "set value out of bound"
  else .ok (label.set (label.length - k) r)

end Label

def compareFrom (i : Nat) : List Segment → List Segment → Int
  | [], [] => eSameLabel
  | [], _ :: _ => eLeftIsPrefix
  | _ :: _, [] => eRightIsPrefix
  | x :: left, y :: right => if x.equals y then compareFrom (i + 1) left right else i

def compareLabels (left right : List Segment) : Int := compareFrom 0 left right

def genImpTaskLabel (h : Heap) (parentLabel : Label) (index actualParallelism : Nat) :
    Except Abort (Heap × Label) := do
  let newSegment ← Segment.base .eImplicit index actualParallelism
  let (h, r) := h.alloc newSegment
  .ok (h, parentLabel ++ [r])

def genInitTaskLabel (h : Heap) : Except Abort (Heap × Label) := do
  let segment ← Segment.base .eImplicit 0 1
  let (h, r) := h.alloc segment
  .ok (h, [r])

def genExpTaskLabel (h : Heap) (parentLabel : Label) : Except Abort (Heap × Label) := do
  let segment ← Segment.base .eExplicit 0 1
  let (h, r) := h.alloc segment
  .ok (h, parentLabel ++ [r])

def mutateParentImpEnd (childLabel : Label) : Except Abort Label := do
  let (_, rest) ← childLabel.popSegment
  .ok rest

def mutateLast (f : Segment → Except Abort Segment) (h : Heap) (label : Label) :
    Except Abort (Heap × Label) := do
  let (last, rest) ← label.popSegment
  let newSegment ← f (h.objects last)
  let (h, r) := h.alloc newSegment
  .ok (h, rest ++ [r])

def mutateParentTaskCreate : Heap → Label → Except Abort (Heap × Label) :=
  mutateLast fun s => s.setTaskcreate (s.getTaskcreate + 1)

def mutateBarrierEnd (h : Heap) (label : Label) : Except Abort (Heap × Label) := do
  let second ← label.getLastKthSegment 2
  let segment := h.objects second
  let (h, r) := h.alloc (segment.setOffsetSpan (segment.getOffset + segment.getSpan) segment.getSpan)
  .ok (h, ← label.setLastKthSegment 2 r)

def mutateTaskWait : Heap → Label → Except Abort (Heap × Label) :=
  mutateLast fun s => s.setTaskwait (s.getTaskwait + 1)

def mutateOrderSection : Heap → Label → Except Abort (Heap × Label) :=
  mutateLast fun s => s.setPhase (s.getPhase + 1)

def mutateLoopBegin (h : Heap) (label : Label) : Heap × Label :=
  let (h, r) := h.alloc (Segment.workShare.setPlaceHolderFlag true)
  (h, label ++ [r])

def mutateLoopEnd (h : Heap) (label : Label) : Except Abort (Heap × Label) := do
  let (_, rest) ← label.popSegment
  mutateLast (fun s => s.setLoopCount (s.getLoopCount + 1)) h rest

def mutateSectionBegin : Heap → Label → Heap × Label := mutateLoopBegin
def mutateSectionEnd : Heap → Label → Except Abort (Heap × Label) := mutateLoopEnd

def mutateSingleExecBegin (h : Heap) (label : Label) : Heap × Label :=
  let (h, r) := h.alloc (Segment.workShare.setSingleFlag true)
  (h, label ++ [r])

def mutateSingleEnd (label : Label) : Except Abort Label := do
  let (_, rest) ← label.popSegment
  .ok rest

def mutateSingleOtherBegin (h : Heap) (label : Label) : Heap × Label :=
  let (h, r) := h.alloc (Segment.workShare.setSingleFlag false)
  (h, label ++ [r])

/-- The check that a workshare segment is popped is a RAW_DCHECK, absent from a release build. -/
def mutateWorkShareDispatch (h : Heap) (label : Label) (id : BitVec 64) (isSection : Bool) :
    Except Abort (Heap × Label) := do
  let (_, rest) ← label.popSegment
  let (h, r) := h.alloc (Segment.workShareUnit id isSection)
  .ok (h, rest ++ [r])

def mutateIterDispatch (h : Heap) (label : Label) (id : BitVec 64) : Except Abort (Heap × Label) :=
  mutateWorkShareDispatch h label id false

def mutateSectionDispatch (h : Heap) (label : Label) (id : BitVec 64) : Except Abort (Heap × Label) :=
  mutateWorkShareDispatch h label id true

def mutateTaskGroupBegin : Heap → Label → Except Abort (Heap × Label) :=
  mutateLast fun s =>
    .ok ((s.setTaskGroupId (s.getTaskGroupId + 1)).setTaskGroupLevel (s.getTaskGroupLevel + 1))

/-- The level is a `uint16_t`: at 0 it wraps, and the check that it is at least 0 always passes. -/
def mutateTaskGroupEnd : Heap → Label → Except Abort (Heap × Label) :=
  mutateLast fun s =>
    .ok ((s.setTaskGroupId (s.getTaskGroupId + 1)).setTaskGroupLevel
      (s.getTaskGroupLevel + (2 ^ 16 - 1)))

def mutateTaskComplete (h : Heap) (label : Option Label) : Except Abort (Option Label) :=
  match label with
  | none => .ok none
  | some label => do
    let (last, rest) ← label.popSegment
    let type ← (h.objects last).getType
    if type = .eExplicit then .ok (some rest) else .error "last segment should be explicit"

/-- The mark is set on the shared object itself: every label that holds it sees the mark. -/
def mutateTaskGroupSyncChild (h : Heap) (label : Label) : Except Abort (Heap × Label) := do
  let last ← label.getLastKthSegment 1
  .ok (h.modify last Segment.setTaskGroupSync, label)

end Romp
