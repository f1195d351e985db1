import Mathlib.Data.List.Forall2
import Romp.Core.HappensBefore
import Romp.Label.Contents

namespace Romp

/-- Two stretches of label that `compareLabels` walks over without finding a difference. -/
def SameStretch (left right : List Segment) : Prop :=
  List.Forall₂ (fun x y => x.equals y = true) left right

theorem SameStretch.refl (label : List Segment) : SameStretch label label :=
  List.forall₂_same.mpr fun x _ => x.equals_refl

theorem SameStretch.length {left right : List Segment} (same : SameStretch left right) :
    left.length = right.length := List.Forall₂.length_eq same

theorem compareFrom_stretch {p q : List Segment} (same : SameStretch p q) (i : Nat)
    (left right : List Segment) :
    compareFrom i (p ++ left) (q ++ right) = compareFrom (i + p.length) left right := by
  unfold SameStretch at same
  induction same generalizing i with
  | nil => rfl
  | cons head _ ih =>
    simp only [List.cons_append, compareFrom, head, if_true, ih, List.length_cons]
    congr 1
    omega

section Shift

variable {p q : List Segment} (even : p.length = q.length) (hist cur : List Segment) (d : Nat)

theorem getKthSegment_shift : getKthSegment (p ++ hist) (p.length + d) = getKthSegment hist d := by
  simp [getKthSegment, List.getElem?_append_right]

theorem analyzeSyncChain_shift :
    analyzeSyncChain (p ++ hist) (p.length + d) = analyzeSyncChain hist d := by
  have last : p.length + d + 1 = p.length + hist.length ↔ d + 1 = hist.length := by omega
  simp only [analyzeSyncChain, List.length_append, last, List.drop_append, List.drop_eq_nil_of_le,
    Nat.le_add_right, List.nil_append, Nat.add_sub_cancel_left]

theorem analyzeOrderedDescendents_shift (phase : Nat) :
    analyzeOrderedDescendents (p ++ hist) (p.length + d) phase =
      analyzeOrderedDescendents hist d phase := by
  simp only [analyzeOrderedDescendents, Nat.add_assoc, getKthSegment_shift, analyzeSyncChain_shift]

include even

theorem analyzeOrderedSection_shift : analyzeOrderedSection (p ++ hist) (q ++ cur) (p.length + d) =
    analyzeOrderedSection hist cur d := by
  have last : p.length + d + 1 = p.length + hist.length ↔ d + 1 = hist.length := by omega
  have curRead : getKthSegment (q ++ cur) (p.length + d) = getKthSegment cur d := by
    rw [even, getKthSegment_shift]
  simp only [analyzeOrderedSection, getKthSegment_shift, curRead, List.length_append, last,
    analyzeOrderedDescendents_shift]

theorem analyzeSiblingImpTask_shift : analyzeSiblingImpTask (p ++ hist) (q ++ cur) (p.length + d) =
    analyzeSiblingImpTask hist cur d := by
  have last : p.length + d + 1 = p.length + hist.length ↔ d + 1 = hist.length := by omega
  have curLast : p.length + d + 1 = q.length + cur.length ↔ d + 1 = cur.length := by omega
  have next : getKthSegment (p ++ hist) (p.length + d + 1) = getKthSegment hist (d + 1) :=
    getKthSegment_shift hist (d + 1)
  have curRead (k : Nat) : getKthSegment (q ++ cur) (p.length + k) = getKthSegment cur k := by
    rw [even, getKthSegment_shift]
  have curNext : getKthSegment (q ++ cur) (p.length + d + 1) = getKthSegment cur (d + 1) :=
    curRead (d + 1)
  have ordered : analyzeOrderedSection (p ++ hist) (q ++ cur) (p.length + d + 1) =
      analyzeOrderedSection hist cur (d + 1) := analyzeOrderedSection_shift even hist cur (d + 1)
  simp only [analyzeSiblingImpTask, List.length_append, last, curLast, next, curNext,
    getKthSegment_shift, curRead, ordered]

theorem analyzeNextExpExp_shift : analyzeNextExpExp (p ++ hist) (q ++ cur) (p.length + d) =
    analyzeNextExpExp hist cur d := by
  have curRead (k : Nat) : getKthSegment (q ++ cur) (p.length + k) = getKthSegment cur k := by
    rw [even, getKthSegment_shift]
  simp only [analyzeNextExpExp, analyzeTaskGroupSync, Nat.add_assoc, getKthSegment_shift, curRead,
    analyzeSyncChain_shift]

theorem dispatchAnalysis_shift (histType curType : SegmentType) :
    dispatchAnalysis histType curType (p ++ hist) (q ++ cur) (p.length + d) =
      dispatchAnalysis histType curType hist cur d := by
  cases histType <;> cases curType <;>
    first | rfl | exact analyzeNextExpExp_shift even hist cur d

theorem analyzeSameTask_shift : analyzeSameTask (p ++ hist) (q ++ cur) (p.length + d) =
    analyzeSameTask hist cur d := by
  have last : p.length + d + 1 = p.length + hist.length ↔ d + 1 = hist.length := by omega
  have curLast : p.length + d + 1 = q.length + cur.length ↔ d + 1 = cur.length := by omega
  have next : getKthSegment (p ++ hist) (p.length + d + 1) = getKthSegment hist (d + 1) :=
    getKthSegment_shift hist (d + 1)
  have curRead (k : Nat) : getKthSegment (q ++ cur) (p.length + k) = getKthSegment cur k := by
    rw [even, getKthSegment_shift]
  have curNext : getKthSegment (q ++ cur) (p.length + d + 1) = getKthSegment cur (d + 1) :=
    curRead (d + 1)
  have chain : analyzeSyncChain (p ++ hist) (p.length + d + 1) = analyzeSyncChain hist (d + 1) :=
    analyzeSyncChain_shift hist (d + 1)
  simp only [analyzeSameTask, List.length_append, last, curLast, next, curNext, getKthSegment_shift,
    curRead, chain, dispatchAnalysis_shift even]

theorem happensBeforeAt_shift : happensBeforeAt (p ++ hist) (q ++ cur) (p.length + d) =
    happensBeforeAt hist cur d := by
  have curRead : getKthSegment (q ++ cur) (p.length + d) = getKthSegment cur d := by
    rw [even, getKthSegment_shift]
  simp only [happensBeforeAt, getKthSegment_shift, curRead, analyzeSameTask_shift even,
    analyzeOrderedSection_shift even, analyzeSiblingImpTask_shift even]

end Shift

theorem differ_of_offset {x y : Segment} (apart : x.getOffset ≠ y.getOffset) : x.equals y = false := by
  by_contra same
  have words := ((x.equals_iff y).mp (by simpa using same)).1
  exact apart (congrArg Contents.offset words)

/-- Past a common stretch, only the two remainders of the labels matter. -/
theorem happensBefore_diff {p q : List Segment} (same : SameStretch p q) {x y : Segment}
    (differ : x.equals y = false) (hist cur : List Segment) :
    happensBefore (p ++ x :: hist) (q ++ y :: cur) = happensBeforeAt (x :: hist) (y :: cur) 0 := by
  have index : compareLabels (p ++ x :: hist) (q ++ y :: cur) = p.length := by
    rw [compareLabels, compareFrom_stretch same]
    simp [compareFrom, differ]
  have reached : ¬ (p.length : Int) < 0 := by omega
  simp only [happensBefore, index, reached, if_false, Int.toNat_natCast]
  exact happensBeforeAt_shift same.length (x :: hist) (y :: cur) 0

theorem happensBefore_stretch {p q : List Segment} (same : SameStretch p q) (cur : List Segment) :
    happensBefore p (q ++ cur) = .ok true := by
  have index : compareLabels p (q ++ cur) = compareFrom p.length [] cur := by
    have index := compareFrom_stretch same 0 [] cur
    rwa [List.append_nil, Nat.zero_add] at index
  cases cur with
  | nil => rw [happensBefore, index]; rfl
  | cons y cur => rw [happensBefore, index]; rfl

end Romp
