import Romp.Core.Shift

namespace Romp

/-- Two versions of the segment of a member between which the member has passed no barrier. -/
structure Parted (y y' : Segment) : Prop where
  differ : y.equals y' = false
  offset : y.getOffset = y'.getOffset
  span : y.getSpan = y'.getSpan
  team : y.getSpan ≠ 1

section Units

variable {front : List Segment} {y y' u v : Segment}

theorem happensBefore_versions (differ : y.equals y' = false) (offset : y.getOffset = y'.getOffset)
    (span : y.getSpan = y'.getSpan)
    (task : y.getSpan ≠ 1 ∨ y.getType = .ok .eExplicit ∧ y'.getType = .ok .eExplicit) (hist cur : List Segment) :
    happensBefore (front ++ y :: hist) (front ++ y' :: cur) = analyzeSameTask (y :: hist) (y' :: cur) 0 := by
  rw [happensBefore_diff (SameStretch.refl front) differ]
  simp only [happensBeforeAt, getKthSegment, List.getElem?_cons_zero, bind, Except.bind]
  rw [if_neg (not_not_intro span)]
  by_cases one : y.getSpan = 1
  · obtain ⟨type, type'⟩ := task.resolve_left (not_not_intro one)
    simp [one, type, type']
  · rw [if_neg one, if_neg (not_not_intro offset)]

theorem Parted.sameTask (parted : Parted y y') (hist cur : List Segment) :
    happensBefore (front ++ y :: hist) (front ++ y' :: cur) = analyzeSameTask (y :: hist) (y' :: cur) 0 :=
  happensBefore_versions parted.differ parted.offset parted.span (.inl parted.team) hist cur

/-- An access in a unit and a later one outside of all units: the marker of the unit decides. -/
theorem happensBefore_unit_leaf (parted : Parted y y') (unit : u.getType = .ok .eWorkShare) :
    happensBefore (front ++ [y, u]) (front ++ [y']) = .ok u.isPlaceHolder := by
  rw [parted.sameTask]
  simp [analyzeSameTask, getKthSegment, unit, bind, Except.bind]

/-- An access in a unit and a later one in another construct, or in a task created since. -/
theorem happensBefore_unit_next (parted : Parted y y') (unit : u.getType = .ok .eWorkShare)
    (next : v.getType = .ok .eWorkShare ∨ v.getType = .ok .eExplicit) (rest : List Segment) :
    happensBefore (front ++ [y, u]) (front ++ y' :: v :: rest) = .ok false := by
  rw [parted.sameTask]
  rcases next with next | next <;>
    simp [analyzeSameTask, getKthSegment, unit, next, bind, Except.bind, dispatchAnalysis, analyzeNextWorkWork,
      analyzeNextWorkExp, analyzeNextConcurrent]

/-- Accesses in two units of one construct, the later of which has come to no ordered section. -/
theorem happensBefore_unit_other (same : y.equals y' = true) (differ : u.equals v = false)
    (unit : u.getType = .ok .eWorkShare) (unit' : v.getType = .ok .eWorkShare) (span : u.getSpan = 1)
    (span' : v.getSpan = 1)
    (single : ¬(u.isSingleExecutor = true ∧ v.isSingleExecutor = true)) (phase : v.getPhase = 0) :
    happensBefore (front ++ [y, u]) (front ++ [y', v]) = .ok false := by
  have stretch : SameStretch (front ++ [y]) (front ++ [y']) :=
    List.rel_append (SameStretch.refl front) (.cons same .nil)
  rw [List.append_cons front y, List.append_cons front y', happensBefore_diff stretch differ]
  have noExecutor : (u.isSingleExecutor && v.isSingleExecutor) = false := by
    rw [← Bool.not_eq_true, Bool.and_eq_true]
    exact single
  simp [happensBeforeAt, getKthSegment, unit, unit', span, span', noExecutor, analyzeOrderedSection, phase,
    computeEnterRank, bind, Except.bind]

end Units

end Romp
