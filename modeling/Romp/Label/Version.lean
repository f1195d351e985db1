import Romp.Label.Heap

namespace Romp

theorem getOffset_lt (s : Segment) : s.getOffset < 2 ^ 16 := by
  rw [Segment.getOffset_get]
  exact Segment.offsetField.get_lt s.value

theorem getSpan_lt (s : Segment) : s.getSpan < 2 ^ 16 := by
  rw [Segment.getSpan_get]
  exact Segment.spanField.get_lt s.value

theorem getType_of_contents {x y : Segment} (same : x.contents.type = y.contents.type) : x.getType = y.getType := by
  rw [x.getType_contents, y.getType_contents, same]

theorem plain_setTaskcreate {s s' : Segment} {n : Nat} (set : s.setTaskcreate n = .ok s') :
    s'.plain = { s.plain with taskcreate := n } := by
  rw [Segment.setTaskcreate_eq] at set
  split at set
  · rename_i small
    cases set
    simp only [Segment.plain, s.contents_write_taskcreate small]
  · cases set

theorem plain_setTaskwait {s s' : Segment} {n : Nat} (set : s.setTaskwait n = .ok s') :
    s'.plain = { s.plain with taskwait := n } := by
  rw [Segment.setTaskwait_eq] at set
  split at set
  · rename_i small
    cases set
    simp only [Segment.plain, s.contents_write_taskwait small]
  · cases set

theorem plain_setLoopCount {s s' : Segment} {n : Nat} (set : s.setLoopCount n = .ok s') :
    s'.plain = { s.plain with loopCount := n } := by
  rw [Segment.setLoopCount_eq] at set
  split at set
  · rename_i small
    cases set
    simp only [Segment.plain, s.contents_write_loopCount small]
  · cases set

theorem plain_setPhase {s s' : Segment} {n : Nat} (set : s.setPhase n = .ok s') :
    s'.plain = { s.plain with phase := n } := by
  rw [Segment.setPhase_eq] at set
  split at set
  · rename_i small
    cases set
    simp only [Segment.plain, s.contents_write_phase small]
  · cases set

theorem plain_setTaskGroup (s : Segment) (id level : Nat) : ((s.setTaskGroupId id).setTaskGroupLevel level).plain =
    { s.plain with taskGroupId := id % 2 ^ 16, taskGroupLevel := level % 2 ^ 16 } := by
  simp only [Segment.plain, Segment.contents_setTaskGroupLevel, Segment.contents_setTaskGroupId]

theorem plain_bump (s : Segment) : (s.setOffsetSpan (s.getOffset + s.getSpan) s.getSpan).plain =
    { s.plain with offset := (s.getOffset + s.getSpan) % 2 ^ 16 } := by
  have span : s.contents.span % 2 ^ 16 = s.contents.span := Nat.mod_eq_of_lt (getSpan_lt s)
  simp only [Segment.plain, s.contents_setOffsetSpan]
  rw [show s.getSpan % 2 ^ 16 = s.contents.span from span]

/-- Another version of a segment, `k` barriers on: what the order of accesses below it depends on. -/
structure Version (base : Segment) (k : Nat) (s : Segment) : Prop where
  type : s.plain.type = base.plain.type
  marker : s.plain.marker = base.plain.marker
  span : s.plain.span = base.plain.span
  offset : s.plain.offset = (base.plain.offset + k * base.plain.span) % 2 ^ 16
  phase : base.plain.phase ≤ s.plain.phase
  workShareId : s.plain.workShareId = base.plain.workShareId

theorem plain_offset_lt (s : Segment) : s.plain.offset < 2 ^ 16 := getOffset_lt s

theorem Version.trans {a b c : Segment} {k k' : Nat} (first : Version a k b) (second : Version b k' c) :
    Version a (k + k') c := by
  refine ⟨second.type.trans first.type, second.marker.trans first.marker, second.span.trans first.span, ?_,
    first.phase.trans second.phase, second.workShareId.trans first.workShareId⟩
  rw [second.offset, first.offset, first.span, Nat.mod_add_mod, Nat.add_mul, Nat.add_assoc]

theorem Version.of_plain {a b : Segment} (type : b.plain.type = a.plain.type) (marker : b.plain.marker = a.plain.marker)
    (span : b.plain.span = a.plain.span) (offset : b.plain.offset = a.plain.offset)
    (phase : a.plain.phase ≤ b.plain.phase) (id : b.plain.workShareId = a.plain.workShareId) : Version a 0 b := by
  refine ⟨type, marker, span, ?_, phase, id⟩
  rw [offset, Nat.zero_mul, Nat.add_zero, Nat.mod_eq_of_lt (plain_offset_lt a)]

theorem Version.same {a b : Segment} (same : b.plain = a.plain) : Version a 0 b :=
  .of_plain (by rw [same]) (by rw [same]) (by rw [same]) (by rw [same]) (by rw [same]) (by rw [same])

theorem version_bump (s : Segment) : Version s 1 (s.setOffsetSpan (s.getOffset + s.getSpan) s.getSpan) := by
  refine ⟨?_, ?_, ?_, ?_, ?_, ?_⟩ <;> simp only [plain_bump, Nat.one_mul, le_refl]
  rfl

theorem version_taskcreate {s s' : Segment} {n : Nat} (set : s.setTaskcreate n = .ok s') : Version s 0 s' := by
  refine .of_plain ?_ ?_ ?_ ?_ ?_ ?_ <;> simp only [plain_setTaskcreate set, le_refl]

theorem version_taskwait {s s' : Segment} {n : Nat} (set : s.setTaskwait n = .ok s') : Version s 0 s' := by
  refine .of_plain ?_ ?_ ?_ ?_ ?_ ?_ <;> simp only [plain_setTaskwait set, le_refl]

theorem version_loopCount {s s' : Segment} {n : Nat} (set : s.setLoopCount n = .ok s') : Version s 0 s' := by
  refine .of_plain ?_ ?_ ?_ ?_ ?_ ?_ <;> simp only [plain_setLoopCount set, le_refl]

theorem version_phase {s s' : Segment} (set : s.setPhase (s.getPhase + 1) = .ok s') : Version s 0 s' := by
  refine .of_plain ?_ ?_ ?_ ?_ ?_ ?_ <;> simp only [plain_setPhase set]
  exact Nat.le_succ s.getPhase

theorem version_taskGroup (s : Segment) (id level : Nat) :
    Version s 0 ((s.setTaskGroupId id).setTaskGroupLevel level) := by
  refine .of_plain ?_ ?_ ?_ ?_ ?_ ?_ <;> simp only [plain_setTaskGroup, le_refl]

section Reads

variable {base y : Segment} {j : Nat}

theorem getType_of_plain {s s' : Segment} (same : s.plain.type = s'.plain.type) : s.getType = s'.getType :=
  getType_of_contents same

theorem Version.getType (version : Version base j y) : y.getType = base.getType := getType_of_plain version.type
theorem Version.getSpan (version : Version base j y) : y.getSpan = base.getSpan := version.span

theorem Version.getOffset (version : Version base j y) :
    y.getOffset = (base.getOffset + j * base.getSpan) % 2 ^ 16 := version.offset

theorem Version.isPlaceHolder (version : Version base j y) : y.isPlaceHolder = base.isPlaceHolder := by
  rw [y.isPlaceHolder_eq_isSection, base.isPlaceHolder_eq_isSection]
  exact version.marker

theorem Version.isSingleExecutor (version : Version base j y) : y.isSingleExecutor = base.isSingleExecutor := by
  have same : y.workShareId = base.workShareId := version.workShareId
  rw [Segment.isSingleExecutor, Segment.isSingleExecutor, Segment.getWorkShareId, Segment.getWorkShareId, same]

end Reads

def Bumped (base : Segment) (k : Nat) (s : Segment) : Prop :=
  s.plain = { base.plain with offset := (base.plain.offset + k * base.plain.span) % 2 ^ 16 }

theorem Bumped.version {base s : Segment} {k : Nat} (bumped : Bumped base k s) : Version base k s := by
  refine ⟨?_, ?_, ?_, ?_, ?_, ?_⟩ <;> rw [bumped]

theorem Bumped.next {base s : Segment} {k : Nat} (bumped : Bumped base k s) :
    Bumped base (k + 1) (s.setOffsetSpan (s.getOffset + s.getSpan) s.getSpan) := by
  have offset : s.getOffset = (base.plain.offset + k * base.plain.span) % 2 ^ 16 := congrArg Contents.offset bumped
  have span : s.getSpan = base.plain.span := congrArg Contents.span bumped
  rw [Bumped, plain_bump, bumped, offset, span, Nat.mod_add_mod, Nat.add_mul, Nat.one_mul, Nat.add_assoc]

theorem getType_implicit (s : Segment) : s.getType = .ok .eImplicit ↔ s.plain.type = 1 := by
  rw [s.getType_contents, Segment.plain]
  by_cases one : s.contents.type = 1
  · simp [one]
  · by_cases two : s.contents.type = 2
    · simp [two]
    · by_cases three : s.contents.type = 3 <;> simp [one, two, three]

end Romp
