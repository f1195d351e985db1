import Romp.Label.Segment

open Bits

namespace Romp

/-- What the packed words of a segment record, one entry for each run of bits of the layout. -/
@[ext] structure Contents where
  type : Nat
  marker : Bool
  taskwaited : Bool
  taskGroupSync : Bool
  taskcreate : Nat
  loopCount : Nat
  phase : Nat
  taskwait : Nat
  span : Nat
  offset : Nat
  taskGroupId : Nat
  taskGroupLevel : Nat
  workShareId : Option (BitVec 64)
  deriving DecidableEq, Repr

namespace Segment

def typeField : Field := ⟨0, 2⟩
def markerField : Field := ⟨2, 1⟩
def taskwaitedField : Field := ⟨3, 1⟩
def taskGroupSyncField : Field := ⟨4, 1⟩
def taskcreateField : Field := ⟨5, 15⟩
def loopCountField : Field := ⟨20, 4⟩
def phaseField : Field := ⟨24, 4⟩
def taskwaitField : Field := ⟨28, 4⟩
def spanField : Field := ⟨32, 16⟩
def offsetField : Field := ⟨48, 16⟩
def taskGroupLevelField : Field := ⟨0, 16⟩
def taskGroupIdField : Field := ⟨16, 16⟩

def contents (s : Segment) : Contents where
  type := typeField.get s.value
  marker := s.isSection
  taskwaited := s.isTaskwaited
  taskGroupSync := s.isTaskGroupSync
  taskcreate := s.getTaskcreate
  loopCount := s.getLoopCount
  phase := s.getPhase
  taskwait := s.getTaskwait
  span := s.getSpan
  offset := s.getOffset
  taskGroupId := s.getTaskGroupId
  taskGroupLevel := s.getTaskGroupLevel
  workShareId := s.workShareId

theorem getTaskwait_get (s : Segment) : s.getTaskwait = taskwaitField.get s.value := by
  simp [getTaskwait, Field.get, show ~~~TASKWAIT_MASK = taskwaitField.mask by decide, taskwaitField]

theorem getTaskcreate_get (s : Segment) : s.getTaskcreate = taskcreateField.get s.value := by
  simp [getTaskcreate, Field.get, show TASK_CREATE_MASK = taskcreateField.mask by decide, taskcreateField]

theorem getPhase_get (s : Segment) : s.getPhase = phaseField.get s.value := by
  simp [getPhase, Field.get, show PHASE_MASK = phaseField.mask by decide, phaseField]

theorem getLoopCount_get (s : Segment) : s.getLoopCount = loopCountField.get s.value := by
  simp [getLoopCount, Field.get, show LOOP_CNT_MASK = loopCountField.mask by decide, loopCountField]

theorem getSpan_get (s : Segment) : s.getSpan = spanField.get s.value := by
  simp [getSpan, Field.get, show SPAN_MASK = spanField.mask by decide, spanField]

theorem getOffset_get (s : Segment) : s.getOffset = offsetField.get s.value := by
  simp [getOffset, Field.get, show OFFSET_MASK = offsetField.mask by decide, offsetField]

theorem isSection_get (s : Segment) : s.isSection = decide (markerField.get s.value ≠ 0) := by
  have meaning := markerField.and_mask_eq_zero s.value
  rw [show (markerField.mask : BitVec 64) = WORKSHARE_TYPE_MASK by decide] at meaning
  rw [Bool.eq_iff_iff, decide_eq_true_eq, Ne, ← meaning]
  simp [isSection]

theorem isTaskwaited_get (s : Segment) :
    s.isTaskwaited = decide (taskwaitedField.get s.value ≠ 0) := by
  have meaning := taskwaitedField.and_mask_eq_zero s.value
  rw [show (taskwaitedField.mask : BitVec 64) = TASKWAIT_SYNC_MASK by decide] at meaning
  rw [Bool.eq_iff_iff, decide_eq_true_eq, Ne, ← meaning]
  simp [isTaskwaited]

theorem isTaskGroupSync_get (s : Segment) :
    s.isTaskGroupSync = decide (taskGroupSyncField.get s.value ≠ 0) := by
  have meaning := taskGroupSyncField.and_mask_eq_zero s.value
  rw [show (taskGroupSyncField.mask : BitVec 64) = TASKGROUP_SYNC_MASK by decide] at meaning
  rw [Bool.eq_iff_iff, decide_eq_true_eq, Ne, ← meaning]
  simp [isTaskGroupSync]

/-- The place holder flag and the section flag are one and the same bit of the word. -/
theorem isPlaceHolder_eq_isSection (s : Segment) : s.isPlaceHolder = s.isSection := by
  rw [isSection_get, Bool.eq_iff_iff]
  have small := markerField.get_lt s.value
  have read : markerField.get s.value = ((s.value &&& ~~~WS_PLACE_HOLDER_MASK) >>> 2).toNat := by
    simp [Field.get, show ~~~WS_PLACE_HOLDER_MASK = markerField.mask by decide, markerField]
  simp only [isPlaceHolder, beq_iff_eq, decide_eq_true_eq, ← BitVec.toNat_inj, ← read]
  simp only [markerField, BitVec.ofNat_eq_ofNat, BitVec.toNat_ofNat] at small ⊢
  omega

theorem getTaskGroupLevel_get (s : Segment) :
    s.getTaskGroupLevel = taskGroupLevelField.get s.taskGroup := by
  simp [getTaskGroupLevel, Field.get, taskGroupLevelField,
    show TASKGROUP_LEVEL_MASK = taskGroupLevelField.mask by decide]

theorem getTaskGroupId_get (s : Segment) : s.getTaskGroupId = taskGroupIdField.get s.taskGroup := by
  have top : taskGroupIdField.lo + taskGroupIdField.width = 32 := rfl
  rw [Field.get_top _ top]
  rfl

def write (s : Segment) (f : Field) (x : Nat) : Segment := { s with value := f.put s.value x }

def writeGroup (s : Segment) (f : Field) (x : Nat) : Segment :=
  { s with taskGroup := f.put s.taskGroup x }

theorem setTaskwait_eq (s : Segment) (n : Nat) : s.setTaskwait n =
    if n < 16 then .ok (s.write taskwaitField n) else .error "taskwait count is overflowing" := by
  rw [setTaskwait, write, Field.put,
    show (taskwaitField.mask : BitVec 64) = ~~~TASKWAIT_MASK by decide, BitVec.not_not]
  rfl

theorem setTaskcreate_eq (s : Segment) (n : Nat) : s.setTaskcreate n =
    if n < 2 ^ 15 then .ok (s.write taskcreateField n)
    else .error "taskcreate count is overflowing" := by
  rw [setTaskcreate, write, Field.put,
    show (taskcreateField.mask : BitVec 64) = TASK_CREATE_MASK by decide]
  rfl

theorem setPhase_eq (s : Segment) (n : Nat) : s.setPhase n =
    if n < 16 then .ok (s.write phaseField n) else .error "phase count is overflowing" := by
  rw [setPhase, write, Field.put, show (phaseField.mask : BitVec 64) = PHASE_MASK by decide]
  rfl

theorem setLoopCount_eq (s : Segment) (n : Nat) : s.setLoopCount n =
    if n < 16 then .ok (s.write loopCountField n) else .error "loop count is overflowing" := by
  rw [setLoopCount, write, Field.put,
    show (loopCountField.mask : BitVec 64) = LOOP_CNT_MASK by decide]
  rfl

theorem setOffsetSpan_eq (s : Segment) (offset span : Nat) :
    s.setOffsetSpan offset span = (s.write offsetField offset).write spanField span := by
  have masks : (offsetField.mask : BitVec 64) = OFFSET_MASK ∧ (spanField.mask : BitVec 64) = SPAN_MASK := by
    decide
  simp only [setOffsetSpan, write, Segment.mk.injEq, and_true, ← masks.1, ← masks.2]
  apply BitVec.eq_of_getLsbD_eq
  intro i bound
  simp only [Field.put_bit, BitVec.getLsbD_or, BitVec.getLsbD_and, BitVec.getLsbD_not, Field.mask_bit,
    BitVec.getLsbD_shiftLeft, BitVec.getLsbD_ofNat, bound, decide_true, Bool.true_and]
  have apart : ¬ (offsetField.Covers i ∧ spanField.Covers i) := by
    rintro ⟨⟨low, _⟩, ⟨_, high⟩⟩
    simp only [offsetField, spanField] at low high
    omega
  by_cases first : offsetField.Covers i
  · have low : ¬ i < 48 := by have := first.1; simp only [offsetField] at this; omega
    have second : ¬ spanField.Covers i := fun second => apart ⟨first, second⟩
    simp [first, second, low, show offsetField.lo = 48 from rfl, show i - 48 < 64 by omega]
  · by_cases second : spanField.Covers i
    · have low : ¬ i < 32 := by have := second.1; simp only [spanField] at this; omega
      simp [first, second, low, show spanField.lo = 32 from rfl, show i - 32 < 64 by omega]
    · simp [first, second]

theorem setTaskwaited_eq (s : Segment) : s.setTaskwaited = s.write taskwaitedField 1 := by
  rw [setTaskwaited, write, show TASKWAIT_SYNC_MASK = taskwaitedField.mask by decide, Field.or_mask]
  rfl

theorem setTaskGroupSync_eq (s : Segment) : s.setTaskGroupSync = s.write taskGroupSyncField 1 := by
  rw [setTaskGroupSync, write, show TASKGROUP_SYNC_MASK = taskGroupSyncField.mask by decide,
    Field.or_mask]
  rfl

theorem setTaskGroupId_eq (s : Segment) (n : Nat) :
    s.setTaskGroupId n = s.writeGroup taskGroupIdField n := by
  rw [setTaskGroupId, writeGroup, Field.put,
    show (taskGroupIdField.mask : BitVec 32) = TASKGROUP_ID_MASK by decide]
  rfl

theorem setTaskGroupLevel_eq (s : Segment) (n : Nat) :
    s.setTaskGroupLevel n = s.writeGroup taskGroupLevelField n := by
  rw [setTaskGroupLevel, writeGroup, Field.put,
    show (taskGroupLevelField.mask : BitVec 32) = TASKGROUP_LEVEL_MASK by decide,
    show taskGroupLevelField.lo = 0 from rfl, BitVec.shiftLeft_zero]

theorem get_write (s : Segment) (f g : Field) (x : Nat) (apart : f.Disjoint g) :
    g.get (s.write f x).value = g.get s.value := Field.get_put_disjoint f g apart s.value x

theorem get_write_self (s : Segment) (f : Field) (x : Nat) (fits : f.lo + f.width ≤ 64) :
    f.get (s.write f x).value = x % 2 ^ f.width := Field.get_put f fits s.value x

theorem get_writeGroup (s : Segment) (f g : Field) (x : Nat) (apart : f.Disjoint g) :
    g.get (s.writeGroup f x).taskGroup = g.get s.taskGroup :=
  Field.get_put_disjoint f g apart s.taskGroup x

theorem get_writeGroup_self (s : Segment) (f : Field) (x : Nat) (fits : f.lo + f.width ≤ 32) :
    f.get (s.writeGroup f x).taskGroup = x % 2 ^ f.width := Field.get_put f fits s.taskGroup x

theorem contents_get (s : Segment) : s.contents =
    { type := typeField.get s.value
      marker := decide (markerField.get s.value ≠ 0)
      taskwaited := decide (taskwaitedField.get s.value ≠ 0)
      taskGroupSync := decide (taskGroupSyncField.get s.value ≠ 0)
      taskcreate := taskcreateField.get s.value
      loopCount := loopCountField.get s.value
      phase := phaseField.get s.value
      taskwait := taskwaitField.get s.value
      span := spanField.get s.value
      offset := offsetField.get s.value
      taskGroupId := taskGroupIdField.get s.taskGroup
      taskGroupLevel := taskGroupLevelField.get s.taskGroup
      workShareId := s.workShareId } := by
  simp only [contents, isSection_get, isTaskwaited_get, isTaskGroupSync_get, getTaskcreate_get,
    getLoopCount_get, getPhase_get, getTaskwait_get, getSpan_get, getOffset_get, getTaskGroupId_get,
    getTaskGroupLevel_get]

section Writes

variable (s : Segment)

theorem contents_write_taskwait {n : Nat} (bound : n < 16) :
    (s.write taskwaitField n).contents = { s.contents with taskwait := n } := by
  simp (disch := decide) only [contents_get, get_write, get_write_self, Contents.mk.injEq, true_and]
  exact ⟨Nat.mod_eq_of_lt bound, rfl, rfl, rfl⟩

theorem contents_write_taskcreate {n : Nat} (bound : n < 2 ^ 15) :
    (s.write taskcreateField n).contents = { s.contents with taskcreate := n } := by
  simp (disch := decide) only [contents_get, get_write, get_write_self, Contents.mk.injEq, true_and]
  exact ⟨Nat.mod_eq_of_lt bound, rfl, rfl, rfl⟩

theorem contents_write_phase {n : Nat} (bound : n < 16) :
    (s.write phaseField n).contents = { s.contents with phase := n } := by
  simp (disch := decide) only [contents_get, get_write, get_write_self, Contents.mk.injEq, true_and]
  exact ⟨Nat.mod_eq_of_lt bound, rfl, rfl, rfl⟩

theorem contents_write_loopCount {n : Nat} (bound : n < 16) :
    (s.write loopCountField n).contents = { s.contents with loopCount := n } := by
  simp (disch := decide) only [contents_get, get_write, get_write_self, Contents.mk.injEq, true_and]
  exact ⟨Nat.mod_eq_of_lt bound, rfl, rfl, rfl⟩

theorem contents_setOffsetSpan (offset span : Nat) : (s.setOffsetSpan offset span).contents =
    { s.contents with offset := offset % 2 ^ 16, span := span % 2 ^ 16 } := by
  rw [setOffsetSpan_eq]
  simp (disch := decide) only [contents_get, get_write, get_write_self, Contents.mk.injEq, true_and]
  exact ⟨rfl, rfl, rfl, rfl, rfl⟩

theorem contents_setTaskwaited :
    s.setTaskwaited.contents = { s.contents with taskwaited := true } := by
  rw [setTaskwaited_eq]
  simp (disch := decide) only [contents_get, get_write, get_write_self, Contents.mk.injEq, true_and]
  exact ⟨by decide, rfl, rfl, rfl⟩

theorem contents_setTaskGroupSync :
    s.setTaskGroupSync.contents = { s.contents with taskGroupSync := true } := by
  rw [setTaskGroupSync_eq]
  simp (disch := decide) only [contents_get, get_write, get_write_self, Contents.mk.injEq, true_and]
  exact ⟨by decide, rfl, rfl, rfl⟩

theorem contents_setTaskGroupId (n : Nat) :
    (s.setTaskGroupId n).contents = { s.contents with taskGroupId := n % 2 ^ 16 } := by
  rw [setTaskGroupId_eq]
  simp (disch := decide) only [contents_get, get_writeGroup, get_writeGroup_self, Contents.mk.injEq,
    true_and]
  exact ⟨rfl, rfl, rfl, rfl, rfl, rfl, rfl, rfl, rfl, rfl, rfl, rfl⟩

theorem contents_setTaskGroupLevel (n : Nat) :
    (s.setTaskGroupLevel n).contents = { s.contents with taskGroupLevel := n % 2 ^ 16 } := by
  rw [setTaskGroupLevel_eq]
  simp (disch := decide) only [contents_get, get_writeGroup, get_writeGroup_self, Contents.mk.injEq,
    true_and]
  exact ⟨rfl, rfl, rfl, rfl, rfl, rfl, rfl, rfl, rfl, rfl, rfl, rfl⟩

end Writes

theorem type_mask (s : Segment) : s.contents.type = (s.value &&& SEG_TYPE_MASK).toNat := by
  simp only [contents, Field.get, show (typeField.mask : BitVec 64) = SEG_TYPE_MASK by decide]
  simp [typeField]

theorem getType_contents (s : Segment) : s.getType =
    if s.contents.type = 1 then .ok .eImplicit
    else if s.contents.type = 2 then .ok .eExplicit
    else if s.contents.type = 3 then .ok .eWorkShare
    else .error "undefined segment type" := by
  rw [type_mask]
  simp only [getType, ← BitVec.toNat_inj, BitVec.ofNat_eq_ofNat, BitVec.toNat_ofNat]

def word (s : Segment) : Contents :=
  { s.contents with taskGroupId := 0, taskGroupLevel := 0, workShareId := none }

def wordFields : List Field :=
  [typeField, markerField, taskwaitedField, taskGroupSyncField, taskcreateField, loopCountField,
    phaseField, taskwaitField, spanField, offsetField]

theorem wordFields_cover : ∀ i < 64, ∃ f ∈ wordFields, f.Covers i := by decide

theorem flag_eq {f : Field} {left right : BitVec 64} (narrow : f.width = 1)
    (same : decide (f.get left ≠ 0) = decide (f.get right ≠ 0)) : f.get left = f.get right := by
  have leftSmall := f.get_lt left
  have rightSmall := f.get_lt right
  rw [narrow] at leftSmall rightSmall
  simp only [ne_eq, decide_eq_decide] at same
  omega

theorem value_eq_iff (left right : Segment) : left.value = right.value ↔ left.word = right.word := by
  constructor
  · intro same
    simp only [word, contents_get, same]
  · intro same
    simp only [word, contents_get, Contents.mk.injEq, and_true] at same
    obtain ⟨type, marker, waited, sync, create, loop, phase, wait, span, offset⟩ := same
    apply Field.eq_of_get_eq wordFields wordFields_cover
    simp only [wordFields, List.mem_cons, List.not_mem_nil, or_false, forall_eq_or_imp, forall_eq]
    exact ⟨type, flag_eq rfl marker, flag_eq rfl waited, flag_eq rfl sync, create, loop, phase, wait,
      span, offset⟩

theorem equals_iff (left right : Segment) : left.equals right = true ↔
    left.word = right.word ∧ (left.workShareId = none ∨ left.workShareId = right.workShareId) := by
  rw [← value_eq_iff, equals]
  cases left.workShareId with
  | none => simp
  | some id => simp [@eq_comm _ right.workShareId]

theorem equals_refl (s : Segment) : s.equals s = true := (equals_iff s s).mpr ⟨rfl, .inr rfl⟩

theorem base_contents (type : SegmentType) (offset : Nat) {span : Nat} (small : span < 2 ^ 16) :
    ∃ s, base type offset span = .ok s ∧ s.contents =
      ⟨type.code.toNat, false, false, false, 0, 0, 0, 0, span, offset % 2 ^ 16, 0, 0, none⟩ := by
  have blank : (setType ⟨0, 0, 0, none⟩ type).contents =
      ⟨type.code.toNat, false, false, false, 0, 0, 0, 0, 0, 0, 0, 0, none⟩ := by
    cases type <;> decide
  refine ⟨_, by rw [base, if_pos small], ?_⟩
  rw [contents_setOffsetSpan, blank, Nat.mod_eq_of_lt small]

end Segment

end Romp
