import Romp.Label.Setters

open Bits

namespace Romp

namespace Segment

def singleField : Field := ⟨62, 2⟩

theorem setSingleFlag_eq (s : Segment) (isExecutor : Bool) : s.setSingleFlag isExecutor =
    { s with workShareId := some (singleField.put s.getWorkShareId (if isExecutor then 2 else 1)) } := by
  have mask : (singleField.mask : BitVec 64) = SINGLE_MASK := by decide
  cases isExecutor
  · rw [setSingleFlag, Field.put, mask]
    congr 3
  · rw [setSingleFlag, Field.put, mask]
    congr 3

theorem isSingleExecutor_get (s : Segment) :
    s.isSingleExecutor = decide (2 ≤ singleField.get s.getWorkShareId) := by
  have bound := (s.getWorkShareId &&& SINGLE_MASK).isLt
  rw [Bool.eq_iff_iff, decide_eq_true_eq, isSingleExecutor, beq_iff_eq, ← BitVec.toNat_inj, Field.get,
    show (singleField.mask : BitVec 64) = SINGLE_MASK by decide, BitVec.toNat_ushiftRight, BitVec.toNat_ushiftRight,
    Nat.shiftRight_eq_div_pow, Nat.shiftRight_eq_div_pow]
  simp only [singleField, BitVec.ofNat_eq_ofNat, BitVec.toNat_ofNat]
  omega

theorem isSingleOther_get (s : Segment) : s.isSingleOther = decide (singleField.get s.getWorkShareId = 1) := by
  rw [Bool.eq_iff_iff, decide_eq_true_eq, isSingleOther, beq_iff_eq, ← BitVec.toNat_inj, Field.get,
    show (singleField.mask : BitVec 64) = SINGLE_MASK by decide]
  rfl

theorem setWorkShareType_eq (s : Segment) (isSection : Bool) :
    s.setWorkShareType isSection = s.write markerField isSection.toNat := by
  have mask : (markerField.mask : BitVec 64) = WORKSHARE_TYPE_MASK := by decide
  cases isSection
  · rw [setWorkShareType, write, Field.put, mask]
    simp
  · rw [setWorkShareType, write, Field.put, mask]
    rfl

theorem setPlaceHolderFlag_eq (s : Segment) (toggle : Bool) :
    s.setPlaceHolderFlag toggle = s.setWorkShareType toggle := by
  cases toggle
  · rfl
  · have mask : (1 <<< 2 : BitVec 64) = markerField.mask := by decide
    rw [setWorkShareType_eq, setPlaceHolderFlag, if_pos rfl, mask, Field.or_mask]
    rfl

theorem contents_setWorkShareType (s : Segment) (isSection : Bool) :
    (s.setWorkShareType isSection).contents = { s.contents with marker := isSection } := by
  rw [setWorkShareType_eq]
  simp (disch := decide) only [contents_get, get_write, get_write_self, Contents.mk.injEq, true_and]
  cases isSection <;> exact ⟨by decide, rfl, rfl, rfl⟩

/-- The getter of the task group phase looks into the word of the task group id. -/
theorem getTaskGroupPhase_eq (s : Segment) : s.getTaskGroupPhase = s.getTaskGroupId := by
  rw [getTaskGroupId_get, getTaskGroupPhase, show TASKGROUP_PHASE_MASK = taskGroupIdField.mask by decide]
  rfl

theorem taskwaitPhase_setTaskGroupPhase (s : Segment) (phase : Nat) :
    (s.setTaskGroupPhase phase).getTaskwaitPhase = 0 := by
  have apart : TASKGROUP_PHASE_MASK &&& TASKWAIT_PHASE_MASK = 0 := by decide
  rw [getTaskwaitPhase, setTaskGroupPhase, ← BitVec.and_or_distrib_right, BitVec.and_assoc, apart]
  simp

theorem taskwaitPhase_setTaskwaitPhase (s : Segment) {phase : Nat} (small : phase < 2 ^ 16) :
    (s.setTaskwaitPhase phase).getTaskwaitPhase = s.getTaskwaitPhase ||| phase := by
  have whole : (BitVec.ofNat 32 phase &&& TASKWAIT_PHASE_MASK).toNat = phase := by
    rw [BitVec.toNat_and, BitVec.toNat_ofNat, show TASKWAIT_PHASE_MASK.toNat = 2 ^ 16 - 1 from rfl,
      Nat.and_two_pow_sub_one_eq_mod]
    omega
  rw [getTaskwaitPhase, setTaskwaitPhase, ← BitVec.and_or_distrib_right, BitVec.and_assoc, BitVec.and_self,
    BitVec.and_or_distrib_right, BitVec.toNat_or, whole]
  rfl

end Segment

/-- The word of the id, with the flags that were written over its two highest bits. -/
def UnitTold.word (u : UnitTold) : BitVec 64 :=
  match u.single with
  | none => u.workShareId
  | some isExecutor => Segment.singleField.put u.workShareId (if isExecutor then 2 else 1)

def Told.kept (t : Told) (marker : Bool) : Contents where
  type := t.tag.code.toNat % 4
  marker := marker
  taskwaited := t.taskwaited
  taskGroupSync := t.taskGroupSync
  taskcreate := t.taskcreate
  loopCount := t.loopCount
  phase := t.phase
  taskwait := t.taskwait
  span := t.span
  offset := t.offset % 2 ^ 16
  taskGroupId := t.taskGroupId
  taskGroupLevel := t.taskGroupLevel
  workShareId := t.unit.map UnitTold.word

/-- The phases of the taskwaits since the last call of `setTaskGroupPhase`, the latest one first. -/
def SegmentCall.follow (phases : List Nat) : SegmentCall → List Nat
  | base (.setTaskwaitPhase phase) => phase :: phases
  | base (.setTaskGroupPhase _) => []
  | _ => phases

/-- What the words of a segment hold of what it has been told. -/
structure Remembers (t : Told) (phases : List Nat) (s : Segment) : Prop where
  contents : ∃ marker, s.contents = t.kept marker ∧
    ∀ u, t.unit = some u → marker = u.isPlaceHolder ∨ marker = u.isSection
  taskwaitPhase : s.getTaskwaitPhase = merged phases
  latest : phases ≠ [] → t.taskwaitPhase ∈ phases

section Steps

variable {t t' : Told} {phases : List Nat} {s s' : Segment}

theorem Remembers.own (stored : Remembers t phases s) (order : s'.orderSecVal = s.orderSecVal) (unit : t'.unit = t.unit)
    (phase : t'.taskwaitPhase = t.taskwaitPhase)
    (contents : ∀ marker, s.contents = t.kept marker → s'.contents = t'.kept marker) : Remembers t' phases s' := by
  obtain ⟨marker, same, shared⟩ := stored.contents
  refine ⟨⟨marker, contents marker same, ?_⟩, ?_, ?_⟩
  · rw [unit]
    exact shared
  · rw [← stored.taskwaitPhase, Segment.getTaskwaitPhase, order]
    rfl
  · rw [phase]
    exact stored.latest

/-- The flags and the type of a workshare segment end up in one bit. -/
theorem Remembers.mark (stored : Remembers t phases s) {marker : Bool} (kept : t'.kept marker = t.kept marker)
    (phase : t'.taskwaitPhase = t.taskwaitPhase)
    (shared : ∀ u, t'.unit = some u → marker = u.isPlaceHolder ∨ marker = u.isSection) :
    Remembers t' phases (s.setWorkShareType marker) := by
  obtain ⟨before, same, -⟩ := stored.contents
  refine ⟨⟨marker, ?_, shared⟩, ?_, ?_⟩
  · rw [s.contents_setWorkShareType, same, kept]
    rfl
  · rw [← stored.taskwaitPhase, Segment.setWorkShareType_eq]
    rfl
  · rw [phase]
    exact stored.latest

theorem Remembers.apply_base (stored : Remembers t phases s) (call : BaseCall) :
    ∃ s', call.apply s = .ok s' ∧ Remembers (call.tell t) ((SegmentCall.base call).follow phases) s' := by
  cases call with
  | setOffsetSpan offset span =>
    refine ⟨_, rfl, stored.own rfl rfl rfl ?_⟩
    intro marker same
    rw [s.contents_setOffsetSpan, same, Nat.mod_eq_of_lt span.isLt]
    rfl
  | setTaskwait taskwait =>
    refine ⟨_, (s.setTaskwait_eq taskwait).trans (if_pos taskwait.isLt), stored.own rfl rfl rfl ?_⟩
    intro marker same
    rw [s.contents_write_taskwait taskwait.isLt, same]
    rfl
  | setTaskcreate taskcreate =>
    refine ⟨_, (s.setTaskcreate_eq taskcreate).trans (if_pos taskcreate.isLt), stored.own rfl rfl rfl ?_⟩
    intro marker same
    rw [s.contents_write_taskcreate taskcreate.isLt, same]
    rfl
  | setPhase phase =>
    refine ⟨_, (s.setPhase_eq phase).trans (if_pos phase.isLt), stored.own rfl rfl rfl ?_⟩
    intro marker same
    rw [s.contents_write_phase phase.isLt, same]
    rfl
  | setLoopCount loopCount =>
    refine ⟨_, (s.setLoopCount_eq loopCount).trans (if_pos loopCount.isLt), stored.own rfl rfl rfl ?_⟩
    intro marker same
    rw [s.contents_write_loopCount loopCount.isLt, same]
    rfl
  | setTaskGroupId taskGroupId =>
    refine ⟨_, rfl, stored.own rfl rfl rfl ?_⟩
    intro marker same
    rw [s.contents_setTaskGroupId, same, Nat.mod_eq_of_lt taskGroupId.isLt]
    rfl
  | setTaskGroupLevel taskGroupLevel =>
    refine ⟨_, rfl, stored.own rfl rfl rfl ?_⟩
    intro marker same
    rw [s.contents_setTaskGroupLevel, same, Nat.mod_eq_of_lt taskGroupLevel.isLt]
    rfl
  | setTaskGroupPhase phase =>
    exact ⟨_, rfl, stored.contents, s.taskwaitPhase_setTaskGroupPhase phase, fun some => absurd rfl some⟩
  | setTaskwaitPhase phase =>
    refine ⟨_, rfl, stored.contents, ?_, fun _ => List.mem_cons_self ..⟩
    rw [s.taskwaitPhase_setTaskwaitPhase phase.isLt, stored.taskwaitPhase, Nat.or_comm]
    rfl
  | setTaskwaited =>
    refine ⟨_, rfl, stored.own rfl rfl rfl ?_⟩
    intro marker same
    rw [s.contents_setTaskwaited, same]
    rfl
  | setTaskGroupSync =>
    refine ⟨_, rfl, stored.own rfl rfl rfl ?_⟩
    intro marker same
    rw [s.contents_setTaskGroupSync, same]
    rfl

theorem Remembers.apply (stored : Remembers t phases s) {call : SegmentCall}
    (suits : t.unit = none → ∃ c, call = .base c) :
    ∃ s', call.apply s = .ok s' ∧ Remembers (call.tell t) (call.follow phases) s' := by
  cases call with
  | base call => exact stored.apply_base call
  | setPlaceHolderFlag toggle =>
    refine ⟨s.setWorkShareType toggle, congrArg _ (s.setPlaceHolderFlag_eq toggle), stored.mark ?_ rfl ?_⟩
    · cases unit : t.unit <;> simp [Told.kept, SegmentCall.tell, unit, UnitTold.word]
    · intro u told
      obtain ⟨u', -, rfl⟩ := Option.map_eq_some_iff.mp told
      exact .inl rfl
  | setWorkShareType isSection =>
    refine ⟨_, rfl, stored.mark ?_ rfl ?_⟩
    · cases unit : t.unit <;> simp [Told.kept, SegmentCall.tell, unit, UnitTold.word]
    · intro u told
      obtain ⟨u', -, rfl⟩ := Option.map_eq_some_iff.mp told
      exact .inr rfl
  | setSingleFlag isExecutor =>
    obtain ⟨marker, same, shared⟩ := stored.contents
    match unit : t.unit with
    | none =>
      obtain ⟨c, other⟩ := suits unit
      cases other
    | some u =>
      have word : s.workShareId = some u.word := by
        have read := congrArg Contents.workShareId same
        rwa [Told.kept, unit] at read
      refine ⟨_, rfl, ⟨marker, ?_, ?_⟩, stored.taskwaitPhase, stored.latest⟩
      · have written : (s.setSingleFlag isExecutor).contents =
            { s.contents with workShareId := (s.setSingleFlag isExecutor).workShareId } := rfl
        have rewritten : Segment.singleField.put u.word (if isExecutor then 2 else 1) =
            ({ u with single := some isExecutor } : UnitTold).word := by
          rcases u with ⟨holder, isSection, single, id⟩
          cases single with
          | none => rfl
          | some before => exact Field.put_put ..
        rw [written, same, Segment.setSingleFlag_eq, Segment.getWorkShareId, word, Option.getD_some, rewritten]
        simp only [Told.kept, SegmentCall.tell, unit, Option.map_some]
      · intro u' told
        simp only [SegmentCall.tell, unit, Option.map_some, Option.some.injEq] at told
        subst told
        exact shared u unit

/-- Every call keeps what is stored in step with what has been told, and so does the run. -/
theorem Remembers.run {calls : List SegmentCall} (stored : Remembers t phases s)
    (suit : t.unit = none → ∀ call ∈ calls, ∃ c, call = .base c) :
    ∃ s', s.runCalls calls = .ok s' ∧
      Remembers (calls.foldl SegmentCall.tell t) (calls.foldl SegmentCall.follow phases) s' := by
  induction calls generalizing t phases s with
  | nil => exact ⟨s, rfl, stored⟩
  | cons call calls ih =>
    obtain ⟨next, applied, now⟩ := stored.apply fun none => suit none call (List.mem_cons_self ..)
    have still : (call.tell t).unit = none → t.unit = none := by
      cases call with
      | base call => cases call <;> exact id
      | _ => exact Option.map_eq_none_iff.mp
    obtain ⟨s', ran, done⟩ := ih now fun none c member => suit (still none) c (List.mem_cons_of_mem _ member)
    refine ⟨s', ?_, done⟩
    rw [Segment.runCalls, applied]
    exact ran

end Steps

theorem contents_tag (tag : SegmentTag) : ∃ marker, (⟨0 ||| tag.code, 0, 0, none⟩ : Segment).contents =
    ⟨tag.code.toNat % 4, marker, false, false, 0, 0, 0, 0, 0, 0, 0, 0, none⟩ := by
  cases tag with
  | eError => exact ⟨true, by decide⟩
  | of type => exact ⟨false, by cases type <;> decide⟩

theorem contents_withId (s : Segment) (id : Option (BitVec 64)) :
    ({ s with workShareId := id } : Segment).contents = { s.contents with workShareId := id } := rfl

theorem contents_workShare :
    Segment.workShare.contents = ⟨3, false, false, false, 0, 0, 0, 0, 1, 0, 0, 0, some 0⟩ := by
  decide

theorem taskwaitPhase_zero {s : Segment} (unset : s.orderSecVal = 0) : s.getTaskwaitPhase = 0 := by
  rw [Segment.getTaskwaitPhase, unset]
  rfl

theorem contents_workShareUnit (id : BitVec 64) (isSection : Bool) :
    (Segment.workShareUnit id isSection).contents =
      ⟨3, isSection, false, false, 0, 0, 0, 0, 1, 0, 0, 0, some id⟩ := by
  have blank : (Segment.setType ⟨0, 0, 0, none⟩ .eWorkShare).contents =
      ⟨3, false, false, false, 0, 0, 0, 0, 0, 0, 0, 0, none⟩ := by decide
  have tagged := contents_withId (Segment.setType ⟨0, 0, 0, none⟩ .eWorkShare) (some id)
  rw [blank] at tagged
  rw [Segment.workShareUnit, Segment.contents_setOffsetSpan, Segment.contents_setWorkShareType]
  exact congrArg (fun c : Contents => { c with marker := isSection, offset := 0, span := 1 }) tagged

namespace SegmentUse

def waitPhases (u : SegmentUse) : List Nat := u.calls.foldl SegmentCall.follow []

theorem stored_made (u : SegmentUse) : ∃ s, u.made = .ok s ∧ Remembers u.first [] s := by
  have none : ∀ phase : Nat, [] ≠ ([] : List Nat) → phase ∈ [] := fun _ some => absurd rfl some
  cases u with
  | base tag offset span calls =>
    obtain ⟨marker, blank⟩ := contents_tag tag
    refine ⟨_, if_pos span.isLt, ⟨marker, ?_, fun u told => by cases told⟩, taskwaitPhase_zero rfl, none _⟩
    rw [Segment.contents_setOffsetSpan, blank, Nat.mod_eq_of_lt span.isLt]
    rfl
  | workShare calls =>
    refine ⟨_, rfl, ⟨false, contents_workShare, fun u told => ?_⟩, taskwaitPhase_zero rfl, none _⟩
    cases told
    exact .inl rfl
  | workShareUnit id isSection calls =>
    have blank := contents_workShareUnit id isSection
    refine ⟨_, rfl, ⟨isSection, blank, fun u told => ?_⟩, taskwaitPhase_zero rfl, none _⟩
    cases told
    exact .inr rfl

theorem stored_run (u : SegmentUse) : ∃ s, u.run = .ok s ∧ Remembers u.told u.waitPhases s := by
  obtain ⟨s, made, stored⟩ := u.stored_made
  have suit : u.first.unit = none → ∀ call ∈ u.calls, ∃ c, call = .base c := by
    intro plain call member
    cases u with
    | base tag offset span calls =>
      obtain ⟨c, -, same⟩ := List.mem_map.mp member
      exact ⟨c, same.symm⟩
    | _ => cases plain
  obtain ⟨s', ran, done⟩ := stored.run suit
  refine ⟨s', ?_, done⟩
  rw [run, made]
  exact ran

end SegmentUse

def singleBits : Option Bool → Nat
  | none => 0
  | some false => 1
  | some true => 2

/-- Nothing that a setter was told is lost to another one that writes the same bits. -/
structure Told.Apart (t : Told) (phases : List Nat) : Prop where
  tag : t.tag ≠ .eError
  offset : t.offset < 2 ^ 16
  taskGroup : t.taskGroupPhase = t.taskGroupId
  within : ∀ phase ∈ phases, phase ||| t.taskwaitPhase = t.taskwaitPhase
  dropped : phases = [] → t.taskwaitPhase = 0
  marker : ∀ u, t.unit = some u → u.isPlaceHolder = u.isSection
  single : ∀ u, t.unit = some u → (u.workShareId >>> 62).toNat = singleBits u.single

theorem singleField_get (word : BitVec 64) : Segment.singleField.get word = (word >>> 62).toNat :=
  have top : Segment.singleField.lo + Segment.singleField.width = 64 := rfl
  Field.get_top _ top word

section Getters

variable {t : Told} {phases : List Nat} {s : Segment}

theorem Remembers.getType_iff (stored : Remembers t phases s) :
    (∃ type, t.tag = .of type ∧ s.getType = .ok type) ↔ t.tag ≠ .eError := by
  obtain ⟨marker, same, -⟩ := stored.contents
  have type : s.contents.type = t.tag.code.toNat % 4 := by rw [same, Told.kept]
  rw [s.getType_contents, type]
  cases tag : t.tag with
  | eError => simp
  | of type => cases type <;> simp [SegmentTag.code, SegmentType.code]

theorem reads_single_iff {u : UnitTold} (word : s.workShareId = some u.word) :
    (s.isSingleExecutor = decide (u.single = some true) ∧ s.isSingleOther = decide (u.single = some false) ∧
      s.getWorkShareId = u.workShareId) ↔ (u.workShareId >>> 62).toNat = singleBits u.single := by
  have small : Segment.singleField.get u.workShareId < 4 := Field.get_lt _ _
  rw [s.isSingleExecutor_get, s.isSingleOther_get, Segment.getWorkShareId, word, Option.getD_some, UnitTold.word,
    ← singleField_get]
  cases u.single with
  | none =>
    simp only [reduceCtorEq, decide_false, decide_eq_false_iff_not, and_true, singleBits]
    omega
  | some isExecutor =>
    have flags : Segment.singleField.get (Segment.singleField.put u.workShareId (if isExecutor then 2 else 1)) =
        if isExecutor then 2 else 1 := by
      rw [Field.get_put _ (by decide)]
      cases isExecutor <;> rfl
    rw [flags, Field.put_eq_self_iff _ (by decide) _ (by cases isExecutor <;> decide)]
    cases isExecutor <;> simp [singleBits]

theorem Remembers.unit_iff (stored : Remembers t phases s) : (∀ u, t.unit = some u → s.ReadsUnit u) ↔
    (∀ u, t.unit = some u → u.isPlaceHolder = u.isSection) ∧
    ∀ u, t.unit = some u → (u.workShareId >>> 62).toNat = singleBits u.single := by
  obtain ⟨marker, same, shared⟩ := stored.contents
  have isSection : s.isSection = marker := congrArg Contents.marker same
  have holder : s.isPlaceHolder = marker := s.isPlaceHolder_eq_isSection.trans isSection
  have word : ∀ u, t.unit = some u → s.workShareId = some u.word := by
    intro u told
    have read := congrArg Contents.workShareId same
    rwa [Told.kept, told] at read
  constructor
  · intro reads
    refine ⟨fun u told => ?_, fun u told => ?_⟩
    · rw [← (reads u told).isPlaceHolder, ← (reads u told).isSection, holder, isSection]
    · obtain ⟨-, -, executor, other, id⟩ := reads u told
      exact (reads_single_iff (word u told)).mp ⟨executor, other, id⟩
  · rintro ⟨markers, singles⟩ u told
    obtain ⟨executor, other, id⟩ := (reads_single_iff (word u told)).mpr (singles u told)
    have both := markers u told
    rcases shared u told with here | here
    · exact ⟨holder.trans here, isSection.trans (here.trans both), executor, other, id⟩
    · exact ⟨holder.trans (here.trans both.symm), isSection.trans here, executor, other, id⟩

theorem Remembers.reads_iff (stored : Remembers t phases s) : s.Reads t ↔ t.Apart phases := by
  obtain ⟨marker, same, -⟩ := stored.contents
  have offset : s.getOffset = t.offset % 2 ^ 16 := congrArg Contents.offset same
  have id : s.getTaskGroupId = t.taskGroupId := congrArg Contents.taskGroupId same
  have phase := stored.taskwaitPhase ▸ merged_eq_iff stored.latest
  constructor
  · intro reads
    obtain ⟨within, dropped⟩ := phase.mp reads.getTaskwaitPhase
    obtain ⟨markers, singles⟩ := stored.unit_iff.mp reads.unit
    refine ⟨stored.getType_iff.mp reads.getType, ?_, ?_, within, dropped, markers, singles⟩
    · have read := reads.getOffset
      omega
    · rw [← reads.getTaskGroupPhase, s.getTaskGroupPhase_eq, id]
  · intro apart
    exact
      { getType := stored.getType_iff.mpr apart.tag
        getOffset := by rw [offset, Nat.mod_eq_of_lt apart.offset]
        getSpan := congrArg Contents.span same
        getTaskwait := congrArg Contents.taskwait same
        getTaskcreate := congrArg Contents.taskcreate same
        getPhase := congrArg Contents.phase same
        getLoopCount := congrArg Contents.loopCount same
        getTaskGroupId := id
        getTaskGroupLevel := congrArg Contents.taskGroupLevel same
        getTaskGroupPhase := by rw [s.getTaskGroupPhase_eq, id, apart.taskGroup]
        getTaskwaitPhase := phase.mpr ⟨apart.within, apart.dropped⟩
        isTaskwaited := congrArg Contents.taskwaited same
        isTaskGroupSync := congrArg Contents.taskGroupSync same
        unit := stored.unit_iff.mpr ⟨apart.marker, apart.single⟩ }

end Getters

/-- Every getter returns what its own setter was last told exactly when no other setter got in between. -/
theorem segment_reads_iff (u : SegmentUse) :
    (∃ s, u.run = .ok s ∧ s.Reads u.told) ↔ u.told.Apart u.waitPhases := by
  obtain ⟨s, ran, stored⟩ := u.stored_run
  rw [← stored.reads_iff, ran]
  simp only [Except.ok.injEq, exists_eq_left']

/-- A phase read from the word of another field, a phase that another one clears, a section that is a
    place holder, and an iteration that is a single executor. -/
theorem segment_fields_collide :
    (¬∃ s, (SegmentUse.base (.of .eExplicit) 0 1 [.setTaskGroupPhase 2]).run = .ok s ∧
      s.Reads (SegmentUse.base (.of .eExplicit) 0 1 [.setTaskGroupPhase 2]).told) ∧
    (¬∃ s, (SegmentUse.base (.of .eExplicit) 0 1 [.setTaskwaitPhase 1, .setTaskGroupPhase 0]).run = .ok s ∧
      s.Reads (SegmentUse.base (.of .eExplicit) 0 1 [.setTaskwaitPhase 1, .setTaskGroupPhase 0]).told) ∧
    (¬∃ s, (SegmentUse.workShareUnit 5 true []).run = .ok s ∧
      s.Reads (SegmentUse.workShareUnit 5 true []).told) ∧
    ¬∃ s, (SegmentUse.workShareUnit (-1) false []).run = .ok s ∧
      s.Reads (SegmentUse.workShareUnit (-1) false []).told := by
  refine ⟨?_, ?_, ?_, ?_⟩
  · rintro ⟨s, ran, reads⟩
    cases ran
    exact absurd reads.getTaskGroupPhase (by decide)
  · rintro ⟨s, ran, reads⟩
    cases ran
    exact absurd reads.getTaskwaitPhase (by decide)
  · rintro ⟨s, ran, reads⟩
    cases ran
    exact absurd (reads.unit _ rfl).isPlaceHolder (by decide)
  · rintro ⟨s, ran, reads⟩
    cases ran
    exact absurd (reads.unit _ rfl).isSingleExecutor (by decide)

end Romp
