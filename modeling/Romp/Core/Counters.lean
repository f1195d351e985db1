import Romp.Bits.Counter
import Romp.Core.Shift
import Romp.Label.Version

open Bits

namespace Romp

def barriers (h : Heap) (label : Label) : Nat → Except Abort (Heap × Label)
  | 0 => .ok (h, label)
  | n + 1 => do
    let (h, label) ← barriers h label n
    mutateBarrierEnd h label

def taskGroups (h : Heap) (label : Label) : Nat → Except Abort (Heap × Label)
  | 0 => .ok (h, label)
  | n + 1 => do
    let (h, label) ← taskGroups h label n
    let (h, label) ← mutateTaskGroupBegin h label
    mutateTaskGroupEnd h label

def insideTaskGroup (h : Heap) (label : Label) (n : Nat) : Except Abort (Heap × Label) := do
  let (h, label) ← taskGroups h label n
  mutateTaskGroupBegin h label

theorem mutateBarrierEnd_read (h : Heap) (rest : Label) (r m : Nat) :
    ∃ s, mutateBarrierEnd h (rest ++ [r, m]) = .ok ((h.alloc s).1, rest ++ [h.next, m]) ∧
      s.contents = { (h.objects r).contents with
        offset := ((h.objects r).getOffset + (h.objects r).getSpan) % 2 ^ 16 } := by
  have second : Label.getLastKthSegment (rest ++ [r, m]) 2 = .ok r := by
    simp [Label.getLastKthSegment]
  have replaced : Label.setLastKthSegment (rest ++ [r, m]) 2 h.next = .ok (rest ++ [h.next, m]) := by
    simp [Label.setLastKthSegment]
  refine ⟨(h.objects r).setOffsetSpan ((h.objects r).getOffset + (h.objects r).getSpan) (h.objects r).getSpan,
    ?_, ?_⟩
  · rw [mutateBarrierEnd, second]
    change ((Label.setLastKthSegment (rest ++ [r, m]) 2 h.next).bind _) = _
    rw [replaced]
    rfl
  · rw [Segment.contents_setOffsetSpan, Nat.mod_eq_of_lt (getSpan_lt _)]
    rfl

/-- After `n` barriers the segment before the last one has been bumped `n` times, modulo 2^16, and
    the rest of the label is as it was. -/
theorem barriers_read {h : Heap} {rest : Label} {r m : Nat} (holds : h.Holds (rest ++ [r, m])) (n : Nat) :
    ∃ h' r', barriers h (rest ++ [r, m]) n = .ok (h', rest ++ [r', m]) ∧ h.Extends h' ∧ r' < h'.next ∧
      (h'.objects r').contents = { (h.objects r).contents with
        offset := ((h.objects r).getOffset + n * (h.objects r).getSpan) % 2 ^ 16 } := by
  induction n with
  | zero =>
    have there : r < h.next := holds r (by simp)
    refine ⟨h, r, rfl, Heap.Extends.refl h, there, ?_⟩
    rw [Nat.zero_mul, Nat.add_zero, Nat.mod_eq_of_lt (getOffset_lt _)]
    rfl
  | succ n ih =>
    obtain ⟨h', r', ran, extend, there, contents⟩ := ih
    obtain ⟨s, called, bumped⟩ := mutateBarrierEnd_read h' rest r' m
    refine ⟨(h'.alloc s).1, h'.next, ?_, extend.trans (h'.alloc_extends s), Nat.lt_succ_self _, ?_⟩
    · rw [barriers, ran]
      exact called
    · have offset : (h'.objects r').getOffset =
          ((h.objects r).getOffset + n * (h.objects r).getSpan) % 2 ^ 16 := congrArg Contents.offset contents
      have span : (h'.objects r').getSpan = (h.objects r).getSpan := congrArg Contents.span contents
      rw [Heap.alloc_read, bumped, contents, offset, span, Nat.mod_add_mod, Nat.succ_mul, Nat.add_assoc]

/-- Two versions of an implicit segment, the later one further on in steps of the span: whatever
    follows them in the labels, the one is ordered before the other. -/
theorem happensBefore_advanced {p : List Segment} {x y : Segment} (implicit : x.getType = .ok .eImplicit)
    (implicit' : y.getType = .ok .eImplicit) (span : x.getSpan = y.getSpan)
    (residue : x.getOffset % x.getSpan = y.getOffset % x.getSpan) (less : x.getOffset < y.getOffset)
    (hist cur : List Segment) : happensBefore (p ++ x :: hist) (p ++ y :: cur) = .ok true := by
  have differ : x.equals y = false := by
    by_contra same
    have words := ((x.equals_iff y).mp (by simpa using same)).1
    have offsets : x.getOffset = y.getOffset := congrArg Contents.offset words
    omega
  rw [happensBefore_diff (SameStretch.refl p) differ, happensBeforeAt]
  change (if x.getSpan ≠ y.getSpan then _ else if x.getSpan = 1 then _ else _ : Except Abort Bool) = _
  rw [if_neg (not_not.mpr span)]
  by_cases single : x.getSpan = 1
  · rw [if_pos single, implicit, implicit']
    change (if x.getOffset < y.getOffset then _ else _ : Except Abort Bool) = _
    rw [if_pos less]
  · have apart : x.getOffset ≠ y.getOffset := by omega
    rw [if_neg single, if_pos apart, if_pos residue, if_pos less]

def bumpedSegment (h : Heap) (label : Label) : Except Abort Segment := do
  .ok (h.objects (← label.getLastKthSegment 2))

/-- Up to `n` barriers: the bumped segment keeps its place in the team and moves on, and the order
    of the task's own accesses and of a fellow member's accesses before it is the order in time. -/
def BarriersKeepOrder (h : Heap) (label fellow : Label) (n : Nat) : Prop :=
  ∀ i j, i < j → j ≤ n → ∃ hi Li hj Lj hf Lf si sj,
    barriers h label i = .ok (hi, Li) ∧ barriers h label j = .ok (hj, Lj) ∧
    barriers h fellow i = .ok (hf, Lf) ∧ bumpedSegment hi Li = .ok si ∧ bumpedSegment hj Lj = .ok sj ∧
    si.getOffset % si.getSpan = sj.getOffset % sj.getSpan ∧ si.getOffset < sj.getOffset ∧
    happensBefore (hi.read Li) (hj.read Lj) = .ok true ∧ happensBefore (hf.read Lf) (hj.read Lj) = .ok true

def taskGroupId (h : Heap) (label : Label) (n : Nat) : Except Abort Nat := do
  let (h, label) ← insideTaskGroup h label n
  .ok (h.objects (← label.getLastKthSegment 1)).getTaskGroupId

/-- Among `n` taskgroups of a task, a later one has a larger identifier. -/
def TaskGroupsIncrease (h : Heap) (label : Label) (n : Nat) : Prop :=
  ∀ i j, i < j → j < n → ∃ idI idJ, taskGroupId h label i = .ok idI ∧ taskGroupId h label j = .ok idJ ∧
    idI < idJ

theorem mutateLast_read (f : Segment → Except Abort Segment) (h : Heap) (rest : Label) (r : Nat) {s : Segment}
    (changed : f (h.objects r) = .ok s) :
    mutateLast f h (rest ++ [r]) = .ok ((h.alloc s).1, rest ++ [h.next]) := by
  simp only [mutateLast, Label.popSegment, List.getLast?_concat, List.dropLast_concat, changed, bind,
    Except.bind, Heap.alloc]

theorem mutateTaskGroupBegin_read (h : Heap) (rest : Label) (r : Nat) :
    ∃ s, mutateTaskGroupBegin h (rest ++ [r]) = .ok ((h.alloc s).1, rest ++ [h.next]) ∧
      s.getTaskGroupId = ((h.objects r).getTaskGroupId + 1) % 2 ^ 16 := by
  refine ⟨_, mutateLast_read _ h rest r rfl, ?_⟩
  have contents := (h.objects r).contents_setTaskGroupId ((h.objects r).getTaskGroupId + 1)
  have level := ((h.objects r).setTaskGroupId ((h.objects r).getTaskGroupId + 1)).contents_setTaskGroupLevel
    ((h.objects r).getTaskGroupLevel + 1)
  rw [contents] at level
  exact congrArg Contents.taskGroupId level

theorem mutateTaskGroupEnd_read (h : Heap) (rest : Label) (r : Nat) :
    ∃ s, mutateTaskGroupEnd h (rest ++ [r]) = .ok ((h.alloc s).1, rest ++ [h.next]) ∧
      s.getTaskGroupId = ((h.objects r).getTaskGroupId + 1) % 2 ^ 16 := by
  refine ⟨_, mutateLast_read _ h rest r rfl, ?_⟩
  have contents := (h.objects r).contents_setTaskGroupId ((h.objects r).getTaskGroupId + 1)
  have level := ((h.objects r).setTaskGroupId ((h.objects r).getTaskGroupId + 1)).contents_setTaskGroupLevel
    ((h.objects r).getTaskGroupLevel + (2 ^ 16 - 1))
  rw [contents] at level
  exact congrArg Contents.taskGroupId level

/-- Each taskgroup takes two identifiers, one at its begin and one at its end. -/
theorem taskGroups_read (h : Heap) (rest : Label) (r n : Nat) :
    ∃ h' r', taskGroups h (rest ++ [r]) n = .ok (h', rest ++ [r']) ∧
      (h'.objects r').getTaskGroupId = ((h.objects r).getTaskGroupId + n * 2) % 2 ^ 16 := by
  induction n with
  | zero =>
    have small : (h.objects r).getTaskGroupId < 2 ^ 16 := by
      rw [Segment.getTaskGroupId_get]
      exact Segment.taskGroupIdField.get_lt _
    refine ⟨h, r, rfl, ?_⟩
    rw [Nat.zero_mul, Nat.add_zero, Nat.mod_eq_of_lt small]
  | succ n ih =>
    obtain ⟨h₁, r₁, ran, id⟩ := ih
    obtain ⟨s, begun, idBegun⟩ := mutateTaskGroupBegin_read h₁ rest r₁
    obtain ⟨s', ended, idEnded⟩ := mutateTaskGroupEnd_read (h₁.alloc s).1 rest h₁.next
    refine ⟨((h₁.alloc s).1.alloc s').1, (h₁.alloc s).1.next, ?_, ?_⟩
    · rw [taskGroups, ran]
      change (mutateTaskGroupBegin h₁ (rest ++ [r₁])).bind _ = _
      rw [begun]
      exact ended
    · rw [Heap.alloc_read, idEnded, Heap.alloc_read, idBegun, id]
      omega

theorem taskGroupId_read (h : Heap) (rest : Label) (r n : Nat) :
    taskGroupId h (rest ++ [r]) n = .ok ((((h.objects r).getTaskGroupId + 1) % 2 ^ 16 + n * 2) % 2 ^ 16) := by
  obtain ⟨h₁, r₁, ran, id⟩ := taskGroups_read h rest r n
  obtain ⟨s, begun, idBegun⟩ := mutateTaskGroupBegin_read h₁ rest r₁
  have last : Label.getLastKthSegment (rest ++ [h₁.next]) 1 = .ok h₁.next := by
    simp [Label.getLastKthSegment]
  have inside : insideTaskGroup h (rest ++ [r]) n = .ok ((h₁.alloc s).1, rest ++ [h₁.next]) := by
    rw [insideTaskGroup, ran]
    exact begun
  rw [taskGroupId, inside]
  change (Label.getLastKthSegment (rest ++ [h₁.next]) 1).bind _ = _
  rw [last]
  change Except.ok ((h₁.alloc s).1.objects h₁.next).getTaskGroupId = _
  rw [Heap.alloc_read, idBegun, id]
  congr 1
  omega

theorem bumpedSegment_read (h : Heap) (rest : Label) (r m : Nat) :
    bumpedSegment h (rest ++ [r, m]) = .ok (h.objects r) := by
  have second : Label.getLastKthSegment (rest ++ [r, m]) 2 = .ok r := by
    simp [Label.getLastKthSegment]
  rw [bumpedSegment, second]
  rfl

theorem happensBefore_bumped {base x y : Segment} {i j : Nat} (implicit : base.getType = .ok .eImplicit)
    (earlier : x.contents = { base.contents with offset := base.getOffset + i * base.getSpan })
    (later : y.contents = { base.contents with offset := base.getOffset + j * base.getSpan })
    (less : i * base.getSpan < j * base.getSpan) (p hist cur : List Segment) :
    x.getOffset % x.getSpan = y.getOffset % y.getSpan ∧ x.getOffset < y.getOffset ∧
      happensBefore (p ++ x :: hist) (p ++ y :: cur) = .ok true := by
  have offset : x.getOffset = base.getOffset + i * base.getSpan := congrArg Contents.offset earlier
  have offset' : y.getOffset = base.getOffset + j * base.getSpan := congrArg Contents.offset later
  have span : x.getSpan = base.getSpan := congrArg Contents.span earlier
  have span' : y.getSpan = base.getSpan := congrArg Contents.span later
  have residue : x.getOffset % x.getSpan = y.getOffset % x.getSpan := by
    rw [offset, offset', span, counter_residue, counter_residue]
  have grows : x.getOffset < y.getOffset := by omega
  have kind : x.contents.type = base.contents.type := by rw [earlier]
  have kind' : y.contents.type = base.contents.type := by rw [later]
  have type : x.getType = .ok .eImplicit := (getType_of_contents kind).trans implicit
  have type' : y.getType = .ok .eImplicit := (getType_of_contents kind').trans implicit
  refine ⟨?_, grows, happensBefore_advanced type type' (span.trans span'.symm) residue grows hist cur⟩
  rw [residue, span, span']

section Members

variable {h : Heap} {rest : Label} {r m m' : Nat}

/-- The barriers of two members of a team that an implicit task has opened keep the order exactly
    as long as the offset of that task's segment does not wrap. -/
theorem barriersKeepOrder_iff (holds : h.Holds (rest ++ [r, m])) (holds' : h.Holds (rest ++ [r, m']))
    (implicit : (h.objects r).getType = .ok .eImplicit) (positive : 0 < (h.objects r).getSpan) (n : Nat) :
    BarriersKeepOrder h (rest ++ [r, m]) (rest ++ [r, m']) n ↔
      (h.objects r).getOffset + n * (h.objects r).getSpan < 2 ^ 16 := by
  have start := getOffset_lt (h.objects r)
  have narrow := Nat.le_of_lt (getSpan_lt (h.objects r))
  have held : h.Holds rest := fun x member => holds x (List.mem_append_left _ member)
  constructor
  · intro order
    apply (counter_increasing_iff start positive narrow n).mp
    intro i j less bound
    obtain ⟨hi, Li, hj, Lj, hf, Lf, si, sj, ranI, ranJ, -, segmentI, segmentJ, -, grows, -⟩ :=
      order i j less bound
    obtain ⟨hi', ri, ranI', -, -, contentsI⟩ := barriers_read holds i
    obtain ⟨hj', rj, ranJ', -, -, contentsJ⟩ := barriers_read holds j
    rw [ranI] at ranI'
    rw [ranJ] at ranJ'
    cases ranI'
    cases ranJ'
    rw [bumpedSegment_read] at segmentI segmentJ
    cases segmentI
    cases segmentJ
    have offsetI := congrArg Contents.offset contentsI
    have offsetJ := congrArg Contents.offset contentsJ
    change (hi.objects ri).getOffset = _ at offsetI
    change (hj.objects rj).getOffset = _ at offsetJ
    rw [offsetI, offsetJ] at grows
    exact grows
  · intro room i j less bound
    have grows := (counter_increasing_iff start positive narrow n).mpr room i j less bound
    obtain ⟨hi, ri, ranI, extendI, thereI, contentsI⟩ := barriers_read holds i
    obtain ⟨hj, rj, ranJ, extendJ, thereJ, contentsJ⟩ := barriers_read holds j
    obtain ⟨hf, rf, ranF, extendF, thereF, contentsF⟩ := barriers_read holds' i
    have product : j * (h.objects r).getSpan ≤ n * (h.objects r).getSpan := Nat.mul_le_mul_right _ bound
    have shorter : i * (h.objects r).getSpan < j * (h.objects r).getSpan :=
      Nat.mul_lt_mul_of_pos_right less positive
    rw [Nat.mod_eq_of_lt (by omega)] at contentsI contentsJ contentsF
    have front (hk : Heap) (extend : h.Extends hk) (x y : Nat) :
        hk.read (rest ++ [x, y]) = h.read rest ++ hk.objects x :: [hk.objects y] := by
      rw [Heap.read_append, held.read extend]
      rfl
    have own := happensBefore_bumped implicit contentsI contentsJ shorter (h.read rest) [hi.objects m] [hj.objects m]
    have other := happensBefore_bumped implicit contentsF contentsJ shorter (h.read rest) [hf.objects m']
      [hj.objects m]
    refine ⟨hi, _, hj, _, hf, _, _, _, ranI, ranJ, ranF, bumpedSegment_read .., bumpedSegment_read ..,
      own.1, own.2.1, ?_, ?_⟩
    · rw [front hi extendI, front hj extendJ]
      exact own.2.2
    · rw [front hf extendF, front hj extendJ]
      exact other.2.2

end Members

/-- The identifiers of `n` taskgroups grow exactly as long as the last one does not wrap. -/
theorem taskGroupsIncrease_iff (h : Heap) (rest : Label) (r n : Nat) :
    TaskGroupsIncrease h (rest ++ [r]) n ↔
      ((h.objects r).getTaskGroupId + 1) % 2 ^ 16 + (n - 1) * 2 < 2 ^ 16 := by
  have small : ((h.objects r).getTaskGroupId + 1) % 2 ^ 16 < 2 ^ 16 := Nat.mod_lt _ (by decide)
  rw [← counter_increasing_iff small Nat.two_pos (by decide) (n - 1)]
  constructor
  · intro increase i j less bound
    obtain ⟨idI, idJ, readI, readJ, grows⟩ := increase i j less (by omega)
    rw [taskGroupId_read] at readI readJ
    cases readI
    cases readJ
    exact grows
  · intro increasing i j less bound
    exact ⟨_, _, taskGroupId_read .., taskGroupId_read .., increasing i j less (by omega)⟩

theorem genImpTaskLabel_ok {h h' : Heap} {front label : Label} {index span : Nat}
    (made : genImpTaskLabel h front index span = .ok (h', label)) :
    ∃ s, h' = (h.alloc s).1 ∧ label = front ++ [h.next] ∧ s.contents =
      ⟨SegmentType.eImplicit.code.toNat, false, false, false, 0, 0, 0, 0, span, index % 2 ^ 16, 0, 0, none⟩ := by
  unfold genImpTaskLabel at made
  obtain ⟨s, based, made⟩ := ok_of_bind made
  cases made
  have small : span < 2 ^ 16 := by
    unfold Segment.base at based
    split at based
    · assumption
    · cases based
  obtain ⟨s', based', contents⟩ := Segment.base_contents .eImplicit index small
  rw [based] at based'
  cases based'
  exact ⟨s, rfl, rfl, contents⟩

theorem Heap.Holds.cons_last {h : Heap} {label : Label} (holds : h.Holds label) (s : Segment) :
    (h.alloc s).1.Holds (label ++ [h.next]) := by
  intro x member
  rcases List.mem_append.mp member with old | new
  · exact Nat.lt_succ_of_lt (holds x old)
  · rw [List.mem_singleton.mp new]
    exact Nat.lt_succ_self _

/-- Two members of a team of `s`, of a region that a task with the implicit segment `r` encounters, and any
    task with `m` taskgroups: nothing goes wrong exactly as long as neither counter wraps. -/
theorem counters_keep_order_iff {h h₁ h₂ : Heap} {front label fellow : Label} {r p q s : Nat}
    (holds : h.Holds (front ++ [r])) (implicit : (h.objects r).getType = .ok .eImplicit)
    (positive : 0 < (h.objects r).getSpan)
    (made : genImpTaskLabel h (front ++ [r]) p s = .ok (h₁, label))
    (madeFellow : genImpTaskLabel h₁ (front ++ [r]) q s = .ok (h₂, fellow)) (n : Nat) (heap : Heap)
    (rest : Label) (g m : Nat) :
    (BarriersKeepOrder h₂ label fellow n ∧ TaskGroupsIncrease heap (rest ++ [g]) m) ↔
      (h.objects r).getOffset + n * (h.objects r).getSpan < 2 ^ 16 ∧
        ((heap.objects g).getTaskGroupId + 1) % 2 ^ 16 + (m - 1) * 2 < 2 ^ 16 := by
  obtain ⟨m, rfl, rfl, -⟩ := genImpTaskLabel_ok made
  obtain ⟨m', rfl, rfl, -⟩ := genImpTaskLabel_ok madeFellow
  have extend := h.alloc_extends m
  have extend' := (h.alloc m).1.alloc_extends m'
  have same : ((h.alloc m).1.alloc m').1.objects r = h.objects r := (extend.trans extend').2 r (holds r (by simp))
  have held := holds.cons_last m
  have held' := (holds.extend extend).cons_last m'
  rw [List.append_assoc] at held held'
  have order := barriersKeepOrder_iff (held.extend extend') held' (same ▸ implicit) (same ▸ positive) n
  rw [List.append_assoc, List.append_assoc, taskGroupsIncrease_iff]
  rw [same] at order
  exact and_congr_left' order

theorem pairHeap_ok : ∃ h h₁ h₂, genInitTaskLabel Heap.empty = .ok (h, [0]) ∧
    genImpTaskLabel h ([] ++ [0]) 0 2 = .ok (h₁, [0, 1]) ∧ genImpTaskLabel h₁ ([] ++ [0]) 1 2 = .ok (h₂, [0, 2]) ∧
    h.Holds ([] ++ [0]) ∧ (h.objects 0).getType = .ok .eImplicit ∧ (h.objects 0).getSpan = 1 ∧
    (h.objects 0).getOffset = 0 ∧ (h.objects 0).getTaskGroupId = 0 := by
  refine ⟨_, _, _, rfl, rfl, rfl, ?_, rfl, rfl, rfl, rfl⟩
  intro x member
  rw [List.mem_singleton.mp member]
  decide

theorem counters_keep_order_iff_pair : ∃ h h₂ : Heap, BarriersKeepOrder h₂ [0, 1] [0, 2] 5 ∧
    TaskGroupsIncrease h ([] ++ [0]) 5 := by
  obtain ⟨h, h₁, h₂, -, made, madeFellow, holds, implicit, span, offset, id⟩ := pairHeap_ok
  have positive : 0 < (h.objects 0).getSpan := by omega
  refine ⟨h, h₂, (counters_keep_order_iff holds implicit positive made madeFellow 5 h [] 0 5).mpr ?_⟩
  rw [span, offset, id]
  decide

/-- After 2^16 barriers the initial task's segment is back at its first offset. -/
theorem barriers_wrap : ¬ ∀ (h h₁ h₂ : Heap) (front label fellow : Label) (r p q s n : Nat),
    h.Holds (front ++ [r]) → (h.objects r).getType = .ok .eImplicit → 0 < (h.objects r).getSpan →
      genImpTaskLabel h (front ++ [r]) p s = .ok (h₁, label) →
        genImpTaskLabel h₁ (front ++ [r]) q s = .ok (h₂, fellow) → BarriersKeepOrder h₂ label fellow n := by
  intro keeps
  obtain ⟨h, h₁, h₂, -, made, madeFellow, holds, implicit, span, offset, -⟩ := pairHeap_ok
  have positive : 0 < (h.objects 0).getSpan := by omega
  have order := keeps h h₁ h₂ [] _ _ 0 0 1 2 (2 ^ 16) holds implicit positive made madeFellow
  obtain ⟨m, rfl, left, -⟩ := genImpTaskLabel_ok made
  obtain ⟨m', rfl, right, -⟩ := genImpTaskLabel_ok madeFellow
  have extend := h.alloc_extends m
  have extend' := (h.alloc m).1.alloc_extends m'
  have same : ((h.alloc m).1.alloc m').1.objects 0 = h.objects 0 := (extend.trans extend').2 0 (holds 0 (by simp))
  have first : ((h.alloc m).1.alloc m').1.Holds ([] ++ [0, 1]) := by
    have held := (holds.cons_last m).extend extend'
    rwa [← left] at held
  have second : ((h.alloc m).1.alloc m').1.Holds ([] ++ [0, 2]) := by
    have held := (holds.extend extend).cons_last m'
    rwa [← right] at held
  have room := (barriersKeepOrder_iff first second (same ▸ implicit) (same ▸ positive) _).mp order
  rw [same, span, offset] at room
  omega

end Romp
