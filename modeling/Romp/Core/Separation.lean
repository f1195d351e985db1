import Romp.Callbacks.Effects
import Romp.Core.Counters

open Bits

namespace Romp

/-- The labels of the members of a region, from the label that the encountering task has when it forks
    the region: `k` is the number of barriers that the member has passed. Whatever else the member does
    gives its own segment another version; other tasks may add to the heap at any time. -/
inductive Member (h : Heap) (parent : Label) (size : Nat) : Nat → Heap → Label → Prop
  | begins {p h' h'' label} : h.Grows h' → p < size → genImpTaskLabel h' parent p size = .ok (h'', label) →
      Member h parent size 0 h'' label
  | barrier {k h' label h'' label'} : Member h parent size k h' label →
      mutateBarrierEnd h' label = .ok (h'', label') → Member h parent size (k + 1) h'' label'
  | own {k h' above m s} : Member h parent size k h' (above ++ [m]) → s.getType = (h'.objects m).getType →
      s.getSpan = (h'.objects m).getSpan → Member h parent size k (h'.alloc s).1 (above ++ [h'.next])
  | others {k h' label h''} : Member h parent size k h' label → h'.Grows h'' → Member h parent size k h'' label

/-- The labels of the encountering task in the same context after the region, while it creates tasks,
    waits for them, passes loops, taskgroups and ordered sections, and forks further regions; `k` counts
    the barriers of all the regions. -/
inductive After : Heap → Label → Nat → Heap → Label → Prop
  | join {h parent size k h' label up} : Member h parent size k h' label → mutateParentImpEnd label = .ok up →
      After h parent k h' up
  | again {h parent k h' up k' h'' up'} : After h parent k h' up → After h' up k' h'' up' →
      After h parent (k + k') h'' up'
  | taskCreate {h parent k h' up h'' up'} : After h parent k h' up → mutateParentTaskCreate h' up = .ok (h'', up') →
      After h parent k h'' up'
  | taskWait {h parent k h' up h'' up'} : After h parent k h' up → mutateTaskWait h' up = .ok (h'', up') →
      After h parent k h'' up'
  | ordered {h parent k h' up h'' up'} : After h parent k h' up → mutateOrderSection h' up = .ok (h'', up') →
      After h parent k h'' up'
  | loop {h parent k h' up unit h'' up'} : After h parent k h' up → mutateLoopEnd h' (up ++ [unit]) = .ok (h'', up') →
      After h parent k h'' up'
  | taskGroupBegin {h parent k h' up h'' up'} : After h parent k h' up →
      mutateTaskGroupBegin h' up = .ok (h'', up') → After h parent k h'' up'
  | taskGroupEnd {h parent k h' up h'' up'} : After h parent k h' up →
      mutateTaskGroupEnd h' up = .ok (h'', up') → After h parent k h'' up'
  | others {h parent k h' up h''} : After h parent k h' up → h'.Grows h'' → After h parent k h'' up

theorem popSegment_concat (label : Label) (r : Nat) : Label.popSegment (label ++ [r]) = .ok (r, label) := by
  simp [Label.popSegment]

theorem mutateLoopEnd_concat (h : Heap) (label : Label) (unit : Nat) : mutateLoopEnd h (label ++ [unit]) =
    mutateLast (fun s => s.setLoopCount (s.getLoopCount + 1)) h label := by
  rw [mutateLoopEnd, popSegment_concat]
  rfl

section Shape

variable {h h' : Heap} {front label : Label} {r size k : Nat}

theorem Member.shape (holds : h.Holds (front ++ [r])) (member : Member h (front ++ [r]) size k h' label) :
    ∃ x m, label = front ++ [x, m] ∧ h'.Holds label ∧ h.Grows h' ∧ Bumped (h.objects r) k (h'.objects x) ∧
      (h'.objects m).plain.type = 1 ∧ (h'.objects m).plain.span = size := by
  induction member with
  | @begins p h' h'' label grows _ made =>
    obtain ⟨s, rfl, rfl, contents⟩ := genImpTaskLabel_ok made
    have later := grows.trans (h'.alloc_extends s).grows
    refine ⟨r, h'.next, List.append_assoc .., (holds.grow grows).cons_last s, later, ?_, ?_, ?_⟩
    · rw [Bumped, later.plain r (holds r (by simp)), Nat.zero_mul, Nat.add_zero,
        Nat.mod_eq_of_lt (plain_offset_lt _)]
    · rw [Heap.alloc_read, Segment.plain, contents]
      exact (by decide : SegmentType.eImplicit.code.toNat = 1)
    · rw [Heap.alloc_read, Segment.plain, contents]
  | @barrier k h' label h'' label' before called ih =>
    obtain ⟨x, m, rfl, held, grows, bumped, type, span⟩ := ih
    obtain ⟨init, x', m', split, rfl, rfl⟩ := mutateBarrierEnd_ok called
    obtain ⟨rfl, last⟩ := List.append_inj' split rfl
    simp only [List.cons.injEq, and_true] at last
    obtain ⟨rfl, rfl⟩ := last
    have extend := h'.alloc_extends ((h'.objects x).setOffsetSpan ((h'.objects x).getOffset + (h'.objects x).getSpan)
      (h'.objects x).getSpan)
    have there : m < h'.next := held m (by simp)
    refine ⟨h'.next, m, rfl, ?_, grows.trans extend.grows, ?_, ?_, ?_⟩
    · intro y member
      have cases : y ∈ front ∨ y = h'.next ∨ y = m := by simpa using member
      rcases cases with old | rfl | rfl
      · exact Nat.lt_succ_of_lt (held y (by simp [old]))
      · exact Nat.lt_succ_self _
      · exact Nat.lt_succ_of_lt there
    · rw [Heap.alloc_read]
      exact bumped.next
    · rw [extend.2 m there]
      exact type
    · rw [extend.2 m there]
      exact span
  | @own k h' above m' s before type span ih =>
    obtain ⟨x, m, split, held, grows, bumped, implicit, members⟩ := ih
    rw [List.append_cons front x [m]] at split
    obtain ⟨rfl, last⟩ := List.append_inj' split rfl
    simp only [List.cons.injEq, and_true] at last
    subst last
    have extend := h'.alloc_extends s
    refine ⟨x, h'.next, List.append_assoc .., ?_, grows.trans extend.grows, ?_, ?_, ?_⟩
    · exact Heap.Holds.cons_last (fun y member => held y (List.mem_append_left _ member)) s
    · rw [extend.2 x (held x (by simp))]
      exact bumped
    · rw [Heap.alloc_read]
      rw [← getType_implicit, type, getType_implicit]
      exact implicit
    · rw [Heap.alloc_read]
      exact span.trans members
  | others before later ih =>
    obtain ⟨x, m, rfl, held, grows, bumped, type, span⟩ := ih
    have thereX := held x (by simp)
    have thereM := held m (by simp)
    refine ⟨x, m, rfl, held.grow later, grows.trans later, ?_, ?_, ?_⟩
    · rw [Bumped, later.plain x thereX]
      exact bumped
    · rw [later.plain m thereM]
      exact type
    · rw [later.plain m thereM]
      exact span

theorem Version.mutateLast {f : Segment → Except Abort Segment} {up : Label} {y : Nat} {h'' : Heap} {up' : Label}
    (held : h'.Holds (front ++ [y])) (grows : h.Grows h') {base : Segment} (version : Version base k (h'.objects y))
    (same : up = front ++ [y]) (called : Romp.mutateLast f h' up = .ok (h'', up'))
    (changes : ∀ s, f (h'.objects y) = .ok s → Version (h'.objects y) 0 s) :
    ∃ z, up' = front ++ [z] ∧ h''.Holds up' ∧ h.Grows h'' ∧ Version base k (h''.objects z) := by
  obtain ⟨init, r', s, split, made, rfl, rfl⟩ := mutateLast_ok called
  rw [same] at split
  obtain ⟨rfl, last⟩ := List.append_inj' split rfl
  simp only [List.cons.injEq, and_true] at last
  subst last
  have front : h'.Holds front := fun x member => held x (List.mem_append_left _ member)
  refine ⟨h'.next, rfl, front.cons_last s, grows.trans (h'.alloc_extends s).grows, ?_⟩
  rw [Heap.alloc_read]
  exact version.trans (changes s made)

theorem After.shape (holds : h.Holds (front ++ [r])) {up : Label} (after_ : After h (front ++ [r]) k h' up) :
    ∃ y, up = front ++ [y] ∧ h'.Holds up ∧ h.Grows h' ∧ Version (h.objects r) k (h'.objects y) := by
  generalize same : front ++ [r] = parent at after_
  induction after_ generalizing r with
  | join member ended =>
    subst same
    obtain ⟨x, m, rfl, held, grows, bumped, -⟩ := member.shape holds
    obtain ⟨last, split⟩ := mutateParentImpEnd_ok ended
    rw [List.append_cons front x [m]] at split
    obtain ⟨rfl, -⟩ := List.append_inj' split rfl
    exact ⟨x, rfl, fun y member => held y (by
      rw [List.append_cons front x [m]]
      exact List.mem_append_left _ member), grows, bumped.version⟩
  | again first second ih ih' =>
    subst same
    obtain ⟨y, rfl, held, grows, version⟩ := ih holds rfl
    obtain ⟨z, rfl, held', grows', version'⟩ := ih' held rfl
    exact ⟨z, rfl, held', grows.trans grows', version.trans version'⟩
  | taskCreate before called ih =>
    obtain ⟨y, up, held, grows, version⟩ := ih holds same
    exact version.mutateLast (up ▸ held) grows up called fun s => version_taskcreate
  | taskWait before called ih =>
    obtain ⟨y, up, held, grows, version⟩ := ih holds same
    exact version.mutateLast (up ▸ held) grows up called fun s => version_taskwait
  | ordered before called ih =>
    obtain ⟨y, up, held, grows, version⟩ := ih holds same
    exact version.mutateLast (up ▸ held) grows up called fun s => version_phase
  | loop before called ih =>
    obtain ⟨y, up, held, grows, version⟩ := ih holds same
    rw [mutateLoopEnd_concat] at called
    exact version.mutateLast (up ▸ held) grows up called fun s => version_loopCount
  | taskGroupBegin before called ih =>
    obtain ⟨y, up, held, grows, version⟩ := ih holds same
    exact version.mutateLast (up ▸ held) grows up called fun s made => by
      cases made
      exact version_taskGroup ..
  | taskGroupEnd before called ih =>
    obtain ⟨y, up, held, grows, version⟩ := ih holds same
    exact version.mutateLast (up ▸ held) grows up called fun s made => by
      cases made
      exact version_taskGroup ..
  | others before later ih =>
    obtain ⟨y, rfl, held, grows, version⟩ := ih holds same
    have there := held y (by simp)
    refine ⟨y, rfl, held.grow later, grows.trans later, ?_⟩
    have kept := later.plain y there
    exact version.trans (Version.same kept)

end Shape

def Encounters (s : Segment) : Prop :=
  (s.getType = .ok .eImplicit ∧ 0 < s.getSpan) ∨ (s.getType = .ok .eExplicit ∧ s.getSpan = 1) ∨
    (s.getType = .ok .eWorkShare ∧ s.getSpan = 1)

/-- The segments that barriers can work on: those of implicit tasks, and those of iterations inside
    an ordered section, as long as the offset does not wrap. -/
def Separating (s : Segment) (n : Nat) : Prop :=
  n = 0 ∨ (s.getType = .ok .eImplicit ∧ s.getOffset + n * s.getSpan < 2 ^ 16) ∨
    (s.getType = .ok .eWorkShare ∧ s.isSingleExecutor = false ∧ s.isPlaceHolder = false ∧
      s.getPhase % 2 = 1 ∧ n < 2 ^ 16)

section Verdicts

variable {base x y m : Segment} {i j : Nat}

theorem Version.apart (span : base.getSpan = 1) (vx : Version base i x) (vy : Version base j y) (less : i < j)
    (few : j < 2 ^ 16) : x.getOffset ≠ y.getOffset := by
  have offset := vx.getOffset
  have offset' := vy.getOffset
  rw [span] at offset offset'
  omega

theorem happensBefore_single_span (span : base.getSpan = 1) (vx : Version base i x) (vy : Version base j y)
    (apart : x.getOffset ≠ y.getOffset) (type : base.getType = .ok .eExplicit ∨ base.getType = .ok .eWorkShare)
    (p hist cur : List Segment) : happensBefore (p ++ x :: hist) (p ++ y :: cur) =
      if base.getType = .ok .eExplicit ∨ base.isSingleExecutor = true then analyzeSameTask (x :: hist) (y :: cur) 0
      else analyzeOrderedSection (x :: hist) (y :: cur) 0 := by
  rw [happensBefore_diff (SameStretch.refl p) (differ_of_offset apart), happensBeforeAt]
  have spanX : x.getSpan = 1 := vx.getSpan.trans span
  have spanY : y.getSpan = 1 := vy.getSpan.trans span
  simp only [getKthSegment, List.getElem?_cons_zero, spanX, spanY, ne_eq, not_true, if_false, if_true, vx.getType,
    vy.getType, bind, Except.bind, vx.isSingleExecutor, vy.isSingleExecutor, Bool.and_self]
  rcases type with explicit | workShare
  · simp [explicit]
  · simp [workShare]

theorem analyzeSameTask_members {m' : Segment} (type : m.getType = .ok .eImplicit)
    (type' : m'.getType = .ok .eImplicit) (hist cur : List Segment) :
    analyzeSameTask (x :: m :: hist) (y :: m' :: cur) 0 =
      .error "not expecting next level tasks are sibling implicit tasks" := by
  simp [analyzeSameTask, getKthSegment, type, type', bind, Except.bind]

theorem analyzeOrderedSection_team (type : m.getType = .ok .eImplicit) (same : x.isPlaceHolder = y.isPlaceHolder)
    (hist cur : List Segment) : analyzeOrderedSection (x :: m :: hist) (y :: cur) 0 =
      .ok (!x.isPlaceHolder && decide (computeExitRank x.getPhase < computeEnterRank y.getPhase)) := by
  cases holder : x.isPlaceHolder with
  | true => simp [analyzeOrderedSection, getKthSegment, holder, bind, Except.bind]
  | false =>
    by_cases earlier : computeExitRank x.getPhase < computeEnterRank y.getPhase
    · simp [analyzeOrderedSection, analyzeOrderedDescendents, getKthSegment, holder, ← same, earlier, type, bind,
        Except.bind]
    · simp [analyzeOrderedSection, getKthSegment, holder, ← same, earlier, bind, Except.bind]

/-- A version that has gone back: the check fails, or the two tasks count as siblings. -/
theorem happensBefore_wrapped {m' : Segment} (implicit : base.getType = .ok .eImplicit) (vx : Version base i x)
    (vy : Version base j y) (back : y.getOffset < x.getOffset) (type : m.getType = .ok .eImplicit)
    (type' : m'.getType = .ok .eImplicit) (p : List Segment) :
    happensBefore (p ++ [x, m]) (p ++ [y, m']) ≠ .ok true := by
  have apart : x.getOffset ≠ y.getOffset := by omega
  have late : ¬x.getOffset < y.getOffset := by omega
  rw [happensBefore_diff (SameStretch.refl p) (differ_of_offset apart), happensBeforeAt]
  simp only [getKthSegment, List.getElem?_cons_zero, vx.getSpan, vy.getSpan, ne_eq, not_true, if_false, vx.getType,
    vy.getType, implicit, bind, Except.bind, late]
  by_cases single : base.getSpan = 1
  · simp [single]
  · by_cases residue : x.getOffset % base.getSpan = y.getOffset % base.getSpan
    · simp [single, residue, apart]
    · simp [single, residue, apart, analyzeSiblingImpTask, getKthSegment, type, type', bind, Except.bind]

theorem happensBefore_equal {m' : Segment} (same : x.equals y = true) (span : m.getSpan = m'.getSpan)
    (team : 1 < m.getSpan) (offset : m.getOffset = 0) (offset' : m'.getOffset = 1) (p : List Segment) :
    happensBefore (p ++ [x, m]) (p ++ [y, m']) = .ok false := by
  have stretch : SameStretch (p ++ [x]) (p ++ [y]) :=
    List.rel_append (SameStretch.refl p) (List.Forall₂.cons same .nil)
  have apart : m.getOffset ≠ m'.getOffset := by omega
  have verdict := happensBefore_diff stretch (differ_of_offset apart) [] []
  rw [List.append_assoc, List.append_assoc] at verdict
  apply verdict.trans
  have several : m'.getSpan ≠ 1 := by omega
  simp [happensBeforeAt, getKthSegment, span, offset, offset', several, analyzeSiblingImpTask, bind, Except.bind]

end Verdicts

/-- An access inside the region, by a member or by a task below one, when the member has passed `k` barriers. -/
def Inside (h : Heap) (parent : Label) (size k : Nat) (h' : Heap) (label : Label) : Prop :=
  ∃ member more, Member h parent size k h' member ∧ label = member ++ more ∧ h'.Holds label

/-- An access after `k` barriers: inside the region, or after it and in the same context. -/
def Ahead (h : Heap) (parent : Label) (size k : Nat) (h' : Heap) (label : Label) : Prop :=
  Inside h parent size k h' label ∨ ∃ up more, After h parent k h' up ∧ label = up ++ more ∧ h'.Holds label

/-- What comes before a barrier is ordered before what comes after it, for the accesses before and after up to `n`
    barriers: those of the region and, for an access that follows it, those of the regions that the encountering task
    has forked since. -/
def BarriersSeparate (h : Heap) (parent : Label) (size n : Nat) : Prop :=
  ∀ i j h' hist cur, i < j → j ≤ n → Inside h parent size i h' hist → Ahead h parent size j h' cur →
    happensBefore (h'.read hist) (h'.read cur) = .ok true

section Separation

variable {h h' : Heap} {front hist cur : Label} {r size k : Nat}

theorem Inside.read (holds : h.Holds (front ++ [r])) (inside : Inside h (front ++ [r]) size k h' hist) :
    ∃ x m below, h'.read hist = h'.read front ++ x :: m :: below ∧ Bumped (h.objects r) k x ∧
      m.getType = .ok .eImplicit := by
  obtain ⟨member, more, made, rfl, -⟩ := inside
  obtain ⟨x, m, rfl, -, -, bumped, type, -⟩ := made.shape holds
  refine ⟨h'.objects x, h'.objects m, h'.read more, ?_, bumped, (getType_implicit _).mpr type⟩
  rw [Heap.read_append, Heap.read_append, List.append_assoc]
  rfl

theorem Ahead.read (holds : h.Holds (front ++ [r])) (ahead : Ahead h (front ++ [r]) size k h' cur) :
    ∃ y below, h'.read cur = h'.read front ++ y :: below ∧ Version (h.objects r) k y := by
  rcases ahead with inside | ⟨up, more, made, rfl, -⟩
  · obtain ⟨x, m, below, read, bumped, -⟩ := inside.read holds
    exact ⟨x, m :: below, read, bumped.version⟩
  · obtain ⟨y, rfl, -, -, version⟩ := made.shape holds
    refine ⟨h'.objects y, h'.read more, ?_, version⟩
    rw [Heap.read_append, Heap.read_append, List.append_assoc]
    rfl

theorem Bumped.getPhase {base x : Segment} (bumped : Bumped base k x) : x.getPhase = base.getPhase :=
  congrArg Contents.phase bumped

theorem separate_implicit (holds : h.Holds (front ++ [r])) (implicit : (h.objects r).getType = .ok .eImplicit)
    (positive : 0 < (h.objects r).getSpan) {n : Nat}
    (room : (h.objects r).getOffset + n * (h.objects r).getSpan < 2 ^ 16) :
    BarriersSeparate h (front ++ [r]) size n := by
  intro i j h' hist cur less bound inside ahead
  obtain ⟨x, m, below, readHist, bumped, -⟩ := inside.read holds
  obtain ⟨y, below', readCur, version⟩ := ahead.read holds
  have offset := bumped.version.getOffset
  have offset' := version.getOffset
  have product : j * (h.objects r).getSpan ≤ n * (h.objects r).getSpan := Nat.mul_le_mul_right _ bound
  have shorter : i * (h.objects r).getSpan < j * (h.objects r).getSpan := Nat.mul_lt_mul_of_pos_right less positive
  rw [Nat.mod_eq_of_lt (by omega)] at offset offset'
  rw [readHist, readCur]
  refine happensBefore_advanced (bumped.version.getType.trans implicit) (version.getType.trans implicit)
    (bumped.version.getSpan.trans version.getSpan.symm) ?_ (by omega) (m :: below) below'
  rw [bumped.version.getSpan, offset, offset', counter_residue, counter_residue]

theorem genImpTaskLabel_made (h : Heap) (front : Label) (index : Nat) (fits : size < 2 ^ 16) :
    ∃ s, genImpTaskLabel h front index size = .ok ((h.alloc s).1, front ++ [h.next]) ∧ s.contents =
      ⟨1, false, false, false, 0, 0, 0, 0, size, index % 2 ^ 16, 0, 0, none⟩ := by
  obtain ⟨s, based, contents⟩ := Segment.base_contents .eImplicit index fits
  refine ⟨s, ?_, contents⟩
  rw [genImpTaskLabel, based]
  rfl

theorem Member.barriers {parent label label' : Label} {h'' : Heap} {n : Nat} (member : Member h parent size k h' label)
    (ran : Romp.barriers h' label n = .ok (h'', label')) : Member h parent size (k + n) h'' label' := by
  induction n generalizing h'' label' with
  | zero =>
    cases ran
    exact member
  | succ n ih =>
    unfold Romp.barriers at ran
    obtain ⟨⟨middle, between⟩, first, ran⟩ := ok_of_bind ran
    exact .barrier (ih first) ran

theorem two_members (holds : h.Holds (front ++ [r])) (team : 1 < size) (fits : size < 2 ^ 16) (i j : Nat) :
    ∃ h' x y m m', Inside h (front ++ [r]) size i h' (front ++ [x, m]) ∧
      Inside h (front ++ [r]) size j h' (front ++ [y, m']) ∧
      (h'.objects x).contents = { (h.objects r).contents with
        offset := ((h.objects r).getOffset + i * (h.objects r).getSpan) % 2 ^ 16 } ∧
      (h'.objects y).contents = { (h.objects r).contents with
        offset := ((h.objects r).getOffset + j * (h.objects r).getSpan) % 2 ^ 16 } ∧
      (h'.objects m).contents = ⟨1, false, false, false, 0, 0, 0, 0, size, 0, 0, 0, none⟩ ∧
      (h'.objects m').contents = ⟨1, false, false, false, 0, 0, 0, 0, size, 1, 0, 0, none⟩ := by
  obtain ⟨s, made, contents⟩ := genImpTaskLabel_made h (front ++ [r]) 0 fits
  obtain ⟨s', made', contents'⟩ := genImpTaskLabel_made (h.alloc s).1 (front ++ [r]) 1 fits
  have grown := h.alloc_extends s
  have grown' := (h.alloc s).1.alloc_extends s'
  have first : Member h (front ++ [r]) size 0 (h.alloc s).1 (front ++ [r] ++ [h.next]) :=
    .begins (.refl h) (Nat.lt_of_lt_of_le Nat.zero_lt_one (Nat.le_of_lt team)) made
  have second : Member h (front ++ [r]) size 0 ((h.alloc s).1.alloc s').1 (front ++ [r] ++ [(h.alloc s).1.next]) :=
    .begins grown.grows team made'
  have held : ((h.alloc s).1.alloc s').1.Holds (front ++ [r, h.next]) := by
    have held := (holds.cons_last s).extend grown'
    rwa [List.append_assoc] at held
  have held' : ((h.alloc s).1.alloc s').1.Holds (front ++ [r, (h.alloc s).1.next]) := by
    have held := (holds.extend grown).cons_last s'
    rwa [List.append_assoc] at held
  have same : ((h.alloc s).1.alloc s').1.objects r = h.objects r := (grown.trans grown').2 r (holds r (by simp))
  obtain ⟨hi, x, ranI, extendI, thereI, contentsI⟩ := barriers_read held i
  obtain ⟨hj, y, ranJ, extendJ, -, contentsJ⟩ := barriers_read (held'.extend extendI) j
  rw [extendI.2 r (held' r (by simp)), same] at contentsJ
  rw [same] at contentsI
  rw [List.append_assoc] at first second
  have left := ((first.others grown'.grows).barriers ranI).others extendJ.grows
  have right := (second.others extendI.grows).barriers ranJ
  rw [Nat.zero_add] at left right
  obtain ⟨x₁, m₁, split, heldI, -⟩ := left.shape holds
  obtain ⟨x₂, m₂, split', heldJ, -⟩ := right.shape holds
  refine ⟨hj, x, y, h.next, (h.alloc s).1.next, ⟨_, [], left, (List.append_nil _).symm, heldI⟩,
    ⟨_, [], right, (List.append_nil _).symm, heldJ⟩, ?_, contentsJ, ?_, ?_⟩
  · rw [extendJ.2 x thereI]
    exact contentsI
  · have kept := (extendI.trans extendJ).2 h.next (held h.next (by simp))
    rw [kept, grown'.2 h.next (Nat.lt_succ_self _), h.alloc_read, contents]
    rfl
  · have kept := (extendI.trans extendJ).2 (h.alloc s).1.next (held' _ (by simp))
    rw [kept, (h.alloc s).1.alloc_read, contents', Nat.mod_eq_of_lt (by decide)]

theorem BarriersSeparate.members {n : Nat} (separate : BarriersSeparate h (front ++ [r]) size n)
    (holds : h.Holds (front ++ [r])) (team : 1 < size) (fits : size < 2 ^ 16) {i j : Nat} (less : i < j)
    (bound : j ≤ n) :
    ∃ (p : List Segment) (x y m m' : Segment), happensBefore (p ++ [x, m]) (p ++ [y, m']) = .ok true ∧
      x.contents = { (h.objects r).contents with
        offset := ((h.objects r).getOffset + i * (h.objects r).getSpan) % 2 ^ 16 } ∧
      y.contents = { (h.objects r).contents with
        offset := ((h.objects r).getOffset + j * (h.objects r).getSpan) % 2 ^ 16 } ∧
      m.contents = ⟨1, false, false, false, 0, 0, 0, 0, size, 0, 0, 0, none⟩ ∧
      m'.contents = ⟨1, false, false, false, 0, 0, 0, 0, size, 1, 0, 0, none⟩ := by
  obtain ⟨h', x, y, m, m', inside, inside', contentsX, contentsY, contentsM, contentsM'⟩ :=
    two_members holds team fits i j
  have verdict := separate i j h' _ _ less bound inside (.inl inside')
  rw [Heap.read_append, Heap.read_append] at verdict
  exact ⟨_, _, _, _, _, verdict, contentsX, contentsY, contentsM, contentsM'⟩

theorem version_of_contents {base s : Segment} {k : Nat} (contents : s.contents = { base.contents with
    offset := (base.getOffset + k * base.getSpan) % 2 ^ 16 }) : Bumped base k s := by
  simp only [Bumped, Segment.plain, contents]
  rfl

theorem member_type {m : Segment} {size offset : Nat}
    (contents : m.contents = ⟨1, false, false, false, 0, 0, 0, 0, size, offset, 0, 0, none⟩) :
    m.getType = .ok .eImplicit := by
  rw [m.getType_contents, contents]
  rfl

section Conditions

variable {n : Nat}

theorem BarriersSeparate.not_explicit (separate : BarriersSeparate h (front ++ [r]) size n)
    (holds : h.Holds (front ++ [r])) (team : 1 < size) (fits : size < 2 ^ 16) (some : 0 < n)
    (span : (h.objects r).getSpan = 1) : ¬(h.objects r).getType = .ok .eExplicit := by
  intro explicit
  obtain ⟨p, x, y, m, m', verdict, contentsX, contentsY, contentsM, contentsM'⟩ :=
    separate.members holds team fits Nat.zero_lt_one some
  have vx := (version_of_contents contentsX).version
  have vy := (version_of_contents contentsY).version
  have apart := vx.apart span vy Nat.zero_lt_one (by decide)
  rw [happensBefore_single_span span vx vy apart (.inl explicit), if_pos (.inl explicit),
    analyzeSameTask_members (member_type contentsM) (member_type contentsM')] at verdict
  cases verdict

theorem BarriersSeparate.room (separate : BarriersSeparate h (front ++ [r]) size n)
    (holds : h.Holds (front ++ [r])) (team : 1 < size) (fits : size < 2 ^ 16)
    (implicit : (h.objects r).getType = .ok .eImplicit) (positive : 0 < (h.objects r).getSpan) :
    (h.objects r).getOffset + n * (h.objects r).getSpan < 2 ^ 16 := by
  by_contra wraps
  obtain ⟨k, bound, down⟩ := counter_wraps (getOffset_lt (h.objects r)) (Nat.le_of_lt (getSpan_lt _))
    (Nat.le_of_not_lt wraps)
  obtain ⟨p, x, y, m, m', verdict, contentsX, contentsY, contentsM, contentsM'⟩ :=
    separate.members holds team fits (Nat.lt_succ_self k) bound
  have vx := (version_of_contents contentsX).version
  have vy := (version_of_contents contentsY).version
  have small := getSpan_lt (h.objects r)
  have back : y.getOffset < x.getOffset := by
    rw [vx.getOffset, vy.getOffset]
    rw [Nat.succ_mul] at down ⊢
    omega
  exact happensBefore_wrapped implicit vx vy back (member_type contentsM) (member_type contentsM') p verdict

/-- An iteration whose barrier separates is inside an ordered section: the verdict on two members is the
    one on the phases. -/
theorem BarriersSeparate.ordered (separate : BarriersSeparate h (front ++ [r]) size n)
    (holds : h.Holds (front ++ [r])) (team : 1 < size) (fits : size < 2 ^ 16) (some : 0 < n)
    (workShare : (h.objects r).getType = .ok .eWorkShare) (span : (h.objects r).getSpan = 1) :
    (h.objects r).isSingleExecutor = false ∧ (h.objects r).isPlaceHolder = false ∧
      (h.objects r).getPhase % 2 = 1 := by
  have notExplicit := separate.not_explicit holds team fits some span
  obtain ⟨p, x, y, m, m', verdict, contentsX, contentsY, contentsM, contentsM'⟩ :=
    separate.members holds team fits Nat.zero_lt_one some
  have bumped := version_of_contents contentsX
  have bumped' := version_of_contents contentsY
  have apart := bumped.version.apart span bumped'.version Nat.zero_lt_one (by decide)
  rw [happensBefore_single_span span bumped.version bumped'.version apart (.inr workShare)] at verdict
  have notSingle : (h.objects r).isSingleExecutor = false := by
    by_contra single
    rw [if_pos (.inr (by simpa using single)),
      analyzeSameTask_members (member_type contentsM) (member_type contentsM')] at verdict
    cases verdict
  rw [if_neg (by simp [notExplicit, notSingle]), analyzeOrderedSection_team (member_type contentsM)
    (bumped.version.isPlaceHolder.trans bumped'.version.isPlaceHolder.symm), bumped.version.isPlaceHolder,
    bumped.getPhase, bumped'.getPhase] at verdict
  simp only [Except.ok.injEq, Bool.and_eq_true, Bool.not_eq_true', decide_eq_true_eq] at verdict
  obtain ⟨notHolder, ranks⟩ := verdict
  unfold computeExitRank computeEnterRank at ranks
  exact ⟨notSingle, notHolder, by omega⟩

/-- After 2^16 barriers an iteration has the segment with which it began. -/
theorem BarriersSeparate.few (separate : BarriersSeparate h (front ++ [r]) size n)
    (holds : h.Holds (front ++ [r])) (team : 1 < size) (fits : size < 2 ^ 16)
    (span : (h.objects r).getSpan = 1) : n < 2 ^ 16 := by
  by_contra wraps
  obtain ⟨p, x, y, m, m', verdict, contentsX, contentsY, contentsM, contentsM'⟩ :=
    separate.members holds team fits (show 0 < 2 ^ 16 by decide) (Nat.le_of_not_lt wraps)
  rw [span, Nat.mul_one, Nat.add_mod_right] at contentsY
  rw [Nat.zero_mul, Nat.add_zero] at contentsX
  have same : x.equals y = true := by
    rw [Segment.equals_iff, Segment.word, Segment.word, contentsX, contentsY]
    have id : x.workShareId = (h.objects r).workShareId := by
      have id := congrArg Contents.workShareId contentsX
      exact id
    have id' : y.workShareId = (h.objects r).workShareId := by
      have id := congrArg Contents.workShareId contentsY
      exact id
    exact ⟨rfl, .inr (id.trans id'.symm)⟩
  have size' : m.getSpan = size := congrArg Contents.span contentsM
  have size'' : m'.getSpan = size := congrArg Contents.span contentsM'
  rw [happensBefore_equal same (size'.trans size''.symm) (by omega) (congrArg Contents.offset contentsM)
    (congrArg Contents.offset contentsM')] at verdict
  cases verdict

/-- The barriers of a region that an iteration forks inside its ordered section separate, until the
    offset is back. -/
theorem separate_ordered (holds : h.Holds (front ++ [r])) (workShare : (h.objects r).getType = .ok .eWorkShare)
    (span : (h.objects r).getSpan = 1) (notSingle : (h.objects r).isSingleExecutor = false)
    (notHolder : (h.objects r).isPlaceHolder = false) (phase : (h.objects r).getPhase % 2 = 1)
    (few : n < 2 ^ 16) : BarriersSeparate h (front ++ [r]) size n := by
  intro i j h' hist cur less bound inside ahead
  obtain ⟨x, m, below, readHist, bumped, type⟩ := inside.read holds
  obtain ⟨y, below', readCur, version⟩ := ahead.read holds
  have apart := bumped.version.apart span version less (by omega)
  have notExplicit : ¬(h.objects r).getType = .ok .eExplicit := by
    rw [workShare]
    exact fun same => by cases same
  have later : (h.objects r).getPhase ≤ y.getPhase := version.phase
  rw [readHist, readCur, happensBefore_single_span span bumped.version version apart (.inr workShare),
    if_neg (by simp [notExplicit, notSingle]), analyzeOrderedSection_team type
      (bumped.version.isPlaceHolder.trans version.isPlaceHolder.symm), bumped.version.isPlaceHolder, notHolder,
    bumped.getPhase]
  have ranks : computeExitRank (h.objects r).getPhase < computeEnterRank y.getPhase := by
    unfold computeExitRank computeEnterRank
    omega
  simp [ranks]

end Conditions

/-- The barriers of a region, and of the regions forked after it, separate its team, and the region from what
    follows it, exactly when the label of the encountering task ends with one of the segments that so many barriers
    can work on. -/
theorem barriers_separate_iff (holds : h.Holds (front ++ [r])) (context : Encounters (h.objects r))
    (team : 1 < size) (fits : size < 2 ^ 16) (n : Nat) :
    BarriersSeparate h (front ++ [r]) size n ↔ Separating (h.objects r) n := by
  constructor
  · intro separate
    by_cases none : n = 0
    · exact .inl none
    right
    have some : 0 < n := Nat.pos_of_ne_zero none
    rcases context with ⟨implicit, positive⟩ | ⟨explicit, span⟩ | ⟨workShare, span⟩
    · exact .inl ⟨implicit, separate.room holds team fits implicit positive⟩
    · exact absurd explicit (separate.not_explicit holds team fits some span)
    · obtain ⟨notSingle, notHolder, phase⟩ := separate.ordered holds team fits some workShare span
      exact .inr ⟨workShare, notSingle, notHolder, phase, separate.few holds team fits span⟩
  · rintro (rfl | ⟨implicit, room⟩ | ⟨workShare, notSingle, notHolder, phase, few⟩)
    · intro i j h' hist cur less bound
      omega
    · refine separate_implicit holds implicit ?_ room
      rcases context with ⟨-, positive⟩ | ⟨-, span⟩ | ⟨-, span⟩
      · exact positive
      · omega
      · omega
    · have span : (h.objects r).getSpan = 1 := by
        rcases context with ⟨implicit, -⟩ | ⟨-, span⟩ | ⟨-, span⟩
        · cases implicit.symm.trans workShare
        · exact span
        · exact span
      exact separate_ordered holds workShare span notSingle notHolder phase few

end Separation

theorem barriers_separate_iff_pair : ∃ h : Heap, genInitTaskLabel Heap.empty = .ok (h, [0]) ∧
    BarriersSeparate h ([] ++ [0]) 2 5 := by
  obtain ⟨h, -, -, made, -, -, holds, implicit, span, offset, -⟩ := pairHeap_ok
  have context : Encounters (h.objects 0) := .inl ⟨implicit, by omega⟩
  refine ⟨h, made, (barriers_separate_iff holds context (by decide) (by decide) 5).mpr (.inr (.inl ⟨implicit, ?_⟩))⟩
  rw [span, offset]
  decide

theorem explicitHeap_ok : ∃ h h', genInitTaskLabel Heap.empty = .ok (h, [0]) ∧ genExpTaskLabel h [0] = .ok (h', [0, 1]) ∧
    h'.Holds ([0] ++ [1]) ∧ (h'.objects 1).getType = .ok .eExplicit ∧ (h'.objects 1).getSpan = 1 := by
  refine ⟨_, _, rfl, rfl, ?_, rfl, rfl⟩
  intro x member
  have cases : x = 0 ∨ x = 1 := by simpa using member
  rcases cases with rfl | rfl <;> decide

/-- The check of two members of a team that an explicit task forks, with one barrier between them, aborts. -/
theorem explicit_team_aborts : ¬ ∀ (h : Heap) (front : Label) (r size n : Nat), h.Holds (front ++ [r]) →
    Encounters (h.objects r) → 1 < size → size < 2 ^ 16 → BarriersSeparate h (front ++ [r]) size n := by
  intro separates
  obtain ⟨-, h, -, -, holds, explicit, span⟩ := explicitHeap_ok
  have separate := separates h [0] 1 2 1 holds (.inr (.inl ⟨explicit, span⟩)) (by decide) (by decide)
  exact separate.not_explicit holds (by decide) (by decide) Nat.zero_lt_one span explicit

end Romp
