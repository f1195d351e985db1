import Romp.Label.Heap
import Romp.Runtime.Steps

namespace Romp

namespace Detector

def label (d : Detector) (t : Nat) : Option Label := (d.data t).label

def children (d : Detector) (t : Nat) : List Nat := (d.data t).childExpTaskData

structure Moves (d d' : Detector) (t : Nat) (old new : Label) : Prop where
  old : d.label t = some old
  new : d'.label t = some new
  others : ∀ x, x ≠ t → d'.label x = d.label x

/-- A callback that gives one task another label, and does no more. -/
structure Relabels (d d' : Detector) (t : Nat) (old new : Label) : Prop extends Moves d d' t old new where
  children : ∀ x, d'.children x = d.children x

variable {d d' : Detector} {t : Nat}

theorem getLabel_ok {label : Label} (found : d.getLabel t = .ok label) : d.label t = some label := by
  unfold getLabel at found
  split at found
  · cases found
  · rename_i known
    cases found
    exact known

theorem relabels {old new : Label} (known : d.label t = some old) (heap : Heap) :
    d.Relabels ({ d with heap }.setLabel t (some new)) t old new := by
  refine ⟨⟨known, ?_, fun x other => ?_⟩, fun x => ?_⟩
  · simp [label]
  · simp [label, other]
  · simp only [children, setLabel, setData_data]
    by_cases self : x = t <;> simp [self]

theorem mutateLabel_ok {mutate : Heap → Label → Except Abort (Heap × Label)}
    (done : d.mutateLabel t mutate = .ok d') :
    ∃ old heap new, mutate d.heap old = .ok (heap, new) ∧ d.Relabels d' t old new ∧ d'.heap = heap := by
  obtain ⟨old, found, done⟩ := ok_of_bind done
  obtain ⟨⟨heap, new⟩, mutated, done⟩ := ok_of_bind done
  cases done
  exact ⟨old, heap, new, mutated, relabels (getLabel_ok found) heap, rfl⟩

end Detector

section Operations

variable {h h' : Heap} {label new : Label}

theorem popSegment_ok {last : Nat} {rest : Label} (popped : label.popSegment = .ok (last, rest)) :
    label = rest ++ [last] := by
  unfold Label.popSegment at popped
  split at popped
  · cases popped
  · rename_i found
    cases popped
    exact (List.dropLast_append_getLast? _ found).symm

theorem mutateLast_ok {f : Segment → Except Abort Segment} (mutated : mutateLast f h label = .ok (h', new)) :
    ∃ init r s, label = init ++ [r] ∧ f (h.objects r) = .ok s ∧ h' = (h.alloc s).1 ∧ new = init ++ [h.next] := by
  obtain ⟨⟨r, init⟩, popped, mutated⟩ := ok_of_bind mutated
  obtain ⟨s, made, mutated⟩ := ok_of_bind mutated
  cases mutated
  exact ⟨init, r, s, popSegment_ok popped, made, rfl, rfl⟩

theorem mutateLoopEnd_ok (mutated : mutateLoopEnd h label = .ok (h', new)) :
    ∃ init r unit s, label = init ++ [r, unit] ∧
      (h.objects r).setLoopCount ((h.objects r).getLoopCount + 1) = .ok s ∧ h' = (h.alloc s).1 ∧
      new = init ++ [h.next] := by
  obtain ⟨⟨unit, rest⟩, popped, mutated⟩ := ok_of_bind mutated
  obtain ⟨init, r, s, rfl, made, heap, same⟩ := mutateLast_ok mutated
  exact ⟨init, r, unit, s, by rw [popSegment_ok popped, List.append_assoc]; rfl, made, heap, same⟩

theorem mutateSingleEnd_ok (popped : mutateSingleEnd label = .ok new) : ∃ unit, label = new ++ [unit] := by
  obtain ⟨⟨unit, rest⟩, popped, done⟩ := ok_of_bind popped
  cases done
  exact ⟨unit, popSegment_ok popped⟩

theorem mutateWorkShareDispatch_ok {id : BitVec 64} {isSection : Bool}
    (mutated : mutateWorkShareDispatch h label id isSection = .ok (h', new)) :
    ∃ init unit, label = init ++ [unit] ∧ h' = (h.alloc (Segment.workShareUnit id isSection)).1 ∧
      new = init ++ [h.next] := by
  obtain ⟨⟨unit, init⟩, popped, mutated⟩ := ok_of_bind mutated
  cases mutated
  exact ⟨init, unit, popSegment_ok popped, rfl, rfl⟩

theorem mutateBarrierEnd_ok (mutated : mutateBarrierEnd h label = .ok (h', new)) :
    ∃ init r m, label = init ++ [r, m] ∧
      h' = (h.alloc ((h.objects r).setOffsetSpan ((h.objects r).getOffset + (h.objects r).getSpan)
        (h.objects r).getSpan)).1 ∧ new = init ++ [h.next, m] := by
  obtain ⟨r, second, mutated⟩ := ok_of_bind mutated
  unfold Label.getLastKthSegment at second
  split at second
  · cases second
  · rename_i long
    split at second
    · cases second
    · rename_i at_r
      cases second
      obtain ⟨changed, replaced, mutated⟩ := ok_of_bind mutated
      cases mutated
      rw [Label.setLastKthSegment, if_neg long] at replaced
      cases replaced
      obtain ⟨init, m, rfl⟩ : ∃ init m, label = init ++ [m] := by
        rcases List.eq_nil_or_concat' label with rfl | found
        · simp at long
        · exact found
      obtain ⟨init, r', rfl⟩ : ∃ init' r', init = init' ++ [r'] := by
        rcases List.eq_nil_or_concat' init with rfl | found
        · simp at long
        · exact found
      simp only [List.append_assoc, List.cons_append, List.nil_append, List.length_append, List.length_cons,
        List.length_nil, show init.length + (0 + 1 + 1) - 2 = init.length by omega] at at_r ⊢
      rw [List.getElem?_append_right (le_refl _), Nat.sub_self] at at_r
      cases at_r
      refine ⟨init, _, m, rfl, rfl, ?_⟩
      simp

theorem mutateParentImpEnd_ok (ended : mutateParentImpEnd label = .ok new) : ∃ m, label = new ++ [m] := by
  obtain ⟨⟨m, rest⟩, popped, ended⟩ := ok_of_bind ended
  cases ended
  exact ⟨m, popSegment_ok popped⟩

theorem getLastSegment_ok {r : Nat} (last : label.getLastKthSegment 1 = .ok r) : ∃ init, label = init ++ [r] := by
  unfold Label.getLastKthSegment at last
  split at last
  · cases last
  · split at last
    · cases last
    · rename_i found
      cases last
      rw [← List.getLast?_eq_getElem?] at found
      exact ⟨_, (List.dropLast_append_getLast? _ found).symm⟩

end Operations

namespace Detector

structure Quiet (d d' : Detector) : Prop where
  heap : d'.heap = d.heap
  labels : ∀ x, d'.label x = d.label x
  children : ∀ x, d'.children x = d.children x

theorem Quiet.refl (d : Detector) : d.Quiet d := ⟨rfl, fun _ => rfl, fun _ => rfl⟩

variable {d d' : Detector} {R : Runtime} {t : Nat}

theorem dependences_quiet (d : Detector) (region : Option Nat) (t : Nat) (deps : List Dependence) :
    d.Quiet (on_ompt_callback_dependences d region t deps) := by
  cases region with
  | none => exact .refl d
  | some r =>
    simp only [on_ompt_callback_dependences]
    induction deps generalizing d with
    | nil => exact .refl d
    | cons dep deps ih =>
      have kept : ∀ x, ((maintainTaskDeps d r t dep).data x).label = (d.data x).label ∧
          ((maintainTaskDeps d r t dep).data x).childExpTaskData = (d.data x).childExpTaskData := by
        intro x
        simp only [maintainTaskDeps, setData_data, TaskDepGraph.markMutexTask]
        by_cases self : x = t
        · rw [if_pos self, self]
          split <;> exact ⟨rfl, rfl⟩
        · rw [if_neg self]
          exact ⟨rfl, rfl⟩
      obtain ⟨heap, labels, children⟩ := ih (maintainTaskDeps d r t dep)
      exact ⟨heap, fun x => (labels x).trans (kept x).1, fun x => (children x).trans (kept x).2⟩

theorem implicit_begin_ok {parent size i : Nat} (positive : 0 < size)
    (handled : on_ompt_callback_implicit_task d .scope_begin t parent size i = .ok d') :
    ∃ above s, d.label parent = some above ∧ Segment.base .eImplicit i size = .ok s ∧
      d'.heap = (d.heap.alloc s).1 ∧ d'.label t = some (above ++ [d.heap.next]) ∧
      (∀ x, x ≠ t → d'.label x = d.label x) ∧ ∀ x, d'.children x = if x = t then [] else d.children x := by
  have notOther : ¬ (size = 0 ∧ i ≠ 0) := by omega
  simp only [on_ompt_callback_implicit_task, if_neg notOther] at handled
  obtain ⟨above, found, handled⟩ := ok_of_bind handled
  obtain ⟨⟨heap, made⟩, generated, handled⟩ := ok_of_bind handled
  unfold genImpTaskLabel at generated
  obtain ⟨s, based, generated⟩ := ok_of_bind generated
  cases generated
  cases handled
  refine ⟨above, s, getLabel_ok found, based, rfl, ?_, fun x other => ?_, fun x => ?_⟩
  · simp [label]
  · simp [label, other]
  · simp only [children, setData_data]
    by_cases self : x = t <;> simp [self, TaskData.new]

theorem implicit_end_ok {parent : Nat} (handled : on_ompt_callback_implicit_task d .scope_end t parent 0 0 = .ok d') :
    ∃ above m old, d.label t = some (above ++ [m]) ∧ d'.heap = d.heap ∧ d'.label parent = some above ∧
      (∀ x, x ≠ parent → d'.label x = d.label x) ∧ (∀ x, d'.children x = d.children x) ∧ d.label parent = old := by
  have notOther : ¬ (True ∧ (0 : Nat) ≠ 0) := by simp
  simp only [on_ompt_callback_implicit_task] at handled
  rw [if_neg notOther] at handled
  obtain ⟨label, found, handled⟩ := ok_of_bind handled
  obtain ⟨above, popped, handled⟩ := ok_of_bind handled
  cases handled
  obtain ⟨m, rfl⟩ := mutateParentImpEnd_ok popped
  refine ⟨above, m, _, getLabel_ok found, rfl, ?_, fun x other => ?_, fun x => ?_, rfl⟩
  · simp [Detector.label]
  · simp [Detector.label, other]
  · simp only [children, setLabel, setData_data]
    by_cases self : x = parent <;> simp [self]

theorem handle_implicitBegin {r i : Nat} (kind : (R.task t).kind = .implicit r i) (positive : 0 < (R.region r).size)
    (handled : d.handle R (.implicitBegin t) = .ok d') :
    ∃ above s, d.label (R.task t).parent = some above ∧ Segment.base .eImplicit i (R.region r).size = .ok s ∧
      d'.heap = (d.heap.alloc s).1 ∧ d'.label t = some (above ++ [d.heap.next]) ∧
      (∀ x, x ≠ t → d'.label x = d.label x) ∧ ∀ x, d'.children x = if x = t then [] else d.children x := by
  simp only [handle, kind] at handled
  exact implicit_begin_ok positive handled

theorem handle_implicitEnd_first {r : Nat} (kind : (R.task t).kind = .implicit r 0)
    (handled : d.handle R (.implicitEnd t) = .ok d') :
    ∃ above m old, d.label t = some (above ++ [m]) ∧ d'.heap = d.heap ∧ d'.label (R.task t).parent = some above ∧
      (∀ x, x ≠ (R.task t).parent → d'.label x = d.label x) ∧ (∀ x, d'.children x = d.children x) ∧
      d.label (R.task t).parent = old := by
  simp only [handle, kind] at handled
  exact implicit_end_ok handled

theorem handle_implicitEnd_other {r i : Nat} (kind : (R.task t).kind = .implicit r i) (notFirst : i ≠ 0)
    (handled : d.handle R (.implicitEnd t) = .ok d') : d.Quiet d' := by
  simp only [handle, kind, on_ompt_callback_implicit_task] at handled
  rw [if_pos ⟨trivial, notFirst⟩] at handled
  cases handled
  exact .refl d

theorem handle_barrierEnd (handled : d.handle R (.barrierEnd t) = .ok d') :
    ∃ init r m, d.Relabels d' t (init ++ [r, m]) (init ++ [d.heap.next, m]) ∧
      d'.heap = (d.heap.alloc ((d.heap.objects r).setOffsetSpan
        ((d.heap.objects r).getOffset + (d.heap.objects r).getSpan) (d.heap.objects r).getSpan)).1 := by
  obtain ⟨old, heap, new, mutated, relabels, same⟩ := mutateLabel_ok handled
  obtain ⟨init, r, m, rfl, rfl, rfl⟩ := mutateBarrierEnd_ok mutated
  exact ⟨init, r, m, relabels, same⟩

theorem task_create_ok {new : Nat} {region : Option Nat} (apart : t ≠ new)
    (handled : on_ompt_callback_task_create d t new ompt_task_explicit region = .ok d') :
    ∃ init r x y, d.label t = some (init ++ [r]) ∧ Segment.base .eExplicit 0 1 = .ok x ∧
      ((d.heap.alloc x).1.objects r).setTaskcreate (((d.heap.alloc x).1.objects r).getTaskcreate + 1) = .ok y ∧
      d'.heap = ((d.heap.alloc x).1.alloc y).1 ∧ d'.label new = some (init ++ [r] ++ [d.heap.next]) ∧
      d'.label t = some (init ++ [d.heap.next + 1]) ∧
      (∀ z, z ≠ t → z ≠ new → d'.label z = d.label z) ∧
      ∀ z, d'.children z = if z = new then [] else if z = t then d.children t ++ [new] else d.children z := by
  obtain ⟨old, found, handled⟩ := ok_of_bind handled
  obtain ⟨⟨heap, made⟩, generated, handled⟩ := ok_of_bind handled
  unfold genExpTaskLabel at generated
  obtain ⟨x, based, generated⟩ := ok_of_bind generated
  cases generated
  obtain ⟨⟨heap', mutated⟩, changed, handled⟩ := ok_of_bind handled
  obtain ⟨init, r, y, rfl, created, rfl, rfl⟩ := mutateLast_ok changed
  refine ⟨init, r, x, y, getLabel_ok found, based, created, ?_⟩
  cases region
  all_goals
    cases handled
    refine ⟨rfl, ?_, ?_, fun z other isNew => ?_, fun z => ?_⟩
    · simp [label]
    · simp [label, apart, Heap.alloc]
    · simp [label, other, isNew]
    · simp only [children, setData_data]
      by_cases isNew : z = new
      · simp [isNew, TaskData.new]
      · by_cases self : z = t
        · simp [self, apart]
        · simp [self, isNew]

theorem handle_taskCreate (handled : d.handle R (.taskCreate t) = .ok d') (isTask : t < R.tasks) :
    ∃ init r x y, d.label t = some (init ++ [r]) ∧ Segment.base .eExplicit 0 1 = .ok x ∧
      ((d.heap.alloc x).1.objects r).setTaskcreate (((d.heap.alloc x).1.objects r).getTaskcreate + 1) = .ok y ∧
      d'.heap = ((d.heap.alloc x).1.alloc y).1 ∧ d'.label R.tasks = some (init ++ [r] ++ [d.heap.next]) ∧
      d'.label t = some (init ++ [d.heap.next + 1]) ∧
      (∀ z, z ≠ t → z ≠ R.tasks → d'.label z = d.label z) ∧
      ∀ z, d'.children z = if z = R.tasks then [] else if z = t then d.children t ++ [R.tasks] else d.children z :=
  task_create_ok (Nat.ne_of_lt isTask) handled

theorem handle_taskComplete {old : Label} (known : d.label t = some old)
    (handled : d.handle R (.taskComplete t) = .ok d') :
    ∃ init x, d.Relabels d' t (init ++ [x]) init ∧ d'.heap = d.heap := by
  obtain ⟨mutated, popped, handled⟩ := ok_of_bind handled
  change mutateTaskComplete d.heap (d.label t) = _ at popped
  rw [known, mutateTaskComplete] at popped
  obtain ⟨⟨x, init⟩, last, completed⟩ := ok_of_bind popped
  obtain ⟨type, -, explicit⟩ := ok_of_bind completed
  cases popSegment_ok last
  cases handled
  split at explicit
  · cases explicit
    exact ⟨init, x, relabels known d.heap, rfl⟩
  · cases explicit

theorem handle_taskgroupBegin (handled : d.handle R (.taskgroupBegin t) = .ok d') :
    ∃ init r, d.Relabels d' t (init ++ [r]) (init ++ [d.heap.next]) ∧
      d'.heap = (d.heap.alloc (((d.heap.objects r).setTaskGroupId ((d.heap.objects r).getTaskGroupId + 1)).setTaskGroupLevel
        ((d.heap.objects r).getTaskGroupLevel + 1))).1 := by
  obtain ⟨old, heap, new, mutated, relabels, same⟩ := mutateLabel_ok handled
  obtain ⟨init, r, s, rfl, made, rfl, rfl⟩ := mutateLast_ok mutated
  cases made
  exact ⟨init, r, relabels, same⟩

theorem handle_ordered (handled : d.mutateLabel t mutateOrderSection = .ok d') :
    ∃ init r s, d.Relabels d' t (init ++ [r]) (init ++ [d.heap.next]) ∧
      (d.heap.objects r).setPhase ((d.heap.objects r).getPhase + 1) = .ok s ∧ d'.heap = (d.heap.alloc s).1 := by
  obtain ⟨old, heap, new, mutated, relabels, same⟩ := mutateLabel_ok handled
  obtain ⟨init, r, s, rfl, made, rfl, rfl⟩ := mutateLast_ok mutated
  exact ⟨init, r, s, relabels, made, same⟩

def workSegment (work : Work) (executor : Bool) : Segment :=
  match work with
  | .loop | .sections => Segment.workShare.setPlaceHolderFlag true
  | .single => Segment.workShare.setSingleFlag executor

theorem handle_workBegin {work : Work} {executor : Bool} (handled : d.handle R (.workBegin t work executor) = .ok d') :
    ∃ old, d.Relabels d' t old (old ++ [d.heap.next]) ∧
      d'.heap = (d.heap.alloc (workSegment work executor)).1 := by
  have pushes : d.mutateLabel t (fun h label => .ok ((h.alloc (workSegment work executor)).1, label ++ [h.next])) =
      .ok d' := by
    cases work with
    | loop | sections => exact handled
    | single => cases executor <;> exact handled
  obtain ⟨old, heap, new, mutated, relabels, same⟩ := mutateLabel_ok pushes
  cases mutated
  exact ⟨old, relabels, same⟩

theorem handle_workEnd_single {number : Nat} {executor : Bool} {rest : List Construct}
    (constructs : (R.task t).constructs = .single number executor :: rest)
    (handled : d.handle R (.workEnd t) = .ok d') :
    ∃ init unit, d.Relabels d' t (init ++ [unit]) init ∧ d'.heap = d.heap := by
  have pops : d.mutateLabel t (fun h label => do .ok (h, ← mutateSingleEnd label)) = .ok d' := by
    simp only [handle, constructs] at handled
    cases executor <;> exact handled
  obtain ⟨old, heap, new, mutated, relabels, same⟩ := mutateLabel_ok pops
  obtain ⟨init, popped, mutated⟩ := ok_of_bind mutated
  cases mutated
  obtain ⟨unit, rfl⟩ := mutateSingleEnd_ok popped
  exact ⟨_, unit, relabels, same⟩

/-- The end of a loop or of sections counts in the segment below the one that it removes. -/
theorem handle_workEnd_shared (shared : (∃ number turn last rest, (R.task t).constructs = .loop number turn last :: rest) ∨
      ∃ number unit rest, (R.task t).constructs = .sections number unit :: rest)
    (handled : d.handle R (.workEnd t) = .ok d') :
    ∃ init r unit s, d.Relabels d' t (init ++ [r, unit]) (init ++ [d.heap.next]) ∧
      (d.heap.objects r).setLoopCount ((d.heap.objects r).getLoopCount + 1) = .ok s ∧
      d'.heap = (d.heap.alloc s).1 := by
  have mutates : d.mutateLabel t mutateLoopEnd = .ok d' := by
    rcases shared with ⟨number, turn, last, rest, constructs⟩ | ⟨number, unit, rest, constructs⟩
    all_goals
      simp only [handle, constructs] at handled
      exact handled
  obtain ⟨old, heap, new, mutated, relabels, same⟩ := mutateLabel_ok mutates
  obtain ⟨init, r, unit, s, rfl, counted, rfl, rfl⟩ := mutateLoopEnd_ok mutated
  exact ⟨init, r, unit, s, relabels, counted, same⟩

theorem handle_dispatch {id : BitVec 64} (handled : d.handle R (.dispatch t id) = .ok d') :
    ∃ init unit isSection, d.Relabels d' t (init ++ [unit]) (init ++ [d.heap.next]) ∧
      d'.heap = (d.heap.alloc (Segment.workShareUnit id isSection)).1 ∧
      (isSection = true ↔ ∃ number unit rest, (R.task t).constructs = .sections number unit :: rest) := by
  have shares : ∃ isSection, d.mutateLabel t (fun h label => mutateWorkShareDispatch h label id isSection) = .ok d' ∧
      (isSection = true ↔ ∃ number unit rest, (R.task t).constructs = .sections number unit :: rest) := by
    simp only [handle] at handled
    split at handled
    · rename_i number unit rest constructs
      exact ⟨true, handled, by simp [constructs]⟩
    · rename_i others
      refine ⟨false, handled, ?_⟩
      simp only [Bool.false_eq_true, false_iff]
      rintro ⟨number, unit, rest, constructs⟩
      exact others number unit rest constructs
  obtain ⟨isSection, mutates, kind⟩ := shares
  obtain ⟨old, heap, new, mutated, relabels, same⟩ := mutateLabel_ok mutates
  obtain ⟨init, unit, rfl, rfl, rfl⟩ := mutateWorkShareDispatch_ok mutated
  exact ⟨init, unit, isSection, relabels, same, kind⟩

def IsLast (d : Detector) (t x : Nat) : Prop := ∃ above, d.label t = some (above ++ [x])

theorem markTaskwait_ok {phase child : Nat} (done : markTaskwait phase d child = .ok d') :
    ∃ x, d.IsLast child x ∧ d' = { d with heap := d.heap.modify x (Segment.markTaskwaited phase) } := by
  obtain ⟨label, found, done⟩ := ok_of_bind done
  obtain ⟨x, last, done⟩ := ok_of_bind done
  cases done
  obtain ⟨above, rfl⟩ := getLastSegment_ok last
  exact ⟨x, ⟨above, getLabel_ok found⟩, rfl⟩

theorem isLast_unique {x y : Nat} (first : d.IsLast t x) (second : d.IsLast t y) : x = y := by
  obtain ⟨above, first⟩ := first
  obtain ⟨above', second⟩ := second
  rw [first, Option.some.injEq] at second
  exact (List.append_inj' second rfl).2 |> List.singleton_inj.mp

theorem markTaskwaits_ok {phase : Nat} {children : List Nat}
    (done : children.foldlM (markTaskwait phase) d = .ok d') :
    ∃ refs, d' = { d with heap := d.heap.mark refs (Segment.markTaskwaited phase) } ∧
      ∀ x, x ∈ refs ↔ ∃ c ∈ children, d.IsLast c x := by
  induction children generalizing d with
  | nil =>
    cases done
    exact ⟨[], by rw [Heap.mark_nil], by simp⟩
  | cons child children ih =>
    obtain ⟨middle, first, rest⟩ := ok_of_bind done
    obtain ⟨x, last, rfl⟩ := markTaskwait_ok first
    obtain ⟨refs, rfl, members⟩ := ih rest
    refine ⟨x :: refs, ?_, fun y => ?_⟩
    · rw [← Heap.modify_mark d.heap x refs (Segment.markTaskwaited_twice phase)]
    · have others : y ∈ refs ↔ ∃ c ∈ children, d.IsLast c y := members y
      rw [List.mem_cons, others]
      constructor
      · rintro (rfl | ⟨c, inside, known⟩)
        · exact ⟨child, List.mem_cons_self, last⟩
        · exact ⟨c, List.mem_cons_of_mem _ inside, known⟩
      · rintro ⟨c, inside, known⟩
        rcases List.mem_cons.mp inside with rfl | inside
        · exact .inl (isLast_unique known last)
        · exact .inr ⟨c, inside, known⟩

theorem handle_taskwaitEnd (handled : d.handle R (.taskwaitEnd t) = .ok d') :
    ∃ init r s refs, d.Moves d' t (init ++ [r]) (init ++ [d.heap.next]) ∧
      (d.heap.objects r).setTaskwait ((d.heap.objects r).getTaskwait + 1) = .ok s ∧
      d'.heap = ((d.heap.alloc s).1.mark refs
        (Segment.markTaskwaited (((d.heap.alloc s).1.objects r).getPhase))) ∧
      (∀ x, x ∈ refs ↔ ∃ c ∈ d.children t, d.IsLast c x) ∧
      ∀ x, d'.children x = if x = t then [] else d.children x := by
  obtain ⟨old, found, handled⟩ := ok_of_bind handled
  obtain ⟨⟨heap, mutated⟩, changed, handled⟩ := ok_of_bind handled
  obtain ⟨init, r, s, rfl, waited, rfl, rfl⟩ := mutateLast_ok changed
  obtain ⟨middle, marked, handled⟩ := ok_of_bind handled
  cases handled
  obtain ⟨last, found_last, marked⟩ := ok_of_bind marked
  obtain ⟨above, same⟩ := getLastSegment_ok found_last
  obtain ⟨rfl, rest⟩ := List.append_inj' same rfl
  cases List.singleton_inj.mp rest
  obtain ⟨folded, marks, marked⟩ := ok_of_bind marked
  cases marked
  obtain ⟨refs, rfl, members⟩ := markTaskwaits_ok marks
  refine ⟨init, r, s, refs, ⟨getLabel_ok found, ?_, fun x other => ?_⟩, waited, rfl, members, fun x => ?_⟩
  · simp [label]
  · simp [label, other]
  · simp only [children, setLabel, setData_data]
    by_cases self : x = t <;> simp [self]

/-- The end of a taskgroup accounts for a child whose label is no longer than the one of the task and ends in
    a segment with the group's number. -/
def Accounted (d : Detector) (len group c x : Nat) : Prop :=
  ∃ above, d.label c = some (above ++ [x]) ∧ above.length + 1 ≤ len ∧ (d.heap.objects x).getTaskGroupId = group

theorem accounted_modify {len group c x y : Nat} :
    Accounted { d with heap := d.heap.modify y Segment.setTaskGroupSync } len group c x ↔
      d.Accounted len group c x := by
  have same : ((d.heap.modify y Segment.setTaskGroupSync).objects x).getTaskGroupId =
      (d.heap.objects x).getTaskGroupId := by
    simp only [Heap.modify]
    by_cases self : x = y
    · subst self
      rw [Function.update_self]
      rfl
    · rw [Function.update_of_ne self]
  simp only [Accounted, same]
  exact .rfl

theorem markTaskGroup_ok {len group child : Nat} {stays : Bool}
    (done : markTaskGroup len group d child = .ok (d', stays)) :
    (∃ x, d.Accounted len group child x ∧ stays = false ∧
      d'.heap = d.heap.modify x Segment.setTaskGroupSync ∧ (∀ y, d'.label y = d.label y) ∧
      ∀ y, d'.children y = d.children y) ∨
    ((∀ x, ¬ d.Accounted len group child x) ∧ stays = true ∧ d' = d) := by
  obtain ⟨label, found, done⟩ := ok_of_bind done
  have known := getLabel_ok found
  have only : ∀ x, d.Accounted len group child x → ∃ above, label = above ++ [x] ∧ above.length + 1 ≤ len ∧
      (d.heap.objects x).getTaskGroupId = group := by
    rintro x ⟨above, same, short, number⟩
    rw [known, Option.some.injEq] at same
    exact ⟨above, same, short, number⟩
  split at done
  · rename_i long
    cases done
    refine .inr ⟨fun x accounted => ?_, rfl, rfl⟩
    obtain ⟨above, rfl, short, -⟩ := only x accounted
    simp only [List.length_append, List.length_cons, List.length_nil] at long
    omega
  · rename_i short
    obtain ⟨last, found_last, done⟩ := ok_of_bind done
    obtain ⟨above, rfl⟩ := getLastSegment_ok found_last
    split at done
    · rename_i number
      obtain ⟨⟨heap, changed⟩, mutated, done⟩ := ok_of_bind done
      cases done
      obtain ⟨last', found_last', mutated⟩ := ok_of_bind mutated
      rw [found_last] at found_last'
      cases found_last'
      cases mutated
      simp only [List.length_append, List.length_cons, List.length_nil] at short
      refine .inl ⟨last, ⟨above, known, by omega, number⟩, rfl, rfl, fun y => ?_, fun y => ?_⟩
      · by_cases self : y = child
        · subst self
          simp only [Detector.label, setLabel_label, if_true]
          exact known.symm
        · simp [Detector.label, self]
      · simp only [children, setLabel, setData_data]
        by_cases self : y = child <;> simp [self]
    · rename_i number
      cases done
      refine .inr ⟨fun x accounted => ?_, rfl, rfl⟩
      obtain ⟨above', same, -, number'⟩ := only x accounted
      cases List.singleton_inj.mp (List.append_inj' same rfl).2
      exact number number'

theorem markTaskGroups_ok {len group : Nat} {children stay : List Nat}
    (done : markTaskGroups len group d children = .ok (d', stay)) :
    ∃ refs, d'.heap = d.heap.mark refs Segment.setTaskGroupSync ∧ (∀ y, d'.label y = d.label y) ∧
      (∀ y, d'.children y = d.children y) ∧ (∀ x, x ∈ refs ↔ ∃ c ∈ children, d.Accounted len group c x) ∧
      ∀ c, c ∈ stay ↔ c ∈ children ∧ ∀ x, ¬ d.Accounted len group c x := by
  induction children generalizing d stay with
  | nil =>
    cases done
    exact ⟨[], by rw [Heap.mark_nil], fun _ => rfl, fun _ => rfl, by simp, by simp⟩
  | cons child children ih =>
    obtain ⟨⟨middle, stays⟩, first, done⟩ := ok_of_bind done
    obtain ⟨⟨final, rest⟩, others, done⟩ := ok_of_bind done
    cases done
    obtain ⟨refs, heap, labels, kids, members, left⟩ := ih others
    rcases markTaskGroup_ok first with ⟨y, accounted, rfl, heap', labels', kids'⟩ | ⟨never, rfl, rfl⟩
    · have same : ∀ c x, Accounted middle len group c x ↔ d.Accounted len group c x := by
        intro c x
        rw [← accounted_modify (d := d) (y := y)]
        simp only [Accounted, labels', heap']
        exact .rfl
      refine ⟨y :: refs, ?_, fun z => (labels z).trans (labels' z), fun z => (kids z).trans (kids' z), fun x => ?_,
        fun c => ?_⟩
      · rw [← Heap.modify_mark d.heap y refs Segment.setTaskGroupSync_twice, heap, heap']
      · rw [List.mem_cons, members]
        simp only [same, List.mem_cons, exists_eq_or_imp]
        refine or_congr_left ⟨fun self => self ▸ accounted, fun known => ?_⟩
        obtain ⟨above, known, -⟩ := known
        obtain ⟨above', known', -⟩ := accounted
        exact isLast_unique ⟨above, known⟩ ⟨above', known'⟩
      · simp only [Bool.false_eq_true, if_false, left, same, List.mem_cons]
        constructor
        · rintro ⟨inside, stays⟩
          exact ⟨.inr inside, stays⟩
        · rintro ⟨rfl | inside, stays⟩
          · exact absurd accounted (stays y)
          · exact ⟨inside, stays⟩
    · refine ⟨refs, heap, labels, kids, fun x => ?_, fun c => ?_⟩
      · rw [members]
        simp only [List.mem_cons, exists_eq_or_imp]
        exact (or_iff_right (never x)).symm
      · simp only [if_true, List.mem_cons, left]
        constructor
        · rintro (rfl | ⟨inside, none⟩)
          · exact ⟨.inl rfl, never⟩
          · exact ⟨.inr inside, none⟩
        · rintro ⟨rfl | inside, none⟩
          · exact .inl rfl
          · exact .inr ⟨inside, none⟩

/-- At the end of a taskgroup the task gets a new last segment, and a mark goes to the last segments of the
    children that the group accounts for. -/
theorem handle_taskgroupEnd (handled : d.handle R (.taskgroupEnd t) = .ok d') :
    ∃ init r s refs, d.Moves d' t (init ++ [r]) (init ++ [d.heap.next]) ∧
      s = ((d.heap.objects r).setTaskGroupId ((d.heap.objects r).getTaskGroupId + 1)).setTaskGroupLevel
        ((d.heap.objects r).getTaskGroupLevel + (2 ^ 16 - 1)) ∧
      d'.heap = (d.heap.alloc s).1.mark refs Segment.setTaskGroupSync ∧
      (∀ x, x ∈ refs ↔ ∃ c ∈ d.children t, Accounted { d with heap := (d.heap.alloc s).1 } (init.length + 1)
        ((d.heap.alloc s).1.objects r).getTaskGroupId c x) ∧
      (∀ x, x ≠ t → d'.children x = d.children x) ∧
      ∀ c, c ∈ d'.children t ↔ c ∈ d.children t ∧ ∀ x, ¬ Accounted { d with heap := (d.heap.alloc s).1 }
        (init.length + 1) ((d.heap.alloc s).1.objects r).getTaskGroupId c x := by
  obtain ⟨old, found, handled⟩ := ok_of_bind handled
  obtain ⟨⟨heap, mutated⟩, changed, handled⟩ := ok_of_bind handled
  obtain ⟨init, r, s, rfl, made, rfl, rfl⟩ := mutateLast_ok changed
  cases made
  obtain ⟨middle, marked, handled⟩ := ok_of_bind handled
  cases handled
  obtain ⟨last, found_last, marked⟩ := ok_of_bind marked
  obtain ⟨above, same⟩ := getLastSegment_ok found_last
  obtain ⟨rfl, rest⟩ := List.append_inj' same rfl
  cases List.singleton_inj.mp rest
  obtain ⟨⟨folded, stay⟩, marks, marked⟩ := ok_of_bind marked
  cases marked
  obtain ⟨refs, heap, labels, kids, members, left⟩ := markTaskGroups_ok marks
  simp only [List.length_append, List.length_cons, List.length_nil, zero_add] at members left
  refine ⟨init, r, _, refs, ⟨getLabel_ok found, ?_, fun x other => ?_⟩, rfl, heap, members, fun x other => ?_, fun c => ?_⟩
  · simp [label]
  · have same := labels x
    simp only [label] at same ⊢
    simp [other, same]
  · have same := kids x
    simp only [children] at same ⊢
    simp [setLabel, other, same]
  · have same := left c
    simp only [children] at same ⊢
    simpa [setLabel] using same

end Detector

end Romp
