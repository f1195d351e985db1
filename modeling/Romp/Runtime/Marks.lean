import Romp.Runtime.Origins

namespace Romp

structure Segment.Bare (s : Segment) : Prop where
  taskwaited : s.contents.taskwaited = false
  taskGroupSync : s.contents.taskGroupSync = false
  orderSecVal : s.orderSecVal = 0

namespace Segment

variable {s s' : Segment}

theorem contents_unmarked (taskwaited : s.contents.taskwaited = false)
    (taskGroupSync : s.contents.taskGroupSync = false) : s.contents = s.plain := by
  rw [plain, show ({ s.contents with taskwaited := false, taskGroupSync := false } : Contents) =
    { s.contents with taskwaited := s.contents.taskwaited, taskGroupSync := s.contents.taskGroupSync } by
      rw [taskwaited, taskGroupSync]]

structure SameMarks (s s' : Segment) : Prop where
  taskwaited : s'.contents.taskwaited = s.contents.taskwaited
  taskGroupSync : s'.contents.taskGroupSync = s.contents.taskGroupSync
  orderSecVal : s'.orderSecVal = s.orderSecVal

theorem Bare.of_marks (bare : s.Bare) (same : s.SameMarks s') : s'.Bare :=
  ⟨same.1.trans bare.1, same.2.trans bare.2, same.3.trans bare.3⟩

theorem marks_setTaskcreate {n : Nat} (set : s.setTaskcreate n = .ok s') : s.SameMarks s' := by
  rw [setTaskcreate_eq] at set
  split at set
  · rename_i small
    cases set
    exact ⟨by rw [contents_write_taskcreate s small], by rw [contents_write_taskcreate s small], rfl⟩
  · cases set

theorem marks_setTaskwait {n : Nat} (set : s.setTaskwait n = .ok s') : s.SameMarks s' := by
  rw [setTaskwait_eq] at set
  split at set
  · rename_i small
    cases set
    exact ⟨by rw [contents_write_taskwait s small], by rw [contents_write_taskwait s small], rfl⟩
  · cases set

theorem marks_setLoopCount {n : Nat} (set : s.setLoopCount n = .ok s') : s.SameMarks s' := by
  rw [setLoopCount_eq] at set
  split at set
  · rename_i small
    cases set
    exact ⟨by rw [contents_write_loopCount s small], by rw [contents_write_loopCount s small], rfl⟩
  · cases set

theorem marks_setPhase {n : Nat} (set : s.setPhase n = .ok s') : s.SameMarks s' := by
  rw [setPhase_eq] at set
  split at set
  · rename_i small
    cases set
    exact ⟨by rw [contents_write_phase s small], by rw [contents_write_phase s small], rfl⟩
  · cases set

theorem marks_setTaskGroup (id level : Nat) : s.SameMarks ((s.setTaskGroupId id).setTaskGroupLevel level) :=
  ⟨by rw [contents_setTaskGroupLevel, contents_setTaskGroupId],
    by rw [contents_setTaskGroupLevel, contents_setTaskGroupId], rfl⟩

theorem marks_setOffsetSpan (offset span : Nat) : s.SameMarks (s.setOffsetSpan offset span) :=
  ⟨by rw [contents_setOffsetSpan], by rw [contents_setOffsetSpan], rfl⟩

theorem bare_base {type : SegmentType} {offset span : Nat} (made : base type offset span = .ok s) : s.Bare := by
  have small : span < 2 ^ 16 := by
    unfold base at made
    split at made
    · assumption
    · cases made
  obtain ⟨s', made', contents⟩ := base_contents type offset small
  rw [made] at made'
  cases made'
  refine ⟨by rw [contents], by rw [contents], ?_⟩
  rw [base, if_pos small] at made
  cases made
  rfl

theorem bare_workSegment (work : Work) (executor : Bool) : (Detector.workSegment work executor).Bare := by
  cases work <;> cases executor <;> exact ⟨by decide, by decide, rfl⟩

theorem bare_workShareUnit (id : BitVec 64) (isSection : Bool) : (workShareUnit id isSection).Bare := by
  have value : (workShareUnit id isSection).value = (workShareUnit 0 isSection).value := rfl
  refine ⟨?_, ?_, rfl⟩
  · change Segment.isTaskwaited _ = false
    rw [isTaskwaited, value]
    cases isSection <;> decide
  · change Segment.isTaskGroupSync _ = false
    rw [isTaskGroupSync, value]
    cases isSection <;> decide

end Segment

def Kids (R : Runtime) (d : Detector) : Prop :=
  ∀ t, ∀ c ∈ d.children t, c < R.tasks ∧ (R.task c).kind = .explicit ∧ (R.task c).parent = t

/-- At the end of a taskgroup, the children that it accounts for have ended. -/
def System.GroupsEnded (s : System) (e : Event) : Prop :=
  ∀ t, e = .taskgroupEnd t → ∀ init r, s.detector.label t = some (init ++ [r]) → ∀ c ∈ s.detector.children t, ∀ x,
    s.detector.Accounted (init.length + 1) (s.detector.heap.objects r).getTaskGroupId c x →
    (s.runtime.task c).ended = true

namespace Runtime

variable (R : Runtime)

/-- The strands of a task whose segments are its own, or become so when a region is joined. -/
def Guards (t : Nat) (strand : Strand) : Prop :=
  strand.task = t ∨ (∃ r i, (R.task t).kind = .implicit r i) ∧ (R.task t).line.getLast? = some strand

end Runtime

/-- The segments that the end of a synchronisation marks are the last ones of children: after a taskwait all of
    them have ended, after a taskgroup the marked ones are off the list of the task. -/
inductive Marking (R : Runtime) (d d' : Detector) (t : Nat) (refs : List Nat) (f : Segment → Segment) : Event → Prop
  | taskwait {init r} (known : d.label t = some (init ++ [r]))
      (form : f = Segment.markTaskwaited (d.heap.objects r).getPhase)
      (lasts : ∀ x, x ∈ refs ↔ ∃ c ∈ d.children t, d.IsLast c x)
      (ended : ∀ c ∈ d.children t, (R.task c).ended = true) : Marking R d d' t refs f (.taskwaitEnd t)
  | taskgroup {init r} (known : d.label t = some (init ++ [r])) (form : f = Segment.setTaskGroupSync)
      (lasts : ∀ x, x ∈ refs ↔
        ∃ c ∈ d.children t, d.Accounted (init.length + 1) (d.heap.objects r).getTaskGroupId c x)
      (gone : ∀ c x, d.Accounted (init.length + 1) (d.heap.objects r).getTaskGroupId c x → c ∉ d'.children t) :
      Marking R d d' t refs f (.taskgroupEnd t)

/-- What a step does to the objects of the heap: a new version of a segment of a task's label takes over the marks,
    and at the end of a synchronisation the last segments of children get marks. -/
inductive Stamp (R : Runtime) (d d' : Detector) (owner owner' : Nat → Strand) (e : Event) : Prop
  | still : d'.heap = d.heap → Stamp R d d' owner owner' e
  | fresh {s} : d'.heap = (d.heap.alloc s).1 → s.Bare → Stamp R d d' owner owner' e
  | version {t label r s} (isTask : t < R.tasks) (begun : (R.task t).begun = true) (live : (R.task t).ended = false)
      (known : d.label t = some label) (inside : r ∈ label) (guards : R.Guards t (owner r))
      (kept : (owner' d.heap.next).task = (owner r).task) (heap : d'.heap = (d.heap.alloc s).1)
      (same : (d.heap.objects r).SameMarks s) : Stamp R d d' owner owner' e
  | create {t label r x s} (isTask : t < R.tasks) (begun : (R.task t).begun = true) (live : (R.task t).ended = false)
      (known : d.label t = some label) (inside : r ∈ label) (guards : R.Guards t (owner r))
      (kept : (owner' (d.heap.next + 1)).task = (owner r).task)
      (heap : d'.heap = ((d.heap.alloc x).1.alloc s).1) (new : x.Bare) (same : (d.heap.objects r).SameMarks s) :
      Stamp R d d' owner owner' e
  | marks {t label r s refs f} (isTask : t < R.tasks) (runs : (R.task t).running = true)
      (known : d.label t = some label) (inside : r ∈ label) (guards : R.Guards t (owner r))
      (kept : (owner' d.heap.next).task = (owner r).task) (heap : d'.heap = (d.heap.alloc s).1.mark refs f)
      (same : (d.heap.objects r).SameMarks s) (marking : Marking R d d' t refs f e) : Stamp R d d' owner owner' e

structure Segment.TellsMarks (clean : Segment → Prop) : Prop where
  bare : ∀ s : Segment, s.Bare → clean s
  same : ∀ s s' : Segment, s.SameMarks s' → clean s → clean s'

def Detector.Clean (d : Detector) (R : Runtime) (owner : Nat → Strand) (clean : Segment → Prop) (pending : Nat → Prop) :
    Prop :=
  ∀ t < R.tasks, (R.task t).begun = true → (R.task t).ended = false → ∀ label, d.label t = some label →
    ∀ z ∈ label, R.Guards t (owner z) → pending (owner z).task → clean (d.heap.objects z)

theorem Runtime.guards_before {R : Runtime} {e : Event} {t : Nat} {strand : Strand} (isTask : t < R.tasks)
    (guards : (R.after e).Guards t strand) : R.Guards t strand := by
  have fixed := (after_extends R e).fixed t isTask
  unfold Guards at guards ⊢
  rw [← fixed.kind, ← fixed.line]
  exact guards

namespace Lined

variable {R : Runtime} {d d' : Detector} {owner : Nat → Strand} {t : Nat} (lined : Lined R d owner)

include lined

theorem own_task {init rest : Label} {r : Nat} (isTask : t < R.tasks) (begun : (R.task t).begun = true)
    (live : (R.task t).ended = false) (known : d.label t = some (init ++ r :: rest))
    (low : (R.task t).line.length ≤ init.length) : (owner r).task = t := by
  have mapped := (lined.place_length isTask begun known).1
  rw [Runtime.place_live live, Task.strands, List.map_append, List.map_cons, List.append_eq_append_iff] at mapped
  rcases mapped with ⟨more, line, lower⟩ | ⟨more, upper, lower⟩
  · have empty : more = [] := by
      have length := congrArg List.length line
      rw [List.length_append, List.length_map] at length
      exact List.eq_nil_of_length_eq_zero (by omega)
    rw [empty, List.nil_append, List.cons.injEq] at lower
    rw [lower.1]
  · have own : owner r ∈ (⟨t, none⟩ : Strand) :: (R.task t).body.toList.map fun c => ⟨t, some c⟩ := by
      rw [lower]
      exact List.mem_append_right _ List.mem_cons_self
    rcases List.mem_cons.mp own with self | inBody
    · rw [self]
    · obtain ⟨c, -, self⟩ := List.mem_map.mp inBody
      rw [← self]

theorem last_task {init : Label} {r : Nat} (isTask : t < R.tasks) (begun : (R.task t).begun = true)
    (live : (R.task t).ended = false) (known : d.label t = some (init ++ [r])) :
    (R.task t).line.length ≤ init.length ∧ (owner r).task = t := by
  have length := lined.label_length isTask begun live known
  rw [List.length_append, List.length_singleton] at length
  have low : (R.task t).line.length ≤ init.length := by omega
  exact ⟨low, lined.own_task isTask begun live known low⟩

theorem guards_last {init : Label} {r : Nat} (isTask : t < R.tasks) (begun : (R.task t).begun = true)
    (live : (R.task t).ended = false) (known : d.label t = some (init ++ [r])) : R.Guards t (owner r) :=
  .inl (lined.last_task isTask begun live known).2

end Lined

namespace Advance

variable {R : Runtime} {d d' : Detector} {owner owner' : Nat → Strand} {e : Event} {fork : Nat → Contents}
  {below : Strand → Contents} (adv : Advance R d d' owner owner' e)

include adv

theorem kept_own {t n r : Nat} {init rest rest' : Label} (plain : ¬e.Bounds) (isTask : t < R.tasks)
    (begun : (R.task t).begun = true) (live : (R.task t).ended = false) (known : d.label t = some (init ++ r :: rest))
    (low : (R.task t).line.length ≤ init.length) (now : d'.label t = some (init ++ n :: rest')) :
    (owner' n).task = (owner r).task := by
  have lives := Runtime.lives_after (R := R) plain
  have extend := Runtime.after_extends R e
  rw [adv.lined.own_task isTask begun live known low]
  refine adv.lined'.own_task (Nat.lt_of_lt_of_le isTask extend.tasks) ((lives.begun t isTask).trans begun)
    ((lives.ended t isTask).trans live) now ?_
  rw [(extend.fixed t isTask).line]
  exact low

theorem stamp_last {t r : Nat} {init : Label} {s : Segment} (plain : ¬e.Bounds) (running : R.running t = true)
    (moves : d.Moves d' t (init ++ [r]) (init ++ [d.heap.next])) (heap : d'.heap = (d.heap.alloc s).1)
    (same : (d.heap.objects r).SameMarks s) : Stamp R d d' owner owner' e := by
  obtain ⟨isTask, runs⟩ := Runtime.running_lt running
  obtain ⟨begun, live, -⟩ := Task.running_iff.mp runs
  obtain ⟨low, own⟩ := adv.lined.last_task isTask begun live moves.old
  exact .version isTask begun live moves.old (by simp) (.inl own)
    (adv.kept_own plain isTask begun live moves.old low moves.new) heap same

theorem workEnd_live {t : Nat} {c : Construct} {rest : List Construct} (isTask : t < R.tasks)
    (constructs : (R.task t).constructs = c :: rest) (number : c.number.isSome = true) :
    (R.task t).begun = true ∧ (R.task t).ended = false ∧ (R.task t).body.toList.length = 1 := by
  have busy := adv.nested.busy isTask constructs (by cases c <;> first | rfl | cases number)
  refine ⟨busy.2.1, ?_, ?_⟩
  · rw [← Bool.not_eq_true]
    intro ended
    cases constructs.symm.trans (adv.lineage.idle t ended)
  · rw [Task.body, constructs]
    simp [number]

theorem stamp_workEnd {t : Nat} (ends : e = .workEnd t) : Stamp R d d' owner owner' e := by
  have enabled := adv.enabled
  have handled := adv.handled
  subst ends
  simp only [Runtime.enabled, Bool.and_eq_true, decide_eq_true_eq] at enabled
  obtain ⟨isTask, inside⟩ := enabled
  have shared : ∀ {c : Construct} {rest : List Construct}, (R.task t).constructs = c :: rest → c.number.isSome = true →
      ((∃ number turn last rest, (R.task t).constructs = .loop number turn last :: rest) ∨
        ∃ number unit rest, (R.task t).constructs = .sections number unit :: rest) → Stamp R d d' owner owner' (.workEnd t) := by
    intro c rest constructs number shares
    obtain ⟨begun, live, short⟩ := adv.workEnd_live isTask constructs number
    obtain ⟨init, r, unit, s, relabels, counted, heap⟩ := Detector.handle_workEnd_shared shares handled
    have length := adv.lined.label_length isTask begun live relabels.old
    simp only [List.length_append, List.length_cons, List.length_nil, short] at length
    have low : (R.task t).line.length ≤ init.length := by omega
    exact .version isTask begun live relabels.old (by simp)
      (.inl (adv.lined.own_task isTask begun live relabels.old low))
      (adv.kept_own id isTask begun live relabels.old low relabels.new) heap (Segment.marks_setLoopCount counted)
  split at inside
  · rename_i number executor rest constructs
    obtain ⟨init, unit, relabels, heap⟩ := Detector.handle_workEnd_single constructs handled
    exact .still heap
  · rename_i number turn last rest constructs
    exact shared constructs rfl (.inl ⟨number, turn, last, rest, constructs⟩)
  · rename_i number unit rest constructs
    exact shared constructs rfl (.inr ⟨number, unit, rest, constructs⟩)
  · cases inside

theorem stamp_barrierEnd {t : Nat} (ends : e = .barrierEnd t) : Stamp R d d' owner owner' e := by
  have handled := adv.handled
  have turn := adv.turn
  subst ends
  obtain ⟨init, r, m, relabels, heap⟩ := Detector.handle_barrierEnd handled
  cases turn with
  | still plain | touch plain => exact absurd rfl (plain t)
  | @barrier ρ i upper x own isRegion isMember begun live idle moves low _ kept =>
    have isTask := adv.nested.member_lt isRegion isMember
    have same := relabels.old
    rw [moves.old, Option.some.injEq] at same
    obtain ⟨rfl, rest⟩ := List.append_inj' same rfl
    cases rest
    have mapped := (adv.lined.place_length isTask begun moves.old).1
    rw [List.append_cons upper _ [_], List.map_append, Runtime.place_live live,
      Task.strands_plain (Task.units_groups idle)] at mapped
    have line := (List.append_inj' mapped rfl).1
    refine .version isTask begun live moves.old (by simp) (.inr ⟨⟨ρ, i, (adv.nested.kind ρ isRegion i isMember).1⟩, ?_⟩)
      (congrArg Strand.task kept) heap (Segment.marks_setOffsetSpan _ _)
    rw [← line, List.map_append, List.map_singleton, List.getLast?_concat]

/-- At the end of a taskgroup the last segments of the children that pass its test get the mark. -/
theorem taskgroup_marks {t : Nat} (kids : Kids R d) (ends : e = .taskgroupEnd t) :
    ∃ init r s refs, d.Moves d' t (init ++ [r]) (init ++ [d.heap.next]) ∧ (d.heap.objects r).SameMarks s ∧
      d'.heap = (d.heap.alloc s).1.mark refs Segment.setTaskGroupSync ∧
      (∀ x, x ∈ refs ↔ ∃ c ∈ d.children t, d.Accounted (init.length + 1) (d.heap.objects r).getTaskGroupId c x) ∧
      ∀ c x, d.Accounted (init.length + 1) (d.heap.objects r).getTaskGroupId c x → c ∉ d'.children t := by
  have enabled := adv.enabled
  have handled := adv.handled
  subst ends
  simp only [Runtime.enabled, Bool.and_eq_true] at enabled
  obtain ⟨isTask, runs⟩ := Runtime.running_lt enabled.1
  obtain ⟨init, r, s, refs, moves, made, heap, members, -, stay⟩ := Detector.handle_taskgroupEnd handled
  have there := adv.held isTask (Task.running_iff.mp runs).1 moves.old r (by simp)
  have accounted : ∀ c ∈ d.children t, ∀ x,
      Detector.Accounted { d with heap := (d.heap.alloc s).1 } (init.length + 1)
        ((d.heap.alloc s).1.objects r).getTaskGroupId c x ↔
        d.Accounted (init.length + 1) (d.heap.objects r).getTaskGroupId c x := by
    intro c child x
    obtain ⟨isChild, kind, -⟩ := kids t c child
    rw [(d.heap.alloc_extends s).2 r there]
    refine exists_congr fun above => and_congr_right fun known => and_congr_right fun _ => ?_
    have same := (d.heap.alloc_extends s).2 x (adv.held isChild (adv.nested.explicit c isChild kind).2.1 known x (by simp))
    exact Eq.congr_left (congrArg Segment.getTaskGroupId same)
  refine ⟨init, r, s, refs, moves, made ▸ Segment.marks_setTaskGroup _ _, heap, fun x => ?_, fun c x passes child => ?_⟩
  · rw [members]
    exact exists_congr fun c => and_congr_right fun child => accounted c child x
  · obtain ⟨child, never⟩ := (stay c).mp child
    exact never x ((accounted c child x).mpr passes)

theorem stamp (kids : Kids R d) : Stamp R d d' owner owner' e := by
  have enabled := adv.enabled
  have handled := adv.handled
  have live : ∀ {t}, R.running t = true → t < R.tasks ∧ (R.task t).begun = true ∧ (R.task t).ended = false := by
    intro t running
    obtain ⟨isTask, runs⟩ := Runtime.running_lt running
    exact ⟨isTask, (Task.running_iff.mp runs).1, (Task.running_iff.mp runs).2.1⟩
  cases e with
  | parallelBegin | barrierBegin | release | parallelEnd | access =>
    cases handled
    exact .still rfl
  | dependences t deps =>
    cases handled
    exact .still (Detector.dependences_quiet d _ t deps).heap
  | implicitBegin t =>
    simp only [Runtime.enabled, Bool.and_eq_true, decide_eq_true_eq, Bool.not_eq_true'] at enabled
    obtain ⟨r, isRegion, i, isMember, rfl, kind, -⟩ := adv.nested.unbegun enabled.1 enabled.2
    obtain ⟨upper, s, -, made, heap, -⟩ := Detector.handle_implicitBegin kind (adv.nested.bounds r isRegion).1 handled
    exact .fresh heap (Segment.bare_base made)
  | barrierEnd t => exact adv.stamp_barrierEnd rfl
  | implicitEnd t =>
    simp only [Runtime.enabled, Bool.and_eq_true, decide_eq_true_eq] at enabled
    obtain ⟨-, ends⟩ := enabled
    cases kind : (R.task t).kind with
    | initial | explicit =>
      rw [kind] at ends
      cases ends
    | implicit r i =>
      by_cases first : i = 0
      · subst first
        obtain ⟨upper, own, old, -, heap, -⟩ := Detector.handle_implicitEnd_first kind handled
        exact .still heap
      · exact .still (Detector.handle_implicitEnd_other kind first handled).heap
  | taskCreate t =>
    obtain ⟨isTask, begun, live⟩ := live enabled
    obtain ⟨init, r, x, y, old, base, counted, heap, -, now, -⟩ := Detector.handle_taskCreate handled isTask
    have there := adv.held isTask begun old r (by simp)
    rw [(d.heap.alloc_extends x).2 r there] at counted
    obtain ⟨low, own⟩ := adv.lined.last_task isTask begun live old
    exact .create isTask begun live old (by simp) (.inl own) (adv.kept_own id isTask begun live old low now) heap
      (Segment.bare_base base) (Segment.marks_setTaskcreate counted)
  | taskComplete t =>
    simp only [Runtime.enabled, Bool.and_eq_true] at enabled
    obtain ⟨isTask, begun, -⟩ := live enabled.1.1
    obtain ⟨label, known, -⟩ := adv.lined.label t isTask begun
    obtain ⟨init, x, relabels, heap⟩ := Detector.handle_taskComplete known handled
    exact .still heap
  | taskwaitEnd t =>
    simp only [Runtime.enabled, Bool.and_eq_true, Runtime.allEnded_iff] at enabled
    obtain ⟨isTask, begun, live⟩ := live enabled.1
    obtain ⟨init, r, s, refs, moves, counted, heap, members, -⟩ := Detector.handle_taskwaitEnd handled
    obtain ⟨low, own⟩ := adv.lined.last_task isTask begun live moves.old
    rw [(d.heap.alloc_extends s).2 r (adv.held isTask begun moves.old r (by simp))] at heap
    refine .marks isTask (Runtime.running_lt enabled.1).2 moves.old (by simp) (.inl own)
      (adv.kept_own id isTask begun live moves.old low moves.new) heap (Segment.marks_setTaskwait counted)
      (.taskwait moves.old rfl members fun c child => ?_)
    obtain ⟨isChild, kind, parent⟩ := kids t c child
    exact enabled.2 c ((R.mem_children t).mpr ⟨isChild, kind, parent⟩)
  | taskgroupBegin t =>
    obtain ⟨init, r, relabels, heap⟩ := Detector.handle_taskgroupBegin handled
    exact adv.stamp_last id enabled relabels.toMoves heap (Segment.marks_setTaskGroup _ _)
  | taskgroupEnd t =>
    simp only [Runtime.enabled, Bool.and_eq_true] at enabled
    obtain ⟨isTask, begun, live⟩ := live enabled.1
    obtain ⟨init, r, s, refs, moves, same, heap, members, gone⟩ := adv.taskgroup_marks kids rfl
    obtain ⟨low, own⟩ := adv.lined.last_task isTask begun live moves.old
    exact .marks isTask (Runtime.running_lt enabled.1).2 moves.old (by simp) (.inl own)
      (adv.kept_own id isTask begun live moves.old low moves.new) heap same (.taskgroup moves.old rfl members gone)
  | workBegin t work executor =>
    obtain ⟨upper, relabels, heap⟩ := Detector.handle_workBegin handled
    exact .fresh heap (Segment.bare_workSegment work executor)
  | workEnd t => exact adv.stamp_workEnd rfl
  | dispatch t id =>
    obtain ⟨init, unit, isSection, relabels, heap, -⟩ := Detector.handle_dispatch handled
    exact .fresh heap (Segment.bare_workShareUnit id isSection)
  | orderedBegin t | orderedEnd t =>
    simp only [Runtime.enabled, Bool.and_eq_true] at enabled
    obtain ⟨init, r, s, relabels, counted, heap⟩ := Detector.handle_ordered handled
    exact adv.stamp_last id enabled.1 relabels.toMoves heap (Segment.marks_setPhase counted)

theorem children_after {x c : Nat} (child : c ∈ d'.children x) :
    c ∈ d.children x ∨ e = .taskCreate x ∧ c = R.tasks := by
  have enabled := adv.enabled
  have handled := adv.handled
  cases e with
  | parallelBegin | barrierBegin | release | parallelEnd | access =>
    cases handled
    exact .inl child
  | dependences t deps =>
    cases handled
    exact .inl ((Detector.dependences_quiet d _ t deps).children x ▸ child)
  | implicitBegin t =>
    simp only [Runtime.enabled, Bool.and_eq_true, decide_eq_true_eq, Bool.not_eq_true'] at enabled
    obtain ⟨r, isRegion, i, isMember, rfl, kind, -⟩ := adv.nested.unbegun enabled.1 enabled.2
    obtain ⟨upper, s, -, -, -, -, -, children⟩ :=
      Detector.handle_implicitBegin kind (adv.nested.bounds r isRegion).1 handled
    rw [children] at child
    split at child
    · cases child
    · exact .inl child
  | barrierEnd t =>
    obtain ⟨init, r, m, relabels, -⟩ := Detector.handle_barrierEnd handled
    exact .inl (relabels.children x ▸ child)
  | implicitEnd t =>
    simp only [Runtime.enabled, Bool.and_eq_true, decide_eq_true_eq] at enabled
    obtain ⟨-, ends⟩ := enabled
    cases kind : (R.task t).kind with
    | initial | explicit =>
      rw [kind] at ends
      cases ends
    | implicit r i =>
      by_cases first : i = 0
      · subst first
        obtain ⟨upper, own, old, -, -, -, -, children, -⟩ := Detector.handle_implicitEnd_first kind handled
        exact .inl (children x ▸ child)
      · exact .inl ((Detector.handle_implicitEnd_other kind first handled).children x ▸ child)
  | taskCreate t =>
    obtain ⟨init, r, s, s', -, -, -, -, -, -, -, children⟩ :=
      Detector.handle_taskCreate handled (Runtime.running_lt enabled).1
    rw [children] at child
    split at child
    · cases child
    · split at child
      · rename_i self
        subst self
        rcases List.mem_append.mp child with old | new
        · exact .inl old
        · exact .inr ⟨rfl, List.mem_singleton.mp new⟩
      · exact .inl child
  | taskComplete t =>
    simp only [Runtime.enabled, Bool.and_eq_true] at enabled
    obtain ⟨isTask, runs⟩ := Runtime.running_lt enabled.1.1
    obtain ⟨label, known, -⟩ := adv.lined.label t isTask (Task.running_iff.mp runs).1
    obtain ⟨init, r, relabels, -⟩ := Detector.handle_taskComplete known handled
    exact .inl (relabels.children x ▸ child)
  | taskwaitEnd t =>
    obtain ⟨init, r, s, refs, -, -, -, -, children⟩ := Detector.handle_taskwaitEnd handled
    rw [children] at child
    split at child
    · cases child
    · exact .inl child
  | taskgroupBegin t =>
    obtain ⟨init, r, relabels, -⟩ := Detector.handle_taskgroupBegin handled
    exact .inl (relabels.children x ▸ child)
  | taskgroupEnd t =>
    obtain ⟨init, r, s, refs, -, -, -, -, others, own⟩ := Detector.handle_taskgroupEnd handled
    by_cases self : x = t
    · subst self
      exact .inl ((own c).mp child).1
    · exact .inl (others x self ▸ child)
  | workBegin t work executor =>
    obtain ⟨upper, relabels, -⟩ := Detector.handle_workBegin handled
    exact .inl (relabels.children x ▸ child)
  | workEnd t =>
    simp only [Runtime.enabled, Bool.and_eq_true, decide_eq_true_eq] at enabled
    obtain ⟨-, inside⟩ := enabled
    have shared : ((∃ number turn last rest, (R.task t).constructs = .loop number turn last :: rest) ∨
        ∃ number unit rest, (R.task t).constructs = .sections number unit :: rest) → c ∈ d.children x := by
      intro shares
      obtain ⟨init, r, unit, s, relabels, -⟩ := Detector.handle_workEnd_shared shares handled
      exact relabels.children x ▸ child
    split at inside
    · rename_i number executor rest constructs
      obtain ⟨init, unit, relabels, -⟩ := Detector.handle_workEnd_single constructs handled
      exact .inl (relabels.children x ▸ child)
    · rename_i number turn last rest constructs
      exact .inl (shared (.inl ⟨number, turn, last, rest, constructs⟩))
    · rename_i number unit rest constructs
      exact .inl (shared (.inr ⟨number, unit, rest, constructs⟩))
    · cases inside
  | dispatch t id =>
    obtain ⟨init, unit, isSection, relabels, -⟩ := Detector.handle_dispatch handled
    exact .inl (relabels.children x ▸ child)
  | orderedBegin t | orderedEnd t =>
    obtain ⟨init, r, s, relabels, -⟩ := Detector.handle_ordered handled
    exact .inl (relabels.children x ▸ child)

theorem kids_after (kids : Kids R d) : Kids (R.after e) d' := by
  intro t c child
  rcases adv.children_after child with old | ⟨rfl, rfl⟩
  · obtain ⟨isTask, kind, parent⟩ := kids t c old
    have fixed := (Runtime.after_extends R e).fixed c isTask
    exact ⟨Nat.lt_of_lt_of_le isTask (Runtime.after_extends R e).tasks, fixed.kind.trans kind, fixed.parent.trans parent⟩
  · exact ⟨Nat.lt_succ_self _, by simp [Runtime.after, Task.new], by simp [Runtime.after, Task.new]⟩

variable (origins : Origins R d owner fork below)

include origins

theorem guarded_before {t : Nat} {label : Label} {z : Nat} (isTask : t < (R.after e).tasks)
    (begun : ((R.after e).task t).begun = true) (live : ((R.after e).task t).ended = false)
    (known : d'.label t = some label) (inside : z ∈ label) (guards : (R.after e).Guards t (owner' z))
    (old : z < d.heap.next) :
    ∃ x < R.tasks, (R.task x).begun = true ∧ (R.task x).ended = false ∧ ∃ label, d.label x = some label ∧ z ∈ label ∧
      R.Guards x (owner z) := by
  rw [adv.owners z old] at guards
  have same : t < R.tasks → (R.task t).begun = true → ∀ label, d.label t = some label → z ∈ label →
      ∃ x < R.tasks, (R.task x).begun = true ∧ (R.task x).ended = false ∧ ∃ label, d.label x = some label ∧ z ∈ label ∧
        R.Guards x (owner z) := by
    intro isTask begun label known inside
    refine ⟨t, isTask, begun, ?_, label, known, inside, Runtime.guards_before isTask guards⟩
    rw [← Bool.not_eq_true]
    intro ended
    cases (Runtime.ended_lasts isTask ended).symm.trans live
  cases adv.turn with
  | still plain labels next starts =>
    obtain ⟨isTask, begun⟩ := starts t isTask begun
    exact same isTask begun label ((labels t).symm.trans known) inside
  | @touch _ actor upper dropped new plain isActor begun' live' free acts moves low count lives next renewal =>
    rw [count] at isTask
    have begun := (lives t isTask).symm.trans begun
    by_cases self : t = actor
    · subst self
      rw [moves.new, Option.some.injEq] at known
      subst known
      rcases List.mem_append.mp inside with above | here
      · exact same isTask begun _ moves.old (List.mem_append_left _ above)
      · cases renewal with
        | gone => cases here
        | version | unit => exact absurd old (by rw [List.mem_singleton.mp here]; exact lt_irrefl _)
    · exact same isTask begun label ((moves.others t self).symm.trans known) inside
  | @create actor init r isActor begun' live' free before now made others next own kept plain counted =>
    by_cases self : t = actor
    · subst self
      rw [now, Option.some.injEq] at known
      subst known
      rcases List.mem_append.mp inside with above | here
      · exact same isActor begun' _ before (List.mem_append_left _ above)
      · rw [List.mem_singleton.mp here] at old
        omega
    · by_cases new : t = R.tasks
      · subst new
        have kind : ((R.after (.taskCreate actor)).task R.tasks).kind = .explicit := by simp [Runtime.after, Task.new]
        rcases guards with own | ⟨⟨r, i, implicit⟩, -⟩
        · have past := (origins.past z old).1
          omega
        · cases kind.symm.trans implicit
      · have bound : t < R.tasks + 1 := isTask
        have task : (R.after (.taskCreate actor)).task t = R.task t := by simp [Runtime.after, new]
        exact same (by omega) (by rw [← task]; exact begun) label ((others t self new).symm.trans known) inside
  | @enter ρ i upper isRegion isMember isOpen unbegun before now others next own plain =>
    by_cases self : t = R.memberOf ρ i
    · subst self
      rw [now, Option.some.injEq] at known
      subst known
      have forker := adv.nested.forker adv.lineage isRegion isOpen
      have isForker := adv.nested.encountering_lt isRegion
      have isTask := adv.nested.member_lt isRegion isMember
      rcases List.mem_append.mp inside with above | here
      · refine ⟨_, isForker, forker.1, forker.2, upper, before, above, ?_⟩
        rcases Runtime.guards_before isTask guards with own | ⟨-, last⟩
        · have past := (origins.past z old).2.1
          rw [own, unbegun] at past
          cases past
        · obtain ⟨line, strand, split, parent⟩ := adv.lineage.line_last isTask (adv.nested.member_ne_zero isRegion i)
          rw [split, List.getLast?_concat, Option.some.injEq] at last
          rw [(adv.nested.kind ρ isRegion i isMember).2.1, last] at parent
          exact .inl parent
      · rw [List.mem_singleton.mp here] at old
        omega
    · have task : (R.after (.implicitBegin (R.memberOf ρ i))).task t = R.task t := by simp [Runtime.after, self]
      exact same isTask (by rw [← task]; exact begun) label ((others t self).symm.trans known) inside
  | @barrier ρ i upper x own isRegion isMember begun' live' idle moves low next kept bumped =>
    by_cases self : t = R.memberOf ρ i
    · subst self
      rw [moves.new, Option.some.injEq] at known
      subst known
      apply same isTask begun' _ moves.old
      rcases List.mem_append.mp inside with above | here
      · exact List.mem_append_left _ above
      · rcases List.mem_cons.mp here with rfl | here
        · exact absurd old (lt_irrefl _)
        · rw [List.mem_singleton.mp here]
          simp
    · have task : (R.after (.barrierEnd (R.memberOf ρ i))).task t = R.task t := by simp [Runtime.after, self]
      exact same isTask (by rw [← task]; exact begun) label ((moves.others t self).symm.trans known) inside
  | @join ρ upper own isRegion live' closing settled before now others heap =>
    have first := (adv.nested.bounds ρ isRegion).1
    have isMember := adv.nested.member_lt isRegion first
    have begun₀ := adv.begun_closing isRegion first closing
    by_cases self : t = (R.region ρ).encountering
    · subst self
      obtain ⟨init, x, y, forker, rfl, -, -, owns⟩ := adv.join_shape origins isRegion live' closing before
      rw [now, Option.some.injEq] at known
      subst known
      have isOpen := adv.nested.live_open isRegion first live'
      have alive := adv.nested.forker adv.lineage isRegion isOpen
      rcases List.mem_append.mp inside with above | here
      · exact same (adv.nested.encountering_lt isRegion) alive.1 _ forker (List.mem_append_left _ above)
      · rw [List.mem_singleton.mp here] at guards ⊢
        refine ⟨_, isMember, begun₀, live', _, before, by simp, .inr ⟨⟨ρ, 0, (adv.nested.kind ρ isRegion 0 first).1⟩, ?_⟩⟩
        have mapped := (adv.lined.place_length (adv.nested.encountering_lt isRegion) alive.1 forker).1
        rw [Runtime.place_live alive.2, List.map_append, List.map_singleton] at mapped
        rw [adv.lineage.waiting ρ isRegion 0 first live', ← mapped, List.getLast?_concat, owns]
    · have same' : ((R.after (.implicitEnd (R.memberOf ρ 0))).task t).begun = (R.task t).begun := by
        by_cases first : t = R.memberOf ρ 0 <;> simp [Runtime.after, first]
      exact same isTask (same'.symm.trans begun) label ((others t self).symm.trans known) inside

theorem child_last {t c z : Nat} (kids : Kids R d) (child : c ∈ d.children t)
    (ended : (R.task c).ended = true) (last : d.IsLast c z) : z < d.heap.next ∧ (owner z).task = t ∧
      ∀ label, d.label t = some label → z ∉ label := by
  obtain ⟨isChild, kind, parent⟩ := kids t c child
  obtain ⟨above, known⟩ := last
  have begun := (adv.nested.explicit c isChild kind).2.1
  have there := adv.held isChild begun known z (by simp)
  obtain ⟨mapped, -⟩ := adv.lined.place_length isChild begun known
  rw [Runtime.place, if_pos ⟨kind, ended⟩] at mapped
  obtain ⟨upper, strand, line, task⟩ := adv.lineage.line_last isChild (explicit_ne_zero adv.nested kind)
  have tail : (R.task c).line.getLast? = some (owner z) := by
    rw [← mapped, List.map_append, List.map_singleton, List.getLast?_concat]
  have self : strand = owner z := by
    rw [line, List.getLast?_concat, Option.some.injEq] at tail
    exact tail
  refine ⟨there, by rw [← self, task, parent], fun label known' inside => ?_⟩
  have births := origins.births c isChild kind label (parent ▸ known') z inside tail
  have birth : R.birth d c = above ++ [z] := by
    rw [Runtime.birth, known, Option.getD_some, ← mapped, List.length_map]
    exact List.take_length
  rw [Runtime.tick, birth, List.getLast?_concat, Option.map_some, Option.getD_some] at births
  exact absurd births (lt_irrefl _)

omit origins in
theorem marking_held {t : Nat} {refs : List Nat} {f : Segment → Segment} (kids : Kids R d)
    (marking : Marking R d d' t refs f e) {z : Nat} (marked : z ∈ refs) :
    z < d.heap.next ∧ ∃ c ∈ d.children t, d.IsLast c z := by
  have held : ∀ c ∈ d.children t, d.IsLast c z → z < d.heap.next ∧ ∃ c ∈ d.children t, d.IsLast c z := by
    rintro c child ⟨above, known⟩
    obtain ⟨isChild, kind, -⟩ := kids t c child
    exact ⟨adv.held isChild (adv.nested.explicit c isChild kind).2.1 known z (by simp), c, child, above, known⟩
  cases marking with
  | taskwait _ _ lasts =>
    obtain ⟨c, child, last⟩ := (lasts z).mp marked
    exact held c child last
  | taskgroup _ _ lasts =>
    obtain ⟨c, child, above, known, -⟩ := (lasts z).mp marked
    exact held c child ⟨above, known⟩

/-- The mark of a child that has ended goes to a segment that no task executes code in any longer. -/
theorem marked_elsewhere {actor c t z : Nat} {label : Label} (kids : Kids R d) (runs : (R.task actor).running = true)
    (child : c ∈ d.children actor) (ended : (R.task c).ended = true) (last : d.IsLast c z) (isTask : t < R.tasks)
    (live : (R.task t).ended = false) (known : d.label t = some label) (inside : z ∈ label) : ¬R.Guards t (owner z) := by
  obtain ⟨there, self, absent⟩ := adv.child_last origins kids child ended last
  rintro (own | ⟨⟨r, i, kind⟩, last⟩)
  · rw [← own, self] at known
    exact absent label known inside
  · obtain ⟨isRegion, isMember, rfl⟩ := adv.nested.member t isTask r i kind
    obtain ⟨line, strand, split, parent⟩ := adv.lineage.line_last isTask (adv.nested.member_ne_zero isRegion i)
    rw [split, List.getLast?_concat, Option.some.injEq] at last
    rw [(adv.nested.kind r isRegion i isMember).2.1, last, self] at parent
    exact Runtime.Nested.running_not_open runs parent.symm (adv.nested.live_open isRegion isMember live)

omit origins in
/-- A segment that was there is as it was, or the end of a synchronisation has marked it. -/
theorem old_marks (kids : Kids R d) {z : Nat} (old : z < d.heap.next) : d'.heap.objects z = d.heap.objects z ∨
    ∃ t refs f, (R.task t).running = true ∧ Marking R d d' t refs f e ∧ z ∈ refs ∧
      d'.heap.objects z = f (d.heap.objects z) := by
  cases adv.stamp kids with
  | still heap => exact .inl (by rw [heap])
  | fresh heap | version _ _ _ _ _ _ _ heap => exact .inl (by rw [heap, (d.heap.alloc_extends _).2 z old])
  | create _ _ _ _ _ _ _ heap =>
    left
    rw [heap, ((d.heap.alloc _).1.alloc_extends _).2 z (old.trans (Nat.lt_succ_self _)),
      (d.heap.alloc_extends _).2 z old]
  | @marks t label r s refs f _ runs _ _ _ _ heap _ marking =>
    rw [heap, Heap.mark_objects, (d.heap.alloc_extends _).2 z old]
    split
    · rename_i marked
      exact .inr ⟨t, refs, f, runs, marking, marked, rfl⟩
    · exact .inl rfl

omit origins in
theorem new_marks (kids : Kids R d) {z : Nat} (bound : z < d'.heap.next) (new : ¬z < d.heap.next) :
    (d'.heap.objects z).Bare ∨ ∃ t label r, t < R.tasks ∧ (R.task t).begun = true ∧ (R.task t).ended = false ∧
      d.label t = some label ∧ r ∈ label ∧ R.Guards t (owner r) ∧ (owner' z).task = (owner r).task ∧
      (d.heap.objects r).SameMarks (d'.heap.objects z) := by
  cases adv.stamp kids with
  | still heap =>
    rw [heap] at bound
    exact absurd bound new
  | @fresh s heap bare =>
    have self : z = d.heap.next := by
      rw [heap] at bound
      exact Nat.le_antisymm (Nat.lt_succ_iff.mp bound) (by omega)
    left
    rw [heap, self, Heap.alloc_read]
    exact bare
  | @version t label r s isTask begun live known inside guards kept heap same =>
    have self : z = d.heap.next := by
      rw [heap] at bound
      exact Nat.le_antisymm (Nat.lt_succ_iff.mp bound) (by omega)
    subst self
    rw [heap, Heap.alloc_read]
    exact .inr ⟨t, label, r, isTask, begun, live, known, inside, guards, kept, same⟩
  | @create t label r x s isTask begun live known inside guards kept heap bare same =>
    have self : z = d.heap.next ∨ z = d.heap.next + 1 := by
      rw [heap] at bound
      change z < d.heap.next + 1 + 1 at bound
      omega
    rcases self with rfl | rfl
    · left
      rw [heap, ((d.heap.alloc x).1.alloc_extends s).2 d.heap.next (Nat.lt_succ_self _), Heap.alloc_read]
      exact bare
    · refine .inr ⟨t, label, r, isTask, begun, live, known, inside, guards, kept, ?_⟩
      rw [heap]
      change Segment.SameMarks _ (((d.heap.alloc x).1.alloc s).1.objects (d.heap.alloc x).1.next)
      rw [Heap.alloc_read]
      exact same
  | @marks t label r s refs f isTask runs known inside guards kept heap same marking =>
    have self : z = d.heap.next := by
      rw [heap] at bound
      exact Nat.le_antisymm (Nat.lt_succ_iff.mp bound) (by omega)
    subst self
    obtain ⟨begun, live, -⟩ := Task.running_iff.mp runs
    refine .inr ⟨t, label, r, isTask, begun, live, known, inside, guards, kept, ?_⟩
    rw [heap, Heap.mark_objects, if_neg fun marked => new (adv.marking_held kids marking marked).1, Heap.alloc_read]
    exact same

theorem clean_after {clean : Segment → Prop} {pending pending' : Nat → Prop} (tells : Segment.TellsMarks clean)
    (kids : Kids R d) (pends : ∀ x < R.tasks, pending' x → pending x)
    (keeps : ∀ t refs f, (R.task t).running = true → Marking R d d' t refs f e → ∀ z ∈ refs,
      pending' (owner z).task → (∀ s, clean s → clean (f s)) ∨ ∃ c ∈ d.children t, (R.task c).ended = true ∧ d.IsLast c z)
    (before : d.Clean R owner clean pending) : d'.Clean (R.after e) owner' clean pending' := by
  intro t isTask begun live label known z inside guards awaits
  have bound := (adv.lined'.place_length isTask begun known).2 z inside
  by_cases old : z < d.heap.next
  · obtain ⟨x, isTask, begun, live, label, known, inside, guards⟩ :=
      adv.guarded_before origins isTask begun live known inside guards old
    rw [adv.owners z old] at awaits
    have was := before x isTask begun live label known z inside guards (pends _ (origins.past z old).1 awaits)
    rcases adv.old_marks kids old with same | ⟨actor, refs, f, runs, marking, marked, form⟩
    · rwa [same]
    · rw [form]
      rcases keeps _ _ _ runs marking z marked awaits with keeps | ⟨c, child, ended, last⟩
      · exact keeps _ was
      · exact absurd guards (adv.marked_elsewhere origins kids runs child ended last isTask live known inside)
  · rcases adv.new_marks kids bound old with bare | ⟨actor, upper, r, isActor, begun, live, known, member, guarded, kept, same⟩
    · exact tells.bare _ bare
    · have isOwner := (origins.past r (adv.held isActor begun known r member)).1
      exact tells.same _ _ same
        (before actor isActor begun live upper known r member guarded (pends _ isOwner (kept ▸ awaits)))

/-- The segments that are a task's own carry no marks while the task executes code. -/
theorem bare_after (kids : Kids R d) (groups : ∀ t, e = .taskgroupEnd t → ∀ init r, d.label t = some (init ++ [r]) →
      ∀ c ∈ d.children t, ∀ x, d.Accounted (init.length + 1) (d.heap.objects r).getTaskGroupId c x →
      (R.task c).ended = true)
    (bare : d.Clean R owner Segment.Bare fun _ => True) : d'.Clean (R.after e) owner' Segment.Bare fun _ => True := by
  refine adv.clean_after origins ⟨fun _ bare => bare, fun _ _ same bare => bare.of_marks same⟩ kids (fun _ _ _ => trivial) ?_ bare
  intro t refs f runs marking z marked _
  right
  cases marking with
  | taskwait known _ lasts ended =>
    obtain ⟨c, child, last⟩ := (lasts z).mp marked
    exact ⟨c, child, ended c child, last⟩
  | taskgroup known _ lasts =>
    obtain ⟨c, child, accounted⟩ := (lasts z).mp marked
    exact ⟨c, child, groups t rfl _ _ known c child z accounted, accounted.choose, accounted.choose_spec.1⟩

end Advance

end Romp
