import Romp.Runtime.WellNested

namespace Romp

namespace Segment

theorem tells_taskwaited : TellsMarks fun s => s.isTaskwaited = false :=
  ⟨fun _ bare => bare.1, fun _ _ same clear => same.1.trans clear⟩

theorem tells_taskGroupSync : TellsMarks fun s => s.isTaskGroupSync = false :=
  ⟨fun _ bare => bare.2, fun _ _ same clear => same.2.trans clear⟩

theorem isTaskGroupSync_markTaskwaited (phase : Nat) (s : Segment) :
    (s.markTaskwaited phase).isTaskGroupSync = s.isTaskGroupSync :=
  congrArg Contents.taskGroupSync (s.contents_markTaskwaited phase)

theorem isTaskwaited_setTaskGroupSync (s : Segment) : s.setTaskGroupSync.isTaskwaited = s.isTaskwaited :=
  congrArg Contents.taskwaited s.contents_setTaskGroupSync

theorem isTaskGroupSync_marked (s : Segment) : s.setTaskGroupSync.isTaskGroupSync = true :=
  congrArg Contents.taskGroupSync s.contents_setTaskGroupSync

/-- A segment that has the mark of a taskgroup stays as it is when it gets the mark again. -/
theorem setTaskGroupSync_marked {s : Segment} (marked : s.isTaskGroupSync = true) : s.setTaskGroupSync = s := by
  have same : s.setTaskGroupSync.contents = s.contents := by
    rw [contents_setTaskGroupSync, ← show s.contents.taskGroupSync = true from marked]
  have value : s.setTaskGroupSync.value = s.value :=
    (value_eq_iff _ _).mpr (by rw [word, word, same])
  change ({ s with value := s.setTaskGroupSync.value } : Segment) = s
  rw [value]

end Segment

theorem Runtime.waited_after {R : Runtime} {e : Event} {c : Nat} (isTask : c < R.tasks) :
    ((R.after e).task c).waited = (R.task c).waited ∨ ∃ t, e = .taskwaitEnd t ∧ c ∈ R.children t := by
  have set : ∀ {S : Runtime} {t : Nat} {task : Task}, task.waited = (S.task t).waited →
      ((S.set t task).task c).waited = (S.task c).waited := by
    intro S t task same
    rw [set_task]
    by_cases self : c = t
    · rw [if_pos self, self, same]
    · rw [if_neg self]
  cases e with
  | parallelBegin t size =>
    left
    rw [fork_task isTask]
    split
    · rename_i self
      rw [self]
      rfl
    · rfl
  | release r =>
    obtain ⟨known, same⟩ := release_kept (R := R) (r := r) c
    exact .inl (by rw [same])
  | taskwaitEnd t =>
    by_cases child : c ∈ R.children t
    · exact .inr ⟨t, rfl, child⟩
    · left
      simp only [after, waitTask, if_neg child]
      split
      · rename_i self
        rw [self]
        rfl
      · rfl
  | taskCreate t => exact .inl (by simp [after, Nat.ne_of_lt isTask])
  | dependences => exact .inl rfl
  | implicitBegin | barrierBegin | barrierEnd | implicitEnd | parallelEnd | taskComplete | orderedBegin =>
    exact .inl (set rfl)
  | taskgroupBegin t =>
    have entered : ((R.set t ((R.task t).enter (.taskgroup R.groups))).task c).waited = (R.task c).waited := set rfl
    exact .inl entered
  | taskgroupEnd t =>
    left
    simp only [after]
    split
    · exact set rfl
    · rfl
  | workBegin t work executor =>
    left
    simp only [after, beginWork]
    split <;> exact set rfl
  | workEnd t =>
    left
    have left : ∀ S : Runtime, ((S.set t (S.task t).leave).task c).waited = (S.task c).waited := fun S => set rfl
    exact (left _).trans (by rw [finishIteration_task])
  | dispatch t id =>
    left
    have moved : ∀ (S : Runtime) constructs, ((S.set t { S.task t with constructs }).task c).waited = (S.task c).waited :=
      fun S constructs => set rfl
    simp only [after, dispatchTo]
    split
    · rw [setRegion_task, moved, finishIteration_task]
    · rw [moved, finishIteration_task]
    · rw [finishIteration_task]
  | orderedEnd t =>
    left
    simp only [after, finishIteration_task]
    exact set rfl
  | access t =>
    have learned : ((R.set t ((R.task t).learn fun a => a == R.accesses)).task c).waited = (R.task c).waited := set rfl
    exact .inl learned

/-- The labels that accesses in a task, and in the tasks below it, record at some point of a run. -/
def System.Recorded (es : List Event) (c : Nat) (label : Label) : Prop :=
  ∃ before, before <+: es ∧ ∃ s x, System.run before = some s ∧ s.runtime.running x = true ∧
    ⟨c, none⟩ ∈ (s.runtime.task x).strands x ∧ s.detector.label x = some label

theorem System.Recorded.append {es more : List Event} {c : Nat} {label : Label} (recorded : System.Recorded es c label) :
    System.Recorded (es ++ more) c label := by
  obtain ⟨before, begins, rest⟩ := recorded
  exact ⟨before, begins.trans (List.prefix_append _ _), rest⟩

def System.Pending (s : System) (c : Nat) : Prop := c ∈ s.detector.children (s.runtime.task c).parent

/-- What a run leaves of the marks: the last segment that a task has had of its own never gets the mark of a taskwait,
    nor that of a taskgroup while the task is on the list of its parent. -/
structure Synced (es : List Event) (s : System) (owner : Nat → Strand) (fork : Nat → Contents)
    (below : Strand → Contents) : Prop where
  placed : Placed s owner
  origins : Origins s.runtime s.detector owner fork below
  kids : Kids s.runtime s.detector
  unwaited : ∀ t, ∀ c ∈ s.detector.children t, (s.runtime.task c).waited = none
  taskwaited : s.detector.Clean s.runtime owner (fun x => x.isTaskwaited = false) fun _ => True
  grouped : s.detector.Clean s.runtime owner (fun x => x.isTaskGroupSync = false) s.Pending
  last : ∀ c < s.runtime.tasks, (s.runtime.task c).kind = .explicit → (s.runtime.task c).ended = true →
    ∃ label x, System.Recorded es c label ∧ label[(s.runtime.task c).line.length]? = some x ∧ (owner x).task = c ∧
      x < s.detector.heap.next ∧ (s.detector.heap.objects x).isTaskwaited = false ∧
      (s.Pending c → (s.detector.heap.objects x).isTaskGroupSync = false)

namespace Advance

variable {R : Runtime} {d d' : Detector} {owner owner' : Nat → Strand} {e : Event} {fork : Nat → Contents}
  {below : Strand → Contents} (adv : Advance R d d' owner owner' e)

include adv

theorem live_last {t c z : Nat} (kids : Kids R d) (child : c ∈ d.children t) (live : (R.task c).ended = false)
    (last : d.IsLast c z) : (owner z).task = c := by
  obtain ⟨isChild, kind, -⟩ := kids t c child
  obtain ⟨above, known⟩ := last
  exact (adv.lined.last_task isChild (adv.nested.explicit c isChild kind).2.1 live known).2

theorem pending_before {x : Nat} (isTask : x < R.tasks) (pending : x ∈ d'.children ((R.after e).task x).parent) :
    x ∈ d.children (R.task x).parent := by
  rw [((Runtime.after_extends R e).fixed x isTask).parent] at pending
  rcases adv.children_after pending with old | ⟨-, rfl⟩
  · exact old
  · exact absurd isTask (lt_irrefl _)

variable (origins : Origins R d owner fork below) (kids : Kids R d)

include origins kids

theorem taskwaited_after (before : d.Clean R owner (fun x => x.isTaskwaited = false) fun _ => True) :
    d'.Clean (R.after e) owner' (fun x => x.isTaskwaited = false) fun _ => True := by
  refine adv.clean_after origins Segment.tells_taskwaited kids (fun _ _ _ => trivial) ?_ before
  intro t refs f runs marking z marked _
  cases marking with
  | taskwait known _ lasts ended =>
    obtain ⟨c, child, last⟩ := (lasts z).mp marked
    exact .inr ⟨c, child, ended c child, last⟩
  | taskgroup known form =>
    left
    intro s clear
    rw [form, Segment.isTaskwaited_setTaskGroupSync, clear]

/-- A child that a taskgroup accounts for is off the list, if it has not ended. -/
theorem grouped_after (before : d.Clean R owner (fun x => x.isTaskGroupSync = false)
      fun c => c ∈ d.children (R.task c).parent) :
    d'.Clean (R.after e) owner' (fun x => x.isTaskGroupSync = false)
      fun c => c ∈ d'.children ((R.after e).task c).parent := by
  refine adv.clean_after origins Segment.tells_taskGroupSync kids (fun _ isTask => adv.pending_before isTask) ?_ before
  intro t refs f runs marking z marked pending
  cases marking with
  | taskwait known form =>
    left
    intro s clear
    rw [form, Segment.isTaskGroupSync_markTaskwaited, clear]
  | taskgroup known _ lasts gone =>
    obtain ⟨c, child, accounted⟩ := (lasts z).mp marked
    obtain ⟨isChild, kind, parent⟩ := kids t c child
    have last : d.IsLast c z := ⟨accounted.choose, accounted.choose_spec.1⟩
    cases live : (R.task c).ended with
    | true => exact .inr ⟨c, child, live, last⟩
    | false =>
      rw [adv.live_last kids child live last, ((Runtime.after_extends R _).fixed c isChild).parent, parent] at pending
      exact absurd pending (gone c z accounted)

/-- A segment of a task that has ended gets no more marks from a child of its own, and none from its parent if it was
    not the last one of the task's label. -/
theorem ended_unmarked {z : Nat} (there : z < d.heap.next) (ended : (R.task (owner z).task).ended = true) :
    d'.heap.objects z = d.heap.objects z := by
  rcases adv.old_marks kids there with same | ⟨t, refs, f, runs, marking, marked, -⟩
  · exact same
  · exfalso
    obtain ⟨-, c, child, last⟩ := adv.marking_held kids marking marked
    cases live : (R.task c).ended with
    | true =>
      rw [(adv.child_last origins kids child live last).2.1, (Task.running_iff.mp runs).2.1] at ended
      cases ended
    | false =>
      rw [adv.live_last kids child live last, live] at ended
      cases ended

end Advance

theorem Runtime.ended_cases {R : Runtime} {e : Event} {c : Nat} (enabled : R.enabled e = true)
    (isTask : c < (R.after e).tasks) (kind : ((R.after e).task c).kind = .explicit)
    (ended : ((R.after e).task c).ended = true) : c < R.tasks ∧ ((R.task c).ended = true ∨ e = .taskComplete c) := by
  by_cases old : c < R.tasks
  · refine ⟨old, ?_⟩
    by_cases plain : e.Bounds
    · cases e with
      | implicitBegin t =>
        left
        by_cases self : c = t
        · subst self
          simpa [after] using ended
        · simpa [after, self] using ended
      | implicitEnd t =>
        by_cases self : c = t
        · subst self
          simp only [Runtime.enabled, Bool.and_eq_true] at enabled
          have ends := enabled.2
          rw [← ((after_extends R _).fixed c old).kind, kind] at ends
          cases ends
        · left
          simpa [after, self] using ended
      | taskComplete t =>
        by_cases self : c = t
        · exact .inr (by rw [self])
        · left
          simpa [after, self] using ended
      | _ => cases plain
    · rw [(lives_after plain).ended c old] at ended
      exact .inl ended
  · obtain ⟨_, _, _, _, _, _, _, _, made⟩ := new_task old isTask
    rw [made] at ended
    cases ended

namespace Synced

variable {es : List Event} {s s' : System} {owner : Nat → Strand} {fork : Nat → Contents}
  {below : Strand → Contents}

theorem last_now (synced : Synced es s owner fork below) (ran : System.run es = some s) {c : Nat}
    (running : s.runtime.running c = true) (empty : (s.runtime.task c).constructs = []) :
    ∃ label x, System.Recorded es c label ∧
      label[(s.runtime.task c).line.length]? = some x ∧ (owner x).task = c ∧ x < s.detector.heap.next ∧
      (s.detector.heap.objects x).isTaskwaited = false ∧
      (s.Pending c → (s.detector.heap.objects x).isTaskGroupSync = false) := by
  obtain ⟨isTask, runs⟩ := Runtime.running_lt running
  obtain ⟨begun, live, -⟩ := Task.running_iff.mp runs
  obtain ⟨label, known, holds, -⟩ := synced.placed.lined.label c isTask begun
  have length := synced.placed.lined.label_length isTask begun live known
  have body : (s.runtime.task c).body = none := by rw [Task.body, empty]; rfl
  rw [body, Option.toList_none, List.length_nil, Nat.add_zero] at length
  rcases List.eq_nil_or_concat' label with rfl | ⟨init, x, rfl⟩
  · cases length
  · rw [List.length_append, List.length_singleton, Nat.add_right_cancel_iff] at length
    obtain ⟨-, own⟩ := synced.placed.lined.last_task isTask begun live known
    refine ⟨_, x, ⟨es, List.prefix_refl _, s, c, ran, running, by simp [Task.strands], known⟩, ?_, own,
      holds x (by simp), ?_, fun pending => ?_⟩
    · rw [← length, List.getElem?_append_right (le_refl _), Nat.sub_self]
      rfl
    · exact synced.taskwaited c isTask begun live _ known x (by simp) (.inl own) trivial
    · exact synced.grouped c isTask begun live _ known x (by simp) (.inl own) (by rw [own]; exact pending)

theorem step (synced : Synced es s owner fork below) (ran : System.run es = some s) (nested : s.runtime.Nested)
    (lineage : s.runtime.Lineage) (closing : s.runtime.Closing) {e : Event} (stepped : s.step e = some s') :
    ∃ owner' fork' below', Synced (es ++ [e]) s' owner' fork' below' ∧
      Advance s.runtime s.detector s'.detector owner owner' e := by
  obtain ⟨-, -, runtime, -⟩ := System.step_cases stepped
  obtain ⟨owner', placed', adv⟩ := synced.placed.advance nested lineage closing stepped
  obtain ⟨fork', below', origins', -⟩ := adv.origins synced.origins
  have kids' := adv.kids_after synced.kids
  have taskwaited' := adv.taskwaited_after synced.origins synced.kids synced.taskwaited
  have grouped' := adv.grouped_after synced.origins synced.kids synced.grouped
  refine ⟨owner', fork', below', ⟨placed', ?_, ?_, ?_, ?_, ?_, ?_⟩, adv⟩
  · rw [runtime]
    exact origins'
  · rw [runtime]
    exact kids'
  · intro t c child
    rw [runtime]
    rcases adv.children_after child with old | ⟨rfl, rfl⟩
    · obtain ⟨isChild, kind, parent⟩ := synced.kids t c old
      rcases Runtime.waited_after (R := s.runtime) (e := e) isChild with same | ⟨t', rfl, waited⟩
      · exact same.trans (synced.unwaited t c old)
      · -- the list of a task that has waited is empty
        obtain ⟨init, r, _, refs, -, -, -, -, children⟩ := Detector.handle_taskwaitEnd adv.handled
        obtain rfl : t' = t := ((s.runtime.mem_children t').mp waited).2.2.symm.trans parent
        rw [children, if_pos rfl] at child
        cases child
    · simp [Runtime.after, Task.new]
  · rw [runtime]
    exact taskwaited'
  · unfold System.Pending
    rw [runtime]
    exact grouped'
  · intro c isTask kind ended
    rw [runtime] at isTask kind ended
    obtain ⟨old, before⟩ := Runtime.ended_cases adv.enabled isTask kind ended
    have fixed := (Runtime.after_extends s.runtime e).fixed c old
    have found : ∃ label x, System.Recorded es c label ∧ label[(s.runtime.task c).line.length]? = some x ∧
        (owner x).task = c ∧ x < s.detector.heap.next ∧ (s.detector.heap.objects x).isTaskwaited = false ∧
        (s.Pending c → (s.detector.heap.objects x).isTaskGroupSync = false) ∧
        s'.detector.heap.objects x = s.detector.heap.objects x := by
      rcases before with before | rfl
      · obtain ⟨label, x, recorded, place, own, there, clear, clear'⟩ :=
          synced.last c old (fixed.kind.symm.trans kind) before
        exact ⟨label, x, recorded, place, own, there, clear, clear',
          adv.ended_unmarked synced.origins synced.kids there (own ▸ before)⟩
      · have enabled := adv.enabled
        simp only [Runtime.enabled, Bool.and_eq_true, List.isEmpty_iff] at enabled
        obtain ⟨label, x, recorded, place, own, there, clear, clear'⟩ :=
          synced.last_now ran enabled.1.1 enabled.2
        obtain ⟨isTask, runs⟩ := Runtime.running_lt enabled.1.1
        obtain ⟨old, known, -⟩ := synced.placed.lined.label c isTask (Task.running_iff.mp runs).1
        obtain ⟨_, _, -, heap⟩ := Detector.handle_taskComplete known adv.handled
        exact ⟨label, x, recorded, place, own, there, clear, clear', by rw [heap]⟩
    obtain ⟨label, x, recorded, place, own, there, clear, clear', same⟩ := found
    refine ⟨label, x, recorded.append, ?_, ?_, ?_, ?_, fun pending => ?_⟩
    · rw [runtime, fixed.line]
      exact place
    · rw [adv.owners x there]
      exact own
    · exact Nat.lt_of_lt_of_le there adv.grows.next
    · rw [same]
      exact clear
    · rw [same]
      refine clear' (adv.pending_before old ?_)
      unfold System.Pending at pending
      rw [runtime] at pending
      exact pending

end Synced

theorem System.run_synced {es : List Event} {s : System} (ran : System.run es = some s) :
    System.Reachable (fun _ _ => True) s ∧ ∃ owner fork below, Synced es s owner fork below := by
  have reached : ∀ {es s}, System.run es = some s → System.Reachable (fun _ _ => True) s :=
    fun ran => .of_run (fun _ _ _ => trivial) ran
  refine ⟨reached ran, ?_⟩
  refine System.run_induction (motive := fun es s => ∃ owner fork below, Synced es s owner fork below)
    (fun s begun => ?_) (fun es e s s' before ih stepped => ?_) ran
  · have none := System.kids_initial begun
    refine ⟨_, fun _ => s.detector.plain 0, fun _ => s.detector.plain 0, System.placed_initial begun,
      System.origins_initial begun _ _, fun t c child => ?_, fun t c child => ?_,
      System.clean_initial begun Segment.tells_taskwaited _, System.clean_initial begun Segment.tells_taskGroupSync _, ?_⟩
    · rw [none] at child
      cases child
    · rw [none] at child
      cases child
    · cases begun
      intro c isTask kind
      cases Nat.lt_one_iff.mp isTask
      cases kind
  · obtain ⟨owner, fork, below, synced⟩ := ih
    have at_ := reached before
    obtain ⟨owner', fork', below', synced', -⟩ := synced.step before at_.nested at_.lineage at_.closing stepped
    exact ⟨owner', fork', below', synced'⟩

/-- The children that a task has created since its last taskwait. -/
def System.Awaited (s : System) (t c : Nat) : Prop :=
  c < s.runtime.tasks ∧ (s.runtime.task c).kind = .explicit ∧ (s.runtime.task c).parent = t ∧ (s.runtime.task c).waited = none

/-- The children that a task has created in the taskgroup that it is in, and that have not been marked yet. -/
def System.AwaitedInGroup (s : System) (t c : Nat) : Prop :=
  c ∈ s.detector.children t ∧ ∃ g ∈ (s.runtime.task t).openGroups.head?, g ∈ (s.runtime.task c).groups

/-- A synchronisation marks the awaited children: in all labels that they and the tasks below them have recorded, the
    child's own segment has the mark, and no other segment changes. -/
structure System.Marks (es : List Event) (s s' : System) (awaited : Nat → Prop) (synced : Segment → Prop) : Prop where
  reached : ∀ c, awaited c → ∀ label, System.Recorded es c label →
    ∀ x, label[(s.runtime.task c).line.length]? = some x → synced (s'.detector.heap.objects x)
  others : ∀ x < s.detector.heap.next, s'.detector.heap.objects x ≠ s.detector.heap.objects x →
    ∃ c label, awaited c ∧ System.Recorded es c label ∧ label[(s.runtime.task c).line.length]? = some x

/-- The end of a taskgroup lets the child pass: its label is not longer than that of the task, and its last segment has
    the number of the taskgroup. -/
def System.Passes (s : System) (t c x : Nat) : Prop :=
  ∃ init r, s.detector.label t = some (init ++ [r]) ∧
    s.detector.Accounted (init.length + 1) (s.detector.heap.objects r).getTaskGroupId c x

section Ends

variable {es : List Event} {s s' : System} {t : Nat}

theorem taskwait_marks_iff (ran : System.run es = some s) (stepped : s.step (.taskwaitEnd t) = some s') :
    System.Marks es s s' (s.Awaited t) (fun x => x.isTaskwaited = true ∧
      some x.getTaskwaitPhase = (s.lastSegment t).map Segment.getPhase) ↔ ∀ c, ¬s.Awaited t c := by
  obtain ⟨reached, owner, fork, below, synced⟩ := System.run_synced ran
  obtain ⟨owner', fork', below', synced', adv⟩ := synced.step ran reached.nested reached.lineage reached.closing stepped
  have enabled := adv.enabled
  simp only [Runtime.enabled, Bool.and_eq_true, Runtime.allEnded_iff] at enabled
  constructor
  · rintro marks c ⟨isTask, kind, parent, unwaited⟩
    have ended := enabled.2 c ((s.runtime.mem_children t).mpr ⟨isTask, kind, parent⟩)
    obtain ⟨label, x, recorded, place, own, there, clear, -⟩ := synced.last c isTask kind ended
    have marked := (marks.reached c ⟨isTask, kind, parent, unwaited⟩ label recorded x place).1
    rw [adv.ended_unmarked synced.origins synced.kids there (own ▸ ended), clear] at marked
    cases marked
  · intro nothing
    refine ⟨fun c awaited => absurd awaited (nothing c), fun x there changed => absurd ?_ changed⟩
    obtain ⟨init, r, _, refs, -, -, heap, members, -⟩ := Detector.handle_taskwaitEnd adv.handled
    rw [heap, Heap.mark_objects, if_neg ?_, (s.detector.heap.alloc_extends _).2 x there]
    intro marked
    obtain ⟨c, child, -⟩ := (members x).mp marked
    obtain ⟨isChild, kind, parent⟩ := synced.kids t c child
    exact nothing c ⟨isChild, kind, parent, synced.unwaited t c child⟩

theorem taskgroup_marks_iff (ran : System.run es = some s) (stepped : s.step (.taskgroupEnd t) = some s') :
    System.Marks es s s' (s.AwaitedInGroup t) (fun x => x.isTaskGroupSync = true ∧
      some x.getTaskGroupPhase = (s.lastSegment t).map Segment.getPhase) ↔
    (∀ c, ¬s.AwaitedInGroup t c) ∧
      ∀ c ∈ s.detector.children t, ∀ x, s.Passes t c x → (s.detector.heap.objects x).isTaskGroupSync = true := by
  obtain ⟨reached, owner, fork, below, synced⟩ := System.run_synced ran
  obtain ⟨owner', fork', below', synced', adv⟩ := synced.step ran reached.nested reached.lineage reached.closing stepped
  have enabled := adv.enabled
  simp only [Runtime.enabled, Bool.and_eq_true] at enabled
  obtain ⟨running, inside⟩ := enabled
  obtain ⟨refs, objects, members⟩ : ∃ refs, (∀ x < s.detector.heap.next, s'.detector.heap.objects x =
      if x ∈ refs then (s.detector.heap.objects x).setTaskGroupSync else s.detector.heap.objects x) ∧
      ∀ x, x ∈ refs ↔ ∃ c ∈ s.detector.children t, s.Passes t c x := by
    obtain ⟨init, r, _, refs, moves, -, heap, lasts, -⟩ := adv.taskgroup_marks synced.kids rfl
    refine ⟨refs, fun x there => ?_, fun x => ?_⟩
    · rw [heap, Heap.mark_objects, (s.detector.heap.alloc_extends _).2 x there]
    · rw [lasts]
      refine exists_congr fun c => and_congr_right fun _ => ⟨fun accounted => ⟨init, r, moves.old, accounted⟩, ?_⟩
      rintro ⟨init', r', known, accounted⟩
      rw [moves.old, Option.some.injEq] at known
      obtain ⟨rfl, last⟩ := List.append_inj' known rfl
      cases last
      exact accounted
  constructor
  · intro marks
    have nothing : ∀ c, ¬s.AwaitedInGroup t c := by
      rintro c ⟨child, g, top, inGroup⟩
      obtain ⟨isChild, kind, parent⟩ := synced.kids t c child
      have ended : (s.runtime.task c).ended = true := by
        split at inside
        · rename_i g' rest constructs
          rw [Task.openGroups, constructs] at top
          obtain rfl : g' = g := by simpa using top
          rw [Runtime.allEnded_iff] at inside
          apply inside c
          rw [Runtime.inGroup, Runtime.mem_tasksWith]
          exact ⟨isChild, List.contains_iff_mem.mpr inGroup⟩
        · cases inside
      obtain ⟨label, x, recorded, place, own, there, -, clear⟩ := synced.last c isChild kind ended
      have marked := (marks.reached c ⟨child, g, top, inGroup⟩ label recorded x place).1
      rw [adv.ended_unmarked synced.origins synced.kids there (own ▸ ended),
        clear (by rw [System.Pending, parent]; exact child)] at marked
      cases marked
    refine ⟨nothing, fun c child x passes => ?_⟩
    obtain ⟨init, r, known, above, own, -⟩ := id passes
    obtain ⟨isChild, kind, -⟩ := synced.kids t c child
    have there := adv.held isChild (adv.nested.explicit c isChild kind).2.1 own x (by simp)
    have same : s'.detector.heap.objects x = s.detector.heap.objects x := by
      by_contra changed
      obtain ⟨c', -, awaited, -⟩ := marks.others x there changed
      exact nothing c' awaited
    rw [← same, objects x there, if_pos ((members x).mpr ⟨c, child, passes⟩)]
    exact Segment.isTaskGroupSync_marked _
  · rintro ⟨nothing, marked⟩
    refine ⟨fun c awaited => absurd awaited (nothing c), fun x there changed => absurd ?_ changed⟩
    rw [objects x there]
    split
    · rename_i passed
      obtain ⟨c, child, passes⟩ := (members x).mp passed
      exact Segment.setTaskGroupSync_marked (marked c child x passes)
    · rfl

/-- The end of a synchronisation does to the marks what it should exactly if it has nothing to do: the mark of a child
    goes to a segment of its parent, since the child's own segment has left the label at the child's completion. -/
theorem sync_marks_iff (ran : System.run es = some s) :
    (s.step (.taskwaitEnd t) = some s' →
      (System.Marks es s s' (s.Awaited t) (fun x => x.isTaskwaited = true ∧
        some x.getTaskwaitPhase = (s.lastSegment t).map Segment.getPhase) ↔ ∀ c, ¬s.Awaited t c)) ∧
    (s.step (.taskgroupEnd t) = some s' →
      (System.Marks es s s' (s.AwaitedInGroup t) (fun x => x.isTaskGroupSync = true ∧
        some x.getTaskGroupPhase = (s.lastSegment t).map Segment.getPhase) ↔
      (∀ c, ¬s.AwaitedInGroup t c) ∧
        ∀ c ∈ s.detector.children t, ∀ x, s.Passes t c x → (s.detector.heap.objects x).isTaskGroupSync = true)) :=
  ⟨taskwait_marks_iff ran, taskgroup_marks_iff ran⟩

end Ends

theorem sync_marks_child :
    (∃ s s', System.run [.taskCreate 0, .taskComplete 1] = some s ∧ s.step (.taskwaitEnd 0) = some s' ∧
      ¬System.Marks [.taskCreate 0, .taskComplete 1] s s' (s.Awaited 0) (fun x => x.isTaskwaited = true ∧
        some x.getTaskwaitPhase = (s.lastSegment 0).map Segment.getPhase)) ∧
    ∃ s s', System.run [.taskgroupBegin 0] = some s ∧ s.step (.taskgroupEnd 0) = some s' ∧
      System.Marks [.taskgroupBegin 0] s s' (s.AwaitedInGroup 0) (fun x => x.isTaskGroupSync = true ∧
        some x.getTaskGroupPhase = (s.lastSegment 0).map Segment.getPhase) := by
  constructor
  · obtain ⟨s, ran, stepped, facts⟩ : ∃ s, System.run [.taskCreate 0, .taskComplete 1] = some s ∧
        (s.step (.taskwaitEnd 0)).isSome = true ∧ 1 < s.runtime.tasks ∧ (s.runtime.task 1).kind = .explicit ∧
          (s.runtime.task 1).parent = 0 ∧ (s.runtime.task 1).waited = none := exists_of_any (by decide)
    obtain ⟨s', stepped⟩ := Option.isSome_iff_exists.mp stepped
    exact ⟨s, s', ran, stepped, fun marks => ((sync_marks_iff ran).1 stepped).mp marks 1 facts⟩
  · obtain ⟨s, ran, stepped, childless⟩ : ∃ s, System.run [.taskgroupBegin 0] = some s ∧
        (s.step (.taskgroupEnd 0)).isSome = true ∧ s.detector.children 0 = [] := exists_of_any (by decide)
    obtain ⟨s', stepped⟩ := Option.isSome_iff_exists.mp stepped
    refine ⟨s, s', ran, stepped, ((sync_marks_iff ran).2 stepped).mpr ⟨fun c awaited => ?_, fun c child => ?_⟩⟩
    · rw [System.AwaitedInGroup, childless] at awaited
      cases awaited.1
    · rw [childless] at child
      cases child

/-- A child makes an access and completes; its own segment, which the label of the access ends with, never gets the mark
    of the taskwait, nor that of the taskgroup. -/
theorem sync_marks_missed :
    (¬∀ es s s' t, System.run es = some s → s.step (.taskwaitEnd t) = some s' →
      System.Marks es s s' (s.Awaited t) fun x => x.isTaskwaited = true ∧
        some x.getTaskwaitPhase = (s.lastSegment t).map Segment.getPhase) ∧
    ¬∀ es s s' t, System.run es = some s → s.step (.taskgroupEnd t) = some s' →
      System.Marks es s s' (s.AwaitedInGroup t) fun x => x.isTaskGroupSync = true ∧
        some x.getTaskGroupPhase = (s.lastSegment t).map Segment.getPhase := by
  constructor
  · intro marked
    obtain ⟨s, ran, facts⟩ : ∃ s, System.run [.taskCreate 0, .access 1, .taskComplete 1] = some s ∧
        ((s.step (.taskwaitEnd 0)).any fun s' => decide ((1 < s.runtime.tasks ∧ (s.runtime.task 1).kind = .explicit ∧
          (s.runtime.task 1).parent = 0 ∧ (s.runtime.task 1).waited = none) ∧ (s.runtime.task 1).line.length = 1 ∧
          (s'.detector.heap.objects 1).isTaskwaited = false)) = true := exists_of_any (by decide)
    obtain ⟨s', stepped, facts⟩ := (Option.any_eq_true _ _).mp facts
    obtain ⟨awaited, line, clear⟩ := of_decide_eq_true facts
    have recorded : System.Recorded [.taskCreate 0, .access 1, .taskComplete 1] 1 [0, 1] := by
      refine ⟨[.taskCreate 0], ⟨_, rfl⟩, ?_⟩
      obtain ⟨s, ran, facts⟩ : ∃ s, System.run [.taskCreate 0] = some s ∧ s.runtime.running 1 = true ∧
          ⟨1, none⟩ ∈ (s.runtime.task 1).strands 1 ∧ s.detector.label 1 = some [0, 1] := exists_of_any (by decide)
      exact ⟨s, 1, ran, facts⟩
    have mark := ((marked _ s s' 0 ran stepped).reached 1 awaited [0, 1] recorded 1 (by rw [line]; rfl)).1
    rw [clear] at mark
    cases mark
  · intro marked
    obtain ⟨s, ran, facts⟩ : ∃ s, System.run [.taskgroupBegin 0, .taskCreate 0, .access 1, .taskComplete 1] = some s ∧
        ((s.step (.taskgroupEnd 0)).any fun s' => decide ((1 ∈ s.detector.children 0 ∧
          ∃ g ∈ (s.runtime.task 0).openGroups.head?, g ∈ (s.runtime.task 1).groups) ∧
          (s.runtime.task 1).line.length = 1 ∧ (s'.detector.heap.objects 2).isTaskGroupSync = false)) = true :=
      exists_of_any (by decide)
    obtain ⟨s', stepped, facts⟩ := (Option.any_eq_true _ _).mp facts
    obtain ⟨awaited, line, clear⟩ := of_decide_eq_true facts
    have recorded : System.Recorded [.taskgroupBegin 0, .taskCreate 0, .access 1, .taskComplete 1] 1 [1, 2] := by
      refine ⟨[.taskgroupBegin 0, .taskCreate 0], ⟨_, rfl⟩, ?_⟩
      obtain ⟨s, ran, facts⟩ : ∃ s, System.run [.taskgroupBegin 0, .taskCreate 0] = some s ∧ s.runtime.running 1 = true ∧
          ⟨1, none⟩ ∈ (s.runtime.task 1).strands 1 ∧ s.detector.label 1 = some [1, 2] := exists_of_any (by decide)
      exact ⟨s, 1, ran, facts⟩
    have mark := ((marked _ s s' 0 ran stepped).reached 1 awaited [1, 2] recorded 2 (by rw [line]; rfl)).1
    rw [clear] at mark
    cases mark

end Romp
