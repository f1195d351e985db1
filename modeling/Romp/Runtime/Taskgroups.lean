import Romp.Runtime.Synced
import Romp.Runtime.Worksharing

namespace Romp

structure Recounted (y y' : Segment) : Prop where
  differ : y.equals y' = false
  offset : y.getOffset = y'.getOffset
  span : y.getSpan = y'.getSpan
  task : y.getSpan ≠ 1 ∨ y.getType = .ok .eExplicit ∧ y'.getType = .ok .eExplicit
  waits : y.getTaskwait = y'.getTaskwait

section Labels

variable {front : List Segment} {y y' v v' : Segment}

/-- An access below a child that carries no mark of a taskgroup, and a later one of its parent. -/
theorem happensBefore_child_unmarked (recounted : Recounted y y') (child : v.getType = .ok .eExplicit)
    (clear : v.isTaskGroupSync = false) (rest : List Segment) :
    happensBefore (front ++ y :: v :: rest) (front ++ [y']) = .ok false := by
  rw [happensBefore_versions recounted.differ recounted.offset recounted.span recounted.task]
  simp [analyzeSameTask, getKthSegment, child, clear, recounted.waits, bind, Except.bind]

/-- Accesses below two children: the counters of the taskgroups at their creation decide. -/
theorem happensBefore_children (recounted : Recounted y y') (child : v.getType = .ok .eExplicit)
    (child' : v'.getType = .ok .eExplicit) (rest rest' : List Segment) :
    happensBefore (front ++ y :: v :: rest) (front ++ y' :: v' :: rest') =
      .ok (decide (y.getTaskGroupId < y'.getTaskGroupId ∧ y'.getTaskGroupLevel ≤ y.getTaskGroupLevel)) := by
  rw [happensBefore_versions recounted.differ recounted.offset recounted.span recounted.task]
  by_cases earlier : y.getTaskGroupId < y'.getTaskGroupId ∧ y'.getTaskGroupLevel ≤ y.getTaskGroupLevel
  · simp [analyzeSameTask, getKthSegment, child, child', dispatchAnalysis, analyzeNextExpExp, analyzeTaskGroupSync,
      earlier, bind, Except.bind]
  · simp [analyzeSameTask, getKthSegment, child, child', dispatchAnalysis, analyzeNextExpExp, analyzeTaskGroupSync,
      earlier, recounted.waits, bind, Except.bind]

end Labels

/-- The events of a run in which the task `t` does nothing of its own but begin and end taskgroups, create tasks and
    make accesses, and its child `c` creates no tasks. -/
def Event.GroupsOnly (t c : Nat) : Event → Prop
  | .taskCreate p => p ≠ c
  | .taskwaitEnd p | .barrierEnd p | .parallelBegin p _ | .workBegin p _ _ | .orderedBegin p => p ≠ t
  | _ => True

def Event.isGroupOf (t : Nat) : Event → Bool
  | .taskgroupBegin p | .taskgroupEnd p => p = t
  | _ => false

def groupEvents (t : Nat) (es : List Event) : Nat := es.countP (Event.isGroupOf t)

def System.GroupEnded (s s' : System) (t : Nat) : Prop :=
  ∃ g ∈ (s.runtime.task t).openGroups, g ∉ (s'.runtime.task t).openGroups

instance (s s' : System) (t : Nat) : Decidable (s.GroupEnded s' t) := inferInstanceAs (Decidable (∃ g ∈ _, _))

/-- What the label of a task shows that has been in taskgroups only. -/
structure Grouping (s : System) (t : Nat) (front : Label) (z : Contents) (k : Tally) : Prop where
  isTask : t < s.runtime.tasks
  begun : (s.runtime.task t).begun = true
  groups : (s.runtime.task t).constructs.all Construct.isTaskgroup = true
  midway : Midway s.runtime s.detector t [] front z k
  waits : k.waits = 0
  flat : k.barriers = 0

namespace Runtime

variable {R : Runtime} {t c : Nat} {e : Event}

theorem groups_after (groups : (R.task t).constructs.all Construct.isTaskgroup = true) (enabled : R.enabled e = true)
    (isTask : t < R.tasks) (only : e.GroupsOnly t c) :
    ((R.after e).task t).constructs.all Construct.isTaskgroup = true := by
  rw [constructs_after enabled isTask]
  have tail : (R.task t).constructs.tail.all Construct.isTaskgroup = true := by
    rw [List.all_eq_true] at groups ⊢
    exact fun a inside => groups a (List.mem_of_mem_tail inside)
  cases e with
  | parallelBegin p | workBegin p | orderedBegin p =>
    rw [Event.stack, if_neg only]
    exact groups
  | taskgroupBegin p =>
    rw [Event.stack]
    split
    · rw [List.all_cons, groups]
      rfl
    · exact groups
  | parallelEnd p | taskgroupEnd p | workEnd p | orderedEnd p =>
    rw [Event.stack]
    split
    · exact tail
    · exact groups
  | dispatch p id =>
    simp only [Event.stack]
    split
    · split
      · rename_i number turn last rest top
        rw [top] at groups
        cases groups
      · rename_i number unit rest top
        rw [top] at groups
        cases groups
      · exact groups
    · exact groups
  | _ => exact groups

theorem openGroups_length (groups : (R.task t).constructs.all Construct.isTaskgroup = true) :
    (R.task t).openGroups.length = (R.task t).constructs.length := by
  rw [Task.openGroups]
  generalize (R.task t).constructs = constructs at groups ⊢
  induction constructs with
  | nil => rfl
  | cons a rest ih =>
    rw [List.all_cons, Bool.and_eq_true] at groups
    cases a with
    | taskgroup g => simpa using ih groups.2
    | _ => cases groups.1

end Runtime

namespace Tally

variable {k : Tally} {R : Runtime} {t c : Nat} {e : Event}

theorem count_groupsOnly (only : e.GroupsOnly t c) :
    (k.count R t e).groups + (k.count R t e).groupEnds = k.groups + k.groupEnds + (if e.isGroupOf t then 1 else 0) ∧
      k.tasks ≤ (k.count R t e).tasks ∧ (k.count R t e).waits = k.waits := by
  cases e with
  | taskgroupBegin p | taskgroupEnd p =>
    by_cases self : p = t
    · simp only [count, Event.isGroupOf, self, decide_true, if_true, le_refl, and_true]
      omega
    · simp [count, Event.isGroupOf, self]
  | taskwaitEnd p =>
    rw [count, if_neg only]
    exact ⟨rfl, le_refl _, rfl⟩
  | taskCreate p | orderedBegin p | orderedEnd p =>
    simp only [count]
    split <;> exact ⟨rfl, by simp, rfl⟩
  | workEnd p =>
    simp only [count]
    split
    · split <;> exact ⟨rfl, le_refl _, rfl⟩
    · exact ⟨rfl, le_refl _, rfl⟩
  | implicitEnd m =>
    simp only [count]
    split
    · split <;> exact ⟨rfl, le_refl _, rfl⟩
    · exact ⟨rfl, le_refl _, rfl⟩
  | _ => exact ⟨rfl, le_refl _, rfl⟩

end Tally

section Steps

variable {s s' : System} {owner owner' : Nat → Strand} {fork : Nat → Contents} {below : Strand → Contents}
  {t c : Nat} {front : Label} {z : Contents} {k : Tally} {e : Event}

theorem Grouping.read (grouping : Grouping s t front z k) : ∃ y, s.detector.label t = some (front ++ [y]) ∧
    s.detector.plain y = k.apply z ∧ k.groups = k.groupEnds + (s.runtime.task t).openGroups.length := by
  have groups := List.all_eq_true.mp grouping.groups
  rw [Runtime.openGroups_length grouping.groups]
  cases grouping.midway with
  | @direct outer y stack _ label counted opened =>
    rw [List.append_nil] at stack
    refine ⟨y, label, counted, ?_⟩
    rw [opened, stack, List.countP_eq_length.mpr fun a inside => groups a (by rw [stack]; exact inside)]
  | @unit inner a outer y u stack _ number =>
    have group := groups a (by rw [stack]; simp)
    rw [Construct.number_none group] at number
    cases number

theorem Grouping.step (grouping : Grouping s t front z k)
    (adv : Advance s.runtime s.detector s'.detector owner owner' e)
    (origins : Origins s.runtime s.detector owner fork below) (runtime : s'.runtime = s.runtime.after e)
    (only : e.GroupsOnly t c) (live : (s'.runtime.task t).ended = false) :
    Grouping s' t front z (k.count s.runtime t e) := by
  have isTask := grouping.isTask
  have groups := Runtime.groups_after grouping.groups adv.enabled isTask only
  have body : ((s.runtime.after e).task t).body = none := by
    rw [Task.body_units, Task.units_groups groups]
    rfl
  have counts : k.next s.runtime t none e = k.count s.runtime t e := by rw [Tally.next, if_pos body]
  rw [runtime] at live
  refine ⟨?_, ?_, ?_, ?_, ?_, ?_⟩
  · rw [runtime]
    exact Nat.lt_of_lt_of_le isTask (Runtime.after_extends _ _).tasks
  · rw [runtime]
    exact Runtime.begun_lasts isTask grouping.begun
  · rw [runtime]
    exact groups
  · rw [runtime, ← counts]
    refine adv.midway_step grouping.midway isTask grouping.begun origins ?_ (.inr (.inr ⟨rfl, live⟩))
    rintro rfl
    exact only rfl
  · rw [(Tally.count_groupsOnly only).2.2, grouping.waits]
  · rw [← counts, Tally.barriers_next ?_, grouping.flat]
    rintro m r rfl kind - forker
    have enabled := adv.enabled
    simp only [Runtime.enabled, Bool.and_eq_true, decide_eq_true_eq, Bool.not_eq_true'] at enabled
    obtain ⟨isRegion, room, self⟩ := adv.nested.member m enabled.1.1.1.1 r 0 kind
    rw [self] at enabled
    have isOpen := adv.nested.live_open isRegion room enabled.1.2
    rw [Runtime.IsOpen, forker] at isOpen
    obtain ⟨rest, top⟩ := List.head?_eq_some_iff.mp isOpen
    cases List.all_eq_true.mp grouping.groups _ (by rw [top]; exact List.mem_cons_self)

theorem Grouping.run (reached : System.Reachable (fun _ _ => True) s) (grouping : Grouping s t front z k)
    {es : List Event} (ran : s.runFrom es = some s') (only : ∀ e ∈ es, e.GroupsOnly t c)
    (live : (s'.runtime.task t).ended = false) : ∃ k', Grouping s' t front z k' ∧
      k'.groups + k'.groupEnds = k.groups + k.groupEnds + groupEvents t es ∧ k.tasks ≤ k'.tasks := by
  refine System.runFrom_induction (motive := fun es s' => (∀ e ∈ es, e.GroupsOnly t c) →
    (s'.runtime.task t).ended = false → ∃ k', Grouping s' t front z k' ∧
      k'.groups + k'.groupEnds = k.groups + k.groupEnds + groupEvents t es ∧ k.tasks ≤ k'.tasks)
    (fun _ _ => ⟨k, grouping, rfl, le_refl _⟩) (fun es e s₁ s₂ before ih stepped only live => ?_) ran only live
  have reached₁ := (System.Leads.of_runFrom before).reachable reached
  obtain ⟨owner, fork, below, sourced⟩ := reached₁.sourced
  obtain ⟨owner', fork', below', -, adv⟩ := sourced.step reached₁.nested reached₁.lineage reached₁.closing stepped
  obtain ⟨-, -, runtime, -⟩ := System.step_cases stepped
  have isTask : t < s₁.runtime.tasks :=
    Nat.lt_of_lt_of_le grouping.isTask ((System.Leads.of_runFrom before).continues reached).extend.tasks
  have live₁ : (s₁.runtime.task t).ended = false := by
    rw [← Bool.not_eq_true]
    intro ended
    rw [runtime, Runtime.ended_lasts isTask ended] at live
    cases live
  obtain ⟨k', grouping', groups, tasks⟩ := ih (fun e inside => only e (List.mem_append_left _ inside)) live₁
  have allowed := only e (List.mem_append_right _ List.mem_cons_self)
  obtain ⟨groups', tasks', -⟩ := Tally.count_groupsOnly (k := k') (R := s₁.runtime) allowed
  refine ⟨_, grouping'.step adv sourced.origins runtime allowed live, ?_, tasks.trans tasks'⟩
  rw [groups', groups, groupEvents, groupEvents, List.countP_append, List.countP_singleton, Nat.add_assoc]

theorem Advance.starts (adv : Advance s.runtime s.detector s'.detector owner owner' e) (new : ¬s.runtime.Created t)
    (created : (s.runtime.after e).Created t) : ∃ front n type offset span, s'.detector.label t = some (front ++ [n]) ∧
      s'.detector.plain n = .base type offset span ∧ ((s.runtime.after e).task t).constructs = [] := by
  obtain ⟨isTask, begun⟩ := created
  cases adv.turn with
  | still _ _ _ before => exact absurd (before t isTask begun) new
  | touch _ _ _ _ _ _ _ _ count same =>
    rw [count] at isTask
    rw [same t isTask] at begun
    exact absurd ⟨isTask, begun⟩ new
  | @create p init r _ _ _ _ _ _ made _ _ _ _ plain =>
    have isTask : t < s.runtime.tasks + 1 := isTask
    by_cases self : t = s.runtime.tasks
    · refine ⟨init ++ [r], _, 2, 0, 1, ?_, plain, ?_⟩
      · rw [self, made, List.append_assoc]
        rfl
      · simp [Runtime.after, self, Task.new]
    · have same : (s.runtime.after (.taskCreate p)).task t = s.runtime.task t := by simp [Runtime.after, self]
      rw [same] at begun
      exact absurd ⟨by omega, begun⟩ new
  | @enter r i upper isRegion isMember _ unbegun _ now _ _ _ plain =>
    by_cases self : t = s.runtime.memberOf r i
    · refine ⟨upper, _, 1, i, _, by rw [self]; exact now, plain, ?_⟩
      have idle := ((adv.nested.counters r isRegion i isMember).unbegun unbegun).2.2
      simp [Runtime.after, self, idle]
    · have same : (s.runtime.after (.implicitBegin (s.runtime.memberOf r i))).task t = s.runtime.task t := by
        simp [Runtime.after, self]
      rw [same] at begun
      exact absurd ⟨isTask, begun⟩ new
  | @barrier r i _ _ _ _ _ begun' =>
    have same : ((s.runtime.after (.barrierEnd (s.runtime.memberOf r i))).task t).begun = (s.runtime.task t).begun := by
      by_cases self : t = s.runtime.memberOf r i <;> simp [Runtime.after, self]
    exact absurd ⟨isTask, same.symm.trans begun⟩ new
  | @join r =>
    have same : ((s.runtime.after (.implicitEnd (s.runtime.memberOf r 0))).task t).begun = (s.runtime.task t).begun := by
      by_cases self : t = s.runtime.memberOf r 0 <;> simp [Runtime.after, self]
    exact absurd ⟨isTask, same.symm.trans begun⟩ new

theorem isGroupOf_created {R : Runtime} (enabled : R.enabled e = true) (group : e.isGroupOf t = true) : R.Created t := by
  have runs : R.running t = true := by
    cases e with
    | taskgroupBegin p =>
      obtain rfl : p = t := of_decide_eq_true group
      exact enabled
    | taskgroupEnd p =>
      obtain rfl : p = t := of_decide_eq_true group
      simp only [Runtime.enabled, Bool.and_eq_true] at enabled
      exact enabled.1
    | _ => cases group
  obtain ⟨isTask, runs⟩ := Runtime.running_lt runs
  exact ⟨isTask, (Task.running_iff.mp runs).1⟩

theorem Grouping.of_run {es : List Event} (ran : System.run es = some s) (only : ∀ e ∈ es, e.GroupsOnly t c)
    (created : s.runtime.Created t) (notInitial : t ≠ 0) (live : (s.runtime.task t).ended = false) :
    ∃ front z k, Grouping s t front z k ∧ z.taskGroupId = 0 ∧ z.taskGroupLevel = 0 ∧
      k.groups + k.groupEnds = groupEvents t es := by
  refine (System.run_induction (motive := fun es s => (∀ e ∈ es, e.GroupsOnly t c) →
    (¬s.runtime.Created t → groupEvents t es = 0) ∧ (s.runtime.Created t → (s.runtime.task t).ended = false →
      ∃ front z k, Grouping s t front z k ∧ z.taskGroupId = 0 ∧ z.taskGroupLevel = 0 ∧
        k.groups + k.groupEnds = groupEvents t es)) (fun s begun _ => ?_) (fun es e s s' before ih stepped only => ?_)
    ran only).2 created live
  · refine ⟨fun _ => rfl, fun created => absurd ?_ notInitial⟩
    cases begun
    exact Nat.lt_one_iff.mp created.1
  · obtain ⟨enabled, -, runtime, -⟩ := System.step_cases stepped
    obtain ⟨none, grouped⟩ := ih fun e inside => only e (List.mem_append_left _ inside)
    have allowed := only e (List.mem_append_right _ List.mem_cons_self)
    have reached : System.Reachable (fun _ _ => True) s := .of_run (fun _ _ _ => trivial) before
    obtain ⟨owner, fork, below, sourced⟩ := reached.sourced
    obtain ⟨owner', fork', below', -, adv⟩ := sourced.step reached.nested reached.lineage reached.closing stepped
    have total : groupEvents t (es ++ [e]) = groupEvents t es + if e.isGroupOf t then 1 else 0 := by
      rw [groupEvents, groupEvents, List.countP_append, List.countP_singleton]
    have unstarted : ¬s.runtime.Created t → groupEvents t (es ++ [e]) = 0 := by
      intro new
      rw [total, none new, if_neg fun group => new (isGroupOf_created enabled group)]
    refine ⟨fun new => unstarted fun created => new ?_, fun created live => ?_⟩
    · rw [runtime]
      exact (Runtime.created_after enabled).mpr (.inl created)
    · by_cases old : s.runtime.Created t
      · have live₀ : (s.runtime.task t).ended = false := by
          rw [← Bool.not_eq_true]
          intro ended
          rw [runtime, Runtime.ended_lasts old.1 ended] at live
          cases live
        obtain ⟨front, z, k, grouping, id, level, counted⟩ := grouped old live₀
        refine ⟨front, z, _, grouping.step adv sourced.origins runtime allowed live, id, level, ?_⟩
        rw [(Tally.count_groupsOnly allowed).1, counted, total]
      · rw [runtime] at created
        obtain ⟨front, n, type, offset, span, label, plain, idle⟩ := adv.starts old created
        rw [← runtime] at created idle
        refine ⟨front, s'.detector.plain n, {}, ⟨created.1, created.2, ?_, ?_, rfl, rfl⟩, ?_, ?_, (unstarted old).symm⟩
        · rw [idle]
          rfl
        · exact .direct (by rw [idle]; rfl) (List.forall_mem_nil _) label (Tally.apply_zero (plain_offset_lt _)
            (plain_taskGroup_lt _).1 (plain_taskGroup_lt _).2).symm rfl rfl
        · rw [plain]
          rfl
        · rw [plain]
          rfl

/-- A child without children of its own, of a task that is in taskgroups only: its segments never get the mark of a
    taskgroup. -/
structure Leaf (s : System) (owner : Nat → Strand) (fork : Nat → Contents) (below : Strand → Contents)
    (t c : Nat) : Prop where
  placed : Placed s owner
  origins : Origins s.runtime s.detector owner fork below
  kids : Kids s.runtime s.detector
  isTask : c < s.runtime.tasks
  kind : (s.runtime.task c).kind = .explicit
  parent : (s.runtime.task c).parent = t
  childless : ∀ x < s.runtime.tasks, (s.runtime.task x).kind = .explicit → (s.runtime.task x).parent ≠ c
  groups : (s.runtime.task t).constructs.all Construct.isTaskgroup = true
  clear : ∀ z < s.detector.heap.next, (owner z).task = c → (s.detector.heap.objects z).isTaskGroupSync = false

theorem Leaf.longer (leaf : Leaf s owner fork below t c) (nested : s.runtime.Nested) (lineage : s.runtime.Lineage)
    {label label' : Label} (runs : (s.runtime.task t).running = true) (live : (s.runtime.task c).ended = false)
    (known : s.detector.label t = some label) (known' : s.detector.label c = some label') :
    label.length < label'.length := by
  obtain ⟨less, begun, -⟩ := nested.explicit c leaf.isTask leaf.kind
  obtain ⟨-, body, line⟩ := lineage.line c leaf.isTask (Advance.explicit_ne_zero nested leaf.kind)
  rw [leaf.parent] at less line
  obtain ⟨begun', live', -⟩ := Task.running_iff.mp runs
  have length := leaf.placed.lined.label_length (less.trans leaf.isTask) begun' live' known
  have length' := leaf.placed.lined.label_length leaf.isTask begun live known'
  have outside : (s.runtime.task t).body = none := by
    rw [Task.body_units, Task.units_groups leaf.groups]
    rfl
  rw [outside, Option.toList_none, List.length_nil] at length
  rw [line, List.length_append, List.length_cons] at length'
  omega

/-- The end of a taskgroup marks no segment of the child: the child's label is too long while it runs, and once it has
    ended the segment that gets the mark is one of its parent. -/
theorem Leaf.unmarked (leaf : Leaf s owner fork below t c)
    (adv : Advance s.runtime s.detector s'.detector owner owner' e) {actor z : Nat} {refs : List Nat}
    {f : Segment → Segment} (runs : (s.runtime.task actor).running = true)
    (marking : Marking s.runtime s.detector s'.detector actor refs f e) (marked : z ∈ refs) (own : (owner z).task = c)
    (clear : (s.detector.heap.objects z).isTaskGroupSync = false) :
    (f (s.detector.heap.objects z)).isTaskGroupSync = false := by
  cases marking with
  | taskwait known form =>
    rw [form, Segment.isTaskGroupSync_markTaskwaited, clear]
  | taskgroup known form lasts =>
    exfalso
    obtain ⟨x, child, above, label, short, -⟩ := (lasts z).mp marked
    obtain ⟨isTask, kind, parent⟩ := leaf.kids actor x child
    cases live : (s.runtime.task x).ended with
    | true =>
      obtain ⟨-, own', -⟩ := adv.child_last leaf.origins leaf.kids child live ⟨above, label⟩
      exact leaf.childless x isTask kind (parent.trans (own'.symm.trans own))
    | false =>
      obtain rfl : x = c := (adv.live_last leaf.kids child live ⟨above, label⟩).symm.trans own
      obtain rfl : actor = t := parent.symm.trans leaf.parent
      have longer := leaf.longer adv.nested adv.lineage runs live known label
      rw [List.length_append, List.length_append] at longer
      exact absurd short (Nat.not_le.mpr longer)

theorem Leaf.step (leaf : Leaf s owner fork below t c) (nested : s.runtime.Nested) (lineage : s.runtime.Lineage)
    (closing : s.runtime.Closing) (only : e.GroupsOnly t c) (stepped : s.step e = some s') :
    ∃ owner' fork' below', Leaf s' owner' fork' below' t c := by
  obtain ⟨owner', placed', adv⟩ := leaf.placed.advance nested lineage closing stepped
  obtain ⟨fork', below', origins', -⟩ := adv.origins leaf.origins
  obtain ⟨-, -, runtime, -⟩ := System.step_cases stepped
  have extend := Runtime.after_extends s.runtime e
  have isTask' := Nat.lt_of_lt_of_le leaf.isTask extend.tasks
  have fixed := extend.fixed c leaf.isTask
  have isParent : t < s.runtime.tasks := by
    have less := (nested.explicit c leaf.isTask leaf.kind).1
    rw [leaf.parent] at less
    exact less.trans leaf.isTask
  refine ⟨owner', fork', below', placed', ?_, ?_, ?_, ?_, ?_, ?_, ?_, fun z bound own => ?_⟩
  · rw [runtime]
    exact origins'
  · rw [runtime]
    exact adv.kids_after leaf.kids
  · rw [runtime]
    exact isTask'
  · rw [runtime]
    exact fixed.kind.trans leaf.kind
  · rw [runtime]
    exact fixed.parent.trans leaf.parent
  · rw [runtime]
    intro x isTask kind
    rcases Runtime.explicit_after adv.nested' adv.enabled isTask kind with old | ⟨p, rfl, rfl⟩
    · rw [(extend.fixed x old).kind] at kind
      rw [(extend.fixed x old).parent]
      exact leaf.childless x old kind
    · have made : ((s.runtime.after (.taskCreate p)).task s.runtime.tasks).parent = p := by
        simp [Runtime.after, Task.new]
      rw [made]
      exact only
  · rw [runtime]
    exact Runtime.groups_after leaf.groups adv.enabled isParent only
  · by_cases old : z < s.detector.heap.next
    · rw [adv.owners z old] at own
      have clear := leaf.clear z old own
      rcases adv.old_marks leaf.kids old with same | ⟨actor, refs, f, runs, marking, marked, form⟩
      · rw [same, clear]
      · rw [form]
        exact leaf.unmarked adv runs marking marked own clear
    · rcases adv.new_marks leaf.kids bound old with bare | ⟨x, label, r, isActor, begun, -, known, inside, -, kept, same⟩
      · exact bare.2
      · exact same.2.trans (leaf.clear r (adv.held isActor begun known r inside) (kept.symm.trans own))

theorem Leaf.run (reached : System.Reachable (fun _ _ => True) s) (leaf : Leaf s owner fork below t c) {es : List Event}
    (ran : s.runFrom es = some s') (only : ∀ e ∈ es, e.GroupsOnly t c) :
    ∃ owner' fork' below', Leaf s' owner' fork' below' t c := by
  refine System.runFrom_induction (motive := fun es s' => (∀ e ∈ es, e.GroupsOnly t c) →
    ∃ owner' fork' below', Leaf s' owner' fork' below' t c) (fun _ => ⟨owner, fork, below, leaf⟩)
    (fun es e s₁ s₂ before ih stepped only => ?_) ran only
  have reached₁ := (System.Leads.of_runFrom before).reachable reached
  obtain ⟨owner₁, fork₁, below₁, leaf₁⟩ := ih fun e inside => only e (List.mem_append_left _ inside)
  exact leaf₁.step reached₁.nested reached₁.lineage reached₁.closing
    (only e (List.mem_append_right _ List.mem_cons_self)) stepped

theorem Leaf.created {es : List Event} (synced : Synced es s owner fork below) (nested : s.runtime.Nested)
    (lineage : s.runtime.Lineage) (closing : s.runtime.Closing)
    (groups : (s.runtime.task t).constructs.all Construct.isTaskgroup = true)
    (stepped : s.step (.taskCreate t) = some s') : ∃ owner' fork' below', Leaf s' owner' fork' below' t s.runtime.tasks := by
  obtain ⟨owner', placed', adv⟩ := synced.placed.advance nested lineage closing stepped
  obtain ⟨fork', below', origins', -⟩ := adv.origins synced.origins
  obtain ⟨-, -, runtime, -⟩ := System.step_cases stepped
  have extend := Runtime.after_extends s.runtime (.taskCreate t)
  have isTask := (Runtime.running_lt adv.enabled).1
  refine ⟨owner', fork', below', placed', ?_, ?_, ?_, ?_, ?_, ?_, ?_, fun z bound own => ?_⟩
  · rw [runtime]
    exact origins'
  · rw [runtime]
    exact adv.kids_after synced.kids
  · rw [runtime]
    exact Nat.lt_succ_self _
  · rw [runtime]
    simp [Runtime.after, Task.new]
  · rw [runtime]
    simp [Runtime.after, Task.new]
  · rw [runtime]
    intro x isTask' kind self
    have less := (adv.nested'.explicit x isTask' kind).1
    have bound : x < s.runtime.tasks + 1 := isTask'
    omega
  · rw [runtime]
    exact Runtime.groups_after groups adv.enabled isTask (c := t + 1) (by simp [Event.GroupsOnly])
  · by_cases old : z < s.detector.heap.next
    · rw [adv.owners z old] at own
      exact absurd (synced.origins.past z old).1 (by rw [own]; exact lt_irrefl _)
    · rcases adv.new_marks synced.kids bound old with bare | ⟨x, label, r, isActor, begun, -, known, inside, -, kept, -⟩
      · exact bare.2
      · have past := (synced.origins.past r (adv.held isActor begun known r inside)).1
        rw [kept.symm.trans own] at past
        exact absurd past (lt_irrefl _)

end Steps

/-- A task that is in taskgroups only creates a child, and goes on to a later state. -/
structure GroupedChild (es es' : List Event) (s₀ s₁ s₂ : System) (t : Nat) : Prop where
  ran : System.run es = some s₀
  creates : s₀.step (.taskCreate t) = some s₁
  goesOn : s₁.runFrom es' = some s₂
  only : ∀ e ∈ es ++ es', e.GroupsOnly t s₀.runtime.tasks
  kind : (s₀.runtime.task t).kind = .explicit ∨
    ∃ r i, (s₀.runtime.task t).kind = .implicit r i ∧ 1 < (s₀.runtime.region r).size

structure GroupCounts (y : Segment) (events depth : Nat) : Prop where
  id : y.getTaskGroupId = events % 2 ^ 16
  level : y.getTaskGroupLevel = depth % 2 ^ 16

section Verdicts

variable {s s₀ s₁ s₂ s₃ s₄ s₅ : System} {t : Nat} {es es' : List Event} {z : Contents} {k k' : Tally} {y y' : Segment}

theorem Recounted.of_tally (counted : y.plain = k.apply z) (counted' : y'.plain = k'.apply z)
    (flat : k.barriers = 0 ∧ k'.barriers = 0) (waits : k.waits = 0 ∧ k'.waits = 0) (more : k.tasks < k'.tasks)
    (task : y.plain.span ≠ 1 ∨ y.plain.type = 2) : Recounted y y' := by
  have spans : y.plain.span = y'.plain.span := by rw [counted, counted']; rfl
  have types : y.plain.type = y'.plain.type := by rw [counted, counted']; rfl
  refine ⟨?_, ?_, spans, ?_, ?_⟩
  · rw [← Bool.not_eq_true]
    intro equal
    have same := (Segment.equals_plain equal).1.counts.1
    rw [counted, counted'] at same
    have tasks : z.taskcreate + k.tasks = z.taskcreate + k'.tasks := same
    omega
  · have same : y.plain.offset = y'.plain.offset := by
      rw [counted, counted', Tally.apply, Tally.apply, flat.1, flat.2]
    exact same
  · exact task.imp_right fun explicit => ⟨getType_explicit explicit, getType_explicit (types.symm.trans explicit)⟩
  · have same : y.plain.taskwait = y'.plain.taskwait := by
      rw [counted, counted', Tally.apply, Tally.apply, waits.1, waits.2]
    exact same

theorem GroupCounts.of_tally {events depth : Nat} (counted : y.plain = k.apply z) (id : z.taskGroupId = 0)
    (level : z.taskGroupLevel = 0) (total : k.groups + k.groupEnds = events) (opened : k.groups = k.groupEnds + depth) :
    GroupCounts y events depth := by
  constructor
  · have same : y.plain.taskGroupId = (z.taskGroupId + (k.groups + k.groupEnds)) % 2 ^ 16 := by rw [counted]; rfl
    rw [id, total, Nat.zero_add] at same
    exact same
  · have same : y.plain.taskGroupLevel = (z.taskGroupLevel + (k.groups + k.groupEnds * (2 ^ 16 - 1))) % 2 ^ 16 := by
      rw [counted]
      rfl
    rw [level, opened] at same
    apply Eq.trans same
    omega

theorem Placed.own_label {owner : Nat → Strand} {fork : Nat → Contents} {below : Strand → Contents}
    (placed : Placed s owner) (origins : Origins s.runtime s.detector owner fork below) (nested : s.runtime.Nested)
    (lineage : s.runtime.Lineage) {a : Nat} {entry : Entry} (found : s.log[a]? = some entry)
    (kind : (s.runtime.task entry.task).kind = .explicit) : ∃ v tail,
      s.labelOf a = s.detector.heap.read (s.runtime.birth s.detector entry.task ++ v :: tail) ∧
      v < s.detector.heap.next ∧ owner v = ⟨entry.task, none⟩ ∧
      (s.detector.heap.objects v).getType = .ok .eExplicit := by
  have logged := List.mem_of_getElem? found
  obtain ⟨isTask, body, strands⟩ := placed.logged.task entry logged
  obtain ⟨v, tail, label, owns, bound⟩ := placed.entry_below lineage logged isTask kind (by rw [strands]; simp)
    (placed.lined.birth_length isTask (nested.explicit _ isTask kind).2.1)
  have suits := origins.suits v bound
  rw [owns] at suits
  simp only [Runtime.Suits, kind] at suits
  refine ⟨v, tail, ?_, bound, owns, getType_explicit suits.1⟩
  rw [System.labelOf, found, ← label]

theorem GroupedChild.grouping (child : GroupedChild es es' s₀ s₁ s₂ t) : ∃ front z k, Grouping s₀ t front z k ∧
    z.taskGroupId = 0 ∧ z.taskGroupLevel = 0 ∧ k.groups + k.groupEnds = groupEvents t es := by
  have reached : System.Reachable (fun _ _ => True) s₀ := .of_run (fun _ _ _ => trivial) child.ran
  obtain ⟨isTask, runs⟩ := Runtime.running_lt (System.step_cases child.creates).1
  obtain ⟨begun, live, -⟩ := Task.running_iff.mp runs
  have notInitial : t ≠ 0 := by
    rintro rfl
    rcases child.kind with explicit | ⟨r, i, implicit, -⟩
    · exact Advance.explicit_ne_zero reached.nested explicit rfl
    · cases reached.nested.root.1.symm.trans implicit
  exact Grouping.of_run child.ran (fun e inside => child.only e (List.mem_append_left _ inside)) ⟨isTask, begun⟩
    notInitial live

theorem GroupedChild.versions (child : GroupedChild es es' s₀ s₁ s₂ t) (running : s₂.runtime.running t = true) :
    ∃ front y y', s₁.runtime.birth s₁.detector s₀.runtime.tasks = front ++ [y] ∧
      s₂.detector.label t = some (front ++ [y']) ∧ ∀ s, s₂.Continues s →
        Recounted (s.detector.heap.objects y) (s.detector.heap.objects y') ∧
        GroupCounts (s.detector.heap.objects y) (groupEvents t es) (s₀.runtime.task t).openGroups.length ∧
        GroupCounts (s.detector.heap.objects y') (groupEvents t (es ++ es')) (s₂.runtime.task t).openGroups.length := by
  obtain ⟨reached, owner, fork, below, synced⟩ := System.run_synced child.ran
  have reached₁ := reached.step trivial child.creates
  obtain ⟨running₀, -, runtime, -⟩ := System.step_cases child.creates
  obtain ⟨isTask, runs⟩ := Runtime.running_lt running₀
  obtain ⟨begun, live, -⟩ := Task.running_iff.mp runs
  obtain ⟨owner', placed', adv⟩ := synced.placed.advance reached.nested reached.lineage reached.closing child.creates
  have onward := (System.Leads.of_runFrom child.goesOn).continues reached₁
  -- what is counted up to the creation of the child, at it and after it
  obtain ⟨front, z, k, grouping, id, level, counted⟩ := child.grouping
  have live₁ : (s₁.runtime.task t).ended = false := by
    rw [runtime]
    simp [Runtime.after, Nat.ne_of_lt isTask, live]
  have grouping₁ := grouping.step adv synced.origins runtime (c := s₀.runtime.tasks) (Nat.ne_of_lt isTask) live₁
  obtain ⟨k', grouping', counted', more⟩ := grouping₁.run reached₁ child.goesOn
    (fun e inside => child.only e (List.mem_append_right _ inside)) (Task.running_iff.mp (Runtime.running_lt running).2).2.1
  obtain ⟨y, label, plain, opened⟩ := grouping.read
  obtain ⟨y', label', plain', opened'⟩ := grouping'.read
  have created : k.count s₀.runtime t (.taskCreate t) = { k with tasks := k.tasks + 1 } := by simp [Tally.count]
  rw [created] at counted' more
  have place := (synced.placed.lined.place_length isTask begun label).1
  rw [Runtime.place_live live] at place
  have birth := (System.created child.creates isTask label (by rw [← place, List.length_map])).2.2.2
  refine ⟨front, y, y', birth, label', fun s later => ?_⟩
  have bound := (synced.placed.lined.place_length isTask begun label).2 y (by simp)
  obtain ⟨owner₂, placed₂⟩ := ((System.Leads.of_runFrom child.goesOn).reachable reached₁).placed
  have bound' := (placed₂.lined.place_length grouping'.isTask grouping'.begun label').2 y' (by simp)
  have same : (s.detector.heap.objects y).plain = k.apply z :=
    ((adv.grows.trans (onward.grows.trans later.grows)).plain y bound).trans plain
  have same' : (s.detector.heap.objects y').plain = k'.apply z := (later.grows.plain y' bound').trans plain'
  refine ⟨.of_tally same same' ⟨grouping.flat, grouping'.flat⟩ ⟨grouping.waits, grouping'.waits⟩ more ?_,
    .of_tally same id level counted opened, .of_tally same' id level ?_ opened'⟩
  · rw [Task.strands_plain (Task.units_groups grouping.groups), List.map_append] at place
    have own := (List.append_inj' place rfl).2
    rw [List.map_singleton, List.cons.injEq] at own
    have suits := synced.origins.suits y bound
    rw [own.1] at suits
    rw [same, ← plain]
    rcases child.kind with explicit | ⟨r, i, implicit, large⟩
    · simp only [Runtime.Suits, explicit] at suits
      exact .inr suits.1
    · simp only [Runtime.Suits, implicit] at suits
      left
      rw [suits.2]
      omega
  · rw [counted', groupEvents, groupEvents, List.countP_append]
    exact congrArg (· + _) counted

theorem GroupedChild.later (child : GroupedChild es es' s₀ s₁ s₂ t) {label : Label} (later : s₁.Continues s)
    (birth : s₁.runtime.birth s₁.detector s₀.runtime.tasks = label) :
    (s.runtime.task s₀.runtime.tasks).kind = .explicit ∧ s.runtime.birth s.detector s₀.runtime.tasks = label := by
  obtain ⟨-, -, runtime, -⟩ := System.step_cases child.creates
  have isTask : s₀.runtime.tasks < s₁.runtime.tasks := by
    rw [runtime]
    exact Nat.lt_succ_self _
  have kind : (s₁.runtime.task s₀.runtime.tasks).kind = .explicit := by
    rw [runtime]
    simp [Runtime.after, Task.new]
  exact ⟨(later.extend.fixed _ isTask).kind.trans kind, (later.births _ isTask kind).trans birth⟩

theorem GroupedChild.own_access (child : GroupedChild es es' s₀ s₁ s₂ t) (stepped : s₂.step (.access t) = some s₃)
    {a : Nat} {entry : Entry} (found : s₂.log[a]? = some entry) (self : entry.task = s₀.runtime.tasks) :
    s₃.verdict a s₂.log.length = .ok false := by
  obtain ⟨reached, owner, fork, below, synced⟩ := System.run_synced child.ran
  have reached₁ := reached.step trivial child.creates
  have path := System.Leads.of_runFrom child.goesOn
  have reached₂ := path.reachable reached₁
  have next : System.Leads (fun _ _ => True) s₂ s₃ := .step .refl trivial stepped
  obtain ⟨front, y, y', birth, label', versions⟩ := child.versions (System.step_cases stepped).1
  obtain ⟨recounted, -⟩ := versions s₃ (next.continues reached₂)
  obtain ⟨_, _, _, grouping, -⟩ := child.grouping
  obtain ⟨owner₁, fork₁, below₁, leaf₁⟩ := Leaf.created synced reached.nested reached.lineage reached.closing
    grouping.groups child.creates
  obtain ⟨owner₂, fork₂, below₂, leaf⟩ :=
    leaf₁.run reached₁ child.goesOn fun e inside => child.only e (List.mem_append_right _ inside)
  obtain ⟨kind, birth'⟩ := child.later (path.continues reached₁) birth
  obtain ⟨v, tail, first, bound, owns, type⟩ :=
    leaf.placed.own_label leaf.origins reached₂.nested reached₂.lineage found (by rw [self]; exact kind)
  rw [self, birth'] at first
  have clear := leaf.clear v bound (by rw [owns, self])
  have stays : System.Leads (fun _ _ => True) s₃ s₃ := .refl
  have second := System.labelOf_access stepped label' (stays.continues (reached₂.step trivial stepped))
  obtain ⟨_, -, detector, -⟩ := System.step_access stepped
  have same : s₃.labelOf a = s₂.labelOf a := by
    rw [System.labelOf, System.labelOf, found, (next.continues reached₂).found found, detector]
  rw [detector] at recounted second
  rw [System.verdict, same, first, second, List.append_assoc]
  simp only [Heap.read_append]
  exact happensBefore_child_unmarked recounted type clear _

/-- The counts of the taskgroups decide whether an access of the child is taken to come before one of a later child. -/
theorem GroupedChild.later_child (child : GroupedChild es es' s₀ s₁ s₂ t) (creates : s₂.step (.taskCreate t) = some s₃)
    {es'' : List Event} (ran : s₃.runFrom es'' = some s₄) (stepped : s₄.step (.access s₂.runtime.tasks) = some s₅)
    {a : Nat} {entry : Entry} (found : s₄.log[a]? = some entry) (self : entry.task = s₀.runtime.tasks) :
    s₅.verdict a s₄.log.length = .ok (decide (groupEvents t es % 2 ^ 16 < groupEvents t (es ++ es') % 2 ^ 16 ∧
      (s₂.runtime.task t).openGroups.length % 2 ^ 16 ≤ (s₀.runtime.task t).openGroups.length % 2 ^ 16)) := by
  have reached : System.Reachable (fun _ _ => True) s₀ := .of_run (fun _ _ _ => trivial) child.ran
  have reached₁ := reached.step trivial child.creates
  have path := System.Leads.of_runFrom child.goesOn
  have reached₂ := path.reachable reached₁
  have reached₃ := reached₂.step trivial creates
  have path' := System.Leads.of_runFrom ran
  have reached₄ := path'.reachable reached₃
  have next : System.Leads (fun _ _ => True) s₄ s₅ := .step .refl trivial stepped
  have last : System.Leads (fun _ _ => True) s₃ s₅ := path'.step trivial stepped
  have reached₅ := last.reachable reached₃
  have onward : System.Leads (fun _ _ => True) s₂ s₅ := (System.Leads.refl.step trivial creates).trans last
  have running := (System.step_cases creates).1
  obtain ⟨front, y, y', birth, label', versions⟩ := child.versions running
  obtain ⟨recounted, counts, counts'⟩ := versions s₅ (onward.continues reached₂)
  obtain ⟨owner, fork, below, sourced⟩ := reached₅.sourced
  obtain ⟨kind, birth₅⟩ := child.later ((path.trans onward).continues reached₁) birth
  obtain ⟨label, known, -, -⟩ := System.step_access stepped
  have found₅ := (next.continues reached₄).found found
  obtain ⟨v, tail, first, -, -, type⟩ :=
    sourced.placed.own_label sourced.origins reached₅.nested reached₅.lineage found₅ (by rw [self]; exact kind)
  obtain ⟨isTask, runs⟩ := Runtime.running_lt running
  obtain ⟨begun, live, -⟩ := Task.running_iff.mp runs
  obtain ⟨owner₂, placed₂⟩ := reached₂.placed
  have place := (placed₂.lined.place_length isTask begun label').1
  rw [Runtime.place_live live] at place
  obtain ⟨isChild, made, -, birth'⟩ := System.created creates isTask label' (by rw [← place, List.length_map])
  have later := last.continues reached₃
  have birth₅' := (later.births _ isChild made).trans birth'
  obtain ⟨v', tail', second, -, -, type'⟩ := sourced.placed.own_label sourced.origins reached₅.nested reached₅.lineage
    (System.found_access stepped known) ((later.extend.fixed _ isChild).kind.trans made)
  rw [self, birth₅] at first
  rw [birth₅'] at second
  rw [System.verdict, first, second, ← counts.id, ← counts.level, ← counts'.id, ← counts'.level]
  simp only [List.append_assoc, Heap.read_append]
  exact happensBefore_children recounted type type' _ _

/-- What the detector compares at the creation of two children, the number of begins and ends of taskgroups before each
    and the taskgroups open there, tells whether a taskgroup has `ended` that was open at the first. -/
structure GroupsTell (ended : Prop) (events events' depth depth' : Nat) : Prop where
  ordered : ended → events % 2 ^ 16 < events' % 2 ^ 16 ∧ depth' % 2 ^ 16 ≤ depth % 2 ^ 16
  concurrent : ¬ended → events' % 2 ^ 16 ≤ events % 2 ^ 16 ∨ depth % 2 ^ 16 < depth' % 2 ^ 16

/-- An access of a child is taken to come before a later one of its parent, or of a later child, as the taskgroups of
    the parent order them: for the parent itself if no taskgroup has ended that was open at the child's creation, and for
    the later child if the counts of the taskgroups tell it. -/
theorem taskgroup_ordered_iff (child : GroupedChild es es' s₀ s₁ s₂ t) :
    (∀ s₃ a entry, s₂.step (.access t) = some s₃ → s₂.log[a]? = some entry → entry.task = s₀.runtime.tasks →
      ((s₃.verdict a s₂.log.length = .ok true ↔ s₀.GroupEnded s₂ t) ↔ ¬s₀.GroupEnded s₂ t)) ∧
    ∀ s₃ es'' s₄ s₅ a entry, s₂.step (.taskCreate t) = some s₃ → s₃.runFrom es'' = some s₄ →
      s₄.step (.access s₂.runtime.tasks) = some s₅ → s₄.log[a]? = some entry → entry.task = s₀.runtime.tasks →
      ((s₅.verdict a s₄.log.length = .ok true ↔ s₀.GroupEnded s₂ t) ↔
        GroupsTell (s₀.GroupEnded s₂ t) (groupEvents t es) (groupEvents t (es ++ es'))
          (s₀.runtime.task t).openGroups.length (s₂.runtime.task t).openGroups.length) := by
  refine ⟨fun s₃ a entry stepped found self => ?_, fun s₃ es'' s₄ s₅ a entry creates ran stepped found self => ?_⟩
  · rw [child.own_access stepped found self]
    simp
  · rw [child.later_child creates ran stepped found self, Except.ok.injEq, decide_eq_true_iff]
    constructor
    · intro ordered
      refine ⟨ordered.mpr, fun unended => ?_⟩
      rw [← ordered] at unended
      omega
    · intro tell
      by_cases ended : s₀.GroupEnded s₂ t
      · exact iff_of_true (tell.ordered ended) ended
      · have concurrent := tell.concurrent ended
        exact iff_of_false (by omega) ended

end Verdicts

def endedGroup : List Event := [.parallelBegin 0 2, .implicitBegin 1, .taskgroupBegin 1]

theorem GroupedChild.of_member {es es' : List Event} {s₀ s₁ s₂ : System} (ran : System.run es = some s₀)
    (creates : s₀.step (.taskCreate 1) = some s₁) (goesOn : s₁.runFrom es' = some s₂) (tasks : s₀.runtime.tasks = 3)
    (kind : (s₀.runtime.task 1).kind = .implicit 0 0) (size : (s₀.runtime.region 0).size = 2)
    (only : ∀ e ∈ es ++ es', e.GroupsOnly 1 3) : GroupedChild es es' s₀ s₁ s₂ 1 :=
  ⟨ran, creates, goesOn, by rw [tasks]; exact only, .inr ⟨0, 0, kind, by rw [size]; exact Nat.one_lt_two⟩⟩

theorem taskgroup_ordered_iff_ended : ∃ s₀ s₁ s₂ s₃ s₄, System.run endedGroup = some s₀ ∧
    s₀.step (.taskCreate 1) = some s₁ ∧ s₁.runFrom [.access 3, .taskComplete 3, .taskgroupEnd 1] = some s₂ ∧
    s₂.step (.taskCreate 1) = some s₃ ∧ s₃.step (.access 4) = some s₄ ∧ s₄.verdict 0 1 = .ok true := by
  obtain ⟨s₀, ran, facts⟩ : ∃ s₀, System.run endedGroup = some s₀ ∧
      ((s₀.step (.taskCreate 1)).any fun s₁ =>
        (s₁.runFrom [.access 3, .taskComplete 3, .taskgroupEnd 1]).any fun s₂ =>
        (s₂.step (.taskCreate 1)).any fun s₃ => (s₃.step (.access 4)).any fun _ =>
          decide (s₀.runtime.tasks = 3 ∧ (s₀.runtime.task 1).kind = .implicit 0 0 ∧ (s₀.runtime.region 0).size = 2 ∧
            s₂.runtime.tasks = 4 ∧ s₃.log.length = 1 ∧ (s₃.log[0]?).map Entry.task = some 3 ∧ s₀.GroupEnded s₂ 1 ∧
            (s₀.runtime.task 1).openGroups.length = 1 ∧ (s₂.runtime.task 1).openGroups.length = 0)) = true :=
    exists_of_any (by decide)
  obtain ⟨s₁, creates, facts⟩ := (Option.any_eq_true _ _).mp facts
  obtain ⟨s₂, goesOn, facts⟩ := (Option.any_eq_true _ _).mp facts
  obtain ⟨s₃, creates', facts⟩ := (Option.any_eq_true _ _).mp facts
  obtain ⟨s₄, accessed, facts⟩ := (Option.any_eq_true _ _).mp facts
  obtain ⟨tasks, kind, size, tasks', length, first, ended, depth, depth'⟩ := of_decide_eq_true facts
  obtain ⟨entry, found, self⟩ := Option.map_eq_some_iff.mp first
  have child := GroupedChild.of_member ran creates goesOn tasks kind size (by simp [endedGroup, Event.GroupsOnly])
  have ordered := (taskgroup_ordered_iff child).2 s₃ [] s₃ s₄ 0 entry creates' rfl (by rw [tasks']; exact accessed) found
    (self.trans tasks.symm)
  rw [length, depth, depth'] at ordered
  refine ⟨s₀, s₁, s₂, s₃, s₄, ran, creates, goesOn, creates', accessed, (ordered.mpr ⟨fun _ => ?_, fun unended => ?_⟩).mpr ended⟩
  · decide
  · exact absurd ended unended

/-- The end of the child's taskgroup does not order the child before an access of its parent, and a taskgroup that begins
    and ends between the creation of two children that are in none orders them. -/
theorem taskgroup_misordered :
    (¬∀ es es' s₀ s₁ s₂ s₃ t a entry, GroupedChild es es' s₀ s₁ s₂ t → s₂.step (.access t) = some s₃ →
      s₂.log[a]? = some entry → entry.task = s₀.runtime.tasks →
      (s₃.verdict a s₂.log.length = .ok true ↔ s₀.GroupEnded s₂ t)) ∧
    ¬∀ es es' es'' s₀ s₁ s₂ s₃ s₄ s₅ t a entry, GroupedChild es es' s₀ s₁ s₂ t → s₂.step (.taskCreate t) = some s₃ →
      s₃.runFrom es'' = some s₄ → s₄.step (.access s₂.runtime.tasks) = some s₅ → s₄.log[a]? = some entry →
      entry.task = s₀.runtime.tasks → (s₅.verdict a s₄.log.length = .ok true ↔ s₀.GroupEnded s₂ t) := by
  constructor
  · intro ordered
    obtain ⟨s₀, ran, facts⟩ : ∃ s₀, System.run endedGroup = some s₀ ∧
        ((s₀.step (.taskCreate 1)).any fun s₁ =>
          (s₁.runFrom [.access 3, .taskComplete 3, .taskgroupEnd 1]).any fun s₂ => (s₂.step (.access 1)).any fun s₃ =>
            decide (s₀.runtime.tasks = 3 ∧ (s₀.runtime.task 1).kind = .implicit 0 0 ∧ (s₀.runtime.region 0).size = 2 ∧
              (s₂.log[0]?).map Entry.task = some 3 ∧ s₀.GroupEnded s₂ 1 ∧
              s₃.verdict 0 s₂.log.length = .ok false)) = true := exists_of_any (by decide)
    obtain ⟨s₁, creates, facts⟩ := (Option.any_eq_true _ _).mp facts
    obtain ⟨s₂, goesOn, facts⟩ := (Option.any_eq_true _ _).mp facts
    obtain ⟨s₃, accessed, facts⟩ := (Option.any_eq_true _ _).mp facts
    obtain ⟨tasks, kind, size, first, ended, verdict⟩ := of_decide_eq_true facts
    obtain ⟨entry, found, self⟩ := Option.map_eq_some_iff.mp first
    have child := GroupedChild.of_member ran creates goesOn tasks kind size (by simp [endedGroup, Event.GroupsOnly])
    have before := (ordered _ _ _ _ _ _ _ _ _ child accessed found (self.trans tasks.symm)).mpr ended
    rw [verdict] at before
    cases before
  · intro ordered
    obtain ⟨s₀, ran, facts⟩ : ∃ s₀, System.run [.parallelBegin 0 2, .implicitBegin 1] = some s₀ ∧
        ((s₀.step (.taskCreate 1)).any fun s₁ =>
          (s₁.runFrom [.access 3, .taskgroupBegin 1, .taskgroupEnd 1]).any fun s₂ =>
          (s₂.step (.taskCreate 1)).any fun s₃ => (s₃.step (.access 4)).any fun s₄ =>
            decide (s₀.runtime.tasks = 3 ∧ (s₀.runtime.task 1).kind = .implicit 0 0 ∧ (s₀.runtime.region 0).size = 2 ∧
              s₂.runtime.tasks = 4 ∧ (s₃.log[0]?).map Entry.task = some 3 ∧ ¬s₀.GroupEnded s₂ 1 ∧
              s₄.verdict 0 s₃.log.length = .ok true)) = true := exists_of_any (by decide)
    obtain ⟨s₁, creates, facts⟩ := (Option.any_eq_true _ _).mp facts
    obtain ⟨s₂, goesOn, facts⟩ := (Option.any_eq_true _ _).mp facts
    obtain ⟨s₃, creates', facts⟩ := (Option.any_eq_true _ _).mp facts
    obtain ⟨s₄, accessed, facts⟩ := (Option.any_eq_true _ _).mp facts
    obtain ⟨tasks, kind, size, tasks', first, unended, verdict⟩ := of_decide_eq_true facts
    obtain ⟨entry, found, self⟩ := Option.map_eq_some_iff.mp first
    have child := GroupedChild.of_member ran creates goesOn tasks kind size (by simp [Event.GroupsOnly])
    exact unended ((ordered _ _ [] _ _ _ _ _ _ _ _ _ child creates' rfl (by rw [tasks']; exact accessed) found
      (self.trans tasks.symm)).mp verdict)

end Romp
