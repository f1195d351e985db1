import Romp.Runtime.Synced
import Romp.Tasking.Rules

namespace Romp

inductive TaskTurn (R : Runtime) (d d' : Detector) (owner owner' : Nat → Strand) : Event → Prop
  | still {e} (heap : d'.heap = d.heap) (labels : ∀ x, d'.label x = d.label x)
      (children : ∀ x, d'.children x = d.children x)
      (plain : (∀ x, e ≠ .implicitBegin x) ∧ (∀ x, e ≠ .taskCreate x) ∧ ∀ x, e ≠ .taskwaitEnd x) :
      TaskTurn R d d' owner owner' e
  | enter {i x s} (isMember : i < (R.region 0).size) (unbegun : (R.task (R.memberOf 0 i)).begun = false)
      (old : d.label 0 = some [x]) (made : Segment.base .eImplicit i (R.region 0).size = .ok s)
      (heap : d'.heap = (d.heap.alloc s).1) (now : d'.label (R.memberOf 0 i) = some [x, d.heap.next])
      (others : ∀ x, x ≠ R.memberOf 0 i → d'.label x = d.label x)
      (children : ∀ x, d'.children x = if x = R.memberOf 0 i then [] else d.children x)
      (own : owner' d.heap.next = ⟨R.memberOf 0 i, none⟩) :
      TaskTurn R d d' owner owner' (.implicitBegin (R.memberOf 0 i))
  | barrier {i x own} (isMember : i < (R.region 0).size) (begun : (R.task (R.memberOf 0 i)).begun = true)
      (live : (R.task (R.memberOf 0 i)).ended = false)
      (relabels : d.Relabels d' (R.memberOf 0 i) [x, own] [d.heap.next, own])
      (root : owner x = ⟨0, none⟩) (kept : owner' d.heap.next = ⟨0, none⟩)
      (heap : d'.heap = (d.heap.alloc ((d.heap.objects x).setOffsetSpan
        ((d.heap.objects x).getOffset + (d.heap.objects x).getSpan) (d.heap.objects x).getSpan)).1) :
      TaskTurn R d d' owner owner' (.barrierEnd (R.memberOf 0 i))
  | join {x own} (known : d.label (R.memberOf 0 0) = some [x, own]) (now : d'.label 0 = some [x])
      (others : ∀ x, x ≠ 0 → d'.label x = d.label x) (heap : d'.heap = d.heap)
      (children : ∀ x, d'.children x = d.children x) : TaskTurn R d d' owner owner' (.implicitEnd (R.memberOf 0 0))
  | create {t init r x y} (running : R.running t = true) (old : d.label t = some (init ++ [r]))
      (base : Segment.base .eExplicit 0 1 = .ok x)
      (counted : (d.heap.objects r).setTaskcreate ((d.heap.objects r).getTaskcreate + 1) = .ok y)
      (heap : d'.heap = ((d.heap.alloc x).1.alloc y).1) (made : d'.label R.tasks = some (init ++ [r, d.heap.next]))
      (now : d'.label t = some (init ++ [d.heap.next + 1]))
      (others : ∀ z, z ≠ t → z ≠ R.tasks → d'.label z = d.label z)
      (children : ∀ z, d'.children z =
        if z = R.tasks then [] else if z = t then d.children t ++ [R.tasks] else d.children z)
      (own : owner' d.heap.next = ⟨R.tasks, none⟩) (kept : owner' (d.heap.next + 1) = owner r) :
      TaskTurn R d d' owner owner' (.taskCreate t)
  | complete {t init x} (running : R.running t = true) (kind : (R.task t).kind = .explicit)
      (relabels : d.Relabels d' t (init ++ [x]) init) (heap : d'.heap = d.heap) :
      TaskTurn R d d' owner owner' (.taskComplete t)
  | wait {t init r s refs} (running : R.running t = true) (ended : ∀ c ∈ R.children t, (R.task c).ended = true)
      (moves : d.Moves d' t (init ++ [r]) (init ++ [d.heap.next]))
      (counted : (d.heap.objects r).setTaskwait ((d.heap.objects r).getTaskwait + 1) = .ok s)
      (heap : d'.heap = (d.heap.alloc s).1.mark refs (Segment.markTaskwaited (d.heap.objects r).getPhase))
      (lasts : ∀ x, x ∈ refs ↔ ∃ c ∈ d.children t, d.IsLast c x)
      (children : ∀ x, d'.children x = if x = t then [] else d.children x)
      (kept : owner' d.heap.next = owner r) : TaskTurn R d d' owner owner' (.taskwaitEnd t)
  | single {t executor old} (running : R.running t = true)
      (relabels : d.Relabels d' t old (old ++ [d.heap.next]))
      (heap : d'.heap = (d.heap.alloc (Detector.workSegment .single executor)).1)
      (own : owner' d.heap.next = ⟨t, some (.single (R.task t).works executor)⟩) :
      TaskTurn R d d' owner owner' (.workBegin t .single executor)
  | leave {t init unit} (isTask : t < R.tasks) (begun : (R.task t).begun = true) (live : (R.task t).ended = false)
      (relabels : d.Relabels d' t (init ++ [unit]) init) (heap : d'.heap = d.heap) :
      TaskTurn R d d' owner owner' (.workEnd t)

namespace Lined

variable {R : Runtime} {d : Detector} {owner : Nat → Strand} (lined : Lined R d owner) (nested : R.Nested)
  (lineage : R.Lineage) (flat : R.Flat)

include lined nested lineage flat

theorem root_label : ∃ x, d.label 0 = some [x] ∧ owner x = ⟨0, none⟩ := by
  obtain ⟨label, known, -, mapped⟩ := lined.label 0 nested.positive nested.root.2.2.1
  have units : (R.task 0).units = [] := by
    rcases flat.root with empty | ⟨-, waits⟩
    · rw [Task.units, empty]
      rfl
    · rw [Task.units, waits]
      rfl
  rw [Runtime.place_implicit (by rw [nested.root.1]; simp), Task.strands_plain units, lineage.root] at mapped
  obtain ⟨x, rfl, own⟩ := List.map_eq_singleton_iff.mp mapped
  exact ⟨x, known, own⟩

omit lineage in
theorem member_label {i : Nat} {label : Label} (isRegion : 0 < R.regions) (isMember : i < (R.region 0).size)
    (begun : (R.task (R.memberOf 0 i)).begun = true) (idle : (R.task (R.memberOf 0 i)).units = [])
    (known : d.label (R.memberOf 0 i) = some label) :
    ∃ x own, label = [x, own] ∧ owner x = ⟨0, none⟩ ∧ owner own = ⟨R.memberOf 0 i, none⟩ := by
  have isTask := nested.member_lt isRegion isMember
  have kind := (nested.kind 0 isRegion i isMember).1
  have mapped := (lined.place_length isTask begun known).1
  rw [Runtime.place_implicit (by rw [kind]; simp), Task.strands_plain idle, (flat.implicit _ isTask 0 i kind).1] at mapped
  obtain ⟨x, rest, rfl, root, mapped⟩ := List.map_eq_cons_iff.mp mapped
  obtain ⟨own, rfl, self⟩ := List.map_eq_singleton_iff.mp mapped
  exact ⟨x, own, rfl, root, self⟩

end Lined

namespace Advance

variable {s : System} {d' : Detector} {owner owner' : Nat → Strand} {e : Event}
  (adv : Advance s.runtime s.detector d' owner owner' e) (flat : s.runtime.Flat)

include adv flat

omit adv in
theorem only_region {r : Nat} (isRegion : r < s.runtime.regions) :
    r = 0 ∧ 0 < s.runtime.regions ∧ (s.runtime.region 0).encountering = 0 := by
  have one := flat.regions
  obtain rfl : r = 0 := by omega
  exact ⟨rfl, isRegion, (flat.forker (by omega)).1⟩

theorem turn_enter {t : Nat} (begins : e = .implicitBegin t) :
    TaskTurn s.runtime s.detector d' owner owner' e := by
  have enabled := adv.enabled
  have handled := adv.handled
  have turn := adv.turn
  subst begins
  simp only [Runtime.enabled, Bool.and_eq_true, decide_eq_true_eq, Bool.not_eq_true'] at enabled
  obtain ⟨r, isRegion, i, isMember, rfl, kind, -⟩ := adv.nested.unbegun enabled.1 enabled.2
  obtain ⟨rfl, -, forker⟩ := only_region flat isRegion
  obtain ⟨upper, x, old, made, heap, now, others, children⟩ :=
    Detector.handle_implicitBegin kind (adv.nested.bounds 0 isRegion).1 handled
  rw [(adv.nested.kind 0 isRegion i isMember).2.1, forker] at old
  obtain ⟨z, known, -⟩ := adv.lined.root_label adv.nested adv.lineage flat
  obtain rfl : upper = [z] := by
    rw [known, Option.some.injEq] at old
    exact old.symm
  refine .enter isMember enabled.2 known made heap now others children ?_
  generalize same : Event.implicitBegin (s.runtime.memberOf 0 i) = e at turn
  cases turn with
  | enter isRegion' isMember' _ _ _ _ _ _ own =>
    rw [own]
    simp only [Event.implicitBegin.injEq] at same
    rw [same]
  | still _ _ next =>
    rw [heap] at next
    exact absurd next (Nat.succ_ne_self _)
  | touch _ _ begun _ _ actor =>
    subst same
    cases actor
    cases begun.symm.trans enabled.2
  | create | barrier | join => cases same

theorem turn_barrier {t : Nat} (ends : e = .barrierEnd t) : TaskTurn s.runtime s.detector d' owner owner' e := by
  have handled := adv.handled
  have turn := adv.turn
  subst ends
  obtain ⟨init, x, m, relabels, heap⟩ := Detector.handle_barrierEnd handled
  generalize same : Event.barrierEnd t = e at turn
  cases turn with
  | @barrier r i upper y own isRegion isMember begun live idle moves _ _ kept =>
    cases same
    obtain ⟨rfl, positive, -⟩ := only_region flat isRegion
    obtain ⟨x', own', shape, root, -⟩ :=
      adv.lined.member_label adv.nested flat positive isMember begun (Task.units_groups idle) relabels.old
    obtain ⟨rfl, rest⟩ := List.append_inj' (show init ++ [x, m] = [] ++ [x', own'] from shape) rfl
    cases rest
    have again := moves.old.symm.trans relabels.old
    rw [Option.some.injEq] at again
    obtain ⟨rfl, rest⟩ := List.append_inj' again rfl
    cases rest
    exact .barrier isMember begun live relabels root (kept.trans root) heap
  | still plain | touch plain => exact absurd same.symm (plain t)
  | create | enter | join => cases same

theorem turn_leaves {t : Nat} (ends : e = .implicitEnd t) : TaskTurn s.runtime s.detector d' owner owner' e := by
  have enabled := adv.enabled
  have handled := adv.handled
  subst ends
  simp only [Runtime.enabled, Bool.and_eq_true, decide_eq_true_eq, Bool.not_eq_true'] at enabled
  obtain ⟨⟨⟨⟨isTask, closing⟩, -⟩, -⟩, ends⟩ := enabled
  cases kind : (s.runtime.task t).kind with
  | initial | explicit =>
    rw [kind] at ends
    cases ends
  | implicit r i =>
    obtain ⟨isRegion, isMember, rfl⟩ := adv.nested.member t isTask r i kind
    obtain ⟨rfl, positive, forker⟩ := only_region flat isRegion
    by_cases first : i = 0
    · subst first
      obtain ⟨upper, own, old, known, heap, now, others, children, -⟩ :=
        Detector.handle_implicitEnd_first kind handled
      rw [(adv.nested.kind 0 isRegion 0 isMember).2.1, forker] at now others
      have idle : (s.runtime.task (s.runtime.memberOf 0 0)).units = [] := by
        rw [Task.units, adv.nested.closing_idle isTask closing]
        rfl
      have begun := adv.begun_closing isRegion isMember closing
      obtain ⟨x, own', shape, -⟩ := adv.lined.member_label adv.nested flat positive isMember begun idle known
      obtain ⟨rfl, rest⟩ := List.append_inj' (show upper ++ [own] = [x] ++ [own'] from shape) rfl
      cases rest
      exact .join known now others heap children
    · have quiet := Detector.handle_implicitEnd_other kind first handled
      exact .still quiet.heap quiet.labels quiet.children (by simp)

omit flat in
theorem turn_create {t : Nat} (creates : e = .taskCreate t) : TaskTurn s.runtime s.detector d' owner owner' e := by
  have enabled := adv.enabled
  have handled := adv.handled
  have turn := adv.turn
  subst creates
  obtain ⟨isTask, runs⟩ := Runtime.running_lt enabled
  obtain ⟨init, r, x, y, old, base, counted, heap, made, now, others, children⟩ :=
    Detector.handle_taskCreate handled isTask
  rw [(s.detector.heap.alloc_extends x).2 r (adv.held isTask (Task.running_iff.mp runs).1 old r (by simp))] at counted
  generalize same : Event.taskCreate t = e at turn
  cases turn with
  | @create t' init' r' _ _ _ _ old' _ _ _ _ own kept =>
    cases same
    have again := old.symm.trans old'
    rw [Option.some.injEq] at again
    obtain ⟨rfl, rest⟩ := List.append_inj' again rfl
    cases rest
    refine .create enabled old base counted heap ?_ now others children own kept
    rw [made, List.append_assoc]
    rfl
  | still _ _ next =>
    rw [heap] at next
    change s.detector.heap.next + 2 = _ at next
    omega
  | touch _ _ _ _ _ _ _ _ _ _ next renewal =>
    rw [heap] at next
    change s.detector.heap.next + 2 = _ at next
    cases renewal <;> simp at next
  | enter | barrier | join => cases same

omit flat in
theorem turn_complete {t : Nat} (completes : e = .taskComplete t) :
    TaskTurn s.runtime s.detector d' owner owner' e := by
  have enabled := adv.enabled
  have handled := adv.handled
  subst completes
  simp only [Runtime.enabled, Bool.and_eq_true, decide_eq_true_eq] at enabled
  obtain ⟨isTask, runs⟩ := Runtime.running_lt enabled.1.1
  obtain ⟨label, known, -⟩ := adv.lined.label t isTask (Task.running_iff.mp runs).1
  obtain ⟨init, x, relabels, heap⟩ := Detector.handle_taskComplete known handled
  exact .complete enabled.1.1 enabled.1.2 relabels heap

omit flat in
theorem turn_wait {t : Nat} (waits : e = .taskwaitEnd t) : TaskTurn s.runtime s.detector d' owner owner' e := by
  have enabled := adv.enabled
  have handled := adv.handled
  have lined' := adv.lined'
  subst waits
  simp only [Runtime.enabled, Bool.and_eq_true, Runtime.allEnded_iff] at enabled
  obtain ⟨isTask, runs⟩ := Runtime.running_lt enabled.1
  have begun := (Task.running_iff.mp runs).1
  obtain ⟨init, r, x, refs, moves, counted, heap, lasts, children⟩ := Detector.handle_taskwaitEnd handled
  rw [(s.detector.heap.alloc_extends x).2 r (adv.held isTask begun moves.old r (by simp))] at heap
  refine .wait enabled.1 enabled.2 moves counted heap lasts children
    (adv.lined.last_kept lined' isTask begun (by simp [Event.Creates, Event.Bounds]) ?_ moves)
  rw [Task.units, Task.units]
  simp [Runtime.after, Runtime.waitTask, Task.learn]

omit flat in
theorem turn_single {t : Nat} {executor : Bool} (begins : e = .workBegin t .single executor) :
    TaskTurn s.runtime s.detector d' owner owner' e := by
  have enabled := adv.enabled
  have handled := adv.handled
  have lined' := adv.lined'
  subst begins
  simp only [Runtime.enabled, Bool.and_eq_true] at enabled
  obtain ⟨⟨running, groups⟩, isMember⟩ := enabled
  obtain ⟨isTask, runs⟩ := Runtime.running_lt running
  obtain ⟨begun, live, -⟩ := Task.running_iff.mp runs
  obtain ⟨old, relabels, heap⟩ := Detector.handle_workBegin handled
  have task : (s.runtime.after (.workBegin t .single executor)).task t =
      { (s.runtime.task t).enter (.single (s.runtime.task t).works executor) with works := (s.runtime.task t).works + 1 } := by
    simp only [Runtime.after, Runtime.beginWork]
    split
    · simp
    · rename_i others
      split at isMember
      · rename_i r i kind
        exact absurd kind (others r i)
      · cases isMember
  have units : ((s.runtime.after (.workBegin t .single executor)).task t).units =
      [.single (s.runtime.task t).works executor] := by
    rw [task]
    change (Construct.single _ _ :: (s.runtime.task t).constructs).filter _ = _
    rw [List.filter_cons_of_pos rfl]
    exact congrArg _ (Task.units_groups groups)
  have place : (s.runtime.after (.workBegin t .single executor)).place t =
      ((s.runtime.task t).line ++ [⟨t, none⟩]) ++ [⟨t, some (.single (s.runtime.task t).works executor)⟩] := by
    rw [Runtime.place_live (by rw [task]; exact live), Task.strands_unit units, task, List.append_assoc]
    rfl
  have count := (Runtime.workBegin_task s.runtime t .single executor).choose_spec.2.2.1
  exact .single running relabels heap
    (lined'.last_owner (count.symm ▸ isTask) (by rw [task]; exact begun) relabels.new place).2

theorem turn_leave {t : Nat} (ends : e = .workEnd t) : TaskTurn s.runtime s.detector d' owner owner' e := by
  have enabled := adv.enabled
  have handled := adv.handled
  subst ends
  simp only [Runtime.enabled, Bool.and_eq_true, decide_eq_true_eq] at enabled
  obtain ⟨isTask, inside⟩ := enabled
  -- whatever task ends a worksharing construct, it is a single
  obtain ⟨k, executor, rest, constructs⟩ : ∃ k executor rest,
      (s.runtime.task t).constructs = .single k executor :: rest := by
    cases kind : (s.runtime.task t).kind with
    | initial =>
      cases adv.nested.initial t isTask kind
      rcases flat.root with empty | ⟨-, waits⟩
      · rw [empty] at inside
        cases inside
      · rw [waits] at inside
        cases inside
    | explicit =>
      rw [(flat.explicit t isTask kind).2.2.2] at inside
      cases inside
    | implicit r i =>
      rcases (flat.implicit t isTask r i kind).2 with empty | ⟨k, executor, busy⟩
      · rw [empty] at inside
        cases inside
      · exact ⟨k, executor, [], busy⟩
  obtain ⟨begun, live, -⟩ := adv.workEnd_live isTask constructs rfl
  obtain ⟨init, unit, relabels, heap⟩ := Detector.handle_workEnd_single constructs handled
  exact .leave isTask begun live relabels heap

theorem taskTurn (permitted : TaskStep s e) : TaskTurn s.runtime s.detector d' owner owner' e := by
  have handled := adv.handled
  cases e with
  | parallelBegin =>
    cases handled
    exact .still rfl (fun _ => rfl) (fun _ => rfl) (by simp)
  | barrierBegin | release | parallelEnd | access =>
    cases handled
    exact .still rfl (fun _ => rfl) (fun _ => rfl) (by simp)
  | implicitBegin t => exact adv.turn_enter flat rfl
  | barrierEnd t => exact adv.turn_barrier flat rfl
  | implicitEnd t => exact adv.turn_leaves flat rfl
  | taskCreate t => exact adv.turn_create rfl
  | taskComplete t => exact adv.turn_complete rfl
  | taskwaitEnd t => exact adv.turn_wait rfl
  | workBegin t work executor =>
    obtain rfl : work = .single := permitted
    exact adv.turn_single rfl
  | workEnd t => exact adv.turn_leave flat rfl
  | _ => exact permitted.elim

end Advance

end Romp
