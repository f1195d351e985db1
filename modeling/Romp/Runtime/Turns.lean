import Romp.Label.Version
import Romp.Runtime.Labels
import Romp.Runtime.Lives

namespace Romp

/-- The record of a segment, but for the marks, which never changes once the segment is there. -/
def Detector.plain (d : Detector) (r : Nat) : Contents := (d.heap.objects r).plain

def Contents.bump (z : Contents) (k : Nat) : Contents := { z with offset := (z.offset + k * z.span) % 2 ^ 16 }

def Event.count : Event → Contents → Contents
  | .taskCreate _, z => { z with taskcreate := z.taskcreate + 1 }
  | .taskwaitEnd _, z => { z with taskwait := z.taskwait + 1 }
  | .taskgroupBegin _, z =>
    { z with taskGroupId := (z.taskGroupId + 1) % 2 ^ 16, taskGroupLevel := (z.taskGroupLevel + 1) % 2 ^ 16 }
  | .taskgroupEnd _, z =>
    { z with
      taskGroupId := (z.taskGroupId + 1) % 2 ^ 16
      taskGroupLevel := (z.taskGroupLevel + (2 ^ 16 - 1)) % 2 ^ 16 }
  | .orderedBegin _, z | .orderedEnd _, z => { z with phase := z.phase + 1 }
  | .workEnd _, z => { z with loopCount := z.loopCount + 1 }
  | _, z => z

def Construct.rank : Construct → Nat
  | loop _ turn (some _) | sections _ turn => turn
  | _ => 0

namespace Runtime

variable {R : Runtime}

inductive UnitsAfter (R R' : Runtime) (x : Nat) : Event → Prop
  | same {e} : (R'.task x).units = (R.task x).units → (R'.task x).works = (R.task x).works → UnitsAfter R R' x e
  | work {work executor c} : (R.task x).units = [] → (R'.task x).units = [c] →
      c.number = some (R.task x).works → (R'.task x).works = (R.task x).works + 1 →
      UnitsAfter R R' x (.workBegin x work executor)
  | done {c} : (R.task x).units = [c] → (R'.task x).units = [] → (R'.task x).works = (R.task x).works →
      UnitsAfter R R' x (.workEnd x)
  | next {id c c' k} : (R.task x).units = [c] → (R'.task x).units = [c'] → c.number = some k →
      c'.number = some k → c.rank < c'.rank → (R'.task x).works = (R.task x).works → UnitsAfter R R' x (.dispatch x id)

theorem UnitsAfter.of_set {R' : Runtime} {t x : Nat} {e : Event} (task : Task)
    (after : R'.task x = if x = t then task else R.task x) (units : task.units = (R.task t).units)
    (works : task.works = (R.task t).works) : UnitsAfter R R' x e := by
  by_cases self : x = t
  · rw [if_pos self] at after
    exact .same (by rw [after, units, self]) (by rw [after, works, self])
  · rw [if_neg self] at after
    exact .same (by rw [after]) (by rw [after])

theorem dispatch_units {t : Nat} {id : BitVec 64} (lineage : R.Lineage) (enabled : R.enabled (.dispatch t id) = true) :
    ∃ c c' k, (R.task t).units = [c] ∧ ((R.after (.dispatch t id)).task t).units = [c'] ∧ c.number = some k ∧
      c'.number = some k ∧ c.rank < c'.rank ∧ ((R.after (.dispatch t id)).task t).works = (R.task t).works := by
  simp only [Runtime.enabled, Bool.and_eq_true] at enabled
  have inside := enabled.2
  have task := finishIteration_task R t
  have same : R.after (.dispatch t id) = R.dispatchTo t id := rfl
  have moves : ∀ (c' : Construct) {c rest k}, (R.task t).constructs = c :: rest → c.number = some k → c'.number = some k →
      c.rank < c'.rank → (R.after (.dispatch t id)).task t = { R.task t with constructs := c' :: rest } →
      ∃ c c' k, (R.task t).units = [c] ∧ ((R.after (.dispatch t id)).task t).units = [c'] ∧ c.number = some k ∧
        c'.number = some k ∧ c.rank < c'.rank ∧ ((R.after (.dispatch t id)).task t).works = (R.task t).works := by
    intro c' c rest k constructs number number' later after
    obtain ⟨units, empty⟩ := lineage.units_cons constructs number
    refine ⟨c, c', k, units, ?_, number, number', later, by rw [after]⟩
    rw [after, Task.units, List.filter_cons_of_pos (by rw [number']; rfl), empty]
  split at inside
  · rename_i r number turn last rest region constructs
    simp only [dispatchTo, task, region, constructs] at same
    refine moves (.loop number (turn + 1) (some id)) constructs rfl rfl ?_ (by rw [same]; simp [region])
    cases last with
    | none => exact Nat.succ_pos turn
    | some before => exact Nat.lt_succ_self turn
  · rename_i r number turn rest region constructs
    simp only [dispatchTo, task, region, constructs] at same
    exact moves (.sections number (turn + 1)) constructs rfl rfl (Nat.lt_succ_self turn) (by rw [same]; simp [region])
  · cases inside

theorem units_after (lineage : R.Lineage) {e : Event} (enabled : R.enabled e = true) {x : Nat} (isTask : x < R.tasks) :
    UnitsAfter R (R.after e) x e := by
  cases e with
  | parallelBegin t size =>
    refine .of_set _ (fork_task isTask) (Task.units_enter rfl) rfl
  | release r =>
    obtain ⟨known, same⟩ := release_kept (R := R) (r := r) x
    exact .same (by rw [same]; rfl) (by rw [same])
  | taskwaitEnd t =>
    have kept : (R.waitTask t x).units = (R.task x).units ∧ (R.waitTask t x).works = (R.task x).works := by
      rw [waitTask]
      by_cases self : x = t
      · rw [if_pos self, self]
        exact ⟨rfl, rfl⟩
      · rw [if_neg self]
        split <;> exact ⟨rfl, rfl⟩
    exact .same kept.1 kept.2
  | taskCreate t =>
    have old : (R.after (.taskCreate t)).task x = R.task x := by simp [after, Nat.ne_of_lt isTask]
    exact .same (by rw [old]) (by rw [old])
  | dependences => exact .same rfl rfl
  | implicitBegin | barrierBegin | barrierEnd | implicitEnd | taskComplete => exact .of_set _ (set_task ..) rfl rfl
  | orderedBegin t => exact .of_set _ (set_task ..) (Task.units_enter rfl) rfl
  | taskgroupBegin t =>
    exact .of_set _ (set_task (s := R) t ((R.task t).enter (.taskgroup R.groups)) x) (Task.units_enter rfl) rfl
  | parallelEnd r =>
    simp only [Runtime.enabled, Bool.and_eq_true, beq_iff_eq] at enabled
    obtain ⟨rest, waits⟩ := List.head?_eq_some_iff.mp enabled.2
    exact .of_set _ (set_task ..) (Task.units_leave waits rfl) rfl
  | taskgroupEnd t =>
    simp only [Runtime.enabled, Bool.and_eq_true] at enabled
    obtain ⟨-, inside⟩ := enabled
    split at inside
    · rename_i g rest constructs
      have opened : (R.task t).openGroups.head? = some g := by
        rw [Task.openGroups, constructs]
        rfl
      have same : R.after (.taskgroupEnd t) = R.set t ((R.task t).leave.learn (R.gather (R.inGroup g))) := by
        simp only [Runtime.after, opened]
      rw [same]
      exact .of_set _ (set_task ..) (Task.units_leave constructs rfl) rfl
    · cases inside
  | workBegin t work executor =>
    simp only [Runtime.enabled, Bool.and_eq_true] at enabled
    obtain ⟨c, number, task, -, others⟩ := workBegin_task R t work executor
    have empty := Task.units_groups enabled.1.2
    by_cases self : x = t
    · subst self
      refine .work empty ?_ number (by rw [task])
      rw [task]
      change (c :: (R.task x).constructs).filter _ = _
      rw [List.filter_cons_of_pos (by rw [number]; rfl)]
      exact congrArg _ empty
    · exact .same (by rw [others x self]) (by rw [others x self])
  | workEnd t =>
    simp only [Runtime.enabled, Bool.and_eq_true, decide_eq_true_eq] at enabled
    have task : (R.after (.workEnd t)).task x = if x = t then (R.task t).leave else R.task x := by
      simp [after, finishIteration_task]
    by_cases self : x = t
    · subst self
      rw [if_pos rfl] at task
      have ends : ∀ (c : Construct) (rest : List Construct) (k : Nat), (R.task x).constructs = c :: rest →
          c.number = some k → UnitsAfter R (R.after (.workEnd x)) x (.workEnd x) := by
        intro c rest k constructs number
        obtain ⟨units, empty⟩ := lineage.units_cons constructs number
        refine .done units ?_ (by rw [task]; rfl)
        rw [task, Task.units, Task.leave, constructs]
        exact empty
      have head := enabled.2
      split at head
      all_goals first | (rename_i constructs; exact ends _ _ _ constructs rfl) | cases head
    · rw [if_neg self] at task
      exact .same (by rw [task]) (by rw [task])
  | dispatch t id =>
    by_cases self : x = t
    · subst self
      obtain ⟨c, c', k, units, units', number, number', later, works⟩ := dispatch_units lineage enabled
      exact .next units units' number number' later works
    · simp only [Runtime.enabled, Bool.and_eq_true] at enabled
      obtain ⟨-, -, -, -, -, -, -, -, -, others⟩ := dispatch_task enabled.2
      exact .same (by rw [others x self]) (by rw [others x self])
  | orderedEnd t =>
    simp only [Runtime.enabled, Bool.and_eq_true, beq_iff_eq] at enabled
    obtain ⟨rest, constructs⟩ := List.head?_eq_some_iff.mp enabled.2
    refine .of_set (R.task t).leave ?_ (Task.units_leave constructs rfl) rfl
    simp [after, finishIteration_task]
  | access t =>
    exact .of_set _ (set_task (s := R) t ((R.task t).learn fun a => a == R.accesses) x) rfl rfl

end Runtime

def Event.actor : Event → Option Nat
  | .release _ | .parallelEnd _ => none
  | .parallelBegin t _ | .implicitBegin t | .barrierBegin t _ | .barrierEnd t | .implicitEnd t | .taskCreate t
  | .dependences t _ | .taskComplete t | .taskwaitEnd t | .taskgroupBegin t | .taskgroupEnd t | .workBegin t _ _
  | .workEnd t | .dispatch t _ | .orderedBegin t | .orderedEnd t | .access t => some t

def Contents.base (type offset span : Nat) : Contents where
  type
  marker := false
  taskwaited := false
  taskGroupSync := false
  taskcreate := 0
  loopCount := 0
  phase := 0
  taskwait := 0
  span
  offset
  taskGroupId := 0
  taskGroupLevel := 0
  workShareId := none

def Contents.IsUnit (z : Contents) : Prop := z.type = 3 ∧ z.span = 1 ∧ z.workShareId ≠ none

def Task.Opens (t : Task) (c : Construct) : Prop :=
  c.number = some t.works ∨ ∃ c₀ k, t.units = [c₀] ∧ c₀.number = some k ∧ c.number = some k ∧ c₀.rank < c.rank

/-- The last segments of a label go, or make room for a new one: another version of one of them, or the
    segment of another unit. -/
inductive Renewal (R : Runtime) (d d' : Detector) (owner owner' : Nat → Strand) (e : Event) (t : Nat) :
    Label → Label → Prop
  | gone {r} : Renewal R d d' owner owner' e t [r] []
  | version {r rest} : owner' d.heap.next = owner r → d'.plain d.heap.next = e.count (d.plain r) →
      Renewal R d d' owner owner' e t (r :: rest) [d.heap.next]
  | unit {dropped c} : owner' d.heap.next = ⟨t, some c⟩ → (R.task t).Opens c → ((R.after e).task t).units = [c] →
      (d'.plain d.heap.next).IsUnit → Renewal R d d' owner owner' e t dropped [d.heap.next]

/-- All that a step may do to the labels of the tasks. -/
inductive Turn (R : Runtime) (d d' : Detector) (owner owner' : Nat → Strand) : Event → Prop
  | still {e} (plain : ∀ x, e ≠ .barrierEnd x) (labels : ∀ x, d'.label x = d.label x)
      (next : d'.heap.next = d.heap.next)
      (begun : ∀ x < (R.after e).tasks, ((R.after e).task x).begun = true → x < R.tasks ∧ (R.task x).begun = true) :
      Turn R d d' owner owner' e
  | touch {e t upper dropped new} (plain : ∀ x, e ≠ .barrierEnd x) (isTask : t < R.tasks) (begun : (R.task t).begun = true)
      (live : (R.task t).ended = false) (free : ∀ r, (R.region r).encountering = t → ¬ R.IsOpen r)
      (actor : e.actor = some t) (moves : d.Moves d' t (upper ++ dropped) (upper ++ new))
      (low : (R.task t).line.length ≤ upper.length) (count : (R.after e).tasks = R.tasks)
      (same : ∀ x < R.tasks, ((R.after e).task x).begun = (R.task x).begun) (next : d'.heap.next = d.heap.next + new.length)
      (renewal : Renewal R d d' owner owner' e t dropped new) : Turn R d d' owner owner' e
  | create {t init r} (isTask : t < R.tasks) (begun : (R.task t).begun = true) (live : (R.task t).ended = false)
      (free : ∀ r, (R.region r).encountering = t → ¬ R.IsOpen r) (old : d.label t = some (init ++ [r]))
      (new : d'.label t = some (init ++ [d.heap.next + 1])) (made : d'.label R.tasks = some (init ++ [r, d.heap.next]))
      (others : ∀ x, x ≠ t → x ≠ R.tasks → d'.label x = d.label x) (next : d'.heap.next = d.heap.next + 2)
      (own : owner' d.heap.next = ⟨R.tasks, none⟩) (kept : owner' (d.heap.next + 1) = owner r)
      (plain : d'.plain d.heap.next = .base 2 0 1)
      (counted : d'.plain (d.heap.next + 1) = (Event.taskCreate t).count (d.plain r)) :
      Turn R d d' owner owner' (.taskCreate t)
  | enter {r i upper} (isRegion : r < R.regions) (isMember : i < (R.region r).size) (isOpen : R.IsOpen r)
      (unbegun : (R.task (R.memberOf r i)).begun = false) (old : d.label (R.region r).encountering = some upper)
      (new : d'.label (R.memberOf r i) = some (upper ++ [d.heap.next]))
      (others : ∀ x, x ≠ R.memberOf r i → d'.label x = d.label x) (next : d'.heap.next = d.heap.next + 1)
      (own : owner' d.heap.next = ⟨R.memberOf r i, none⟩) (plain : d'.plain d.heap.next = .base 1 i (R.region r).size) :
      Turn R d d' owner owner' (.implicitBegin (R.memberOf r i))
  | barrier {r i upper x own} (isRegion : r < R.regions) (isMember : i < (R.region r).size)
      (begun : (R.task (R.memberOf r i)).begun = true) (live : (R.task (R.memberOf r i)).ended = false)
      (idle : (R.task (R.memberOf r i)).constructs.all Construct.isTaskgroup = true)
      (moves : d.Moves d' (R.memberOf r i) (upper ++ [x, own]) (upper ++ [d.heap.next, own]))
      (low : (R.task (R.memberOf r i)).line.length = upper.length + 1) (next : d'.heap.next = d.heap.next + 1)
      (kept : owner' d.heap.next = owner x) (bumped : d'.plain d.heap.next = (d.plain x).bump 1) :
      Turn R d d' owner owner' (.barrierEnd (R.memberOf r i))
  | join {r upper own} (isRegion : r < R.regions) (live : (R.task (R.memberOf r 0)).ended = false)
      (closing : (R.task (R.memberOf r 0)).closing = true)
      (settled : (R.task (R.memberOf r 0)).arrived = (R.task (R.memberOf r 0)).passed)
      (known : d.label (R.memberOf r 0) = some (upper ++ [own]))
      (new : d'.label (R.region r).encountering = some upper)
      (others : ∀ x, x ≠ (R.region r).encountering → d'.label x = d.label x) (heap : d'.heap = d.heap) :
      Turn R d d' owner owner' (.implicitEnd (R.memberOf r 0))

namespace Runtime

variable {R : Runtime}

theorem place_after {e : Event} {t : Nat} (isTask : t < R.tasks) (units : ((R.after e).task t).units = (R.task t).units)
    (ended : (R.task t).kind = .explicit → ((R.after e).task t).ended = (R.task t).ended) :
    (R.after e).place t = R.place t := by
  refine place_eq ((after_extends R e).fixed t isTask) ?_ ended
  rw [Task.body_units, units, Task.body_units]

end Runtime

theorem workSegment_isUnit (work : Work) (executor : Bool) : (Detector.workSegment work executor).plain.IsUnit := by
  cases work <;> cases executor <;> exact ⟨by decide, by decide, Option.some_ne_none _⟩

theorem workShareUnit_isUnit (id : BitVec 64) (isSection : Bool) : (Segment.workShareUnit id isSection).plain.IsUnit := by
  have value : (Segment.workShareUnit id isSection).value = (Segment.workShareUnit 0 isSection).value := rfl
  refine ⟨?_, ?_, Option.some_ne_none _⟩
  · change Segment.typeField.get _ = 3
    rw [value]
    cases isSection <;> decide
  · change Segment.getSpan _ = 1
    rw [Segment.getSpan, value]
    cases isSection <;> decide

namespace Lined

variable {R : Runtime} {d d' : Detector} {owner owner' : Nat → Strand} {t : Nat} {e : Event} (lined : Lined R d owner)

include lined

theorem last_owner {init : Label} {r : Nat} {above : List Strand} {strand : Strand} (isTask : t < R.tasks)
    (begun : (R.task t).begun = true) (known : d.label t = some (init ++ [r])) (place : R.place t = above ++ [strand]) :
    init.map owner = above ∧ owner r = strand := by
  have mapped := (lined.place_length isTask begun known).1
  rw [place, List.map_append] at mapped
  obtain ⟨upper, last⟩ := List.append_inj' mapped rfl
  exact ⟨upper, List.singleton_inj.mp last⟩

theorem label_length {label : Label} (isTask : t < R.tasks) (begun : (R.task t).begun = true)
    (live : (R.task t).ended = false) (known : d.label t = some label) :
    label.length = (R.task t).line.length + 1 + (R.task t).body.toList.length := by
  have length := congrArg List.length (lined.place_length isTask begun known).1
  rw [Runtime.place_live live, Task.strands] at length
  simp only [List.length_map, List.length_append, List.length_cons] at length
  omega

theorem label_last {label : Label} (isTask : t < R.tasks) (begun : (R.task t).begun = true)
    (live : (R.task t).ended = false) (known : d.label t = some label) : ∃ init r, label = init ++ [r] := by
  have length := lined.label_length isTask begun live known
  rcases List.eq_nil_or_concat' label with rfl | last
  · rw [List.length_nil] at length
    omega
  · exact last

variable (lined' : Lined (R.after e) d' owner')

include lined'

theorem last_kept {init : Label} {r : Nat} (isTask : t < R.tasks) (begun : (R.task t).begun = true)
    (plain : ¬e.Creates ∧ ¬e.Bounds) (units : ((R.after e).task t).units = (R.task t).units)
    (moves : d.Moves d' t (init ++ [r]) (init ++ [d.heap.next])) : owner' d.heap.next = owner r := by
  have lives := Runtime.lives_after (R := R) plain.2
  have count := (Runtime.after_counts (R := R) plain.1).1
  have place := Runtime.place_after isTask units fun _ => lives.ended t isTask
  have before := (lined.place_length isTask begun moves.old).1
  rw [List.map_append] at before
  exact (lined'.last_owner (count ▸ isTask) ((lives.begun t isTask).trans begun) moves.new (place.trans before.symm)).2

theorem turn_last {init : Label} {r : Nat} (notBarrier : ∀ x, e ≠ .barrierEnd x) (runs : R.running t = true)
    (plain : ¬e.Creates ∧ ¬e.Bounds) (actor : e.actor = some t)
    (units : ((R.after e).task t).units = (R.task t).units)
    (moves : d.Moves d' t (init ++ [r]) (init ++ [d.heap.next])) (next : d'.heap.next = d.heap.next + 1)
    (counted : d'.plain d.heap.next = e.count (d.plain r)) : Turn R d d' owner owner' e := by
  obtain ⟨isTask, runs⟩ := Runtime.running_lt runs
  obtain ⟨begun, live, -⟩ := Task.running_iff.mp runs
  have length := lined.label_length isTask begun live moves.old
  simp only [List.length_append, List.length_cons, List.length_nil] at length
  exact .touch notBarrier isTask begun live (fun _ => Runtime.Nested.running_not_open runs) actor moves (by omega)
    (Runtime.after_counts (R := R) plain.1).1 (Runtime.lives_after (R := R) plain.2).begun next
    (.version (lined.last_kept lined' isTask begun plain units moves) counted)

theorem turn_workBegin {work : Work} {executor : Bool} (work_ : e = .workBegin t work executor)
    (enabled : R.enabled e = true) (handled : d.handle R e = .ok d') : Turn R d d' owner owner' e := by
  subst work_
  simp only [Runtime.enabled, Bool.and_eq_true] at enabled
  obtain ⟨⟨running, groups⟩, -⟩ := enabled
  obtain ⟨isTask, runs⟩ := Runtime.running_lt running
  obtain ⟨begun, live, -⟩ := Task.running_iff.mp runs
  obtain ⟨c, number, task, count, -⟩ := Runtime.workBegin_task R t work executor
  obtain ⟨upper, relabels, heap⟩ := Detector.handle_workBegin handled
  have empty := Task.units_groups groups
  have units : ((R.after (.workBegin t work executor)).task t).units = [c] := by
    rw [task]
    change (c :: (R.task t).constructs).filter _ = _
    rw [List.filter_cons_of_pos (by rw [number]; rfl)]
    exact congrArg _ empty
  have length := lined.label_length isTask begun live relabels.old
  have place : (R.after (.workBegin t work executor)).place t =
      ((R.task t).line ++ [⟨t, none⟩]) ++ [⟨t, some c⟩] := by
    rw [Runtime.place_live (by rw [task]; exact live), Task.strands_unit units, task, List.append_assoc]
    rfl
  have owns := (lined'.last_owner (count.symm ▸ isTask) (by rw [task]; exact begun) relabels.new place).2
  have lives := Runtime.lives_after (R := R) (e := .workBegin t work executor) id
  have moves : d.Moves d' t (upper ++ []) (upper ++ [d.heap.next]) := by
    rw [List.append_nil]
    exact relabels.toMoves
  refine .touch (by simp) isTask begun live (fun _ => Runtime.Nested.running_not_open runs) rfl moves (by omega) count
    lives.begun (heap ▸ rfl)
    (.unit owns (.inl number) units ?_)
  rw [Detector.plain, heap, Heap.alloc_read]
  exact workSegment_isUnit work executor

theorem turn_dispatch {id : BitVec 64} (lineage : R.Lineage) (dispatch_ : e = .dispatch t id)
    (enabled : R.enabled e = true) (handled : d.handle R e = .ok d') : Turn R d d' owner owner' e := by
  subst dispatch_
  obtain ⟨c, c', k, units, units', number, number', later, -⟩ := Runtime.dispatch_units lineage enabled
  simp only [Runtime.enabled, Bool.and_eq_true] at enabled
  obtain ⟨isTask, runs⟩ := Runtime.running_lt enabled.1
  obtain ⟨begun, live, -⟩ := Task.running_iff.mp runs
  obtain ⟨init, unit, isSection, relabels, heap, -⟩ := Detector.handle_dispatch handled
  have length := lined.label_length isTask begun live relabels.old
  rw [Task.body_units, units] at length
  simp only [List.length_append, List.length_cons, List.length_nil, List.head?_cons, Option.toList_some] at length
  have plain : ¬ (Event.dispatch t id).Creates ∧ ¬ (Event.dispatch t id).Bounds := ⟨fun h => h, fun h => h⟩
  have count := (Runtime.after_counts (R := R) plain.1).1
  have lives := Runtime.lives_after (R := R) plain.2
  have line := ((Runtime.after_extends R (.dispatch t id)).fixed t isTask).line
  have place : (R.after (.dispatch t id)).place t = ((R.task t).line ++ [⟨t, none⟩]) ++ [⟨t, some c'⟩] := by
    rw [Runtime.place_live ((lives.ended t isTask).trans live), Task.strands_unit units', line, List.append_assoc]
    rfl
  have owns := (lined'.last_owner (count.symm ▸ isTask) ((lives.begun t isTask).trans begun) relabels.new place).2
  refine .touch (by simp) isTask begun live (fun _ => Runtime.Nested.running_not_open runs) rfl relabels.toMoves (by omega) count
    lives.begun (heap ▸ rfl) (.unit owns (.inr ⟨c, k, units, number, number', later⟩) units' ?_)
  rw [Detector.plain, heap, Heap.alloc_read]
  exact workShareUnit_isUnit id isSection

theorem turn_workEnd (lineage : R.Lineage) (end_ : e = .workEnd t) (nested : R.Nested) (enabled : R.enabled e = true)
    (handled : d.handle R e = .ok d') : Turn R d d' owner owner' e := by
  subst end_
  simp only [Runtime.enabled, Bool.and_eq_true, decide_eq_true_eq] at enabled
  obtain ⟨isTask, inside⟩ := enabled
  have plain : ¬ (Event.workEnd t).Creates ∧ ¬ (Event.workEnd t).Bounds := ⟨fun h => h, fun h => h⟩
  have count := (Runtime.after_counts (R := R) plain.1).1
  have lives := Runtime.lives_after (R := R) plain.2
  have line := ((Runtime.after_extends R (.workEnd t)).fixed t isTask).line
  have task : (R.after (.workEnd t)).task t = (R.task t).leave := by
    simp [Runtime.after, Runtime.finishIteration_task]
  have common : ∀ {c : Construct} {rest : List Construct} {k : Nat}, (R.task t).constructs = c :: rest →
      c.number = some k → (R.task t).begun = true ∧ (R.task t).ended = false ∧ (R.task t).units = [c] ∧
        (∀ r, (R.region r).encountering = t → ¬ R.IsOpen r) ∧
        (R.after (.workEnd t)).place t = (R.task t).line ++ [⟨t, none⟩] := by
    intro c rest k constructs number
    obtain ⟨units, empty⟩ := lineage.units_cons constructs number
    have busy := nested.busy isTask constructs (by cases c <;> first | rfl | cases number)
    have live : (R.task t).ended = false := by
      rw [← Bool.not_eq_true]
      intro ended
      cases constructs.symm.trans (lineage.idle t ended)
    refine ⟨busy.2.1, live, units, fun r forker isOpen => ?_, ?_⟩
    · rw [Runtime.IsOpen, forker, constructs] at isOpen
      cases isOpen
      cases number
    · rw [Runtime.place_live ((lives.ended t isTask).trans live), Task.strands_plain, line]
      rw [task, Task.units, Task.leave, constructs]
      exact empty
  have shared : ∀ {c : Construct} {rest : List Construct} {k : Nat}, (R.task t).constructs = c :: rest →
      c.number = some k → ((∃ number turn last rest, (R.task t).constructs = .loop number turn last :: rest) ∨
        ∃ number unit rest, (R.task t).constructs = .sections number unit :: rest) →
      Turn R d d' owner owner' (.workEnd t) := by
    intro c rest k constructs number shares
    obtain ⟨begun, live, units, free, place⟩ := common constructs number
    obtain ⟨init, r, unit, s, relabels, counted, heap⟩ := Detector.handle_workEnd_shared shares handled
    have before := (lined.place_length isTask begun relabels.old).1
    rw [Runtime.place_live live, Task.strands_unit units, List.map_append] at before
    obtain ⟨upper, lower⟩ := List.append_inj' before rfl
    simp only [List.map_cons, List.map_nil, List.cons.injEq, and_true] at lower
    have length := congrArg List.length upper
    rw [List.length_map] at length
    have owns := (lined'.last_owner (count.symm ▸ isTask) ((lives.begun t isTask).trans begun) relabels.new place).2
    refine .touch (by simp) isTask begun live free rfl relabels.toMoves length.ge count lives.begun (heap ▸ rfl)
      (.version (owns.trans lower.1.symm) ?_)
    rw [Detector.plain, heap, Heap.alloc_read, plain_setLoopCount counted]
    rfl
  split at inside
  · rename_i number executor rest constructs
    obtain ⟨begun, live, units, free, -⟩ := common constructs rfl
    obtain ⟨init, unit, relabels, heap⟩ := Detector.handle_workEnd_single constructs handled
    have length := lined.label_length isTask begun live relabels.old
    simp only [List.length_append, List.length_cons, List.length_nil] at length
    have moves : d.Moves d' t (init ++ [unit]) (init ++ []) := by
      rw [List.append_nil]
      exact relabels.toMoves
    exact .touch (by simp) isTask begun live free rfl moves (by omega) count lives.begun (heap ▸ rfl) .gone
  · rename_i number turn last rest constructs
    exact shared constructs rfl (.inl ⟨number, turn, last, rest, constructs⟩)
  · rename_i number unit rest constructs
    exact shared constructs rfl (.inr ⟨number, unit, rest, constructs⟩)
  · cases inside

theorem turn_taskCreate (create_ : e = .taskCreate t) (enabled : R.enabled e = true)
    (handled : d.handle R e = .ok d') : Turn R d d' owner owner' e := by
  subst create_
  obtain ⟨isTask, runs⟩ := Runtime.running_lt enabled
  obtain ⟨begun, live, -⟩ := Task.running_iff.mp runs
  obtain ⟨init, r, x, y, old, base, counted, heap, made, new, others, -⟩ := Detector.handle_taskCreate handled isTask
  have known : (R.after (.taskCreate t)).task t = R.task t := by simp [Runtime.after, Nat.ne_of_lt isTask]
  have born : (R.after (.taskCreate t)).task R.tasks = Task.new .explicit t ((R.task t).strands t) R.accesses
      (R.task t).region ((R.task t).groups ++ (R.task t).openGroups) true (R.task t).known := by
    simp [Runtime.after]
  have grown : (R.after (.taskCreate t)).tasks = R.tasks + 1 := rfl
  obtain ⟨mapped, holds⟩ := lined.place_length isTask begun old
  have there : r < d.heap.next := holds r (by simp)
  have place : (R.after (.taskCreate t)).place t = R.place t := by rw [Runtime.place, Runtime.place, known]
  have place' : (R.after (.taskCreate t)).place R.tasks = (R.task t).strands t ++ [⟨R.tasks, none⟩] := by
    rw [Runtime.place_live (by rw [born]; rfl), born]
    rfl
  rw [List.map_append] at mapped
  have kept := (lined'.last_owner (show t < R.tasks + 1 by omega) (by rw [known]; exact begun) new
    (place.trans mapped.symm)).2
  have own := (lined'.last_owner (show R.tasks < R.tasks + 1 by omega) (by rw [born]; rfl) made place').2
  have first : ((d.heap.alloc x).1.alloc y).1.objects d.heap.next = x := by
    rw [((d.heap.alloc x).1.alloc_extends y).2 d.heap.next (Nat.lt_succ_self _), Heap.alloc_read]
  have second : ((d.heap.alloc x).1.alloc y).1.objects (d.heap.next + 1) = y := Heap.alloc_read (d.heap.alloc x).1 y
  have untouched : (d.heap.alloc x).1.objects r = d.heap.objects r := (d.heap.alloc_extends x).2 r there
  refine .create isTask begun live (fun _ => Runtime.Nested.running_not_open runs) old new
    (by rw [made, List.append_assoc]; rfl) others (heap ▸ rfl) own kept ?_ ?_
  · rw [Detector.plain, heap, first]
    obtain ⟨s, same, contents⟩ := Segment.base_contents .eExplicit 0 (show 1 < 2 ^ 16 by decide)
    rw [base] at same
    cases same
    rw [Segment.plain, contents]
    rfl
  · rw [Detector.plain, heap, second, plain_setTaskcreate counted, untouched]
    rfl

theorem turn_taskComplete (complete : e = .taskComplete t) (enabled : R.enabled e = true)
    (handled : d.handle R e = .ok d') : Turn R d d' owner owner' e := by
  subst complete
  simp only [Runtime.enabled, Bool.and_eq_true, decide_eq_true_eq, List.isEmpty_iff] at enabled
  obtain ⟨isTask, runs⟩ := Runtime.running_lt enabled.1.1
  obtain ⟨begun, live, -⟩ := Task.running_iff.mp runs
  obtain ⟨label, known, -, -⟩ := lined.label t isTask begun
  obtain ⟨init, x, relabels, heap⟩ := Detector.handle_taskComplete known handled
  have length := lined.label_length isTask begun live relabels.old
  rw [Task.body_units, Task.units, enabled.2] at length
  simp only [List.length_append, List.length_cons, List.length_nil, List.filter_nil, List.head?_nil,
    Option.toList_none] at length
  have moves : d.Moves d' t (init ++ [x]) (init ++ []) := by
    rw [List.append_nil]
    exact relabels.toMoves
  refine .touch (by simp) isTask begun live (fun _ => Runtime.Nested.running_not_open runs) rfl moves (by omega) rfl
    (fun y _ => ?_) (heap ▸ rfl) .gone
  by_cases self : y = t <;> simp [Runtime.after, self]

variable (nested : R.Nested)

include nested

omit lined in
theorem turn_implicitBegin (begin_ : e = .implicitBegin t) (enabled : R.enabled e = true)
    (handled : d.handle R e = .ok d') : Turn R d d' owner owner' e := by
  subst begin_
  simp only [Runtime.enabled, Bool.and_eq_true, decide_eq_true_eq, Bool.not_eq_true'] at enabled
  obtain ⟨isTask, unbegun⟩ := enabled
  obtain ⟨r, isRegion, i, isMember, rfl, kind, idle, isOpen⟩ := nested.unbegun isTask unbegun
  obtain ⟨upper, s, old, made, heap, new, others, -⟩ :=
    Detector.handle_implicitBegin kind (nested.bounds r isRegion).1 handled
  rw [(nested.kind r isRegion i isMember).2.1] at old
  have task : (R.after (.implicitBegin (R.memberOf r i))).task (R.memberOf r i) =
      { R.task (R.memberOf r i) with begun := true } := by
    simp only [Runtime.after, Runtime.set_task, if_true]
  have notExplicit : (R.task (R.memberOf r i)).kind ≠ .explicit := by
    rw [kind]
    intro explicit
    cases explicit
  have place : (R.after (.implicitBegin (R.memberOf r i))).place (R.memberOf r i) =
      (R.task (R.memberOf r i)).line ++ [⟨R.memberOf r i, none⟩] := by
    rw [Runtime.place_implicit (by rw [task]; exact notExplicit), task]
    exact Task.strands_plain (show (R.task (R.memberOf r i)).constructs.filter _ = [] by rw [idle]; rfl) _
  have own := (lined'.last_owner isTask (by rw [task]) new place).2
  have small : (R.region r).size < 2 ^ 16 := by
    unfold Segment.base at made
    split at made
    · assumption
    · cases made
  refine .enter isRegion isMember isOpen unbegun old new others (heap ▸ rfl) own ?_
  obtain ⟨s', same, contents⟩ := Segment.base_contents .eImplicit i small
  rw [made] at same
  cases same
  rw [Detector.plain, heap, Heap.alloc_read, Segment.plain, contents, Nat.mod_eq_of_lt (isMember.trans small)]
  rfl

theorem turn_barrierEnd (end_ : e = .barrierEnd t) (enabled : R.enabled e = true)
    (handled : d.handle R e = .ok d') : Turn R d d' owner owner' e := by
  subst end_
  simp only [Runtime.enabled, Bool.and_eq_true, decide_eq_true_eq] at enabled
  obtain ⟨isTask, pending⟩ := enabled
  split at pending
  · rename_i r i kind
    obtain ⟨isRegion, isMember, rfl⟩ := nested.member t isTask r i kind
    have counters := nested.counters r isRegion i isMember
    have arrived := counters.arrived
    have pending : (R.task (R.memberOf r i)).passed < (R.region r).released := by simpa using pending
    have groups : (R.task (R.memberOf r i)).constructs.all Construct.isTaskgroup = true := by
      by_contra busy
      have settled := (counters.busy (by simpa using busy)).1
      omega
    have begun : (R.task (R.memberOf r i)).begun = true := by
      by_contra unbegun
      have still := (counters.unbegun (by simpa using unbegun)).1
      omega
    have live : (R.task (R.memberOf r i)).ended = false := by
      rw [← Bool.not_eq_true]
      intro ended
      have settled := (counters.ended ended).2
      omega
    obtain ⟨init, x, m, relabels, heap⟩ := Detector.handle_barrierEnd handled
    have length := lined.label_length isTask begun live relabels.old
    rw [Task.body_units, Task.units_groups groups] at length
    simp only [List.length_append, List.length_cons, List.length_nil, List.head?_nil, Option.toList_none] at length
    have task : (R.after (.barrierEnd (R.memberOf r i))).task (R.memberOf r i) =
        { R.task (R.memberOf r i) with passed := (R.task (R.memberOf r i)).passed + 1 } := by
      simp only [Runtime.after, Runtime.set_task, if_true]
    have place : (R.after (.barrierEnd (R.memberOf r i))).place (R.memberOf r i) = R.place (R.memberOf r i) :=
      Runtime.place_after isTask (by rw [task]; rfl) fun _ => by rw [task]
    have before := (lined.place_length isTask begun relabels.old).1
    have after := (lined'.place_length (show _ < R.tasks from isTask) (by rw [task]; exact begun) relabels.new).1
    rw [place, ← before, List.map_append, List.map_append] at after
    have last := List.append_inj_right' after rfl
    simp only [List.map_cons, List.map_nil, List.cons.injEq, and_true] at last
    refine .barrier isRegion isMember begun live groups relabels.toMoves (by omega) (heap ▸ rfl) last.1 ?_
    rw [Detector.plain, heap, Heap.alloc_read, plain_bump, Contents.bump, Nat.one_mul]
    rfl
  · cases pending

omit lined lined' in
theorem turn_implicitEnd (end_ : e = .implicitEnd t) (enabled : R.enabled e = true)
    (handled : d.handle R e = .ok d') : Turn R d d' owner owner' e := by
  subst end_
  simp only [Runtime.enabled, Bool.and_eq_true, decide_eq_true_eq, Bool.not_eq_true', beq_iff_eq] at enabled
  obtain ⟨⟨⟨⟨isTask, closing⟩, settled⟩, live⟩, ends⟩ := enabled
  cases kind : (R.task t).kind with
  | initial | explicit =>
    rw [kind] at ends
    cases ends
  | implicit r i =>
    obtain ⟨isRegion, isMember, rfl⟩ := nested.member t isTask r i kind
    by_cases first : i = 0
    · subst first
      obtain ⟨upper, own, old, known, heap, new, others, -⟩ := Detector.handle_implicitEnd_first kind handled
      rw [(nested.kind r isRegion 0 isMember).2.1] at new others
      exact .join isRegion live closing settled known new others heap
    · have quiet := Detector.handle_implicitEnd_other kind first handled
      refine .still (by simp) quiet.labels (congrArg Heap.next quiet.heap) fun x bound begun => ?_
      have same : ((R.after (.implicitEnd (R.memberOf r i))).task x).begun = (R.task x).begun := by
        by_cases self : x = R.memberOf r i <;> simp [Runtime.after, self]
      exact ⟨bound, same.symm.trans begun⟩

omit lined lined' nested in
theorem turn_still (enabled : R.enabled e = true) (plain : (∀ x, e ≠ .implicitBegin x) ∧ ∀ x, e ≠ .taskCreate x)
    (notBarrier : ∀ x, e ≠ .barrierEnd x) (quiet : d.Quiet d') : Turn R d d' owner owner' e := by
  refine .still notBarrier quiet.labels (congrArg Heap.next quiet.heap) fun x bound begun => ?_
  rcases (Runtime.created_after enabled).mp ⟨bound, begun⟩ with created | begins | ⟨t, creates, -⟩
  · exact created
  · exact absurd begins (plain.1 x)
  · exact absurd creates (plain.2 t)

theorem turn (lineage : R.Lineage) (enabled : R.enabled e = true) (handled : d.handle R e = .ok d') :
    Turn R d d' owner owner' e := by
  cases e with
  | parallelBegin =>
    cases handled
    exact turn_still enabled (by simp) (by simp) ⟨rfl, fun _ => rfl, fun _ => rfl⟩
  | barrierBegin | release | parallelEnd | access =>
    cases handled
    exact turn_still enabled (by simp) (by simp) (.refl d)
  | dependences t deps =>
    cases handled
    exact turn_still enabled (by simp) (by simp) (Detector.dependences_quiet d _ t deps)
  | implicitBegin t => exact turn_implicitBegin lined' nested rfl enabled handled
  | barrierEnd t => exact lined.turn_barrierEnd lined' nested rfl enabled handled
  | implicitEnd t => exact turn_implicitEnd nested rfl enabled handled
  | taskCreate t => exact lined.turn_taskCreate lined' rfl enabled handled
  | taskComplete t => exact lined.turn_taskComplete lined' rfl enabled handled
  | taskwaitEnd t =>
    have able := enabled
    simp only [Runtime.enabled, Bool.and_eq_true] at able
    obtain ⟨init, r, s, refs, moves, counted, heap, -⟩ := Detector.handle_taskwaitEnd handled
    refine lined.turn_last lined' (by simp) able.1 (by simp [Event.Creates, Event.Bounds]) rfl ?_ moves (heap ▸ rfl) ?_
    · rw [Task.units, Task.units]
      simp [Runtime.after, Runtime.waitTask, Task.learn]
    · rw [Detector.plain, heap, (Heap.mark_grows _ refs (Segment.plain_markTaskwaited _)).plain _ (Nat.lt_succ_self _),
        Heap.alloc_read, plain_setTaskwait counted]
      rfl
  | taskgroupBegin t =>
    obtain ⟨init, r, relabels, heap⟩ := Detector.handle_taskgroupBegin handled
    refine lined.turn_last lined' (by simp) enabled (by simp [Event.Creates, Event.Bounds]) rfl ?_ relabels.toMoves (heap ▸ rfl) ?_
    · simp only [Runtime.after, Runtime.set_task, if_true]
      exact Task.units_enter rfl
    · rw [Detector.plain, heap, Heap.alloc_read, plain_setTaskGroup]
      rfl
  | taskgroupEnd t =>
    have able := enabled
    simp only [Runtime.enabled, Bool.and_eq_true] at able
    obtain ⟨init, r, s, refs, moves, made, heap, -⟩ := Detector.handle_taskgroupEnd handled
    refine lined.turn_last lined' (by simp) able.1 (by simp [Event.Creates, Event.Bounds]) rfl ?_ moves (heap ▸ rfl) ?_
    · have isTask := (Runtime.running_lt able.1).1
      cases Runtime.units_after lineage enabled isTask with
      | same units => exact units
    · rw [Detector.plain, heap, (Heap.mark_grows _ refs Segment.plain_setTaskGroupSync).plain _ (Nat.lt_succ_self _),
        Heap.alloc_read, made, plain_setTaskGroup]
      rfl
  | workBegin t work executor => exact lined.turn_workBegin lined' rfl enabled handled
  | workEnd t => exact lined.turn_workEnd lined' lineage rfl nested enabled handled
  | dispatch t id => exact lined.turn_dispatch lined' lineage rfl enabled handled
  | orderedBegin t | orderedEnd t =>
    have able := enabled
    simp only [Runtime.enabled, Bool.and_eq_true] at able
    obtain ⟨init, r, s, relabels, counted, heap⟩ := Detector.handle_ordered handled
    refine lined.turn_last lined' (by simp) able.1 (by simp [Event.Creates, Event.Bounds]) rfl ?_ relabels.toMoves (heap ▸ rfl) ?_
    · have isTask := (Runtime.running_lt able.1).1
      cases Runtime.units_after lineage enabled isTask with
      | same units => exact units
    · rw [Detector.plain, heap, Heap.alloc_read, plain_setPhase counted]
      rfl

end Lined

end Romp
