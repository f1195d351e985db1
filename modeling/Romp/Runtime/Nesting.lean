import Romp.Runtime.Steps

namespace Romp

namespace Runtime

variable (R : Runtime)

def memberOf (r : Nat) (i : Nat) : Nat := (R.region r).first + i

def IsOpen (r : Nat) : Prop := (R.task (R.region r).encountering).constructs.head? = some (.parallel r)

section After

variable {R} {t size r : Nat}

theorem fork_task {x : Nat} (bound : x < R.tasks) : (R.after (.parallelBegin t size)).task x =
    if x = t then (R.task t).enter (.parallel R.regions) else R.task x := by
  simp [after, fork, Nat.not_le.mpr bound]

theorem fork_member {i : Nat} (bound : i < size) :
    (R.after (.parallelBegin t size)).task (R.tasks + i) =
      Task.new (.implicit R.regions i) t ((R.task t).strands t) R.accesses (some R.regions) [] false
        (R.task t).known := by
  simp [after, fork, bound]

theorem fork_region (x : Nat) : (R.after (.parallelBegin t size)).region x =
    if x = R.regions then R.newRegion t size else R.region x := by
  simp [after, Function.update_apply]

theorem fork_region_old (bound : r < R.regions) :
    (R.after (.parallelBegin t size)).region r = R.region r := by
  rw [fork_region, if_neg (by omega)]

theorem fork_memberOf (bound : r < R.regions) (i : Nat) :
    (R.after (.parallelBegin t size)).memberOf r i = R.memberOf r i := by
  rw [memberOf, fork_region_old bound, memberOf]

theorem fork_memberOf_new (i : Nat) :
    (R.after (.parallelBegin t size)).memberOf R.regions i = R.tasks + i := by
  simp [memberOf, fork_region, newRegion]

theorem fork_kept (t size : Nat) {x : Nat} (bound : x < R.tasks) :
    ∃ constructs, (R.after (.parallelBegin t size)).task x = { R.task x with constructs } := by
  rw [fork_task bound]
  by_cases self : x = t
  · exact ⟨_, by rw [if_pos self, self, Task.enter]⟩
  · exact ⟨(R.task x).constructs, by rw [if_neg self]⟩

theorem release_task (x : Nat) : (R.after (.release r)).task x =
    if x ∈ (R.region r).members then { R.task x with known := R.gather (R.team r) } else R.task x := by
  simp only [after, setRegion_task, releaseTask]

theorem release_kept (x : Nat) : ∃ known, (R.after (.release r)).task x = { R.task x with known } := by
  rw [release_task]
  by_cases inside : x ∈ (R.region r).members
  · exact ⟨_, if_pos inside⟩
  · exact ⟨(R.task x).known, if_neg inside⟩

theorem release_region (x : Nat) : (R.after (.release r)).region x =
    if x = r then { R.region r with released := (R.region r).released + 1 } else R.region x := by
  simp [after]

theorem release_layout (x : Nat) : ((R.after (.release r)).region x).size = (R.region x).size ∧
    ((R.after (.release r)).region x).first = (R.region x).first ∧
    ((R.after (.release r)).region x).encountering = (R.region x).encountering := by
  rw [release_region]
  by_cases same : x = r <;> simp [same]

theorem release_memberOf (x i : Nat) : (R.after (.release r)).memberOf x i = R.memberOf x i := by
  rw [memberOf, (release_layout x).2.1, memberOf]

theorem join_task (x : Nat) : (R.after (.parallelEnd r)).task x =
    if x = (R.region r).encountering then
      (R.task (R.region r).encountering).leave.learn (R.gather (R.region r).members)
    else R.task x := by
  simp [after]

end After

/-- How far a member of a region and the barriers of the region have come. -/
structure Counters (t : Task) (released : Nat) : Prop where
  passed : t.passed ≤ released
  arrived : released ≤ t.arrived
  next : t.arrived ≤ t.passed + 1
  unbegun : t.begun = false → t.arrived = 0 ∧ t.closing = false ∧ t.constructs = []
  ended : t.ended = true → t.closing = true ∧ t.arrived = t.passed
  closing : t.closing = true → 0 < t.arrived ∧ t.constructs = []
  busy : t.constructs.all Construct.isTaskgroup = false →
    t.arrived = t.passed ∧ t.begun = true ∧ t.closing = false

/-- How the tasks of a program are nested: the members of a region that has not been joined run while
    the task that forked it waits. -/
structure Nested : Prop where
  positive : 0 < R.tasks
  root : (R.task 0).kind = .initial ∧ (R.task 0).arrived = (R.task 0).passed ∧ (R.task 0).begun = true ∧
    (R.task 0).ended = false ∧ (R.task 0).closing = false
  initial : ∀ t < R.tasks, (R.task t).kind = .initial → t = 0
  bounds : ∀ r < R.regions, 0 < (R.region r).size ∧
    (R.region r).encountering < (R.region r).first ∧
    (R.region r).first + (R.region r).size ≤ R.tasks
  kind : ∀ r < R.regions, ∀ i < (R.region r).size,
    (R.task (R.memberOf r i)).kind = .implicit r i ∧
      (R.task (R.memberOf r i)).parent = (R.region r).encountering ∧
      (R.task (R.memberOf r i)).region = some r
  member : ∀ t < R.tasks, ∀ r i, (R.task t).kind = .implicit r i →
    r < R.regions ∧ i < (R.region r).size ∧ t = R.memberOf r i
  explicit : ∀ t < R.tasks, (R.task t).kind = .explicit → (R.task t).parent < t ∧
    (R.task t).begun = true ∧ (R.task t).arrived = (R.task t).passed ∧ (R.task t).closing = false ∧
    (R.task t).region = (R.task (R.task t).parent).region
  counters : ∀ r < R.regions, ∀ i < (R.region r).size,
    Counters (R.task (R.memberOf r i)) (R.region r).released
  together : ∀ r < R.regions, ∀ i < (R.region r).size, ∀ j < (R.region r).size,
    (R.task (R.memberOf r i)).closing = true →
    (R.task (R.memberOf r i)).arrived = (R.region r).released →
    (R.task (R.memberOf r j)).closing = true ∧
      (R.task (R.memberOf r j)).arrived = (R.region r).released
  joined : ∀ r < R.regions, ¬ R.IsOpen r → ∀ i < (R.region r).size,
    (R.task (R.memberOf r i)).ended = true

namespace Nested

variable {R} (nested : R.Nested)

include nested

theorem member_lt {r : Nat} {i : Nat} (isRegion : r < R.regions) (isMember : i < (R.region r).size) :
    R.memberOf r i < R.tasks := by
  have bound := (nested.bounds r isRegion).2.2
  simp only [memberOf]
  omega

theorem member_ne_zero {r : Nat} (isRegion : r < R.regions) (i : Nat) : R.memberOf r i ≠ 0 := by
  have bound := (nested.bounds r isRegion).2.1
  simp only [memberOf]
  omega

theorem member_inj {r r' : Nat} {i i' : Nat} (isRegion : r < R.regions)
    (isMember : i < (R.region r).size) (isRegion' : r' < R.regions) (isMember' : i' < (R.region r').size)
    (same : R.memberOf r i = R.memberOf r' i') : r = r' ∧ i = i' := by
  have kind := (nested.kind r isRegion i isMember).1
  rw [same, (nested.kind r' isRegion' i' isMember').1] at kind
  cases kind
  exact ⟨rfl, rfl⟩

theorem encountering_lt {r : Nat} (isRegion : r < R.regions) :
    (R.region r).encountering < R.tasks := by
  have bounds := nested.bounds r isRegion
  omega

theorem live_open {r i : Nat} (isRegion : r < R.regions) (isMember : i < (R.region r).size)
    (live : (R.task (R.memberOf r i)).ended = false) : R.IsOpen r := by
  by_contra closed
  rw [nested.joined r isRegion closed i isMember] at live
  cases live

theorem running_settled {r : Nat} {i : Nat} (isRegion : r < R.regions)
    (isMember : i < (R.region r).size) (runs : (R.task (R.memberOf r i)).running = true) :
    (R.task (R.memberOf r i)).passed = (R.region r).released := by
  have counters := nested.counters r isRegion i isMember
  have equal := (Task.running_iff.mp runs).2.2.1
  have first := counters.passed
  have second := counters.arrived
  omega

omit nested in
theorem running_not_open {t : Nat} (runs : (R.task t).running = true) {r : Nat}
    (forker : (R.region r).encountering = t) : ¬ R.IsOpen r := by
  intro isOpen
  rw [IsOpen, forker] at isOpen
  obtain ⟨rest, waits⟩ := List.head?_eq_some_iff.mp isOpen
  have idle := (Task.running_iff.mp runs).2.2.2.2 _ rest waits
  cases idle

theorem busy {t : Nat} (isTask : t < R.tasks) {c : Construct} {rest : List Construct}
    (constructs : (R.task t).constructs = c :: rest) (other : c.isTaskgroup = false) :
    (R.task t).arrived = (R.task t).passed ∧ (R.task t).begun = true ∧ (R.task t).closing = false := by
  cases kind : (R.task t).kind with
  | initial =>
    rw [nested.initial t isTask kind]
    exact ⟨nested.root.2.1, nested.root.2.2.1, nested.root.2.2.2.2⟩
  | explicit =>
    obtain ⟨-, begun, settled, closing, -⟩ := nested.explicit t isTask kind
    exact ⟨settled, begun, closing⟩
  | implicit r i =>
    obtain ⟨isRegion, isMember, rfl⟩ := nested.member t isTask r i kind
    apply (nested.counters r isRegion i isMember).busy
    rw [constructs, List.all_cons, other, Bool.false_and]

theorem closing_idle {t : Nat} (isTask : t < R.tasks) (closing : (R.task t).closing = true) :
    (R.task t).constructs = [] := by
  cases kind : (R.task t).kind with
  | initial =>
    rw [nested.initial t isTask kind, nested.root.2.2.2.2] at closing
    cases closing
  | explicit =>
    rw [(nested.explicit t isTask kind).2.2.2.1] at closing
    cases closing
  | implicit r i =>
    obtain ⟨isRegion, isMember, rfl⟩ := nested.member t isTask r i kind
    exact ((nested.counters r isRegion i isMember).closing closing).2

end Nested

structure SameControl (t t' : Task) : Prop where
  constructs : t'.constructs = t.constructs
  begun : t'.begun = t.begun
  arrived : t'.arrived = t.arrived
  passed : t'.passed = t.passed
  closing : t'.closing = t.closing
  ended : t'.ended = t.ended

structure SameLayout (R R' : Runtime) : Prop where
  tasks : R'.tasks = R.tasks
  regions : R'.regions = R.regions
  size : ∀ r, (R'.region r).size = (R.region r).size
  first : ∀ r, (R'.region r).first = (R.region r).first
  encountering : ∀ r, (R'.region r).encountering = (R.region r).encountering

theorem SameLayout.memberOf {R R' : Runtime} (layout : SameLayout R R') (r i : Nat) :
    R'.memberOf r i = R.memberOf r i := by
  rw [Runtime.memberOf, layout.first, Runtime.memberOf]

theorem SameLayout.finishIteration (R : Runtime) (t : Nat) : SameLayout R (R.finishIteration t) := by
  unfold Runtime.finishIteration
  split
  · refine ⟨rfl, rfl, fun r => ?_, fun r => ?_, fun r => ?_⟩ <;>
      simp only [setRegion_region] <;> split <;> simp [*]
  · exact ⟨rfl, rfl, fun _ => rfl, fun _ => rfl, fun _ => rfl⟩

theorem finishIteration_task (R : Runtime) (t : Nat) : (R.finishIteration t).task = R.task := by
  unfold Runtime.finishIteration
  split <;> rfl

theorem finishIteration_released (R : Runtime) (t r : Nat) :
    ((R.finishIteration t).region r).released = (R.region r).released := by
  unfold Runtime.finishIteration
  split
  · simp only [setRegion_region]
    split <;> simp [*]
  · rfl

theorem finishIteration_dispatched (R : Runtime) (t r : Nat) :
    ((R.finishIteration t).region r).dispatched = (R.region r).dispatched := by
  unfold Runtime.finishIteration
  split
  · simp only [setRegion_region]
    split <;> simp [*]
  · rfl

namespace Nested

variable {R} {R' : Runtime} (nested : R.Nested)

include nested

theorem keep (layout : SameLayout R R') (origin : ∀ t < R.tasks, (R.task t).SameOrigin (R'.task t))
    (root : (R'.task 0).arrived = (R'.task 0).passed ∧ (R'.task 0).begun = true ∧
      (R'.task 0).ended = false ∧ (R'.task 0).closing = false)
    (explicit : ∀ t < R.tasks, (R.task t).kind = .explicit →
      (R'.task t).begun = true ∧ (R'.task t).arrived = (R'.task t).passed ∧ (R'.task t).closing = false)
    (counters : ∀ r < R.regions, ∀ i < (R.region r).size,
      Counters (R'.task (R.memberOf r i)) (R'.region r).released)
    (together : ∀ r < R.regions, ∀ i < (R.region r).size, ∀ j < (R.region r).size,
      (R'.task (R.memberOf r i)).closing = true →
      (R'.task (R.memberOf r i)).arrived = (R'.region r).released →
      (R'.task (R.memberOf r j)).closing = true ∧
        (R'.task (R.memberOf r j)).arrived = (R'.region r).released)
    (joined : ∀ r < R.regions, ¬ R'.IsOpen r → ∀ i < (R.region r).size,
      (R'.task (R.memberOf r i)).ended = true) : R'.Nested := by
  have member := layout.memberOf
  constructor
  · rw [layout.tasks]
    exact nested.positive
  · exact ⟨(origin 0 nested.positive).kind.trans nested.root.1, root⟩
  · rw [layout.tasks]
    intro t isTask kind
    rw [(origin t isTask).kind] at kind
    exact nested.initial t isTask kind
  · intro r isRegion
    rw [layout.regions] at isRegion
    rw [layout.size, layout.first, layout.encountering, layout.tasks]
    exact nested.bounds r isRegion
  · intro r isRegion i isMember
    rw [layout.regions] at isRegion
    rw [layout.size] at isMember
    have same := origin _ (nested.member_lt isRegion isMember)
    rw [member, layout.encountering, same.kind, same.parent, same.region]
    exact nested.kind r isRegion i isMember
  · rw [layout.tasks]
    intro t isTask r i kind
    rw [(origin t isTask).kind] at kind
    rw [layout.regions, layout.size, member]
    exact nested.member t isTask r i kind
  · rw [layout.tasks]
    intro t isTask kind
    rw [(origin t isTask).kind] at kind
    have old := nested.explicit t isTask kind
    obtain ⟨begun, settled, closing⟩ := explicit t isTask kind
    rw [(origin t isTask).parent, (origin t isTask).region,
      (origin _ (old.1.trans isTask)).region]
    exact ⟨old.1, begun, settled, closing, old.2.2.2.2⟩
  · intro r isRegion i isMember
    rw [layout.regions] at isRegion
    rw [layout.size] at isMember
    rw [member]
    exact counters r isRegion i isMember
  · intro r isRegion i isMember j isMember'
    rw [layout.regions] at isRegion
    rw [layout.size] at isMember isMember'
    rw [member, member]
    exact together r isRegion i isMember j isMember'
  · intro r isRegion closed i isMember
    rw [layout.regions] at isRegion
    rw [layout.size] at isMember
    rw [member]
    exact joined r isRegion closed i isMember

theorem control (layout : SameLayout R R') (released : ∀ r, (R'.region r).released = (R.region r).released)
    (origin : ∀ t < R.tasks, (R.task t).SameOrigin (R'.task t))
    (same : ∀ t, SameControl (R.task t) (R'.task t)) : R'.Nested := by
  have isOpen : ∀ r, R'.IsOpen r ↔ R.IsOpen r := by
    intro r
    rw [IsOpen, IsOpen, layout.encountering, (same _).constructs]
  refine nested.keep layout origin ?_ ?_ ?_ ?_ ?_
  · rw [(same 0).arrived, (same 0).passed, (same 0).begun, (same 0).ended, (same 0).closing]
    exact nested.root.2
  · intro t isTask kind
    obtain ⟨-, begun, settled, closing, -⟩ := nested.explicit t isTask kind
    rw [(same t).begun, (same t).arrived, (same t).passed, (same t).closing]
    exact ⟨begun, settled, closing⟩
  · intro r isRegion i isMember
    have counters := nested.counters r isRegion i isMember
    have control := same (R.memberOf r i)
    rw [released]
    constructor
    · rw [control.passed]
      exact counters.passed
    · rw [control.arrived]
      exact counters.arrived
    · rw [control.arrived, control.passed]
      exact counters.next
    · rw [control.begun, control.arrived, control.closing, control.constructs]
      exact counters.unbegun
    · rw [control.ended, control.closing, control.arrived, control.passed]
      exact counters.ended
    · rw [control.closing, control.arrived, control.constructs]
      exact counters.closing
    · rw [control.constructs, control.arrived, control.passed, control.begun, control.closing]
      exact counters.busy
  · intro r isRegion i isMember j isMember'
    rw [released, (same _).closing, (same _).arrived, (same _).closing, (same _).arrived]
    exact nested.together r isRegion i isMember j isMember'
  · intro r isRegion closed i isMember
    rw [(same _).ended]
    exact nested.joined r isRegion (fun h => closed ((isOpen r).mpr h)) i isMember

theorem set {t : Nat} {task : Task} (origin : (R.task t).SameOrigin task)
    (root : t = 0 → task.arrived = task.passed ∧ task.begun = true ∧ task.ended = false ∧ task.closing = false)
    (explicit : (R.task t).kind = .explicit →
      task.begun = true ∧ task.arrived = task.passed ∧ task.closing = false)
    (counters : ∀ r < R.regions, ∀ i < (R.region r).size, t = R.memberOf r i →
      Counters task (R.region r).released)
    (together : ∀ r < R.regions, ∀ i < (R.region r).size, t = R.memberOf r i →
      (task.closing = (R.task t).closing ∧ task.arrived = (R.task t).arrived) ∨
      ((R.task t).closing = false ∧ task.arrived ≠ (R.region r).released))
    (lasting : (R.task t).ended = true → task.ended = true)
    (waiting : ∀ r < R.regions, (R.region r).encountering = t → R.IsOpen r →
      task.constructs.head? = some (.parallel r) ∨
        ∀ i < (R.region r).size, (R.task (R.memberOf r i)).ended = true) :
    (R.set t task).Nested := by
  refine nested.keep ⟨rfl, rfl, fun _ => rfl, fun _ => rfl, fun _ => rfl⟩ (set_extends origin).fixed ?_ ?_ ?_ ?_ ?_
  · rw [set_task]
    by_cases self : 0 = t
    · rw [if_pos self]
      exact root self.symm
    · rw [if_neg self]
      exact nested.root.2
  · intro x isTask kind
    rw [set_task]
    by_cases self : x = t
    · rw [if_pos self]
      exact explicit (self ▸ kind)
    · rw [if_neg self]
      obtain ⟨-, begun, settled, closing, -⟩ := nested.explicit x isTask kind
      exact ⟨begun, settled, closing⟩
  · intro r isRegion i isMember
    rw [set_task, set_region]
    by_cases self : R.memberOf r i = t
    · rw [if_pos self]
      exact counters r isRegion i isMember self.symm
    · rw [if_neg self]
      exact nested.counters r isRegion i isMember
  · intro r isRegion i isMember j isMember'
    have old := nested.together r isRegion i isMember j isMember'
    rw [set_task, set_task, set_region]
    by_cases same : task.closing = (R.task t).closing ∧ task.arrived = (R.task t).arrived
    · have unchanged : ∀ x, (if x = t then task else R.task x).closing = (R.task x).closing ∧
          (if x = t then task else R.task x).arrived = (R.task x).arrived := by
        intro x
        by_cases self : x = t
        · rw [if_pos self, self]
          exact same
        · rw [if_neg self]
          exact ⟨rfl, rfl⟩
      simp only [unchanged]
      exact old
    · intro closing arrived
      by_cases first : R.memberOf r i = t
      · have away := ((together r isRegion i isMember first.symm).resolve_left same).2
        rw [if_pos first] at arrived
        exact absurd arrived away
      · rw [if_neg first] at closing arrived
        have both := old closing arrived
        by_cases second : R.memberOf r j = t
        · have opening := ((together r isRegion j isMember' second.symm).resolve_left same).1
          rw [← second, both.1] at opening
          cases opening
        · rw [if_neg second]
          exact both
  · intro r isRegion closed i isMember
    have ended : (R.task (R.memberOf r i)).ended = true := by
      by_cases forker : (R.region r).encountering = t
      · by_cases isOpen : R.IsOpen r
        · refine (waiting r isRegion forker isOpen).resolve_left (fun stays => closed ?_) i isMember
          rw [IsOpen, set_region, forker, set_task, if_pos rfl]
          exact stays
        · exact nested.joined r isRegion isOpen i isMember
      · refine nested.joined r isRegion (fun isOpen => closed ?_) i isMember
        rw [IsOpen, set_region, set_task, if_neg forker]
        exact isOpen
    rw [set_task]
    by_cases self : R.memberOf r i = t
    · rw [if_pos self]
      exact lasting (self ▸ ended)
    · rw [if_neg self]
      exact ended

theorem setSettled {t : Nat} {task : Task} (settled : (R.task t).arrived = (R.task t).passed)
    (begun : (R.task t).begun = true) (opening : (R.task t).closing = false)
    (origin : (R.task t).SameOrigin task)
    (control : task.begun = (R.task t).begun ∧ task.arrived = (R.task t).arrived ∧
      task.passed = (R.task t).passed ∧ task.closing = (R.task t).closing ∧ task.ended = (R.task t).ended)
    (waiting : ∀ r < R.regions, (R.region r).encountering = t → R.IsOpen r →
      task.constructs.head? = some (.parallel r) ∨
        ∀ i < (R.region r).size, (R.task (R.memberOf r i)).ended = true) :
    (R.set t task).Nested := by
  obtain ⟨sameBegun, sameArrived, samePassed, sameClosing, sameEnded⟩ := control
  refine nested.set origin ?_ ?_ ?_ ?_ ?_ waiting
  · rintro rfl
    rw [sameArrived, samePassed, sameBegun, sameEnded, sameClosing]
    exact nested.root.2
  · intro _
    rw [sameBegun, sameArrived, samePassed, sameClosing]
    exact ⟨begun, settled, opening⟩
  · rintro r isRegion i isMember rfl
    have counters := nested.counters r isRegion i isMember
    constructor
    · rw [samePassed]
      exact counters.passed
    · rw [sameArrived]
      exact counters.arrived
    · rw [sameArrived, samePassed]
      exact counters.next
    · rw [sameBegun, begun]
      intro none
      cases none
    · rw [sameEnded, sameClosing, sameArrived, samePassed]
      exact counters.ended
    · rw [sameClosing, opening]
      intro none
      cases none
    · intro _
      rw [sameArrived, samePassed, sameBegun, sameClosing]
      exact ⟨settled, begun, opening⟩
  · intro _ _ _ _ _
    exact .inl ⟨sameClosing, sameArrived⟩
  · rw [sameEnded]
    exact id

theorem setRunning {t : Nat} {task : Task} (runs : (R.task t).running = true)
    (origin : (R.task t).SameOrigin task)
    (control : task.begun = (R.task t).begun ∧ task.arrived = (R.task t).arrived ∧
      task.passed = (R.task t).passed ∧ task.closing = (R.task t).closing ∧ task.ended = (R.task t).ended) :
    (R.set t task).Nested := by
  obtain ⟨begun, -, settled, opening, -⟩ := Task.running_iff.mp runs
  exact nested.setSettled settled begun opening origin control fun r _ forker isOpen =>
    absurd isOpen (running_not_open runs forker)

theorem elsewhere (task : R'.task = R.task) (layout : SameLayout R R')
    (released : ∀ r, (R'.region r).released = (R.region r).released) : R'.Nested :=
  nested.control layout released (fun _ _ => by rw [task]; exact .refl _)
    fun _ => by rw [task]; exact ⟨rfl, rfl, rfl, rfl, rfl, rfl⟩

theorem finishIteration (t : Nat) : (R.finishIteration t).Nested :=
  nested.elsewhere (finishIteration_task R t) (.finishIteration R t) (finishIteration_released R t)

theorem setRegion {r : Nat} {region : Region} (size : region.size = (R.region r).size)
    (first : region.first = (R.region r).first) (encountering : region.encountering = (R.region r).encountering)
    (released : region.released = (R.region r).released) : (R.setRegion r region).Nested := by
  refine nested.elsewhere rfl ⟨rfl, rfl, fun x => ?_, fun x => ?_, fun x => ?_⟩ fun x => ?_
  all_goals
    rw [setRegion_region]
    by_cases self : x = r <;> simp [*]

theorem parallelBegin {t size : Nat} (isTask : t < R.tasks) (runs : (R.task t).running = true)
    (positive : 0 < size) : (R.after (.parallelBegin t size)).Nested := by
  have tasks : (R.after (.parallelBegin t size)).tasks = R.tasks + size := rfl
  have cases : ∀ r < R.regions + 1, r < R.regions ∨ r = R.regions := by omega
  have grown := after_extends R (.parallelBegin t size)
  have new : ∀ x, ¬ x < R.tasks → x < R.tasks + size → (R.after (.parallelBegin t size)).task x =
      Task.new (.implicit R.regions (x - R.tasks)) t ((R.task t).strands t) R.accesses (some R.regions) []
        false (R.task t).known := by
    intro x notOld bound
    have made := fork_member (R := R) (t := t) (show x - R.tasks < size by omega)
    rwa [show R.tasks + (x - R.tasks) = x by omega] at made
  constructor
  · rw [tasks]
    omega
  · obtain ⟨_, same⟩ := fork_kept t size nested.positive
    rw [same]
    exact nested.root
  · intro x bound kind
    by_cases before : x < R.tasks
    · rw [(grown.fixed x before).kind] at kind
      exact nested.initial x before kind
    · rw [new x before bound] at kind
      cases kind
  · intro r isRegion
    rcases cases r isRegion with before | rfl
    · rw [fork_region_old before, tasks]
      have bounds := nested.bounds r before
      omega
    · rw [fork_region, if_pos rfl, tasks, newRegion]
      exact ⟨positive, isTask, le_refl _⟩
  · intro r isRegion i isMember
    rcases cases r isRegion with before | rfl
    · rw [fork_region_old before] at isMember ⊢
      rw [fork_memberOf before]
      obtain ⟨_, same⟩ := fork_kept t size (nested.member_lt before isMember)
      rw [same]
      exact nested.kind r before i isMember
    · simp only [fork_region, if_true, newRegion] at isMember ⊢
      rw [fork_memberOf_new, fork_member isMember]
      exact ⟨rfl, rfl, rfl⟩
  · intro x bound r i kind
    by_cases before : x < R.tasks
    · rw [(grown.fixed x before).kind] at kind
      obtain ⟨isRegion, isMember, same⟩ := nested.member x before r i kind
      exact ⟨Nat.lt_succ_of_lt isRegion, by rwa [fork_region_old isRegion], by rw [same, fork_memberOf isRegion]⟩
    · rw [new x before bound] at kind
      rw [tasks] at bound
      cases kind
      refine ⟨Nat.lt_succ_self _, ?_, ?_⟩
      · rw [fork_region, if_pos rfl]
        change x - R.tasks < size
        omega
      · rw [fork_memberOf_new]
        omega
  · intro x bound kind
    by_cases before : x < R.tasks
    · have old := grown.fixed x before
      rw [old.kind] at kind
      obtain ⟨parent, begun, settled, closing, region⟩ := nested.explicit x before kind
      have parentOld := grown.fixed _ (parent.trans before)
      obtain ⟨_, same⟩ := fork_kept t size before
      rw [old.parent, parentOld.region, old.region, same]
      exact ⟨parent, begun, settled, closing, region⟩
    · rw [new x before bound] at kind
      cases kind
  · intro r isRegion i isMember
    rcases cases r isRegion with before | rfl
    · rw [fork_region_old before] at isMember ⊢
      rw [fork_memberOf before, fork_task (nested.member_lt before isMember)]
      have counters := nested.counters r before i isMember
      by_cases self : R.memberOf r i = t
      · rw [if_pos self]
        rw [self] at counters
        obtain ⟨begun, live, equal, opening, -⟩ := Task.running_iff.mp runs
        refine ⟨counters.passed, counters.arrived, counters.next, fun unbegun => ?_, counters.ended,
          fun closing => ?_, fun _ => ⟨equal, begun, opening⟩⟩
        · rw [show (R.task t).begun = false from unbegun] at begun
          cases begun
        · rw [show (R.task t).closing = true from closing] at opening
          cases opening
      · rw [if_neg self]
        exact counters
    · simp only [fork_region, if_true, newRegion] at isMember ⊢
      rw [fork_memberOf_new, fork_member isMember]
      exact ⟨le_refl _, le_refl _, Nat.zero_le _, fun _ => ⟨rfl, rfl, rfl⟩, (fun none => by cases none),
        (fun none => by cases none), (fun none => by cases none)⟩
  · intro r isRegion i isMember j isMember'
    rcases cases r isRegion with before | rfl
    · rw [fork_region_old before] at isMember isMember' ⊢
      rw [fork_memberOf before, fork_memberOf before]
      obtain ⟨_, same⟩ := fork_kept t size (nested.member_lt before isMember)
      obtain ⟨_, same'⟩ := fork_kept t size (nested.member_lt before isMember')
      rw [same, same']
      exact nested.together r before i isMember j isMember'
    · simp only [fork_region, if_true, newRegion] at isMember
      rw [fork_memberOf_new, fork_member isMember]
      intro closing
      cases closing
  · intro r isRegion closed i isMember
    rcases cases r isRegion with before | rfl
    · rw [fork_region_old before] at isMember
      rw [fork_memberOf before]
      obtain ⟨_, same⟩ := fork_kept t size (nested.member_lt before isMember)
      rw [same]
      refine nested.joined r before (fun isOpen => closed ?_) i isMember
      have other : (R.region r).encountering ≠ t := fun forker => running_not_open runs forker isOpen
      rw [IsOpen, fork_region_old before, fork_task (nested.encountering_lt before), if_neg other]
      exact isOpen
    · refine absurd ?_ closed
      rw [IsOpen, fork_region, if_pos rfl, newRegion, fork_task isTask, if_pos rfl]
      rfl

theorem taskCreate {t : Nat} (isTask : t < R.tasks) : (R.after (.taskCreate t)).Nested := by
  have tasks : (R.after (.taskCreate t)).tasks = R.tasks + 1 := rfl
  have old : ∀ x < R.tasks, (R.after (.taskCreate t)).task x = R.task x := by
    intro x bound
    simp [after, Nat.ne_of_lt bound]
  have new : (R.after (.taskCreate t)).task R.tasks = Task.new .explicit t ((R.task t).strands t) R.accesses
      (R.task t).region ((R.task t).groups ++ (R.task t).openGroups) true (R.task t).known := by
    simp [after]
  have member : ∀ r i, (R.after (.taskCreate t)).memberOf r i = R.memberOf r i := fun _ _ => rfl
  have cases : ∀ x < R.tasks + 1, x < R.tasks ∨ x = R.tasks := by omega
  constructor
  · rw [tasks]
    omega
  · rw [old 0 nested.positive]
    exact nested.root
  · intro x bound kind
    rcases cases x bound with before | rfl
    · rw [old x before] at kind
      exact nested.initial x before kind
    · rw [new] at kind
      cases kind
  · intro r isRegion
    have bounds := nested.bounds r isRegion
    exact ⟨bounds.1, bounds.2.1, Nat.le_succ_of_le bounds.2.2⟩
  · intro r isRegion i isMember
    rw [member, old _ (nested.member_lt isRegion isMember)]
    exact nested.kind r isRegion i isMember
  · intro x bound r i kind
    rcases cases x bound with before | rfl
    · rw [old x before] at kind
      exact nested.member x before r i kind
    · rw [new] at kind
      cases kind
  · intro x bound kind
    rcases cases x bound with before | rfl
    · rw [old x before] at kind ⊢
      have same := nested.explicit x before kind
      rw [old _ (same.1.trans before)]
      exact same
    · rw [new]
      refine ⟨isTask, rfl, rfl, rfl, ?_⟩
      change (R.task t).region = ((R.after (.taskCreate t)).task t).region
      rw [old t isTask]
  · intro r isRegion i isMember
    rw [member, old _ (nested.member_lt isRegion isMember)]
    exact nested.counters r isRegion i isMember
  · intro r isRegion i isMember j isMember'
    rw [member, member, old _ (nested.member_lt isRegion isMember), old _ (nested.member_lt isRegion isMember')]
    exact nested.together r isRegion i isMember j isMember'
  · intro r isRegion closed i isMember
    rw [member, old _ (nested.member_lt isRegion isMember)]
    refine nested.joined r isRegion (fun isOpen => closed ?_) i isMember
    change ((R.after (.taskCreate t)).task (R.region r).encountering).constructs.head? = _
    rw [old _ (nested.encountering_lt isRegion)]
    exact isOpen

theorem release {r : Nat} (all : ∀ i < (R.region r).size,
      (R.task (R.memberOf r i)).arrived = (R.region r).released + 1 ∧
      (R.task (R.memberOf r i)).closing = (R.task (R.region r).first).closing) :
    (R.after (.release r)).Nested := by
  have control : ∀ x, SameControl (R.task x) ((R.after (.release r)).task x) := by
    intro x
    obtain ⟨_, same⟩ := release_kept (R := R) (r := r) x
    rw [same]
    exact ⟨rfl, rfl, rfl, rfl, rfl, rfl⟩
  refine nested.keep ⟨rfl, rfl, fun x => (release_layout x).1, fun x => (release_layout x).2.1,
    fun x => (release_layout x).2.2⟩ (after_extends R (.release r)).fixed ?_ ?_ ?_ ?_ ?_
  · rw [(control 0).arrived, (control 0).passed, (control 0).begun, (control 0).ended, (control 0).closing]
    exact nested.root.2
  · intro t isTask kind
    obtain ⟨-, begun, settled, closing, -⟩ := nested.explicit t isTask kind
    rw [(control t).begun, (control t).arrived, (control t).passed, (control t).closing]
    exact ⟨begun, settled, closing⟩
  · intro x isRegion i isMember
    obtain ⟨_, same⟩ := release_kept (R := R) (r := r) (R.memberOf x i)
    rw [same]
    have counters := nested.counters x isRegion i isMember
    by_cases self : x = r
    · subst self
      rw [release_region, if_pos rfl]
      exact ⟨Nat.le_succ_of_le counters.passed, Nat.le_of_eq (all i isMember).1.symm, counters.next,
        counters.unbegun, counters.ended, counters.closing, counters.busy⟩
    · rw [release_region, if_neg self]
      exact ⟨counters.passed, counters.arrived, counters.next, counters.unbegun, counters.ended,
        counters.closing, counters.busy⟩
  · intro x isRegion i isMember j isMember'
    rw [(control _).closing, (control _).arrived, (control _).closing, (control _).arrived]
    by_cases self : x = r
    · subst self
      rw [release_region, if_pos rfl]
      intro closing _
      exact ⟨by rw [(all j isMember').2, ← (all i isMember).2]; exact closing, (all j isMember').1⟩
    · rw [release_region, if_neg self]
      exact nested.together x isRegion i isMember j isMember'
  · intro x isRegion closed i isMember
    rw [(control _).ended]
    refine nested.joined x isRegion (fun isOpen => closed ?_) i isMember
    rw [IsOpen, (release_layout x).2.2, (control _).constructs]
    exact isOpen

omit nested in
theorem open_head {r : Nat} (isOpen : R.IsOpen r) :
    ∃ rest, (R.task (R.region r).encountering).constructs = .parallel r :: rest :=
  List.head?_eq_some_iff.mp isOpen

theorem parallelEnd {r : Nat} (isRegion : r < R.regions)
    (all : ∀ i < (R.region r).size, (R.task (R.memberOf r i)).ended = true)
    (isOpen : R.IsOpen r) : (R.after (.parallelEnd r)).Nested := by
  obtain ⟨rest, constructs⟩ := open_head isOpen
  obtain ⟨settled, begun, opening⟩ := nested.busy (nested.encountering_lt isRegion) constructs rfl
  refine nested.setSettled settled begun opening ⟨rfl, rfl, rfl, rfl, rfl, rfl⟩ ⟨rfl, rfl, rfl, rfl, rfl⟩ ?_
  intro x _ forker isOpen'
  rw [IsOpen, forker, constructs] at isOpen'
  cases isOpen'
  exact .inr all

theorem implicitBegin {t : Nat} (isTask : t < R.tasks) (unbegun : (R.task t).begun = false) :
    (R.after (.implicitBegin t)).Nested := by
  refine nested.set ⟨rfl, rfl, rfl, rfl, rfl, rfl⟩ ?_ ?_ ?_ (fun _ _ _ _ _ => .inl ⟨rfl, rfl⟩) id
    fun r _ forker isOpen => .inl (by rw [← forker]; exact isOpen)
  · rintro rfl
    rw [nested.root.2.2.1] at unbegun
    cases unbegun
  · intro kind
    rw [(nested.explicit t isTask kind).2.1] at unbegun
    cases unbegun
  · rintro r isRegion i isMember rfl
    have counters := nested.counters r isRegion i isMember
    exact ⟨counters.passed, counters.arrived, counters.next, (fun none => by cases none), counters.ended,
      counters.closing, fun busy => ⟨(counters.busy busy).1, rfl, (counters.busy busy).2.2⟩⟩

theorem barrierBegin {t : Nat} {closing : Bool} (isTask : t < R.tasks) (runs : (R.task t).running = true)
    (implicit : ∃ r i, (R.task t).kind = .implicit r i)
    (groups : (R.task t).constructs.all Construct.isTaskgroup = true)
    (last : closing = true → (R.task t).constructs = []) : (R.after (.barrierBegin t closing)).Nested := by
  obtain ⟨begun, live, settled, opening, -⟩ := Task.running_iff.mp runs
  obtain ⟨r, i, kind⟩ := implicit
  refine nested.set ⟨rfl, rfl, rfl, rfl, rfl, rfl⟩ ?_ ?_ ?_ ?_ id
    fun x _ forker isOpen => absurd isOpen (running_not_open runs forker)
  · rintro rfl
    rw [nested.root.1] at kind
    cases kind
  · rw [kind]
    intro none
    cases none
  · rintro x isRegion j isMember rfl
    have counters := nested.counters x isRegion j isMember
    refine ⟨counters.passed, Nat.le_succ_of_le counters.arrived, by simp [settled], ?_, ?_, ?_, ?_⟩
    · intro unbegun
      rw [show (R.task (R.memberOf x j)).begun = false from unbegun] at begun
      cases begun
    · intro ended
      rw [show (R.task (R.memberOf x j)).ended = true from ended] at live
      cases live
    · intro isLast
      exact ⟨Nat.succ_pos _, last isLast⟩
    · intro busy
      rw [show (R.task (R.memberOf x j)).constructs.all Construct.isTaskgroup = false from busy] at groups
      cases groups
  · rintro x isRegion j isMember rfl
    have passed := nested.running_settled isRegion isMember runs
    refine .inr ⟨opening, ?_⟩
    simp only [ne_eq]
    omega

theorem barrierEnd {r i : Nat} (isRegion : r < R.regions) (isMember : i < (R.region r).size)
    (pending : (R.task (R.memberOf r i)).passed < (R.region r).released) :
    (R.after (.barrierEnd (R.memberOf r i))).Nested := by
  have counters := nested.counters r isRegion i isMember
  have kind := (nested.kind r isRegion i isMember).1
  refine nested.set ⟨rfl, rfl, rfl, rfl, rfl, rfl⟩ ?_ ?_ ?_ (fun _ _ _ _ _ => .inl ⟨rfl, rfl⟩) id
    fun x _ forker isOpen => .inl (by rw [← forker]; exact isOpen)
  · intro root
    exact absurd root (nested.member_ne_zero isRegion i)
  · rw [kind]
    intro none
    cases none
  · intro x isRegion' j isMember' same
    obtain ⟨rfl, rfl⟩ := nested.member_inj isRegion isMember isRegion' isMember' same
    have bound := counters.next
    have arrived := counters.arrived
    have equal : (R.task (R.memberOf r i)).arrived = (R.task (R.memberOf r i)).passed + 1 := by omega
    refine ⟨pending, arrived, Nat.le_succ_of_le bound, counters.unbegun,
      fun ended => ⟨(counters.ended ended).1, equal⟩, counters.closing, fun busy => ?_⟩
    have settled := (counters.busy busy).1
    omega

theorem implicitEnd {t : Nat} (closing : (R.task t).closing = true)
    (settled : (R.task t).arrived = (R.task t).passed) (implicit : ∃ r i, (R.task t).kind = .implicit r i)
    (isTask : t < R.tasks) : (R.after (.implicitEnd t)).Nested := by
  obtain ⟨r, i, kind⟩ := implicit
  refine nested.set ⟨rfl, rfl, rfl, rfl, rfl, rfl⟩ ?_ ?_ ?_ (fun _ _ _ _ _ => .inl ⟨rfl, rfl⟩) (fun _ => rfl)
    fun x _ forker isOpen => .inl (by rw [← forker]; exact isOpen)
  · rintro rfl
    rw [nested.root.1] at kind
    cases kind
  · rw [kind]
    intro none
    cases none
  · rintro x isRegion j isMember rfl
    have counters := nested.counters x isRegion j isMember
    exact ⟨counters.passed, counters.arrived, counters.next, counters.unbegun,
      fun _ => ⟨closing, settled⟩, counters.closing, counters.busy⟩

theorem taskComplete {t : Nat} (runs : (R.task t).running = true) (kind : (R.task t).kind = .explicit) :
    (R.after (.taskComplete t)).Nested := by
  obtain ⟨begun, -, settled, opening, -⟩ := Task.running_iff.mp runs
  refine nested.set ⟨rfl, rfl, rfl, rfl, rfl, rfl⟩ ?_ (fun _ => ⟨begun, settled, opening⟩) ?_
    (fun _ _ _ _ _ => .inl ⟨rfl, rfl⟩) (fun _ => rfl)
    fun x _ forker isOpen => absurd isOpen (running_not_open runs forker)
  · rintro rfl
    rw [nested.root.1] at kind
    cases kind
  · rintro r isRegion i isMember rfl
    rw [(nested.kind r isRegion i isMember).1] at kind
    cases kind

theorem taskwaitEnd (t : Nat) : (R.after (.taskwaitEnd t)).Nested := by
  have control : ∀ x, SameControl (R.task x) (R.waitTask t x) := by
    intro x
    unfold waitTask
    by_cases self : x = t
    · rw [if_pos self, self]
      exact ⟨rfl, rfl, rfl, rfl, rfl, rfl⟩
    · rw [if_neg self]
      split <;> exact ⟨rfl, rfl, rfl, rfl, rfl, rfl⟩
  exact nested.control ⟨rfl, rfl, fun _ => rfl, fun _ => rfl, fun _ => rfl⟩ (fun _ => rfl)
    (after_extends R (.taskwaitEnd t)).fixed control

theorem workBegin {t : Nat} {work : Work} {executor : Bool} (runs : (R.task t).running = true) :
    (R.after (.workBegin t work executor)).Nested := by
  have entered : ∀ construct works, (R.set t { (R.task t).enter construct with works }).Nested :=
    fun construct works => nested.setRunning runs ⟨rfl, rfl, rfl, rfl, rfl, rfl⟩ ⟨rfl, rfl, rfl, rfl, rfl⟩
  simp only [after, beginWork]
  split
  · exact (entered _ _).setRegion rfl rfl rfl rfl
  · exact entered _ _

theorem workEnd {t : Nat} (isTask : t < R.tasks) {c : Construct} {rest : List Construct}
    (constructs : (R.task t).constructs = c :: rest) (work : c.isTaskgroup = false)
    (notParallel : ∀ r, c ≠ .parallel r) : (R.after (.workEnd t)).Nested := by
  obtain ⟨settled, begun, opening⟩ := nested.busy isTask constructs work
  have task := finishIteration_task R t
  refine (nested.finishIteration t).setSettled ?_ ?_ ?_ ⟨rfl, rfl, rfl, rfl, rfl, rfl⟩
    ⟨rfl, rfl, rfl, rfl, rfl⟩ ?_
  · rw [task]
    exact settled
  · rw [task]
    exact begun
  · rw [task]
    exact opening
  · intro r _ forker isOpen
    rw [IsOpen, forker, task, constructs] at isOpen
    exact absurd (Option.some.inj isOpen) (notParallel r)

theorem dispatch {t : Nat} {id : BitVec 64} (runs : (R.task t).running = true) :
    (R.after (.dispatch t id)).Nested := by
  have finished := nested.finishIteration t
  have runs' : ((R.finishIteration t).task t).running = true := by
    rw [finishIteration_task]
    exact runs
  simp only [after, dispatchTo]
  split
  · refine Nested.setRegion ?_ rfl rfl rfl rfl
    exact finished.setRunning runs' ⟨rfl, rfl, rfl, rfl, rfl, rfl⟩ ⟨rfl, rfl, rfl, rfl, rfl⟩
  · exact finished.setRunning runs' ⟨rfl, rfl, rfl, rfl, rfl, rfl⟩ ⟨rfl, rfl, rfl, rfl, rfl⟩
  · exact finished

end Nested

theorem nested_init : init.Nested where
  positive := by decide
  root := ⟨rfl, rfl, rfl, rfl, rfl⟩
  initial := fun _ bound _ => Nat.lt_one_iff.mp bound
  bounds := fun _ none => absurd none (Nat.not_lt_zero _)
  kind := fun _ none => absurd none (Nat.not_lt_zero _)
  member := fun _ _ _ _ kind => by cases kind
  explicit := fun _ _ kind => by cases kind
  counters := fun _ none => absurd none (Nat.not_lt_zero _)
  together := fun _ none => absurd none (Nat.not_lt_zero _)
  joined := fun _ none => absurd none (Nat.not_lt_zero _)

/-- Every event keeps the nesting. -/
theorem Nested.after {R : Runtime} (nested : R.Nested) {e : Event} (enabled : R.enabled e = true) :
    (R.after e).Nested := by
  cases e with
  | parallelBegin t size =>
    simp only [Runtime.enabled, Bool.and_eq_true, decide_eq_true_eq] at enabled
    have runs := running_lt enabled.1
    exact nested.parallelBegin runs.1 runs.2 enabled.2
  | implicitBegin t =>
    simp only [Runtime.enabled, Bool.and_eq_true, decide_eq_true_eq, Bool.not_eq_true'] at enabled
    exact nested.implicitBegin enabled.1 enabled.2
  | barrierBegin t closing =>
    simp only [Runtime.enabled, Bool.and_eq_true, Bool.or_eq_true, Bool.not_eq_true',
      List.isEmpty_iff] at enabled
    have runs := running_lt enabled.1.1.1
    refine nested.barrierBegin runs.1 runs.2 ?_ enabled.1.2 fun last => enabled.2.resolve_left (by simp [last])
    have kind := enabled.1.1.2
    split at kind
    · exact ⟨_, _, by assumption⟩
    · cases kind
  | release r =>
    simp only [Runtime.enabled, Bool.and_eq_true, decide_eq_true_eq, List.all_eq_true,
      Region.mem_members, beq_iff_eq, forall_exists_index, and_imp] at enabled
    exact nested.release fun i bound => enabled.1.2 _ i bound rfl
  | barrierEnd t =>
    simp only [Runtime.enabled, Bool.and_eq_true, decide_eq_true_eq] at enabled
    have pending := enabled.2
    split at pending
    · rename_i r i kind
      obtain ⟨isRegion, isMember, rfl⟩ := nested.member t enabled.1 r i kind
      exact nested.barrierEnd isRegion isMember (of_decide_eq_true pending)
    · cases pending
  | implicitEnd t =>
    simp only [Runtime.enabled, Bool.and_eq_true, decide_eq_true_eq, beq_iff_eq] at enabled
    refine nested.implicitEnd enabled.1.1.1.2 enabled.1.1.2 ?_ enabled.1.1.1.1
    have kind := enabled.2
    split at kind
    · exact ⟨_, _, by assumption⟩
    · exact ⟨_, _, by assumption⟩
    · cases kind
  | parallelEnd r =>
    simp only [Runtime.enabled, Bool.and_eq_true, decide_eq_true_eq, allEnded_iff,
      Region.mem_members, beq_iff_eq, forall_exists_index, and_imp] at enabled
    exact nested.parallelEnd enabled.1.1 (fun i bound => enabled.1.2 _ i bound rfl) enabled.2
  | taskCreate t => exact nested.taskCreate (running_lt enabled).1
  | dependences t deps => exact nested
  | taskComplete t =>
    simp only [Runtime.enabled, Bool.and_eq_true, decide_eq_true_eq] at enabled
    exact nested.taskComplete (running_lt enabled.1.1).2 enabled.1.2
  | taskwaitEnd t => exact nested.taskwaitEnd t
  | taskgroupBegin t =>
    have entered := nested.setRunning (running_lt enabled).2
      (show (R.task t).SameOrigin ((R.task t).enter (.taskgroup R.groups)) from ⟨rfl, rfl, rfl, rfl, rfl, rfl⟩)
      ⟨rfl, rfl, rfl, rfl, rfl⟩
    exact entered.elsewhere rfl ⟨rfl, rfl, fun _ => rfl, fun _ => rfl, fun _ => rfl⟩ fun _ => rfl
  | taskgroupEnd t =>
    simp only [Runtime.enabled, Bool.and_eq_true] at enabled
    simp only [Runtime.after]
    split
    · exact nested.setRunning (running_lt enabled.1).2 ⟨rfl, rfl, rfl, rfl, rfl, rfl⟩ ⟨rfl, rfl, rfl, rfl, rfl⟩
    · exact nested
  | workBegin t work executor =>
    simp only [Runtime.enabled, Bool.and_eq_true] at enabled
    exact nested.workBegin (running_lt enabled.1.1).2
  | workEnd t =>
    simp only [Runtime.enabled, Bool.and_eq_true, decide_eq_true_eq] at enabled
    have head := enabled.2
    split at head
    · rename_i constructs
      exact nested.workEnd enabled.1 constructs rfl (fun _ none => by cases none)
    · rename_i constructs
      exact nested.workEnd enabled.1 constructs rfl (fun _ none => by cases none)
    · rename_i constructs
      exact nested.workEnd enabled.1 constructs rfl (fun _ none => by cases none)
    · cases head
  | dispatch t id =>
    simp only [Runtime.enabled, Bool.and_eq_true] at enabled
    exact nested.dispatch (running_lt enabled.1).2
  | orderedBegin t =>
    simp only [Runtime.enabled, Bool.and_eq_true] at enabled
    exact nested.setRunning (running_lt enabled.1).2 ⟨rfl, rfl, rfl, rfl, rfl, rfl⟩ ⟨rfl, rfl, rfl, rfl, rfl⟩
  | orderedEnd t =>
    simp only [Runtime.enabled, Bool.and_eq_true] at enabled
    have left := nested.setRunning (running_lt enabled.1).2
      (show (R.task t).SameOrigin (R.task t).leave from ⟨rfl, rfl, rfl, rfl, rfl, rfl⟩) ⟨rfl, rfl, rfl, rfl, rfl⟩
    exact left.finishIteration t
  | access t =>
    have learned := nested.setRunning (running_lt enabled).2
      (show (R.task t).SameOrigin ((R.task t).learn fun a => a == R.accesses) from ⟨rfl, rfl, rfl, rfl, rfl, rfl⟩)
      ⟨rfl, rfl, rfl, rfl, rfl⟩
    exact learned.elsewhere rfl ⟨rfl, rfl, fun _ => rfl, fun _ => rfl, fun _ => rfl⟩ fun _ => rfl

end Runtime

theorem System.Reachable.nested {allowed : System → Event → Prop} {s : System}
    (reached : System.Reachable allowed s) : s.runtime.Nested := by
  induction reached with
  | start begun =>
    unfold System.initial at begun
    obtain ⟨detector, -, made⟩ := ok_of_bind begun
    cases made
    exact Runtime.nested_init
  | step _ _ stepped ih =>
    obtain ⟨enabled, -, runtime, -⟩ := System.step_cases stepped
    rw [runtime]
    exact ih.after enabled

end Romp
