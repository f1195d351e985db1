import Romp.Callbacks.Frame
import Romp.Runtime.Nesting

namespace Romp

def Event.Bounds : Event → Prop
  | .implicitBegin _ | .implicitEnd _ | .taskComplete _ => True
  | _ => False

namespace Runtime

variable {R R' : Runtime} {e : Event} {t x : Nat}

def Created (R : Runtime) (t : Nat) : Prop := t < R.tasks ∧ (R.task t).begun = true

structure SameLives (R R' : Runtime) : Prop where
  begun : ∀ x < R.tasks, (R'.task x).begun = (R.task x).begun
  ended : ∀ x < R.tasks, (R'.task x).ended = (R.task x).ended

theorem set_lives {task : Task} (begun : task.begun = (R.task t).begun) (ended : task.ended = (R.task t).ended) :
    R.SameLives (R.set t task) := by
  constructor <;> intro x _ <;> rw [set_task] <;> by_cases self : x = t
  · rw [if_pos self, self, begun]
  · rw [if_neg self]
  · rw [if_pos self, self, ended]
  · rw [if_neg self]

theorem SameLives.of_task (task : R'.task = R.task) : R.SameLives R' :=
  ⟨fun x _ => by rw [task], fun x _ => by rw [task]⟩

theorem SameLives.after_finish (lives : (R.finishIteration t).SameLives R') : R.SameLives R' := by
  have tasks := (SameLayout.finishIteration R t).tasks
  refine ⟨fun x isTask => ?_, fun x isTask => ?_⟩
  · rw [lives.begun x (tasks ▸ isTask), finishIteration_task]
  · rw [lives.ended x (tasks ▸ isTask), finishIteration_task]

theorem lives_after (plain : ¬e.Bounds) : R.SameLives (R.after e) := by
  cases e with
  | implicitBegin | implicitEnd | taskComplete => exact absurd trivial plain
  | parallelBegin t size =>
    refine ⟨fun x isTask => ?_, fun x isTask => ?_⟩ <;> rw [fork_task isTask] <;> split
    · rename_i self
      rw [self]
      rfl
    · rfl
    · rename_i self
      rw [self]
      rfl
    · rfl
  | release r =>
    refine ⟨fun x _ => ?_, fun x _ => ?_⟩
    all_goals
      obtain ⟨known, same⟩ := release_kept (R := R) (r := r) x
      rw [same]
  | taskwaitEnd t =>
    refine ⟨fun x _ => ?_, fun x _ => ?_⟩ <;> simp only [after, waitTask] <;> by_cases self : x = t
    · rw [if_pos self, self]
      rfl
    · rw [if_neg self]
      split <;> rfl
    · rw [if_pos self, self]
      rfl
    · rw [if_neg self]
      split <;> rfl
  | taskCreate t =>
    refine ⟨fun x isTask => ?_, fun x isTask => ?_⟩ <;> simp [after, Nat.ne_of_lt isTask]
  | dependences => exact .of_task rfl
  | barrierBegin | barrierEnd | parallelEnd | orderedBegin => exact set_lives rfl rfl
  | taskgroupBegin t =>
    have entered : R.SameLives (R.set t ((R.task t).enter (.taskgroup R.groups))) := set_lives rfl rfl
    exact ⟨entered.begun, entered.ended⟩
  | taskgroupEnd t =>
    simp only [after]
    split
    · exact set_lives rfl rfl
    · exact .of_task rfl
  | workBegin t work executor =>
    have entered : ∀ construct number, R.SameLives (R.set t { (R.task t).enter construct with works := number }) :=
      fun _ _ => set_lives rfl rfl
    simp only [after, beginWork]
    split
    · exact ⟨(entered _ _).begun, (entered _ _).ended⟩
    · exact entered _ _
  | workEnd t => exact SameLives.after_finish (set_lives rfl rfl)
  | dispatch t id =>
    have moved : ∀ (S : Runtime) constructs, S.SameLives (S.set t { S.task t with constructs }) :=
      fun _ _ => set_lives rfl rfl
    simp only [after, dispatchTo]
    apply SameLives.after_finish (t := t)
    split
    · exact ⟨(moved _ _).begun, (moved _ _).ended⟩
    · exact moved _ _
    · exact .of_task rfl
  | orderedEnd t =>
    have left : R.SameLives (R.set t (R.task t).leave) := set_lives rfl rfl
    refine ⟨fun x isTask => ?_, fun x isTask => ?_⟩ <;> simp only [after, finishIteration_task]
    · exact left.begun x isTask
    · exact left.ended x isTask
  | access t =>
    have learned : R.SameLives (R.set t ((R.task t).learn fun a => a == R.accesses)) := set_lives rfl rfl
    exact ⟨learned.begun, learned.ended⟩

theorem created_after (enabled : R.enabled e = true) : (R.after e).Created x ↔
    R.Created x ∨ e = .implicitBegin x ∨ ∃ t, e = .taskCreate t ∧ x = R.tasks := by
  by_cases plain : e.Creates ∨ e.Bounds
  · cases e with
    | parallelBegin t size =>
      have grown : (R.after (.parallelBegin t size)).tasks = R.tasks + size := rfl
      simp only [Created, grown, reduceCtorEq, false_and, exists_false, or_false]
      by_cases isTask : x < R.tasks
      · rw [(lives_after id).begun x isTask]
        simp [isTask, Nat.lt_add_right size isTask]
      · by_cases isNew : x < R.tasks + size
        · obtain ⟨i, rfl⟩ := Nat.exists_eq_add_of_le (Nat.le_of_not_lt isTask)
          rw [fork_member (by omega)]
          simp [isTask, Task.new]
        · simp [isTask, isNew]
    | implicitBegin t =>
      have isTask : t < R.tasks := by
        simp only [Runtime.enabled, Bool.and_eq_true, decide_eq_true_eq] at enabled
        exact enabled.1
      by_cases self : x = t
      · subst self
        simp [Created, after, isTask]
      · simp [Created, after, self, Ne.symm self]
    | taskCreate t =>
      have grown : (R.after (.taskCreate t)).tasks = R.tasks + 1 := rfl
      by_cases self : x = R.tasks
      · simp [Created, after, self, Task.new]
      · have same : ((R.after (.taskCreate t)).task x).begun = (R.task x).begun := by simp [after, self]
        rw [Created, grown, same, Created]
        simp only [reduceCtorEq, Event.taskCreate.injEq, self, and_false, exists_false, or_false]
        exact and_congr_left fun _ => by omega
    | dependences t deps => simp [after]
    | implicitEnd t | taskComplete t =>
      by_cases self : x = t
      · subst self
        simp [Created, after]
      · simp [Created, after, self]
    | _ => exact absurd plain (by simp [Event.Creates, Event.Bounds])
  · obtain ⟨creates, bounds⟩ := not_or.mp plain
    have same := after_counts (R := R) creates
    have none : ¬(e = .implicitBegin x ∨ ∃ t, e = .taskCreate t ∧ x = R.tasks) := by
      rintro (rfl | ⟨t, rfl, -⟩)
      · exact creates trivial
      · exact creates trivial
    rw [or_iff_left none, Created, same.1, Created]
    exact and_congr_right fun isTask => by rw [(lives_after bounds).begun x isTask]

inductive BarriersAfter (R R' : Runtime) (x : Nat) : Event → Prop
  | same {any : Event} : (R'.task x).arrived = (R.task x).arrived → (R'.task x).passed = (R.task x).passed →
      (R'.task x).closing = (R.task x).closing → BarriersAfter R R' x any
  | comes {closing} : (R'.task x).arrived = (R.task x).arrived + 1 → (R'.task x).passed = (R.task x).passed →
      (R'.task x).closing = closing → BarriersAfter R R' x (.barrierBegin x closing)
  | leaves : (R'.task x).arrived = (R.task x).arrived → (R'.task x).passed = (R.task x).passed + 1 →
      (R'.task x).closing = (R.task x).closing → BarriersAfter R R' x (.barrierEnd x)

theorem BarriersAfter.of_set (task : Task) (after : R'.task x = if x = t then task else R.task x)
    (same : task.arrived = (R.task t).arrived ∧ task.passed = (R.task t).passed ∧ task.closing = (R.task t).closing) :
    BarriersAfter R R' x e := by
  by_cases self : x = t
  · rw [if_pos self] at after
    exact .same (by rw [after, same.1, self]) (by rw [after, same.2.1, self]) (by rw [after, same.2.2, self])
  · rw [if_neg self] at after
    exact .same (by rw [after]) (by rw [after]) (by rw [after])

theorem barriers_after (isTask : x < R.tasks) : BarriersAfter R (R.after e) x e := by
  cases e with
  | parallelBegin t size => exact .of_set _ (fork_task isTask) ⟨rfl, rfl, rfl⟩
  | release r =>
    obtain ⟨known, same⟩ := release_kept (R := R) (r := r) x
    exact .same (by rw [same]) (by rw [same]) (by rw [same])
  | taskwaitEnd t =>
    have kept : (R.waitTask t x).arrived = (R.task x).arrived ∧ (R.waitTask t x).passed = (R.task x).passed ∧
        (R.waitTask t x).closing = (R.task x).closing := by
      rw [waitTask]
      by_cases self : x = t
      · rw [if_pos self, self]
        exact ⟨rfl, rfl, rfl⟩
      · rw [if_neg self]
        split <;> exact ⟨rfl, rfl, rfl⟩
    exact .same kept.1 kept.2.1 kept.2.2
  | taskCreate t =>
    have old : (R.after (.taskCreate t)).task x = R.task x := by simp [after, Nat.ne_of_lt isTask]
    exact .same (by rw [old]) (by rw [old]) (by rw [old])
  | dependences => exact .same rfl rfl rfl
  | implicitBegin | implicitEnd | taskComplete | orderedBegin | parallelEnd => exact .of_set _ (set_task ..) ⟨rfl, rfl, rfl⟩
  | barrierBegin t closing =>
    by_cases self : x = t
    · subst self
      refine .comes ?_ ?_ ?_ <;> simp [after]
    · refine .same ?_ ?_ ?_ <;> simp [after, self]
  | barrierEnd t =>
    by_cases self : x = t
    · subst self
      refine .leaves ?_ ?_ ?_ <;> simp [after]
    · refine .same ?_ ?_ ?_ <;> simp [after, self]
  | taskgroupBegin t =>
    exact .of_set _ (set_task (s := R) t ((R.task t).enter (.taskgroup R.groups)) x) ⟨rfl, rfl, rfl⟩
  | taskgroupEnd t =>
    simp only [after]
    split
    · exact .of_set _ (set_task ..) ⟨rfl, rfl, rfl⟩
    · exact .same rfl rfl rfl
  | workBegin t work executor =>
    simp only [after, beginWork]
    split <;> exact .of_set _ (set_task ..) ⟨rfl, rfl, rfl⟩
  | workEnd t =>
    refine .of_set (R.task t).leave ?_ ⟨rfl, rfl, rfl⟩
    simp [after, finishIteration_task]
  | dispatch t id =>
    have task := finishIteration_task R t
    simp only [after, dispatchTo]
    split
    · rename_i number turn last rest region constructs
      refine .of_set { R.task t with constructs := .loop number (turn + 1) (some id) :: rest } ?_ ⟨rfl, rfl, rfl⟩
      simp only [setRegion_task, set_task, task]
    · rename_i number unit rest region constructs
      refine .of_set { R.task t with constructs := .sections number (unit + 1) :: rest } ?_ ⟨rfl, rfl, rfl⟩
      simp only [set_task, task]
    · exact .same (by rw [task]) (by rw [task]) (by rw [task])
  | orderedEnd t =>
    refine .of_set (R.task t).leave ?_ ⟨rfl, rfl, rfl⟩
    simp [after, finishIteration_task]
  | access t =>
    exact .of_set _ (set_task (s := R) t ((R.task t).learn fun a => a == R.accesses) x) ⟨rfl, rfl, rfl⟩

/-- A step leaves the layout of a region alone; its barriers are released one by one. -/
structure RegionAfter (R R' : Runtime) (r : Nat) (e : Event) : Prop where
  size : (R'.region r).size = (R.region r).size
  first : (R'.region r).first = (R.region r).first
  encountering : (R'.region r).encountering = (R.region r).encountering
  released : (R'.region r).released = (R.region r).released ∨
    e = .release r ∧ (R'.region r).released = (R.region r).released + 1
  dispatched : ∀ n i, (R.region r).dispatched n i = true → (R'.region r).dispatched n i = true

theorem RegionAfter.of_region {r : Nat} (same : R'.region = R.region) : RegionAfter R R' r e := by
  constructor <;> rw [same]
  · exact .inl rfl
  · exact fun _ _ => id

theorem RegionAfter.of_setRegion {r ρ : Nat} {region : Region} (after : R'.region = (R.setRegion ρ region).region)
    (same : region.size = (R.region ρ).size ∧ region.first = (R.region ρ).first ∧
      region.encountering = (R.region ρ).encountering ∧ region.released = (R.region ρ).released)
    (more : ∀ n i, (R.region ρ).dispatched n i = true → region.dispatched n i = true) : RegionAfter R R' r e := by
  have changed : R'.region r = if r = ρ then region else R.region r := by rw [after, setRegion_region]
  by_cases self : r = ρ
  · rw [if_pos self] at changed
    subst self
    exact ⟨by rw [changed, same.1], by rw [changed, same.2.1], by rw [changed, same.2.2.1],
      .inl (by rw [changed, same.2.2.2]), by rw [changed]; exact more⟩
  · rw [if_neg self] at changed
    exact ⟨by rw [changed], by rw [changed], by rw [changed], .inl (by rw [changed]), by rw [changed]; exact fun _ _ => id⟩

theorem RegionAfter.after_finish {S S' : Runtime} {r : Nat} (region : S.region = R.region)
    (same : RegionAfter (S.finishIteration t) S' r e) : RegionAfter R S' r e := by
  have layout := SameLayout.finishIteration S t
  have released := finishIteration_released S t r
  refine ⟨?_, ?_, ?_, ?_, fun n i before => same.dispatched n i ?_⟩
  · rw [same.size, layout.size, region]
  · rw [same.first, layout.first, region]
  · rw [same.encountering, layout.encountering, region]
  · rw [← region, ← released]
    exact same.released
  · rw [finishIteration_dispatched, region]
    exact before

theorem region_after {r : Nat} (isRegion : r < R.regions) : RegionAfter R (R.after e) r e := by
  cases e with
  | parallelBegin t size =>
    have old : (R.after (.parallelBegin t size)).region r = R.region r := fork_region_old isRegion
    constructor <;> rw [old]
    · exact .inl rfl
    · exact fun _ _ => id
  | release ρ =>
    have layout := release_layout (R := R) (r := ρ) r
    refine ⟨layout.1, layout.2.1, layout.2.2, ?_, ?_⟩ <;>
    · rw [release_region]
      by_cases self : r = ρ
      · subst self
        simp
      · simp [self]
  | implicitBegin | implicitEnd | taskComplete | orderedBegin | parallelEnd | barrierBegin | barrierEnd | taskwaitEnd
  | taskCreate | dependences | taskgroupBegin | access => exact .of_region rfl
  | taskgroupEnd t =>
    simp only [after]
    split <;> exact .of_region rfl
  | workBegin t work executor =>
    simp only [after, beginWork]
    split
    · exact .of_setRegion (R := R) rfl ⟨rfl, rfl, rfl, rfl⟩ fun _ _ => id
    · exact .of_region rfl
  | workEnd t => exact .after_finish rfl (.of_region rfl)
  | dispatch t id =>
    simp only [after, dispatchTo]
    split
    · refine .after_finish rfl (.of_setRegion (R := R.finishIteration t) rfl ⟨rfl, rfl, rfl, rfl⟩ fun n i before => ?_)
      simp only [Function.update_apply]
      split
      · rename_i same
        subst same
        rw [Function.update_apply]
        split
        · rfl
        · exact before
      · exact before
    · exact .after_finish rfl (.of_region rfl)
    · exact .after_finish rfl (.of_region rfl)
  | orderedEnd t => exact .after_finish (S := R.set t (R.task t).leave) rfl (.of_region rfl)

end Runtime

end Romp
