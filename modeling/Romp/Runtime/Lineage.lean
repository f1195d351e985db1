import Romp.Runtime.Nesting

namespace Romp

def Task.units (t : Task) : List Construct := t.constructs.filter fun c => c.number.isSome

theorem Task.body_units (t : Task) : t.body = t.units.head? := by
  rw [Task.body, Task.units, List.head?_filter]

theorem Task.units_eq {t t' : Task} (constructs : t'.constructs = t.constructs) : t'.units = t.units := by
  rw [Task.units, constructs, Task.units]

theorem Task.units_enter {t : Task} {c : Construct} (plain : c.number = none) : (t.enter c).units = t.units := by
  rw [Task.units, Task.enter, List.filter_cons_of_neg (by rw [plain]; exact Bool.false_ne_true), Task.units]

theorem Task.units_leave {t : Task} {c : Construct} {rest : List Construct} (constructs : t.constructs = c :: rest)
    (plain : c.number = none) : t.leave.units = t.units := by
  rw [Task.units, Task.leave, Task.units, constructs, List.tail_cons,
    List.filter_cons_of_neg (by rw [plain]; exact Bool.false_ne_true)]

theorem Task.strands_eq {t t' : Task} (line : t'.line = t.line) (body : t'.body = t.body) (x : Nat) :
    t'.strands x = t.strands x := by
  rw [Task.strands, Task.strands, line, body]

theorem Construct.number_none {c : Construct} (group : c.isTaskgroup = true) : c.number = none := by
  cases c <;> first | rfl | cases group

namespace Runtime

/-- Where the tasks of a program were created: each in the strand that its line ends in. -/
structure Lineage (R : Runtime) : Prop where
  root : (R.task 0).line = []
  line : ∀ t < R.tasks, t ≠ 0 → (R.task t).parent < t ∧ ∃ body : Option Construct,
    (R.task t).line = (R.task (R.task t).parent).line ++
      ⟨(R.task t).parent, none⟩ :: body.toList.map fun c => ⟨(R.task t).parent, some c⟩
  waiting : ∀ r < R.regions, ∀ i < (R.region r).size, (R.task (R.memberOf r i)).ended = false →
    (R.task (R.memberOf r i)).line =
      (R.task (R.region r).encountering).strands (R.region r).encountering
  idle : ∀ t, (R.task t).ended = true → (R.task t).constructs = []
  units : ∀ t, (R.task t).units.length ≤ 1 ∧ ∀ c ∈ (R.task t).units, ∀ k ∈ c.number, k < (R.task t).works

namespace Lineage

variable {R R' : Runtime} (lineage : R.Lineage) (nested : R.Nested)

include lineage nested

theorem keep (layout : SameLayout R R') (origin : ∀ t < R.tasks, (R.task t).SameOrigin (R'.task t))
    (lasting : ∀ t, (R.task t).ended = true → (R'.task t).ended = true)
    (moved : ∀ r < R.regions, (R'.task (R.region r).encountering).body = (R.task (R.region r).encountering).body ∨
      ¬ R.IsOpen r)
    (idle : ∀ t, (R'.task t).ended = true → (R'.task t).constructs = [])
    (units : ∀ t, (R'.task t).units.length ≤ 1 ∧ ∀ c ∈ (R'.task t).units, ∀ k ∈ c.number, k < (R'.task t).works) :
    R'.Lineage := by
  refine ⟨?_, ?_, ?_, idle, units⟩
  · rw [(origin 0 nested.positive).line]
    exact lineage.root
  · intro t isTask notRoot
    rw [layout.tasks] at isTask
    obtain ⟨less, body, line⟩ := lineage.line t isTask notRoot
    have parent := origin _ (less.trans isTask)
    rw [(origin t isTask).parent, (origin t isTask).line, parent.line]
    exact ⟨less, body, line⟩
  · intro r isRegion i isMember live
    rw [layout.regions] at isRegion
    rw [layout.size] at isMember
    rw [layout.memberOf] at live ⊢
    have before : (R.task (R.memberOf r i)).ended = false := by
      rw [← Bool.not_eq_true]
      intro ended
      rw [lasting _ ended] at live
      cases live
    have forker := origin _ (nested.encountering_lt isRegion)
    rw [(origin _ (nested.member_lt isRegion isMember)).line, layout.encountering,
      lineage.waiting r isRegion i isMember before]
    refine (Task.strands_eq forker.line ?_ _).symm
    exact (moved r isRegion).resolve_right fun closed => closed (nested.live_open isRegion isMember before)

theorem still (layout : SameLayout R R') (origin : ∀ t < R.tasks, (R.task t).SameOrigin (R'.task t))
    (lasting : ∀ t, (R.task t).ended = true → (R'.task t).ended = true)
    (works : ∀ t, (R'.task t).works = (R.task t).works)
    (constructs : ∀ t, (R'.task t).constructs = (R.task t).constructs)
    (idle : ∀ t, (R'.task t).ended = true → (R.task t).constructs = []) : R'.Lineage := by
  refine lineage.keep nested layout origin lasting
    (fun r _ => .inl (by rw [Task.body, constructs, Task.body])) (fun t ended => ?_) fun t => ?_
  · rw [constructs]
    exact idle t ended
  · rw [Task.units_eq (constructs t), works]
    exact lineage.units t

theorem setConstructs {t : Nat} {task : Task} (origin : (R.task t).SameOrigin task)
    (lasting : (R.task t).ended = true → task.ended = true)
    (moved : task.body = (R.task t).body ∨ ∀ r, (R.region r).encountering = t → ¬ R.IsOpen r)
    (idle : task.ended = true → task.constructs = [])
    (units : task.units.length ≤ 1 ∧ ∀ c ∈ task.units, ∀ k ∈ c.number, k < task.works) :
    (R.set t task).Lineage := by
  refine lineage.keep nested ⟨rfl, rfl, fun _ => rfl, fun _ => rfl, fun _ => rfl⟩ (set_extends origin).fixed
    (fun x => ?_) (fun r _ => ?_) (fun x => ?_) fun x => ?_
  · rw [set_task]
    by_cases self : x = t
    · rw [if_pos self, self]
      exact lasting
    · rw [if_neg self]
      exact id
  · rw [set_task]
    by_cases self : (R.region r).encountering = t
    · rw [if_pos self, self]
      exact moved.imp id fun closed => closed r self
    · rw [if_neg self]
      exact .inl rfl
  · rw [set_task]
    by_cases self : x = t
    · rw [if_pos self]
      exact idle
    · rw [if_neg self]
      exact lineage.idle x
  · rw [set_task]
    by_cases self : x = t
    · rw [if_pos self]
      exact units
    · rw [if_neg self]
      exact lineage.units x

theorem setPlain {t : Nat} {task : Task} (origin : (R.task t).SameOrigin task)
    (lasting : (R.task t).ended = true → task.ended = true) (works : task.works = (R.task t).works)
    (idle : task.ended = true → task.constructs = []) (units : task.units = (R.task t).units) :
    (R.set t task).Lineage := by
  refine lineage.setConstructs nested origin lasting (.inl ?_) idle ?_
  · rw [Task.body_units, units, Task.body_units]
  · rw [units, works]
    exact lineage.units t

theorem finishIteration (t : Nat) : (R.finishIteration t).Lineage := by
  have task := finishIteration_task R t
  exact lineage.still nested (.finishIteration R t) (finishIteration_extends t).fixed (fun _ => by rw [task]; exact id)
    (fun _ => by rw [task]) (fun _ => by rw [task]) fun x => by rw [task]; exact lineage.idle x

theorem setRegion {r : Nat} {region : Region} (size : region.size = (R.region r).size)
    (first : region.first = (R.region r).first) (encountering : region.encountering = (R.region r).encountering) :
    (R.setRegion r region).Lineage := by
  refine lineage.still nested ⟨rfl, rfl, fun x => ?_, fun x => ?_, fun x => ?_⟩ (setRegion_extends r region).fixed
    (fun _ => id) (fun _ => rfl) (fun _ => rfl) lineage.idle
  all_goals
    rw [setRegion_region]
    by_cases self : x = r <;> simp [*]

theorem parallelBegin {t size : Nat} (isTask : t < R.tasks) (runs : (R.task t).running = true) :
    (R.after (.parallelBegin t size)).Lineage := by
  have cases : ∀ r < R.regions + 1, r < R.regions ∨ r = R.regions := by omega
  have grown := after_extends R (.parallelBegin t size)
  have strands : ∀ x < R.tasks, ((R.after (.parallelBegin t size)).task x).strands x = (R.task x).strands x ∧
      ((R.after (.parallelBegin t size)).task x).works = (R.task x).works ∧
      ((R.after (.parallelBegin t size)).task x).units = (R.task x).units := by
    intro x bound
    rw [fork_task bound]
    by_cases self : x = t
    · rw [if_pos self, self]
      exact ⟨rfl, rfl, rfl⟩
    · rw [if_neg self]
      exact ⟨rfl, rfl, rfl⟩
  have other : ∀ x, ¬ x < R.tasks + size → (R.after (.parallelBegin t size)).task x = R.task x := by
    intro x bound
    have notSelf : x ≠ t := by omega
    simp only [after, fork, bound, and_false, if_false, notSelf]
  have new : ∀ x, ¬ x < R.tasks → x < R.tasks + size → (R.after (.parallelBegin t size)).task x =
      Task.new (.implicit R.regions (x - R.tasks)) t ((R.task t).strands t) R.accesses (some R.regions) []
        false (R.task t).known := by
    intro x notOld bound
    have made := fork_member (R := R) (t := t) (show x - R.tasks < size by omega)
    rwa [show R.tasks + (x - R.tasks) = x by omega] at made
  refine ⟨?_, ?_, ?_, ?_, ?_⟩
  · rw [(grown.fixed 0 nested.positive).line]
    exact lineage.root
  · intro x bound notRoot
    by_cases before : x < R.tasks
    · obtain ⟨less, body, line⟩ := lineage.line x before notRoot
      rw [(grown.fixed x before).parent, (grown.fixed x before).line, (grown.fixed _ (less.trans before)).line]
      exact ⟨less, body, line⟩
    · rw [new x before bound]
      change t < x ∧ ∃ body : Option Construct, (R.task t).strands t =
        ((R.after (.parallelBegin t size)).task t).line ++ _
      rw [(grown.fixed t isTask).line]
      exact ⟨by omega, (R.task t).body, rfl⟩
  · intro r isRegion i isMember live
    rcases cases r isRegion with before | rfl
    · rw [fork_region_old before] at isMember ⊢
      have bound := nested.member_lt before isMember
      rw [fork_memberOf before] at live ⊢
      rw [(grown.fixed _ bound).line, (strands _ (nested.encountering_lt before)).1]
      obtain ⟨_, same⟩ := fork_kept t size bound
      rw [same] at live
      exact lineage.waiting r before i isMember live
    · simp only [fork_region, if_true] at isMember ⊢
      change i < size at isMember
      rw [fork_memberOf_new, fork_member isMember]
      exact (strands t isTask).1.symm
  · intro x ended
    by_cases before : x < R.tasks
    · rw [fork_task before] at ended ⊢
      by_cases self : x = t
      · rw [if_pos self] at ended
        cases (Task.running_iff.mp runs).2.1.symm.trans ended
      · rw [if_neg self] at ended ⊢
        exact lineage.idle x ended
    · by_cases bound : x < R.tasks + size
      · rw [new x before bound]
        rfl
      · rw [other x bound] at ended ⊢
        exact lineage.idle x ended
  · intro x
    by_cases before : x < R.tasks
    · rw [(strands x before).2.1, (strands x before).2.2]
      exact lineage.units x
    · by_cases bound : x < R.tasks + size
      · rw [new x before bound]
        exact ⟨Nat.zero_le _, fun _ inside => by cases inside⟩
      · rw [other x bound]
        exact lineage.units x

theorem taskCreate {t : Nat} (isTask : t < R.tasks) : (R.after (.taskCreate t)).Lineage := by
  have old : ∀ x, x ≠ R.tasks → (R.after (.taskCreate t)).task x = R.task x := by
    intro x other
    simp [after, other]
  have new : (R.after (.taskCreate t)).task R.tasks = Task.new .explicit t ((R.task t).strands t) R.accesses
      (R.task t).region ((R.task t).groups ++ (R.task t).openGroups) true (R.task t).known := by
    simp [after]
  refine ⟨?_, ?_, ?_, ?_, ?_⟩
  · rw [old 0 (Nat.ne_of_lt nested.positive)]
    exact lineage.root
  · intro x bound notRoot
    by_cases self : x = R.tasks
    · rw [self, new]
      change t < R.tasks ∧ ∃ body : Option Construct, (R.task t).strands t =
        ((R.after (.taskCreate t)).task t).line ++ _
      rw [old t (Nat.ne_of_lt isTask)]
      exact ⟨isTask, (R.task t).body, rfl⟩
    · have before : x < R.tasks := by
        have succ : x < R.tasks + 1 := bound
        omega
      obtain ⟨less, body, line⟩ := lineage.line x before notRoot
      rw [old x self, old _ (by omega)]
      exact ⟨less, body, line⟩
  · intro r isRegion i isMember live
    have bound := nested.member_lt isRegion isMember
    change ((R.after (.taskCreate t)).task (R.memberOf r i)).ended = false at live
    change ((R.after (.taskCreate t)).task (R.memberOf r i)).line =
      ((R.after (.taskCreate t)).task (R.region r).encountering).strands (R.region r).encountering
    rw [old _ (Nat.ne_of_lt bound)] at live ⊢
    rw [old _ (Nat.ne_of_lt (nested.encountering_lt isRegion))]
    exact lineage.waiting r isRegion i isMember live
  · intro x ended
    by_cases self : x = R.tasks
    · rw [self, new]
      rfl
    · rw [old x self] at ended ⊢
      exact lineage.idle x ended
  · intro x
    by_cases self : x = R.tasks
    · rw [self, new]
      exact ⟨Nat.zero_le _, fun _ inside => by cases inside⟩
    · rw [old x self]
      exact lineage.units x

theorem workBegin {t : Nat} {work : Work} {executor : Bool} (runs : (R.task t).running = true)
    (groups : (R.task t).constructs.all Construct.isTaskgroup = true) :
    (R.after (.workBegin t work executor)).Lineage := by
  have empty : (R.task t).units = [] := by
    rw [Task.units, List.filter_eq_nil_iff]
    intro c inside
    rw [Construct.number_none (List.all_eq_true.mp groups c inside)]
    exact Bool.false_ne_true
  have entered : ∀ construct, construct.number = some (R.task t).works →
      (R.set t { (R.task t).enter construct with works := (R.task t).works + 1 }).Lineage := by
    intro construct number
    refine lineage.setConstructs nested ⟨rfl, rfl, rfl, rfl, rfl, rfl⟩ id
      (.inr fun r forker => Nested.running_not_open runs forker)
      (fun ended => by cases (Task.running_iff.mp runs).2.1.symm.trans ended) ?_
    have units : ({ (R.task t).enter construct with works := (R.task t).works + 1 } : Task).units = [construct] := by
      change (construct :: (R.task t).constructs).filter (fun c => c.number.isSome) = _
      rw [List.filter_cons_of_pos (by rw [number]; rfl)]
      exact congrArg _ empty
    rw [units]
    refine ⟨le_refl _, fun c inside k known => ?_⟩
    rw [List.mem_singleton.mp inside, number] at known
    cases known
    exact Nat.lt_succ_self _
  have nested' : ∀ construct, (R.set t { (R.task t).enter construct with works := (R.task t).works + 1 }).Nested :=
    fun construct => nested.setRunning runs ⟨rfl, rfl, rfl, rfl, rfl, rfl⟩ ⟨rfl, rfl, rfl, rfl, rfl⟩
  have numbered := Construct.ofWork_number work (R.task t).works executor
  simp only [after, beginWork]
  split
  · exact (entered _ numbered).setRegion (nested' _) rfl rfl rfl
  · exact entered _ numbered

theorem workEnd {t : Nat} {c : Construct} {rest : List Construct}
    (constructs : (R.task t).constructs = c :: rest) (notParallel : ∀ r, c ≠ .parallel r) :
    (R.after (.workEnd t)).Lineage := by
  have task := finishIteration_task R t
  have units : ((R.finishIteration t).task t).leave.units = rest.filter fun c => c.number.isSome := by
    rw [task, Task.units, Task.leave, constructs, List.tail_cons]
  have inside : (rest.filter fun c => c.number.isSome).Sublist (R.task t).units := by
    rw [Task.units, constructs]
    exact (List.sublist_cons_self c rest).filter _
  refine (lineage.finishIteration nested t).setConstructs (nested.finishIteration t)
    ⟨rfl, rfl, rfl, rfl, rfl, rfl⟩ id (.inr fun r forker isOpen => ?_)
    (fun ended => ?_) ?_
  · rw [IsOpen, (SameLayout.finishIteration R t).encountering] at isOpen
    rw [(SameLayout.finishIteration R t).encountering] at forker
    rw [forker, task, constructs] at isOpen
    exact notParallel r (Option.some.inj isOpen)
  · rw [task] at ended
    have empty := lineage.idle t ended
    rw [constructs] at empty
    cases empty
  · have works : ((R.finishIteration t).task t).leave.works = (R.task t).works := by
      rw [task]
      rfl
    rw [units, works]
    exact ⟨inside.length_le.trans (lineage.units t).1,
      fun c member => (lineage.units t).2 c (inside.subset member)⟩

theorem dispatch {t : Nat} {id : BitVec 64} (runs : (R.task t).running = true) :
    (R.after (.dispatch t id)).Lineage := by
  have task := finishIteration_task R t
  have finished := lineage.finishIteration nested t
  have nested' := nested.finishIteration t
  have next : ∀ (c c' : Construct) rest number, (R.task t).constructs = c :: rest → c.number = some number →
      c'.number = some number →
      ((R.finishIteration t).set t { (R.finishIteration t).task t with constructs := c' :: rest }).Lineage := by
    intro c c' rest number constructs old new
    have units := lineage.units t
    rw [Task.units, constructs, List.filter_cons_of_pos (by rw [old]; rfl)] at units
    have empty : rest.filter (fun c => c.number.isSome) = [] :=
      List.eq_nil_of_length_eq_zero (by simpa using units.1)
    refine finished.setConstructs nested' ⟨rfl, rfl, rfl, rfl, rfl, rfl⟩ (fun ended => ended)
      (.inr fun r forker => Nested.running_not_open (by rw [task]; exact runs) forker) (fun ended => ?_) ?_
    · rw [task] at ended
      cases (Task.running_iff.mp runs).2.1.symm.trans ended
    rw [task, Task.units, List.filter_cons_of_pos (by rw [new]; rfl), empty]
    refine ⟨le_refl _, fun d inside k known => ?_⟩
    rw [List.mem_singleton.mp inside, new, ← old] at known
    exact units.2 c List.mem_cons_self k known
  simp only [after, dispatchTo]
  split
  · rename_i r number turn last rest _ constructs
    rw [task] at constructs
    refine Lineage.setRegion ?_ ?_ rfl rfl rfl
    · exact next _ _ rest number constructs rfl rfl
    · exact nested'.setRunning (by rw [task]; exact runs) ⟨rfl, rfl, rfl, rfl, rfl, rfl⟩ ⟨rfl, rfl, rfl, rfl, rfl⟩
  · rename_i r number unit rest _ constructs
    rw [task] at constructs
    exact next _ _ rest number constructs rfl rfl
  · exact finished

end Lineage

theorem lineage_init : init.Lineage where
  root := rfl
  line := fun _ bound notRoot => absurd (Nat.lt_one_iff.mp bound) notRoot
  waiting := fun _ none => absurd none (Nat.not_lt_zero _)
  idle := fun _ _ => rfl
  units := fun _ => ⟨Nat.zero_le _, fun _ inside => by cases inside⟩

/-- Every event keeps the lineage. -/
theorem Lineage.after {R : Runtime} (lineage : R.Lineage) (nested : R.Nested) {e : Event}
    (enabled : R.enabled e = true) : (R.after e).Lineage := by
  have still : ∀ {t : Nat} {task : Task}, (R.task t).SameOrigin task →
      ((R.task t).ended = true → task.ended = true) → task.works = (R.task t).works →
      task.constructs = (R.task t).constructs → (task.ended = true → (R.task t).ended = true ∨ (R.task t).constructs = []) →
      (R.set t task).Lineage := by
    intro t task origin lasting works constructs idle
    refine lineage.setPlain nested origin lasting works (fun ended => ?_) (Task.units_eq constructs)
    rw [constructs]
    exact (idle ended).elim (lineage.idle t) id
  have live : ∀ {t : Nat}, (R.task t).running = true → (R.task t).ended = true → False := by
    intro t runs ended
    cases (Task.running_iff.mp runs).2.1.symm.trans ended
  have busy : ∀ {t : Nat} {c : Construct} {rest : List Construct}, (R.task t).constructs = c :: rest →
      (R.task t).ended = true → False := by
    intro t c rest constructs ended
    cases constructs.symm.trans (lineage.idle t ended)
  cases e with
  | parallelBegin t size =>
    simp only [Runtime.enabled, Bool.and_eq_true] at enabled
    exact lineage.parallelBegin nested (running_lt enabled.1).1 (running_lt enabled.1).2
  | taskCreate t => exact lineage.taskCreate nested (running_lt enabled).1
  | implicitBegin | barrierBegin | barrierEnd =>
    exact still ⟨rfl, rfl, rfl, rfl, rfl, rfl⟩ id rfl rfl fun ended => .inl ended
  | implicitEnd t =>
    simp only [Runtime.enabled, Bool.and_eq_true] at enabled
    refine still ⟨rfl, rfl, rfl, rfl, rfl, rfl⟩ (fun _ => rfl) rfl rfl fun _ => .inr ?_
    exact nested.closing_idle (by simpa using enabled.1.1.1.1) enabled.1.1.1.2
  | taskComplete t =>
    simp only [Runtime.enabled, Bool.and_eq_true, List.isEmpty_iff] at enabled
    exact still ⟨rfl, rfl, rfl, rfl, rfl, rfl⟩ (fun _ => rfl) rfl rfl fun _ => .inr enabled.2
  | release r =>
    have kept : ∀ x, ((R.after (.release r)).task x).ended = (R.task x).ended ∧
        ((R.after (.release r)).task x).works = (R.task x).works ∧
        ((R.after (.release r)).task x).constructs = (R.task x).constructs := by
      intro x
      obtain ⟨known, same⟩ := release_kept (R := R) (r := r) x
      rw [same]
      exact ⟨rfl, rfl, rfl⟩
    exact lineage.still nested ⟨rfl, rfl, fun x => (release_layout x).1, fun x => (release_layout x).2.1,
      fun x => (release_layout x).2.2⟩ (after_extends R (.release r)).fixed (fun x ended => (kept x).1.trans ended)
      (fun x => (kept x).2.1) (fun x => (kept x).2.2) fun x ended => lineage.idle x ((kept x).1.symm.trans ended)
  | parallelEnd r =>
    simp only [Runtime.enabled, Bool.and_eq_true, beq_iff_eq] at enabled
    obtain ⟨rest, waits⟩ := List.head?_eq_some_iff.mp enabled.2
    exact lineage.setPlain nested ⟨rfl, rfl, rfl, rfl, rfl, rfl⟩ id rfl (fun ended => (busy waits ended).elim)
      (Task.units_leave waits rfl)
  | dependences => exact lineage
  | taskwaitEnd t =>
    have kept : ∀ x, ((R.after (.taskwaitEnd t)).task x).ended = (R.task x).ended ∧
        ((R.after (.taskwaitEnd t)).task x).works = (R.task x).works ∧
        ((R.after (.taskwaitEnd t)).task x).constructs = (R.task x).constructs := by
      intro x
      simp only [Runtime.after, waitTask]
      by_cases self : x = t
      · rw [if_pos self, self]
        exact ⟨rfl, rfl, rfl⟩
      · rw [if_neg self]
        split <;> exact ⟨rfl, rfl, rfl⟩
    exact lineage.still nested ⟨rfl, rfl, fun _ => rfl, fun _ => rfl, fun _ => rfl⟩
      (after_extends R (.taskwaitEnd t)).fixed (fun x ended => (kept x).1.trans ended) (fun x => (kept x).2.1)
      (fun x => (kept x).2.2) fun x ended => lineage.idle x ((kept x).1.symm.trans ended)
  | taskgroupBegin t =>
    have entered : (R.set t ((R.task t).enter (.taskgroup R.groups))).Lineage :=
      lineage.setPlain nested ⟨rfl, rfl, rfl, rfl, rfl, rfl⟩ id rfl
        (fun ended => (live (running_lt enabled).2 ended).elim) (Task.units_enter rfl)
    exact ⟨entered.root, entered.line, entered.waiting, entered.idle, entered.units⟩
  | taskgroupEnd t =>
    simp only [Runtime.enabled, Bool.and_eq_true] at enabled
    obtain ⟨runs, inside⟩ := enabled
    split at inside
    · rename_i g rest constructs
      simp only [Runtime.after]
      split
      · exact lineage.setPlain nested ⟨rfl, rfl, rfl, rfl, rfl, rfl⟩ id rfl
          (fun ended => (busy constructs ended).elim) (Task.units_leave constructs rfl)
      · exact lineage
    · cases inside
  | workBegin t work executor =>
    simp only [Runtime.enabled, Bool.and_eq_true] at enabled
    exact lineage.workBegin nested (running_lt enabled.1.1).2 enabled.1.2
  | workEnd t =>
    simp only [Runtime.enabled, Bool.and_eq_true] at enabled
    obtain ⟨-, inside⟩ := enabled
    split at inside
    · rename_i constructs
      exact lineage.workEnd nested constructs fun _ same => by cases same
    · rename_i constructs
      exact lineage.workEnd nested constructs fun _ same => by cases same
    · rename_i constructs
      exact lineage.workEnd nested constructs fun _ same => by cases same
    · cases inside
  | dispatch t id =>
    simp only [Runtime.enabled, Bool.and_eq_true] at enabled
    exact lineage.dispatch nested (running_lt enabled.1).2
  | orderedBegin t =>
    simp only [Runtime.enabled, Bool.and_eq_true] at enabled
    exact lineage.setPlain nested ⟨rfl, rfl, rfl, rfl, rfl, rfl⟩ id rfl
      (fun ended => (live (running_lt enabled.1).2 ended).elim) (Task.units_enter rfl)
  | orderedEnd t =>
    simp only [Runtime.enabled, Bool.and_eq_true, beq_iff_eq] at enabled
    obtain ⟨rest, constructs⟩ := List.head?_eq_some_iff.mp enabled.2
    have left : (R.set t (R.task t).leave).Lineage :=
      lineage.setPlain nested ⟨rfl, rfl, rfl, rfl, rfl, rfl⟩ id rfl (fun ended => (busy constructs ended).elim)
        (Task.units_leave constructs rfl)
    refine left.finishIteration ?_ t
    exact nested.setRunning (running_lt enabled.1).2 ⟨rfl, rfl, rfl, rfl, rfl, rfl⟩ ⟨rfl, rfl, rfl, rfl, rfl⟩
  | access t =>
    have learned : (R.set t ((R.task t).learn fun a => a == R.accesses)).Lineage :=
      still ⟨rfl, rfl, rfl, rfl, rfl, rfl⟩ id rfl rfl fun ended => .inl ended
    exact ⟨learned.root, learned.line, learned.waiting, learned.idle, learned.units⟩

namespace Lineage

variable {R : Runtime} (lineage : R.Lineage)

include lineage

/-- The line of a task goes through earlier tasks, and begins with the line of each of them. -/
theorem through {t : Nat} (isTask : t < R.tasks) {strand : Strand} (inside : strand ∈ (R.task t).line) :
    strand.task < t ∧ (R.task strand.task).line ++ [⟨strand.task, none⟩] <+: (R.task t).line := by
  induction t using Nat.strong_induction_on with
  | _ t ih =>
    by_cases start : t = 0
    · rw [start, lineage.root] at inside
      cases inside
    · obtain ⟨less, body, line⟩ := lineage.line t isTask start
      have own : (R.task (R.task t).parent).line ++ [⟨(R.task t).parent, none⟩] <+: (R.task t).line :=
        ⟨body.toList.map fun c => ⟨(R.task t).parent, some c⟩, by rw [line, List.append_assoc]; rfl⟩
      have parent : strand.task = (R.task t).parent →
          strand.task < t ∧ (R.task strand.task).line ++ [⟨strand.task, none⟩] <+: (R.task t).line := by
        intro self
        rw [self]
        exact ⟨less, own⟩
      rw [line] at inside
      rcases List.mem_append.mp inside with above | here
      · obtain ⟨earlier, begins⟩ := ih _ less (less.trans isTask) above
        exact ⟨earlier.trans less, begins.trans ((List.prefix_append _ _).trans own)⟩
      · rcases List.mem_cons.mp here with rfl | inBody
        · exact parent rfl
        · obtain ⟨c, -, rfl⟩ := List.mem_map.mp inBody
          exact parent rfl

theorem starts {t : Nat} (isTask : t < R.tasks) (notRoot : t ≠ 0) : ∃ rest, (R.task t).line = ⟨0, none⟩ :: rest := by
  induction t using Nat.strong_induction_on with
  | _ t ih =>
    obtain ⟨less, body, line⟩ := lineage.line t isTask notRoot
    by_cases top : (R.task t).parent = 0
    · rw [line, top, lineage.root]
      exact ⟨_, rfl⟩
    · obtain ⟨rest, begins⟩ := ih _ less (less.trans isTask) top
      rw [line, begins]
      exact ⟨_, rfl⟩

theorem split_task {t : Nat} (isTask : t < R.tasks) {body : Option Construct} {above below : List Strand} {c : Nat}
    (strands : (R.task t).line ++ ⟨t, none⟩ :: (body.toList.map fun c => ⟨t, some c⟩) = above ++ ⟨c, none⟩ :: below) :
    (R.task c).line = above := by
  induction t using Nat.strong_induction_on generalizing body above below with
  | _ t ih =>
    rw [List.append_eq_append_iff] at strands
    rcases strands with ⟨more, upper, lower⟩ | ⟨more, upper, lower⟩
    · cases more with
      | nil =>
        rw [List.nil_append, List.cons.injEq, Strand.mk.injEq] at lower
        rw [← lower.1.1, upper, List.append_nil]
      | cons first more =>
        rw [List.cons_append, List.cons.injEq] at lower
        have inBody : (⟨c, none⟩ : Strand) ∈ body.toList.map fun c => ⟨t, some c⟩ := by
          rw [lower.2]
          exact List.mem_append_right _ List.mem_cons_self
        obtain ⟨_, -, same⟩ := List.mem_map.mp inBody
        cases same
    · cases more with
      | nil =>
        rw [List.nil_append, List.cons.injEq, Strand.mk.injEq] at lower
        rw [lower.1.1, upper, List.append_nil]
      | cons first more =>
        rw [List.cons_append, List.cons.injEq] at lower
        rw [← lower.1] at upper
        by_cases start : t = 0
        · rw [start, lineage.root] at upper
          cases List.append_ne_nil_of_right_ne_nil above (List.cons_ne_nil ⟨c, none⟩ more) upper.symm
        · obtain ⟨less, own, parted⟩ := lineage.line t isTask start
          rw [parted] at upper
          exact ih _ less (less.trans isTask) upper

theorem split_body {t : Nat} (isTask : t < R.tasks) {body : Option Construct} {above below : List Strand} {m : Nat}
    {unit : Construct}
    (strands : (R.task t).line ++ ⟨t, none⟩ :: (body.toList.map fun c => ⟨t, some c⟩) =
      above ++ ⟨m, some unit⟩ :: below) : above = (R.task m).line ++ [⟨m, none⟩] := by
  induction t using Nat.strong_induction_on generalizing body above below with
  | _ t ih =>
    rw [List.append_eq_append_iff] at strands
    rcases strands with ⟨more, upper, lower⟩ | ⟨more, upper, lower⟩
    · cases more with
      | nil => cases (List.cons.inj lower).1
      | cons first more =>
        rw [List.cons_append, List.cons.injEq] at lower
        cases body with
        | none => cases more <;> cases lower.2
        | some c =>
          cases more with
          | nil =>
            cases (List.cons.inj lower.2).1
            rw [upper, lower.1]
          | cons second more => cases more <;> cases (List.cons.inj lower.2).2
    · cases more with
      | nil => cases (List.cons.inj lower).1
      | cons first more =>
        rw [List.cons_append, List.cons.injEq] at lower
        rw [← lower.1] at upper
        by_cases start : t = 0
        · rw [start, lineage.root] at upper
          cases List.append_ne_nil_of_right_ne_nil above (List.cons_ne_nil ⟨m, some unit⟩ more) upper.symm
        · obtain ⟨less, own, parted⟩ := lineage.line t isTask start
          rw [parted] at upper
          exact ih _ less (less.trans isTask) upper

end Lineage

end Runtime

theorem System.Reachable.lineage {allowed : System → Event → Prop} {s : System}
    (reached : System.Reachable allowed s) : s.runtime.Lineage := by
  induction reached with
  | start begun =>
    cases begun
    exact Runtime.lineage_init
  | step before _ stepped ih =>
    obtain ⟨enabled, -, runtime, -⟩ := System.step_cases stepped
    rw [runtime]
    exact ih.after before.nested enabled

end Romp
