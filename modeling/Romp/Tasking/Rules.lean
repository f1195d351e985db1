import Romp.Runtime.Labels

namespace Romp

/-- The steps of a program with one parallel region, of a team of more than one, in which implicit tasks,
    the bodies of singles and explicit tasks create explicit tasks and wait for them, and members meet
    barriers. -/
def TaskStep (s : System) : Event → Prop
  | .parallelBegin t size => t = 0 ∧ s.runtime.regions = 0 ∧ 1 < size
  | .taskCreate t | .taskwaitEnd t => t ≠ 0
  | .workBegin _ work _ => work = .single
  | .implicitBegin _ | .barrierBegin .. | .release _ | .barrierEnd _ | .implicitEnd _ | .parallelEnd _ => True
  | .taskComplete _ | .workEnd _ | .access _ => True
  | _ => False

instance (s : System) (e : Event) : Decidable (TaskStep s e) :=
  match e with
  | .parallelBegin t size => inferInstanceAs (Decidable (t = 0 ∧ s.runtime.regions = 0 ∧ 1 < size))
  | .taskCreate t | .taskwaitEnd t => inferInstanceAs (Decidable (t ≠ 0))
  | .workBegin _ work _ => inferInstanceAs (Decidable (work = .single))
  | .implicitBegin _ | .barrierBegin .. | .release _ | .barrierEnd _ | .implicitEnd _ | .parallelEnd _
  | .taskComplete _ | .workEnd _ | .access _ => .isTrue trivial
  | .dependences .. | .taskgroupBegin _ | .taskgroupEnd _ | .dispatch .. | .orderedBegin _ | .orderedEnd _ => .isFalse id

namespace Runtime

structure Flat (R : Runtime) : Prop where
  regions : R.regions ≤ 1
  forker : R.regions = 1 → (R.region 0).encountering = 0 ∧ 1 < (R.region 0).size
  root : (R.task 0).constructs = [] ∨ R.regions = 1 ∧ (R.task 0).constructs = [.parallel 0]
  implicit : ∀ t < R.tasks, ∀ r i, (R.task t).kind = .implicit r i → (R.task t).line = [⟨0, none⟩] ∧
    ((R.task t).constructs = [] ∨ ∃ k executor, (R.task t).constructs = [.single k executor])
  explicit : ∀ t < R.tasks, (R.task t).kind = .explicit → R.regions = 1 ∧ (R.task t).region = some 0 ∧
    (R.task t).parent ≠ 0 ∧ (R.task t).constructs = []
  bodies : ∀ t < R.tasks, ∀ m c, ⟨m, some c⟩ ∈ (R.task t).line →
    (∃ r i, (R.task m).kind = .implicit r i) ∧ ∃ k, c = .single k true

namespace Flat

variable {R R' : Runtime} (flat : R.Flat) (nested : R.Nested) (lineage : R.Lineage)

include flat

include nested in
theorem keep (lineage : R.Lineage) (layout : SameLayout R R') (origin : ∀ t < R.tasks, (R.task t).SameOrigin (R'.task t))
    (root : (R'.task 0).constructs = (R.task 0).constructs ∨ (R'.task 0).constructs = [])
    (constructs : ∀ t < R.tasks, t ≠ 0 → (R'.task t).constructs = (R.task t).constructs ∨
      (∃ r i, (R.task t).kind = .implicit r i) ∧
      ((R'.task t).constructs = [] ∨ ∃ k executor, (R'.task t).constructs = [.single k executor])) : R'.Flat := by
  refine ⟨layout.regions ▸ flat.regions, fun one => ?_, ?_, fun t isTask r i kind => ?_, fun t isTask kind => ?_,
    fun t isTask m c inside => ?_⟩
  · rw [layout.regions] at one
    rw [layout.encountering, layout.size]
    exact flat.forker one
  · rw [layout.regions]
    rcases root with same | empty
    · rw [same]
      exact flat.root
    · exact .inl empty
  · rw [layout.tasks] at isTask
    rw [(origin t isTask).kind] at kind
    have before := flat.implicit t isTask r i kind
    refine ⟨(origin t isTask).line.trans before.1, ?_⟩
    have notRoot : t ≠ 0 := by
      rintro rfl
      cases nested.root.1.symm.trans kind
    rcases constructs t isTask notRoot with same | ⟨-, held⟩
    · rw [same]
      exact before.2
    · exact held
  · rw [layout.tasks] at isTask
    rw [(origin t isTask).kind] at kind
    rw [(origin t isTask).region, (origin t isTask).parent, layout.regions]
    obtain ⟨one, region, parent, idle⟩ := flat.explicit t isTask kind
    have notRoot : t ≠ 0 := by
      rintro rfl
      cases nested.root.1.symm.trans kind
    rcases constructs t isTask notRoot with same | ⟨⟨r, i, implicit⟩, -⟩
    · exact ⟨one, region, parent, same.trans idle⟩
    · cases implicit.symm.trans kind
  · rw [layout.tasks] at isTask
    rw [(origin t isTask).line] at inside
    rw [(origin m ((lineage.through isTask inside).1.trans isTask)).kind]
    exact flat.bodies t isTask m c inside

include nested lineage

theorem parallelBegin {size : Nat} (none : R.regions = 0) (team : 1 < size) :
    (R.after (.parallelBegin 0 size)).Flat := by
  have grown := after_extends R (.parallelBegin 0 size)
  have idle : (R.task 0).constructs = [] := by
    rcases flat.root with empty | ⟨one, -⟩
    · exact empty
    · omega
  have strands : (R.task 0).strands 0 = [⟨0, Option.none⟩] := by
    rw [Task.strands_plain (by rw [Task.units, idle]; rfl), lineage.root]
    rfl
  have new : ∀ x, ¬ x < R.tasks → x < R.tasks + size → (R.after (.parallelBegin 0 size)).task x =
      Task.new (.implicit R.regions (x - R.tasks)) 0 ((R.task 0).strands 0) R.accesses (some R.regions) []
        false (R.task 0).known := by
    intro x notOld bound
    have made := fork_member (R := R) (t := 0) (show x - R.tasks < size by omega)
    rwa [show R.tasks + (x - R.tasks) = x by omega] at made
  have old : ∀ x < R.tasks, x ≠ 0 → (R.after (.parallelBegin 0 size)).task x = R.task x := by
    intro x before other
    rw [fork_task before, if_neg other]
  have explicit : ∀ x < R.tasks, (R.task x).kind ≠ .explicit := by
    intro x before kind
    have one := (flat.explicit x before kind).1
    omega
  refine ⟨?_, fun _ => ?_, ?_, fun x bound r i kind => ?_, fun x bound kind => ?_, fun x bound m c inside => ?_⟩
  · change R.regions + 1 ≤ 1
    omega
  · rw [← none, fork_region, if_pos rfl]
    exact ⟨rfl, team⟩
  · refine .inr ⟨by change R.regions + 1 = 1; omega, ?_⟩
    rw [fork_task nested.positive, if_pos rfl, Task.enter, idle, none]
  · by_cases before : x < R.tasks
    · rw [(grown.fixed x before).kind] at kind
      have notRoot : x ≠ 0 := by
        rintro rfl
        cases nested.root.1.symm.trans kind
      rw [old x before notRoot]
      exact flat.implicit x before r i kind
    · rw [new x before bound]
      exact ⟨strands, .inl rfl⟩
  · by_cases before : x < R.tasks
    · rw [(grown.fixed x before).kind] at kind
      exact absurd kind (explicit x before)
    · rw [new x before bound] at kind
      cases kind
  · by_cases before : x < R.tasks
    · rw [(grown.fixed x before).line] at inside
      rw [(grown.fixed m ((lineage.through before inside).1.trans before)).kind]
      exact flat.bodies x before m c inside
    · rw [new x before bound] at inside
      change _ ∈ (R.task 0).strands 0 at inside
      rw [strands] at inside
      cases List.mem_singleton.mp inside

theorem taskCreate {t : Nat} (isTask : t < R.tasks) (notRoot : t ≠ 0) (runs : (R.task t).running = true) :
    (R.after (.taskCreate t)).Flat := by
  have old : ∀ x, x ≠ R.tasks → (R.after (.taskCreate t)).task x = R.task x := by
    intro x other
    simp [after, other]
  have new : (R.after (.taskCreate t)).task R.tasks = Task.new .explicit t ((R.task t).strands t) R.accesses
      (R.task t).region ((R.task t).groups ++ (R.task t).openGroups) true (R.task t).known := by
    simp [after]
  have split : ∀ x < R.tasks + 1, x < R.tasks ∨ x = R.tasks := by omega
  have region : R.regions = 1 ∧ (R.task t).region = some 0 := by
    cases kind : (R.task t).kind with
    | initial => exact absurd (nested.initial t isTask kind) notRoot
    | explicit =>
      have before := flat.explicit t isTask kind
      exact ⟨before.1, before.2.1⟩
    | implicit r i =>
      obtain ⟨isRegion, isMember, self⟩ := nested.member t isTask r i kind
      have one := flat.regions
      have zero : r = 0 := by omega
      subst zero
      exact ⟨by omega, self ▸ (nested.kind 0 isRegion i isMember).2.2⟩
  refine ⟨flat.regions, flat.forker, ?_, fun x bound r i kind => ?_, fun x bound kind => ?_, fun x bound m c inside => ?_⟩
  · rw [old 0 (Nat.ne_of_lt nested.positive)]
    exact flat.root
  · rcases split x bound with before | rfl
    · rw [old x (Nat.ne_of_lt before)] at kind ⊢
      exact flat.implicit x before r i kind
    · rw [new] at kind
      cases kind
  · rcases split x bound with before | rfl
    · rw [old x (Nat.ne_of_lt before)] at kind ⊢
      exact flat.explicit x before kind
    · rw [new]
      exact ⟨region.1, region.2, notRoot, rfl⟩
  · rcases split x bound with before | rfl
    · rw [old x (Nat.ne_of_lt before)] at inside
      rw [old m (Nat.ne_of_lt ((lineage.through before inside).1.trans before))]
      exact flat.bodies x before m c inside
    · rw [new] at inside
      rcases List.mem_append.mp inside with above | here
      · rw [old m (Nat.ne_of_lt ((lineage.through isTask above).1.trans isTask))]
        exact flat.bodies t isTask m c above
      · rcases List.mem_cons.mp here with same | inBody
        · cases same
        · obtain ⟨unit, known, same⟩ := List.mem_map.mp inBody
          simp only [Strand.mk.injEq, Option.some.injEq] at same
          rw [← same.1, ← same.2, old t (Nat.ne_of_lt isTask)]
          have held : unit ∈ (R.task t).constructs :=
            List.mem_of_find?_eq_some (Option.mem_toList.mp known)
          cases kind : (R.task t).kind with
          | initial => exact absurd (nested.initial t isTask kind) notRoot
          | explicit =>
            rw [(flat.explicit t isTask kind).2.2.2] at held
            cases held
          | implicit r i =>
            refine ⟨⟨r, i, rfl⟩, ?_⟩
            rcases (flat.implicit t isTask r i kind).2 with empty | ⟨k, executor, busy⟩
            · rw [empty] at held
              cases held
            · have works := (Task.running_iff.mp runs).2.2.2.2 _ _ busy
              rw [busy, List.mem_singleton] at held
              cases executor with
              | false => cases works
              | true => exact ⟨k, held⟩

end Flat

theorem flat_init : init.Flat where
  regions := by decide
  forker := fun one => by cases one
  root := .inl rfl
  implicit := fun t bound r i kind => by
    cases Nat.lt_one_iff.mp bound
    cases kind
  explicit := fun t bound kind => by
    cases Nat.lt_one_iff.mp bound
    cases kind
  bodies := fun t bound m c inside => by
    cases Nat.lt_one_iff.mp bound
    cases inside

/-- The runtime stays that of one region. -/
theorem Flat.after {s : System} (flat : s.runtime.Flat) (nested : s.runtime.Nested) (lineage : s.runtime.Lineage)
    {e : Event} (permitted : TaskStep s e) (enabled : s.runtime.enabled e = true) : (s.runtime.after e).Flat := by
  have grown := after_extends s.runtime e
  have plain : ∀ x task, task.constructs = (s.runtime.task x).constructs →
      ((s.runtime.task x).SameOrigin task) → (s.runtime.set x task).Flat := by
    intro x task same origin
    have kept : ∀ t, ((s.runtime.set x task).task t).constructs = (s.runtime.task t).constructs := by
      intro t
      rw [set_task]
      by_cases self : t = x
      · rw [if_pos self, self, same]
      · rw [if_neg self]
    exact flat.keep nested lineage ⟨rfl, rfl, fun _ => rfl, fun _ => rfl, fun _ => rfl⟩ (set_extends origin).fixed
      (.inl (kept 0)) fun t _ _ => .inl (kept t)
  have single : ∀ {R' : Runtime} t, SameLayout s.runtime R' →
      (∀ x < s.runtime.tasks, (s.runtime.task x).SameOrigin (R'.task x)) →
      (∀ x, x ≠ t → R'.task x = s.runtime.task x) → (∃ r i, (s.runtime.task t).kind = .implicit r i) →
      ((R'.task t).constructs = [] ∨ ∃ k executor, (R'.task t).constructs = [.single k executor]) → R'.Flat := by
    intro R' t layout origin others kind held
    have notRoot : t ≠ 0 := by
      rintro rfl
      obtain ⟨r, i, kind⟩ := kind
      cases nested.root.1.symm.trans kind
    refine flat.keep nested lineage layout origin (.inl (by rw [others 0 notRoot.symm])) fun x _ _ => ?_
    by_cases self : x = t
    · rw [self]
      exact .inr ⟨kind, held⟩
    · rw [others x self]
      exact .inl rfl
  cases e with
  | parallelBegin t size =>
    obtain ⟨rfl, none, team⟩ := permitted
    exact flat.parallelBegin nested lineage none team
  | taskCreate t =>
    have runs := running_lt enabled
    exact flat.taskCreate nested lineage runs.1 permitted runs.2
  | implicitBegin | barrierBegin | barrierEnd | implicitEnd | taskComplete =>
    exact plain _ _ rfl ⟨rfl, rfl, rfl, rfl, rfl, rfl⟩
  | release r =>
    have kept : ∀ t, ((s.runtime.after (.release r)).task t).constructs = (s.runtime.task t).constructs := by
      intro t
      obtain ⟨_, same⟩ := release_kept (R := s.runtime) (r := r) t
      rw [same]
    exact flat.keep nested lineage ⟨rfl, rfl, fun x => (release_layout x).1, fun x => (release_layout x).2.1,
      fun x => (release_layout x).2.2⟩ grown.fixed (.inl (kept 0)) fun t _ _ => .inl (kept t)
  | parallelEnd r =>
    simp only [Runtime.enabled, Bool.and_eq_true, decide_eq_true_eq, beq_iff_eq] at enabled
    have one := flat.regions
    have zero : r = 0 := by omega
    subst zero
    have forker := (flat.forker (by omega)).1
    rw [forker] at enabled
    have waits : (s.runtime.task 0).constructs = [.parallel 0] := by
      rcases flat.root with empty | ⟨-, busy⟩
      · rw [empty] at enabled
        cases enabled.2
      · exact busy
    refine flat.keep nested lineage ⟨rfl, rfl, fun _ => rfl, fun _ => rfl, fun _ => rfl⟩ grown.fixed (.inr ?_) fun t _ other => .inl ?_
    · rw [join_task, forker, if_pos rfl]
      change (s.runtime.task 0).constructs.tail = []
      rw [waits]
      rfl
    · rw [join_task, forker, if_neg other]
  | taskwaitEnd t =>
    have kept : ∀ x, ((s.runtime.after (.taskwaitEnd t)).task x).constructs = (s.runtime.task x).constructs := by
      intro x
      simp only [Runtime.after, waitTask]
      by_cases self : x = t
      · rw [if_pos self, self]
        rfl
      · rw [if_neg self]
        split <;> rfl
    exact flat.keep nested lineage ⟨rfl, rfl, fun _ => rfl, fun _ => rfl, fun _ => rfl⟩ grown.fixed (.inl (kept 0))
      fun t _ _ => .inl (kept t)
  | workBegin t work executor =>
    simp only [Runtime.enabled, Bool.and_eq_true] at enabled
    obtain ⟨⟨running, groups⟩, inside⟩ := enabled
    have isTask := (running_lt running).1
    obtain ⟨c, -, -, -, others⟩ := workBegin_task s.runtime t work executor
    split at inside
    · rename_i r i kind
      have idle : (s.runtime.task t).constructs = [] := by
        rcases (flat.implicit t isTask r i kind).2 with empty | ⟨k, ex, busy⟩
        · exact empty
        · rw [busy] at groups
          cases groups
      have layout : SameLayout s.runtime (s.runtime.after (.workBegin t work executor)) := by
        simp only [Runtime.after, beginWork, kind]
        refine ⟨rfl, rfl, fun x => ?_, fun x => ?_, fun x => ?_⟩ <;>
          simp only [setRegion_region] <;> split <;> simp [*]
      refine single t layout grown.fixed others ⟨r, i, kind⟩ (.inr ⟨(s.runtime.task t).works, executor, ?_⟩)
      cases permitted
      simp [Runtime.after, beginWork, kind, Task.enter, idle]
    · cases inside
  | workEnd t =>
    simp only [Runtime.enabled, Bool.and_eq_true, decide_eq_true_eq] at enabled
    obtain ⟨isTask, inside⟩ := enabled
    have task : (s.runtime.after (.workEnd t)).task t = (s.runtime.task t).leave := by
      simp [Runtime.after, finishIteration_task]
    have busy : (s.runtime.task t).constructs ≠ [] := by
      intro empty
      rw [empty] at inside
      cases inside
    cases kind : (s.runtime.task t).kind with
    | initial =>
      cases nested.initial t isTask kind
      rcases flat.root with empty | ⟨-, waits⟩
      · exact absurd empty busy
      · rw [waits] at inside
        cases inside
    | explicit => exact absurd (flat.explicit t isTask kind).2.2.2 busy
    | implicit r i =>
      refine single t ?_ grown.fixed (fun x other => ?_) ⟨r, i, kind⟩ (.inl ?_)
      · have layout := SameLayout.finishIteration s.runtime t
        exact ⟨layout.tasks, layout.regions, layout.size, layout.first, layout.encountering⟩
      · simp [Runtime.after, finishIteration_task, other]
      · rw [task]
        rcases (flat.implicit t isTask r i kind).2 with empty | ⟨k, executor, held⟩
        · exact absurd empty busy
        · rw [Task.leave, held]
          rfl
  | access t =>
    have learned : (s.runtime.set t ((s.runtime.task t).learn fun a => a == s.runtime.accesses)).Flat :=
      plain _ _ rfl ⟨rfl, rfl, rfl, rfl, rfl, rfl⟩
    exact ⟨learned.regions, learned.forker, learned.root, learned.implicit, learned.explicit, learned.bodies⟩
  | _ => exact permitted.elim

end Runtime

theorem System.Reachable.flat {s : System} (reached : System.Reachable TaskStep s) : s.runtime.Flat := by
  induction reached with
  | start begun =>
    cases begun
    exact Runtime.flat_init
  | step before permitted stepped ih =>
    obtain ⟨enabled, -, runtime, -⟩ := System.step_cases stepped
    rw [runtime]
    exact ih.after before.nested before.lineage permitted enabled

end Romp
