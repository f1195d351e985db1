import Romp.Tasking.Knowledge

namespace Romp

def System.Spread (s : System) (a : Nat) : Prop :=
  (∀ i < (s.runtime.region 0).size, (s.runtime.task (s.runtime.memberOf 0 i)).known a = true) ∧
    ∀ t < s.runtime.tasks, (s.runtime.task t).kind = .explicit → (s.runtime.task t).ended = false →
      (s.runtime.task t).known a = true

def System.Current (s : System) (z : Contents) (label : Label) : Prop :=
  ∃ x rest, label = x :: rest ∧ s.detector.plain x = z.bump (s.runtime.region 0).released

/-- How far an access has spread: to all who may go on, or the label of it shows that no barrier has come since. -/
structure Phased (s : System) (z : Contents) : Prop where
  births : ∀ c < s.runtime.tasks, (s.runtime.task c).kind = .explicit → (s.runtime.task c).ended = false →
    s.Current z (s.runtime.birth s.detector c)
  entries : ∀ a entry, s.log[a]? = some entry → entry.task ≠ 0 →
    s.Spread a ∨ ¬s.runtime.Closed 0 ∧ s.Current z entry.label
  root : ∀ a entry, s.log[a]? = some entry → entry.task = 0 → ∀ t < s.runtime.tasks, (s.runtime.task t).ended = false →
    (s.runtime.task t).known a = true
  joined : (s.runtime.task 0).constructs = [] → ∀ a entry, s.log[a]? = some entry → (s.runtime.task 0).known a = true

namespace Tasked

variable {s s' : System} {owner : Nat → Strand} {fork : Nat → Contents} {below : Strand → Contents}
  (tasked : Tasked s owner fork below)

include tasked

theorem has_region {t : Nat} (isTask : t < s.runtime.tasks) (notRoot : t ≠ 0) : s.runtime.regions = 1 := by
  cases kind : (s.runtime.task t).kind with
  | initial => exact absurd (tasked.nested.initial t isTask kind) notRoot
  | explicit => exact (tasked.flat.explicit t isTask kind).1
  | implicit r i =>
    have isRegion := (tasked.nested.member t isTask r i kind).1
    have one := tasked.flat.regions
    omega

theorem member_or_explicit {t : Nat} (isTask : t < s.runtime.tasks) (notRoot : t ≠ 0) :
    (∃ i < (s.runtime.region 0).size, t = s.runtime.memberOf 0 i) ∨ (s.runtime.task t).kind = .explicit := by
  cases kind : (s.runtime.task t).kind with
  | initial => exact absurd (tasked.nested.initial t isTask kind) notRoot
  | explicit => exact .inr rfl
  | implicit r i =>
    obtain ⟨isRegion, isMember, self⟩ := tasked.nested.member t isTask r i kind
    have one := tasked.flat.regions
    obtain rfl : r = 0 := by omega
    exact .inl ⟨i, isMember, self⟩

theorem closed_of_ended {i : Nat} (isRegion : s.runtime.regions = 1) (isMember : i < (s.runtime.region 0).size)
    (ended : (s.runtime.task (s.runtime.memberOf 0 i)).ended = true) : s.runtime.Closed 0 := by
  by_contra unclosed
  cases ended.symm.trans (tasked.nested.member_live (by omega) isMember unclosed)

theorem explicit_ended {t : Nat} (isTask : t < s.runtime.tasks) (kind : (s.runtime.task t).kind = .explicit)
    (closed : s.runtime.Closed 0) : (s.runtime.task t).ended = true := by
  obtain ⟨one, region, -⟩ := tasked.flat.explicit t isTask kind
  exact tasked.closing.explicit 0 (by omega) closed t isTask kind region

theorem alone (idle : (s.runtime.task 0).constructs = []) {t : Nat} (isTask : t < s.runtime.tasks)
    (live : (s.runtime.task t).ended = false) : t = 0 := by
  by_contra notRoot
  have one := tasked.has_region isTask notRoot
  have notOpen : ¬s.runtime.IsOpen 0 := by
    rw [Runtime.IsOpen, (tasked.flat.forker one).1, idle]
    simp
  have ended := tasked.nested.joined 0 (by omega) notOpen
  rcases tasked.member_or_explicit isTask notRoot with ⟨i, isMember, rfl⟩ | kind
  · cases (ended i isMember).symm.trans live
  · have first := (tasked.nested.bounds 0 (by omega)).1
    cases (tasked.explicit_ended isTask kind (tasked.closed_of_ended one first (ended 0 first))).symm.trans live

theorem unclosed {t : Nat} (running : s.runtime.running t = true) (notRoot : t ≠ 0) : ¬s.runtime.Closed 0 := by
  obtain ⟨isTask, runs⟩ := Runtime.running_lt running
  obtain ⟨-, live, -, staying, -⟩ := Task.running_iff.mp runs
  have one := tasked.has_region isTask notRoot
  rcases tasked.member_or_explicit isTask notRoot with ⟨i, isMember, rfl⟩ | kind
  · exact tasked.nested.live_unclosed tasked.lineage tasked.closing (by omega) isMember isTask live staying (.inl rfl)
  · intro closed
    cases (tasked.explicit_ended isTask kind closed).symm.trans live

/-- A task that executes code has a label whose first segment has counted all barriers. -/
theorem current (phased : Phased s (fork 0)) {t : Nat} (running : s.runtime.running t = true) (notRoot : t ≠ 0)
    {label : Label} (known : s.detector.label t = some label) : s.Current (fork 0) label := by
  obtain ⟨isTask, runs⟩ := Runtime.running_lt running
  obtain ⟨begun, live, -⟩ := Task.running_iff.mp runs
  have one := tasked.has_region isTask notRoot
  have isRegion : 0 < s.runtime.regions := by omega
  rcases tasked.member_or_explicit isTask notRoot with ⟨i, isMember, rfl⟩ | kind
  · have first := (tasked.nested.bounds 0 isRegion).1
    have firstLive := tasked.nested.member_live isRegion first (tasked.unclosed running notRoot)
    obtain ⟨init, x, root, -, members⟩ :=
      tasked.origins.forked 0 isRegion (tasked.nested.live_open isRegion isMember live) firstLive
    obtain ⟨y, rest, known', plain⟩ := members i isMember begun
    rw [(tasked.flat.forker one).1] at root
    obtain ⟨x', root', -⟩ := tasked.placed.lined.root_label tasked.nested tasked.lineage tasked.flat
    rw [root', Option.some.injEq] at root
    obtain ⟨rfl, -⟩ := List.append_inj' (show [] ++ [x'] = init ++ [x] from root) rfl
    rw [known, Option.some.injEq] at known'
    exact ⟨y, rest, known', by rw [plain, tasked.nested.running_settled isRegion isMember runs]⟩
  · obtain ⟨x, rest, birth, plain⟩ := phased.births t isTask kind live
    have begins : s.runtime.birth s.detector t <+: label := by
      rw [Runtime.birth, known]
      exact List.take_prefix ..
    obtain ⟨more, same⟩ := begins
    exact ⟨x, rest ++ more, by rw [← same, birth]; rfl, plain⟩

theorem joins {e : Event} (permitted : TaskStep s e) (enabled : s.runtime.enabled e = true)
    (waits : (s.runtime.task 0).constructs ≠ []) (idle : ((s.runtime.after e).task 0).constructs = []) :
    e = .parallelEnd 0 ∧ s.runtime.regions = 1 := by
  obtain ⟨one, busy⟩ := tasked.flat.root.resolve_left waits
  cases e with
  | parallelBegin t size =>
    have none := permitted.2.1
    omega
  | implicitBegin | barrierBegin | barrierEnd | implicitEnd | taskComplete =>
    simp only [Runtime.after, Runtime.set_task] at idle
    split at idle
    · rename_i self
      rw [← self] at idle
      exact absurd idle waits
    · exact absurd idle waits
  | access t =>
    obtain ⟨known, kept⟩ := Runtime.access_kept (R := s.runtime) t 0
    rw [kept] at idle
    exact absurd idle waits
  | release r =>
    obtain ⟨known, kept⟩ := Runtime.release_kept (R := s.runtime) (r := r) 0
    rw [kept] at idle
    exact absurd idle waits
  | parallelEnd r =>
    simp only [Runtime.enabled, Bool.and_eq_true, decide_eq_true_eq] at enabled
    obtain rfl : r = 0 := by omega
    exact ⟨rfl, one⟩
  | taskCreate t =>
    rw [Runtime.after] at idle
    simp only [Runtime.set_task, if_neg (Nat.ne_of_lt tasked.nested.positive)] at idle
    exact absurd idle waits
  | taskwaitEnd t =>
    have kept : ((s.runtime.waitTask t) 0).constructs = (s.runtime.task 0).constructs := by
      unfold Runtime.waitTask
      split
      · rename_i self
        rw [self]
        rfl
      · split <;> rfl
    exact absurd (kept.symm.trans idle) waits
  | workBegin t work executor =>
    have member : 0 ≠ t := by
      intro self
      rw [← self] at enabled
      simp [Runtime.enabled, tasked.nested.root.1] at enabled
    obtain ⟨c, -, -, -, others⟩ := Runtime.workBegin_task s.runtime t work executor
    rw [others 0 member] at idle
    exact absurd idle waits
  | workEnd t =>
    simp only [Runtime.enabled, Bool.and_eq_true, decide_eq_true_eq] at enabled
    by_cases self : 0 = t
    · rw [← self, busy] at enabled
      cases enabled.2
    · have kept : (s.runtime.after (.workEnd t)).task 0 = s.runtime.task 0 := by
        simp [Runtime.after, Runtime.finishIteration_task, self]
      rw [kept] at idle
      exact absurd idle waits
  | _ => exact permitted.elim

end Tasked

namespace Phased

variable {s s' : System} {owner owner' : Nat → Strand} {fork fork' : Nat → Contents}
  {below : Strand → Contents} {e : Event} (phased : Phased s (fork 0)) (tasked : Tasked s owner fork below)
  (knowing : Knowing s) (permitted : TaskStep s e) (stepped : s.step e = some s')
  (adv : Advance s.runtime s.detector s'.detector owner owner' e) (kept : s.runtime.regions = 1 → fork' 0 = fork 0)

include tasked permitted stepped

theorem spread_after {a : Nat} (one : s.runtime.regions = 1) (spread : s.Spread a) : s'.Spread a := by
  obtain ⟨enabled, -, runtime, -⟩ := System.step_cases stepped
  have fixed := (Runtime.after_extends s.runtime e).fixed
  have isRegion : 0 < s.runtime.regions := by omega
  refine ⟨fun i isMember => ?_, fun t isTask kind live => ?_⟩
  · rw [runtime] at isMember ⊢
    rw [(Runtime.region_after isRegion).size] at isMember
    rw [Runtime.after_memberOf isRegion]
    exact Runtime.known_lasts enabled (tasked.nested.member_lt isRegion isMember) (spread.1 i isMember)
  · rw [runtime] at isTask kind live ⊢
    rcases Runtime.explicit_after (tasked.nested.after enabled) enabled isTask kind with old | ⟨u, rfl, rfl⟩
    · rw [(fixed t old).kind] at kind
      refine Runtime.known_lasts enabled old (spread.2 t old kind ?_)
      rw [← Bool.not_eq_true]
      intro ended
      cases (Runtime.ended_lasts old ended).symm.trans live
    · obtain ⟨v, running, parent, -, -, known⟩ := Runtime.new_origin enabled (lt_irrefl _) isTask
      rw [known]
      obtain ⟨isActor, runs⟩ := Runtime.running_lt running
      have notRoot : v ≠ 0 := by
        rw [← parent]
        simp only [Runtime.after, Task.new]
        simpa using show u ≠ 0 from permitted
      rcases tasked.member_or_explicit isActor notRoot with ⟨i, isMember, rfl⟩ | kind'
      · exact spread.1 i isMember
      · exact spread.2 v isActor kind' (Task.running_iff.mp runs).2.1

include phased

omit permitted in
theorem root_field : ∀ a entry, s'.log[a]? = some entry → entry.task = 0 → ∀ t < s'.runtime.tasks,
    (s'.runtime.task t).ended = false → (s'.runtime.task t).known a = true := by
  obtain ⟨enabled, -, runtime, -⟩ := System.step_cases stepped
  intro a entry found root t isTask live
  have before : t < s.runtime.tasks → (s.runtime.task t).ended = false := by
    intro old
    rw [← Bool.not_eq_true]
    intro ended
    rw [runtime, Runtime.ended_lasts old ended] at live
    cases live
  rcases System.found_cases tasked.placed.logged stepped found with old | ⟨rfl, running, rfl, -, -⟩
  · rw [runtime] at isTask ⊢
    by_cases isOld : t < s.runtime.tasks
    · exact Runtime.known_lasts enabled isOld (phased.root a entry old root t isOld (before isOld))
    · obtain ⟨u, running, -, -, -, known⟩ := Runtime.new_origin enabled isOld isTask
      obtain ⟨isActor, runs⟩ := Runtime.running_lt running
      rw [known]
      exact phased.root a entry old root u isActor (Task.running_iff.mp runs).2.1
  · -- no other task goes on while the initial one does
    rw [root] at running
    obtain ⟨-, runs⟩ := Runtime.running_lt running
    have idle : (s.runtime.task 0).constructs = [] := by
      apply tasked.flat.root.resolve_right
      rintro ⟨-, waits⟩
      cases (Task.running_iff.mp runs).2.2.2.2 _ _ waits
    have isOld : t < s.runtime.tasks := by
      rw [runtime] at isTask
      exact isTask
    obtain rfl := tasked.alone idle isOld (before isOld)
    rw [runtime, root]
    simp [Runtime.after, Task.learn]

theorem joined_field : (s'.runtime.task 0).constructs = [] → ∀ a entry, s'.log[a]? = some entry →
    (s'.runtime.task 0).known a = true := by
  obtain ⟨enabled, -, runtime, -⟩ := System.step_cases stepped
  intro idle a entry found
  by_cases waits : (s.runtime.task 0).constructs = []
  · rcases System.found_cases tasked.placed.logged stepped found with old | ⟨rfl, running, rfl, -, -⟩
    · rw [runtime]
      exact Runtime.known_lasts enabled tasked.nested.positive (phased.joined waits a entry old)
    · obtain ⟨isActor, runs⟩ := Runtime.running_lt running
      have self := tasked.alone waits isActor (Task.running_iff.mp runs).2.1
      rw [runtime, self]
      simp [Runtime.after, Task.learn]
  · rw [runtime] at idle
    obtain ⟨rfl, one⟩ := tasked.joins permitted enabled waits idle
    rcases System.found_cases tasked.placed.logged stepped found with old | ⟨none, -⟩
    · have rules := enabled
      simp only [Runtime.enabled, Bool.and_eq_true, Runtime.allEnded_iff] at rules
      have forker := (tasked.flat.forker one).1
      have first := (tasked.nested.bounds 0 (by omega)).1
      have member : s.runtime.memberOf 0 0 ∈ (s.runtime.region 0).members := Region.mem_members.mpr ⟨0, first, rfl⟩
      by_cases root : entry.task = 0
      · rw [runtime]
        exact Runtime.known_lasts enabled tasked.nested.positive
          (phased.root a entry old root 0 tasked.nested.positive tasked.nested.root.2.2.2.1)
      · have closed := tasked.closed_of_ended one first (rules.1.2 _ member)
        have spread := (phased.entries a entry old root).resolve_right fun current => current.1 closed
        rw [runtime, Runtime.join_task, if_pos forker.symm, Task.learn_known, Bool.or_eq_true]
        exact .inr (s.runtime.gather_iff.mpr ⟨_, member, spread.1 0 first⟩)
    · cases none

include adv

omit phased tasked permitted in
theorem current_after {z : Contents} {label : Label} (one : s.runtime.regions = 1) (holds : s.detector.heap.Holds label)
    (current : s.Current z label) : s'.Current z label ∨ e = .release 0 := by
  obtain ⟨-, -, runtime, -⟩ := System.step_cases stepped
  obtain ⟨x, rest, rfl, plain⟩ := current
  rcases (Runtime.region_after (R := s.runtime) (e := e) (show 0 < s.runtime.regions by omega)).released with same | ⟨rfl, -⟩
  · exact .inl ⟨x, rest, rfl, by rw [adv.plain (holds x List.mem_cons_self), plain, runtime, same]⟩
  · exact .inr rfl

include kept

theorem births_field : ∀ c < s'.runtime.tasks, (s'.runtime.task c).kind = .explicit → (s'.runtime.task c).ended = false →
    s'.Current (fork' 0) (s'.runtime.birth s'.detector c) := by
  obtain ⟨enabled, -, runtime, -⟩ := System.step_cases stepped
  have fixed := (Runtime.after_extends s.runtime e).fixed
  intro c isTask kind live
  rw [runtime] at isTask kind live ⊢
  rcases Runtime.explicit_after adv.nested' enabled isTask kind with old | ⟨t, rfl, rfl⟩
  · rw [(fixed c old).kind] at kind
    obtain ⟨one, region, -⟩ := tasked.flat.explicit c old kind
    have before : (s.runtime.task c).ended = false := by
      rw [← Bool.not_eq_true]
      intro ended
      cases (Runtime.ended_lasts old ended).symm.trans live
    rw [adv.births c old kind, kept one]
    refine (current_after stepped adv one (fun r inside => ?_) (phased.births c old kind before)).resolve_right ?_
    · exact adv.birth_held old (tasked.nested.explicit c old kind).2.1 r inside
    · rintro rfl
      simp only [Runtime.enabled, Bool.and_eq_true, Runtime.allEnded_iff] at enabled
      cases (enabled.2 c ((s.runtime.mem_explicitTasks 0).mpr ⟨old, kind, region⟩)).symm.trans before
  · have turn := adv.taskTurn tasked.flat permitted
    generalize same : Event.taskCreate t = e at turn
    cases turn with
    | still _ _ _ plain => exact absurd same.symm (plain.2.1 t)
    | @create _ init r _ _ running known _ _ _ made =>
      cases same
      obtain ⟨isActor, runs⟩ := Runtime.running_lt running
      obtain ⟨begun, live, -⟩ := Task.running_iff.mp runs
      have one := tasked.has_region isActor permitted
      rw [(adv.birth_new rfl isActor begun live known made).1, kept one]
      refine (current_after stepped adv one (adv.held isActor begun known)
        (tasked.current phased running permitted known)).resolve_right (by simp)
    | _ => cases same

include knowing

theorem entries_field : ∀ a entry, s'.log[a]? = some entry → entry.task ≠ 0 →
    s'.Spread a ∨ ¬s'.runtime.Closed 0 ∧ s'.Current (fork' 0) entry.label := by
  obtain ⟨enabled, -, runtime, -⟩ := System.step_cases stepped
  have logged := tasked.placed.logged
  intro a entry found notRoot
  have opens : s.runtime.regions = 1 → ¬s.runtime.Closed 0 → ¬s'.runtime.Closed 0 ∨ e = .release 0 := by
    intro one unclosed
    refine or_iff_not_imp_left.mpr fun closed => ?_
    rw [Classical.not_not, runtime] at closed
    exact ((tasked.nested.closed_after (by omega) enabled closed).resolve_left unclosed).1
  rcases System.found_cases logged stepped found with old | ⟨rfl, running, rfl, known, -⟩
  · have inside := List.mem_of_getElem? old
    have isTask := (logged.task _ inside).1
    have one := tasked.has_region isTask notRoot
    have isRegion : 0 < s.runtime.regions := by omega
    by_cases releases : e = .release 0
    · subst releases
      refine .inl ⟨fun i isMember => ?_, fun t isOld kind live => ?_⟩
      · rw [runtime] at isMember ⊢
        rw [(Runtime.region_after isRegion).size] at isMember
        have member : s.runtime.memberOf 0 i ∈ (s.runtime.region 0).members := Region.mem_members.mpr ⟨i, isMember, rfl⟩
        rw [Runtime.after_memberOf isRegion, Runtime.release_task, if_pos member]
        refine s.runtime.gather_iff.mpr ⟨entry.task, ?_, knowing.own a entry old⟩
        rcases tasked.member_or_explicit isTask notRoot with ⟨j, isMember', self⟩ | kind
        · rw [self]
          exact List.mem_append_left _ (Region.mem_members.mpr ⟨j, isMember', rfl⟩)
        · exact List.mem_append_right _
            ((s.runtime.mem_explicitTasks 0).mpr ⟨isTask, kind, (tasked.flat.explicit _ isTask kind).2.1⟩)
      · rw [runtime] at isOld kind live
        have isTask' : t < s.runtime.tasks := isOld
        have fixed := (Runtime.after_extends s.runtime (.release 0)).fixed t isTask'
        rw [fixed.kind] at kind
        simp only [Runtime.enabled, Bool.and_eq_true, Runtime.allEnded_iff] at enabled
        have ended := enabled.2 t
          ((s.runtime.mem_explicitTasks 0).mpr ⟨isTask', kind, (tasked.flat.explicit t isTask' kind).2.1⟩)
        cases (Runtime.ended_lasts isTask' ended).symm.trans live
    · rcases phased.entries a entry old notRoot with spread | ⟨unclosed, current⟩
      · exact .inl (spread_after tasked permitted stepped one spread)
      · rw [kept one]
        exact .inr ⟨(opens one unclosed).resolve_right releases,
          (current_after stepped adv one (logged.entry entry inside).1 current).resolve_right releases⟩
  · have one := tasked.has_region (Runtime.running_lt running).1 notRoot
    obtain ⟨isActor, runs⟩ := Runtime.running_lt running
    rw [kept one]
    exact .inr ⟨(opens one (tasked.unclosed running notRoot)).resolve_right (by simp),
      (current_after stepped adv one (adv.held isActor (Task.running_iff.mp runs).1 known)
        (tasked.current phased running notRoot known)).resolve_right (by simp)⟩

theorem step : Phased s' (fork' 0) where
  births := births_field phased tasked permitted stepped adv kept
  entries := entries_field phased tasked knowing permitted stepped adv kept
  root := root_field phased tasked stepped
  joined := joined_field phased tasked permitted stepped

end Phased

end Romp
