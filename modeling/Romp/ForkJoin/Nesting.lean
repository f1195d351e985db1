import Romp.Runtime.Nesting

namespace Romp

/-- The offset that the end of a barrier gives to the segment of the task that forked the region
    stays below the width of its field. -/
def OffsetFits (s : System) (t : Nat) : Prop :=
  ∀ label r, (s.detector.data t).label = some label → label.getLastKthSegment 2 = .ok r →
    (s.detector.heap.objects r).getOffset + (s.detector.heap.objects r).getSpan < 2 ^ 16

/-- The steps of programs made of parallel regions and team barriers. -/
def ForkJoinStep (s : System) : Event → Prop
  | .parallelBegin _ size => size < 2 ^ 16
  | .barrierEnd t => OffsetFits s t
  | .implicitBegin _ | .barrierBegin .. | .release _ | .implicitEnd _ | .parallelEnd _ | .access _ => True
  | _ => False

instance (s : System) (t : Nat) : Decidable (OffsetFits s t) :=
  decidable_of_iff (∀ label ∈ (s.detector.data t).label, ∀ r ∈ (label.getLastKthSegment 2).toOption,
      (s.detector.heap.objects r).getOffset + (s.detector.heap.objects r).getSpan < 2 ^ 16) <| by
    have ok : ∀ {x : Except Abort Nat} {r : Nat}, r ∈ x.toOption ↔ x = .ok r := by
      intro x r
      cases x <;> simp [Except.toOption]
    simp only [OffsetFits, ok, Option.mem_def]
    exact ⟨fun fits label r known => fits label known r, fun fits label known r => fits label r known⟩

instance (s : System) (e : Event) : Decidable (ForkJoinStep s e) := by
  unfold ForkJoinStep
  cases e <;> infer_instance

namespace Runtime

variable (R : Runtime)

def Waits (r : Nat) : Prop := (R.task (R.region r).encountering).constructs = [.parallel r]

section After

variable {R} {r : Nat}

theorem join_kept (isOpen : R.Waits r) (x : Nat) :
    ∃ constructs known, (R.after (.parallelEnd r)).task x = { R.task x with constructs, known } ∧
      (constructs = (R.task x).constructs ∨ constructs = []) := by
  rw [join_task]
  by_cases same : x = (R.region r).encountering
  · subst same
    refine ⟨_, _, if_pos rfl, .inr ?_⟩
    change (R.task (R.region r).encountering).constructs.tail = []
    rw [isOpen]
    rfl
  · exact ⟨_, _, if_neg same, .inl rfl⟩

end After

/-- The tasks of a fork-join program: the initial task, and the members of regions forked by tasks
    that wait for them. -/
structure Forking : Prop where
  nested : R.Nested
  small : ∀ r < R.regions, (R.region r).size < 2 ^ 16
  implicit : ∀ t < R.tasks, t ≠ 0 → ∃ r i, (R.task t).kind = .implicit r i
  forked : ∀ t < R.tasks, (R.task t).constructs = [] ∨
    ∃ r < R.regions, (R.task t).constructs = [.parallel r] ∧ (R.region r).encountering = t

structure ForkCounters (t : Task) (released : Nat) : Prop where
  passed : t.passed ≤ released
  arrived : released ≤ t.arrived
  next : t.arrived ≤ t.passed + 1
  unbegun : t.begun = false → t.arrived = 0 ∧ t.closing = false
  ended : t.ended = true → t.closing = true ∧ t.arrived = t.passed
  busy : t.constructs ≠ [] → t.arrived = t.passed ∧ t.begun = true ∧ t.closing = false

namespace Forking

variable {R} (forking : R.Forking)

include forking

theorem waits_iff {r : Nat} (isRegion : r < R.regions) : R.Waits r ↔ R.IsOpen r := by
  rw [Waits, IsOpen]
  rcases forking.forked _ (forking.nested.encountering_lt isRegion) with empty | ⟨x, -, busy, -⟩
  · simp [empty]
  · simp [busy]

theorem bounds (r : Nat) (isRegion : r < R.regions) : 0 < (R.region r).size ∧ (R.region r).size < 2 ^ 16 ∧
    (R.region r).encountering < (R.region r).first ∧
    (R.region r).first + (R.region r).size ≤ R.tasks :=
  ⟨(forking.nested.bounds r isRegion).1, forking.small r isRegion, (forking.nested.bounds r isRegion).2⟩

theorem member (t : Nat) (isTask : t < R.tasks) (notRoot : t ≠ 0) :
    ∃ r < R.regions, ∃ i < (R.region r).size, t = R.memberOf r i := by
  obtain ⟨r, i, kind⟩ := forking.implicit t isTask notRoot
  obtain ⟨isRegion, isMember, same⟩ := forking.nested.member t isTask r i kind
  exact ⟨r, isRegion, i, isMember, same⟩

theorem kind (r : Nat) (isRegion : r < R.regions) (i : Nat) (isMember : i < (R.region r).size) :
    (R.task (R.memberOf r i)).kind = .implicit r i ∧
      (R.task (R.memberOf r i)).parent = (R.region r).encountering :=
  ⟨(forking.nested.kind r isRegion i isMember).1, (forking.nested.kind r isRegion i isMember).2.1⟩

theorem counters (r : Nat) (isRegion : r < R.regions) (i : Nat) (isMember : i < (R.region r).size) :
    ForkCounters (R.task (R.memberOf r i)) (R.region r).released := by
  have counters := forking.nested.counters r isRegion i isMember
  refine ⟨counters.passed, counters.arrived, counters.next,
    fun unbegun => ⟨(counters.unbegun unbegun).1, (counters.unbegun unbegun).2.1⟩, counters.ended, ?_⟩
  intro some
  apply counters.busy
  rcases forking.forked _ (forking.nested.member_lt isRegion isMember) with empty | ⟨x, -, busy, -⟩
  · exact absurd empty some
  · rw [busy]
    rfl

theorem together (r : Nat) (isRegion : r < R.regions) (i : Nat) (isMember : i < (R.region r).size) (j : Nat)
    (isMember' : j < (R.region r).size) (closing : (R.task (R.memberOf r i)).closing = true)
    (arrived : (R.task (R.memberOf r i)).arrived = (R.region r).released) :
    (R.task (R.memberOf r j)).closing = true ∧ (R.task (R.memberOf r j)).arrived = (R.region r).released :=
  forking.nested.together r isRegion i isMember j isMember' closing arrived

theorem joined (r : Nat) (isRegion : r < R.regions) (closed : ¬ R.Waits r) (i : Nat)
    (isMember : i < (R.region r).size) : (R.task (R.memberOf r i)).ended = true :=
  forking.nested.joined r isRegion (fun isOpen => closed ((forking.waits_iff isRegion).mpr isOpen)) i isMember

theorem team_eq (r : Nat) : R.team r = (R.region r).members := by
  have none : R.explicitTasks r = [] := by
    rw [List.eq_nil_iff_forall_not_mem]
    intro t inside
    rw [mem_explicitTasks] at inside
    have notRoot : t ≠ 0 := by
      rintro rfl
      rw [forking.nested.root.1] at inside
      cases inside.2.1
    obtain ⟨x, i, implicit⟩ := forking.implicit t inside.1 notRoot
    rw [implicit] at inside
    cases inside.2.1
  rw [team, none, List.append_nil]

theorem running_idle {t : Nat} (isTask : t < R.tasks) (runs : (R.task t).running = true) :
    (R.task t).constructs = [] := by
  rcases forking.forked t isTask with idle | ⟨r, -, busy, -⟩
  · exact idle
  · have waits := (Task.running_iff.mp runs).2.2.2.2 _ _ busy
    cases waits

theorem keep {R' : Runtime} (nested : R'.Nested) (layout : SameLayout R R')
    (origin : ∀ t < R.tasks, (R.task t).SameOrigin (R'.task t))
    (constructs : ∀ t < R.tasks, (R'.task t).constructs = (R.task t).constructs ∨ (R'.task t).constructs = []) :
    R'.Forking := by
  refine ⟨nested, ?_, ?_, ?_⟩
  · intro r isRegion
    rw [layout.regions] at isRegion
    rw [layout.size]
    exact forking.small r isRegion
  · intro t isTask notRoot
    rw [layout.tasks] at isTask
    rw [(origin t isTask).kind]
    exact forking.implicit t isTask notRoot
  · intro t isTask
    rw [layout.tasks] at isTask
    rcases constructs t isTask with same | empty
    · rw [same, layout.regions]
      simp only [layout.encountering]
      exact forking.forked t isTask
    · exact .inl empty

theorem parallelBegin {t size : Nat} (isTask : t < R.tasks) (runs : (R.task t).running = true)
    (positive : 0 < size) (small : size < 2 ^ 16) : (R.after (.parallelBegin t size)).Forking := by
  have idle := forking.running_idle isTask runs
  have cases : ∀ r < R.regions + 1, r < R.regions ∨ r = R.regions := by omega
  have new : ∀ x, ¬ x < R.tasks → x < R.tasks + size → (R.after (.parallelBegin t size)).task x =
      Task.new (.implicit R.regions (x - R.tasks)) t ((R.task t).strands t) R.accesses (some R.regions) []
        false (R.task t).known := by
    intro x notOld bound
    have made := fork_member (R := R) (t := t) (show x - R.tasks < size by omega)
    rwa [show R.tasks + (x - R.tasks) = x by omega] at made
  refine ⟨forking.nested.parallelBegin isTask runs positive, ?_, ?_, ?_⟩
  · intro r isRegion
    rcases cases r isRegion with before | rfl
    · rw [fork_region_old before]
      exact forking.small r before
    · rw [fork_region, if_pos rfl]
      exact small
  · intro x bound notRoot
    by_cases before : x < R.tasks
    · obtain ⟨_, same⟩ := fork_kept t size before
      rw [same]
      exact forking.implicit x before notRoot
    · rw [new x before bound]
      exact ⟨_, _, rfl⟩
  · intro x bound
    by_cases before : x < R.tasks
    · rw [fork_task before]
      by_cases self : x = t
      · refine .inr ⟨R.regions, Nat.lt_succ_self _, ?_, ?_⟩
        · rw [if_pos self, Task.enter, idle]
        · rw [fork_region, if_pos rfl, newRegion, self]
      · rw [if_neg self]
        rcases forking.forked x before with empty | ⟨r, isRegion, busy, forker⟩
        · exact .inl empty
        · exact .inr ⟨r, Nat.lt_succ_of_lt isRegion, busy, by rwa [fork_region_old isRegion]⟩
    · rw [new x before bound]
      exact .inl rfl

end Forking

theorem forking_init : init.Forking where
  nested := nested_init
  small := fun _ none => absurd none (Nat.not_lt_zero _)
  implicit := fun _ bound other => absurd (Nat.lt_one_iff.mp bound) other
  forked := fun _ _ => .inl rfl

/-- Every step of a fork-join program keeps it one. -/
theorem Forking.after {s : System} (forking : s.runtime.Forking) {e : Event} (permitted : ForkJoinStep s e)
    (enabled : s.runtime.enabled e = true) : (s.runtime.after e).Forking := by
  have nested := forking.nested.after enabled
  have grown := after_extends s.runtime e
  have layout : ∀ x task, SameLayout s.runtime (s.runtime.set x task) :=
    fun _ _ => ⟨rfl, rfl, fun _ => rfl, fun _ => rfl, fun _ => rfl⟩
  have constructs : ∀ x task, task.constructs = (s.runtime.task x).constructs → ∀ t < s.runtime.tasks,
      ((s.runtime.set x task).task t).constructs = (s.runtime.task t).constructs ∨
        ((s.runtime.set x task).task t).constructs = [] := by
    intro x task same t _
    rw [set_task]
    by_cases self : t = x
    · exact .inl (by rw [if_pos self, self, same])
    · exact .inl (by rw [if_neg self])
  cases e with
  | parallelBegin t size =>
    simp only [Runtime.enabled, Bool.and_eq_true, decide_eq_true_eq] at enabled
    have runs := running_lt enabled.1
    exact forking.parallelBegin runs.1 runs.2 enabled.2 permitted
  | implicitBegin | barrierBegin | barrierEnd | implicitEnd =>
    exact forking.keep nested (layout _ _) grown.fixed (constructs _ _ rfl)
  | release r =>
    refine forking.keep nested ⟨rfl, rfl, fun x => (release_layout x).1, fun x => (release_layout x).2.1,
      fun x => (release_layout x).2.2⟩ grown.fixed fun t _ => ?_
    obtain ⟨_, same⟩ := release_kept (R := s.runtime) (r := r) t
    exact .inl (by rw [same])
  | parallelEnd r =>
    simp only [Runtime.enabled, Bool.and_eq_true, decide_eq_true_eq, beq_iff_eq] at enabled
    refine forking.keep nested (layout _ _) grown.fixed fun t _ => ?_
    obtain ⟨_, _, same, kept⟩ := join_kept ((forking.waits_iff enabled.1.1).mpr enabled.2) t
    rw [same]
    exact kept
  | access t =>
    exact forking.keep nested ⟨rfl, rfl, fun _ => rfl, fun _ => rfl, fun _ => rfl⟩ grown.fixed
      (constructs t ((s.runtime.task t).learn fun a => a == s.runtime.accesses) rfl)
  | _ => exact permitted.elim

end Runtime

end Romp
