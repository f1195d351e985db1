import Romp.Runtime.Labels
import Romp.Runtime.Lives

namespace Romp

namespace Runtime

variable (R : Runtime)

/-- The members have met the last barrier of the region, and it has let them go. -/
def Closed (r : Nat) : Prop :=
  (R.task (R.memberOf r 0)).closing = true ∧ (R.task (R.memberOf r 0)).arrived = (R.region r).released

/-- How a region ends: its explicit tasks are done when the last barrier lets the members go, and the first
    member is the last to end. -/
structure Closing : Prop where
  root : (R.task 0).region = none
  line : ∀ r < R.regions, ∀ i < (R.region r).size, (R.task (R.memberOf r i)).line = (R.task (R.memberOf r 0)).line
  last : ∀ r < R.regions, (R.task (R.memberOf r 0)).ended = true →
    ∀ i < (R.region r).size, (R.task (R.memberOf r i)).ended = true
  explicit : ∀ r < R.regions, R.Closed r → ∀ t < R.tasks, (R.task t).kind = .explicit → (R.task t).region = some r →
    (R.task t).ended = true

variable {R} {e : Event}

theorem ended_lasts {x : Nat} (isTask : x < R.tasks) (ended : (R.task x).ended = true) :
    ((R.after e).task x).ended = true := by
  by_cases plain : e.Bounds
  · cases e with
    | implicitBegin t | implicitEnd t | taskComplete t =>
      by_cases self : x = t
      · subst self
        simp [after, ended]
      · simp [after, self, ended]
    | _ => cases plain
  · rw [(lives_after plain).ended x isTask, ended]

theorem ended_by {x : Nat} (isTask : x < R.tasks) (live : (R.task x).ended = false)
    (ended : ((R.after e).task x).ended = true) : e = .implicitEnd x ∨ e = .taskComplete x := by
  by_cases plain : e.Bounds
  · cases e with
    | implicitBegin t =>
      have same : ((R.after (.implicitBegin t)).task x).ended = (R.task x).ended := by
        by_cases self : x = t <;> simp [after, self]
      cases (same.symm.trans ended).symm.trans live
    | implicitEnd t | taskComplete t =>
      by_cases self : x = t
      · simp [self]
      · simp only [after, set_task, if_neg self, live] at ended
        cases ended
    | _ => cases plain
  · rw [(lives_after plain).ended x isTask, live] at ended
    cases ended

theorem begun_lasts {x : Nat} (isTask : x < R.tasks) (begun : (R.task x).begun = true) :
    ((R.after e).task x).begun = true := by
  by_cases plain : e.Bounds
  · cases e with
    | implicitBegin t | implicitEnd t | taskComplete t =>
      by_cases self : x = t
      · subst self
        simp [after, begun]
      · simp [after, self, begun]
    | _ => cases plain
  · rw [(lives_after plain).begun x isTask, begun]

theorem after_memberOf {r : Nat} (isRegion : r < R.regions) (i : Nat) : (R.after e).memberOf r i = R.memberOf r i := by
  rw [memberOf, (region_after isRegion).first, memberOf]

theorem regions_after (r : Nat) (isRegion : r < (R.after e).regions) :
    r < R.regions ∨ ∃ t size, e = .parallelBegin t size ∧ r = R.regions := by
  by_cases creates : e.Creates
  · cases e with
    | parallelBegin t size =>
      have bound : r < R.regions + 1 := isRegion
      rcases Nat.lt_succ_iff_lt_or_eq.mp bound with old | new
      · exact .inl old
      · exact .inr ⟨t, size, rfl, new⟩
    | implicitBegin | taskCreate | dependences => exact .inl isRegion
    | _ => cases creates
  · rw [(after_counts creates).2] at isRegion
    exact .inl isRegion

theorem regions_le (R : Runtime) (e : Event) : R.regions ≤ (R.after e).regions := by
  by_cases creates : e.Creates
  · cases e with
    | parallelBegin => exact Nat.le_succ _
    | implicitBegin | taskCreate | dependences => exact le_refl _
    | _ => cases creates
  · exact (after_counts creates).2.ge

theorem explicit_after {t : Nat} (nested' : (R.after e).Nested) (enabled : R.enabled e = true)
    (isTask : t < (R.after e).tasks) (kind : ((R.after e).task t).kind = .explicit) :
    t < R.tasks ∨ ∃ p, e = .taskCreate p ∧ t = R.tasks := by
  rcases (created_after enabled).mp ⟨isTask, (nested'.explicit t isTask kind).2.1⟩ with old | rfl | creates
  · exact .inl old.1
  · simp only [Runtime.enabled, Bool.and_eq_true, decide_eq_true_eq] at enabled
    exact .inl enabled.1
  · exact .inr creates

namespace Nested

variable (nested : R.Nested)

include nested

theorem closed_idle {r t : Nat} (closing : R.Closing) (isRegion : r < R.regions) (closed : R.Closed r)
    (isTask : t < R.tasks) (region : (R.task t).region = some r) :
    (R.task t).ended = true ∨ (R.task t).closing = true := by
  cases kind : (R.task t).kind with
  | initial =>
    rw [nested.initial t isTask kind, closing.root] at region
    cases region
  | explicit => exact .inl (closing.explicit r isRegion closed t isTask kind region)
  | implicit ρ i =>
    obtain ⟨isRegion', isMember, rfl⟩ := nested.member t isTask ρ i kind
    rw [(nested.kind ρ isRegion' i isMember).2.2] at region
    cases region
    have first := nested.together r isRegion 0 (nested.bounds r isRegion).1 i isMember closed.1 closed.2
    exact .inr first.1

/-- A region closes when a barrier is released. -/
theorem closed_after {r : Nat} (isRegion : r < R.regions) (enabled : R.enabled e = true)
    (closed : (R.after e).Closed r) : R.Closed r ∨ e = .release r ∧
      ((R.after e).region r).released = (R.region r).released + 1 := by
  have first := nested.member_lt isRegion (nested.bounds r isRegion).1
  rw [Closed, after_memberOf isRegion] at closed
  rcases (region_after (e := e) isRegion).released with released | released
  · rw [released] at closed
    cases barriers_after (e := e) first with
    | same arrived passed closes | leaves arrived passed closes =>
      rw [arrived, closes] at closed
      exact .inl closed
    | comes arrived passed closes =>
      rw [arrived] at closed
      simp only [Runtime.enabled, Bool.and_eq_true] at enabled
      have settled := nested.running_settled isRegion (nested.bounds r isRegion).1 (running_lt enabled.1.1.1).2
      have equal := (Task.running_iff.mp (running_lt enabled.1.1.1).2).2.2.1
      omega
  · exact .inr released

theorem closing_after (closing : R.Closing) (nested' : (R.after e).Nested) (enabled : R.enabled e = true) :
    (R.after e).Closing := by
  have fixed := (after_extends R e).fixed
  refine ⟨?_, fun r isRegion i isMember => ?_, fun r isRegion ended i isMember => ?_,
    fun r isRegion closed t isTask kind region => ?_⟩
  · rw [(fixed 0 nested.positive).region]
    exact closing.root
  · rcases regions_after r isRegion with old | ⟨t, size, rfl, rfl⟩
    · rw [(region_after old).size] at isMember
      rw [after_memberOf old, after_memberOf old, (fixed _ (nested.member_lt old isMember)).line,
        (fixed _ (nested.member_lt old (nested.bounds r old).1)).line]
      exact closing.line r old i isMember
    · have bound : i < size := by
        rw [fork_region, if_pos rfl] at isMember
        exact isMember
      rw [fork_memberOf_new, fork_memberOf_new, fork_member bound, fork_member (Nat.zero_lt_of_lt bound)]
      rfl
  · rcases regions_after r isRegion with old | ⟨t, size, rfl, rfl⟩
    · rw [after_memberOf old] at ended ⊢
      rw [(region_after old).size] at isMember
      have isTask := nested.member_lt old isMember
      have first := nested.member_lt old (nested.bounds r old).1
      by_cases before : (R.task (R.memberOf r 0)).ended = true
      · exact ended_lasts isTask (closing.last r old before i isMember)
      · have ends : e = .implicitEnd (R.memberOf r 0) := by
          apply (ended_by first (by simpa using before) ended).resolve_right
          rintro rfl
          simp only [Runtime.enabled, Bool.and_eq_true, decide_eq_true_eq] at enabled
          cases ((nested.kind r old 0 (nested.bounds r old).1).1).symm.trans enabled.1.2
        subst ends
        simp only [Runtime.enabled, Bool.and_eq_true, (nested.kind r old 0 (nested.bounds r old).1).1,
          allEnded_iff] at enabled
        by_cases self : i = 0
        · rw [self]
          exact ended
        · refine ended_lasts isTask (enabled.2 _ ?_)
          obtain ⟨k, rfl⟩ := Nat.exists_eq_succ_of_ne_zero self
          have tail : (R.region r).members.tail = (List.range ((R.region r).size - 1)).map fun i => (R.region r).first + (i + 1) := by
            rw [Region.members, ← List.map_tail, List.tail_range, List.range'_eq_map_range, List.map_map]
            exact List.map_congr_left fun x _ => by simp [Nat.add_comm]
          rw [tail, List.mem_map]
          exact ⟨k, List.mem_range.mpr (by omega), rfl⟩
    · rw [fork_memberOf_new] at ended
      rw [fork_region, if_pos rfl] at isMember
      rw [fork_member (show 0 < size from Nat.zero_lt_of_lt isMember)] at ended
      cases ended
  · rcases regions_after r isRegion with old | ⟨t₀, size, rfl, rfl⟩
    · rcases nested.closed_after old enabled closed with was | ⟨rfl, -⟩
      · rcases explicit_after nested' enabled isTask kind with known | ⟨p, rfl, rfl⟩
        · rw [(fixed t known).kind] at kind
          rw [(fixed t known).region] at region
          exact ended_lasts known (closing.explicit r old was t known kind region)
        · have runs := running_lt enabled
          have made : ((R.after (.taskCreate p)).task R.tasks).region = (R.task p).region := by
            simp [Runtime.after, Task.new]
          obtain ⟨-, live, -, notClosing, -⟩ := Task.running_iff.mp runs.2
          rcases nested.closed_idle closing old was runs.1 (made.symm.trans region) with ended | closes
          · cases ended.symm.trans live
          · cases closes.symm.trans notClosing
      · simp only [Runtime.enabled, Bool.and_eq_true, allEnded_iff] at enabled
        rw [(fixed t isTask).kind] at kind
        rw [(fixed t isTask).region] at region
        exact ended_lasts isTask (enabled.2 t ((R.mem_explicitTasks r).mpr ⟨isTask, kind, region⟩))
    · rw [Closed, fork_memberOf_new] at closed
      have room : 0 < ((R.after (.parallelBegin t₀ size)).region R.regions).size :=
        (nested'.bounds R.regions (Nat.lt_succ_self _)).1
      rw [fork_region, if_pos rfl] at room
      have made := fork_member (R := R) (t := t₀) (show 0 < size from room)
      rw [Nat.add_zero] at made
      rw [Nat.add_zero, made] at closed
      cases closed.1

theorem line_region (lineage : R.Lineage) {r i t : Nat} (isRegion : r < R.regions) (isMember : i < (R.region r).size)
    (isTask : t < R.tasks) (kind : (R.task t).kind = .explicit) (inside : ⟨R.memberOf r i, none⟩ ∈ (R.task t).line) :
    ∃ ρ < R.regions, ∃ j < (R.region ρ).size, (R.task t).region = some ρ ∧ R.memberOf ρ j < t ∧
      (ρ = r ∨ ⟨R.memberOf r i, none⟩ ∈ (R.task (R.memberOf ρ j)).line) := by
  induction t using Nat.strong_induction_on with
  | _ t ih =>
    obtain ⟨less, -, -, -, region⟩ := nested.explicit t isTask kind
    have notRoot : t ≠ 0 := by omega
    obtain ⟨-, body, line⟩ := lineage.line t isTask notRoot
    have above : ⟨R.memberOf r i, none⟩ ∈ (R.task (R.task t).parent).line ∨ R.memberOf r i = (R.task t).parent := by
      rw [line] at inside
      rcases List.mem_append.mp inside with above | here
      · exact .inl above
      · rcases List.mem_cons.mp here with self | inBody
        · exact .inr (congrArg Strand.task self)
        · obtain ⟨_, -, same⟩ := List.mem_map.mp inBody
          cases congrArg Strand.body same
    have isParent := less.trans isTask
    cases kind' : (R.task (R.task t).parent).kind with
    | initial =>
      have root := nested.initial _ isParent kind'
      rw [root, lineage.root] at above
      rcases above with none | self
      · cases none
      · exact absurd self (nested.member_ne_zero isRegion i)
    | implicit ρ j =>
      obtain ⟨isRegion', isMember', self⟩ := nested.member _ isParent ρ j kind'
      refine ⟨ρ, isRegion', j, isMember', ?_, self ▸ less, ?_⟩
      · rw [region, self, (nested.kind ρ isRegion' j isMember').2.2]
      · rcases above with inLine | own
        · exact .inr (self ▸ inLine)
        · exact .inl (nested.member_inj isRegion' isMember' isRegion isMember (self.symm.trans own.symm)).1
    | explicit =>
      have inLine := above.resolve_right fun own => by
        rw [← own, (nested.kind r isRegion i isMember).1] at kind'
        cases kind'
      obtain ⟨ρ, isRegion', j, isMember', region', less', rest⟩ := ih _ less isParent kind' inLine
      exact ⟨ρ, isRegion', j, isMember', region.trans region', less'.trans less, rest⟩

theorem member_live {r i : Nat} (isRegion : r < R.regions) (isMember : i < (R.region r).size) (unclosed : ¬R.Closed r) :
    (R.task (R.memberOf r i)).ended = false := by
  rw [← Bool.not_eq_true]
  intro ended
  have counters := nested.counters r isRegion i isMember
  have last := counters.ended ended
  have first := counters.passed
  have second := counters.arrived
  exact unclosed (nested.together r isRegion i isMember 0 (nested.bounds r isRegion).1 last.1 (by omega))

/-- While a task executes code, or waits for a region, no region that its strands go through has closed. -/
theorem live_unclosed (lineage : R.Lineage) (closing : R.Closing) {r i t : Nat} (isRegion : r < R.regions)
    (isMember : i < (R.region r).size) (isTask : t < R.tasks) (live : (R.task t).ended = false)
    (staying : (R.task t).closing = false)
    (inside : R.memberOf r i = t ∨ ⟨R.memberOf r i, none⟩ ∈ (R.task t).line) : ¬R.Closed r := by
  induction t using Nat.strong_induction_on with
  | _ t ih =>
    intro closed
    rcases inside with rfl | inside
    · have both := nested.together r isRegion 0 (nested.bounds r isRegion).1 i isMember closed.1 closed.2
      cases both.1.symm.trans staying
    · -- the task that forked the innermost region of the task waits for it
      have outer : ∀ ρ < R.regions, ∀ j < (R.region ρ).size, R.memberOf ρ j ≤ t →
          (R.task (R.memberOf ρ j)).ended = false → ⟨R.memberOf r i, none⟩ ∈ (R.task (R.memberOf ρ j)).line → False := by
        intro ρ isRegion' j isMember' before live' inLine
        have isOpen := nested.live_open isRegion' isMember' live'
        have forker := nested.forker lineage isRegion' isOpen
        have isForker := nested.encountering_lt isRegion'
        obtain ⟨rest, waits⟩ := open_head isOpen
        have bounds := (nested.bounds ρ isRegion').2.1
        have earlier : (R.region ρ).encountering < t := by
          rw [memberOf] at before
          omega
        rw [lineage.waiting ρ isRegion' j isMember' live', Task.strands] at inLine
        refine ih _ earlier isForker forker.2 (nested.busy isForker waits rfl).2.2 ?_ closed
        rcases List.mem_append.mp inLine with above | here
        · exact .inr above
        · rcases List.mem_cons.mp here with self | inBody
          · exact .inl (congrArg Strand.task self)
          · obtain ⟨_, -, same⟩ := List.mem_map.mp inBody
            cases congrArg Strand.body same
      cases kind : (R.task t).kind with
      | initial =>
        rw [nested.initial t isTask kind, lineage.root] at inside
        cases inside
      | implicit ρ j =>
        obtain ⟨isRegion', isMember', rfl⟩ := nested.member t isTask ρ j kind
        exact outer ρ isRegion' j isMember' (le_refl _) live inside
      | explicit =>
        obtain ⟨ρ, isRegion', j, isMember', region, less, rest⟩ :=
          nested.line_region lineage isRegion isMember isTask kind inside
        have unclosed : ¬R.Closed ρ := by
          intro closed'
          rw [closing.explicit ρ isRegion' closed' t isTask kind region] at live
          cases live
        rcases rest with rfl | inLine
        · exact unclosed closed
        · exact outer ρ isRegion' j isMember' less.le (nested.member_live isRegion' isMember' unclosed) inLine

end Nested

theorem closing_init : init.Closing where
  root := rfl
  line := fun _ none => absurd none (Nat.not_lt_zero _)
  last := fun _ none => absurd none (Nat.not_lt_zero _)
  explicit := fun _ none => absurd none (Nat.not_lt_zero _)

end Runtime

theorem System.Reachable.closing {allowed : System → Event → Prop} {s : System}
    (reached : System.Reachable allowed s) : s.runtime.Closing := by
  induction reached with
  | start begun =>
    unfold System.initial at begun
    obtain ⟨detector, -, made⟩ := ok_of_bind begun
    cases made
    exact Runtime.closing_init
  | step before _ stepped ih =>
    obtain ⟨enabled, -, runtime, -⟩ := System.step_cases stepped
    rw [runtime]
    exact before.nested.closing_after ih (before.nested.after enabled) enabled

end Romp
