import Romp.Runtime.UnitCodes

namespace Romp

/-- A later unit of the same construct, and another iteration if the construct is a loop. -/
def Construct.Before (c c' : Construct) : Prop :=
  c.rank < c'.rank ∧ ∀ i j, c.iteration = some i → c'.iteration = some j → i ≠ j

namespace Runtime

variable {R : Runtime} {t : Nat} {c c' : Construct} {e : Event}

def Issued (R : Runtime) (t : Nat) (c : Construct) : Prop :=
  ∀ r i n id, (R.task t).kind = .implicit r i → c.number = some n → c.iteration = some id →
    (R.region r).dispatched n id = true

theorem issued_lasts (nested : R.Nested) (isTask : t < R.tasks) (issued : R.Issued t c) : (R.after e).Issued t c := by
  intro r i n id kind number iteration
  rw [((after_extends R e).fixed t isTask).kind] at kind
  have isRegion := (nested.member t isTask r i kind).1
  apply (region_after isRegion).dispatched
  exact issued r i n id kind number iteration

/-- An iteration is dispatched once. -/
theorem dispatch_issues {id : BitVec 64} (nested : R.Nested) (lineage' : (R.after (.dispatch t id)).Lineage)
    (enabled : R.enabled (.dispatch t id) = true) (isTask : t < R.tasks)
    (units' : ((R.after (.dispatch t id)).task t).units = [c']) :
    (R.after (.dispatch t id)).Issued t c' ∧
      ∀ c r i n, (R.task t).kind = .implicit r i → c.number = some n → c'.number = some n → R.Issued t c →
        ∀ j k, c.iteration = some j → c'.iteration = some k → j ≠ k := by
  have stack := constructs_after enabled isTask
  have kept := ((after_extends R (.dispatch t id)).fixed t isTask).kind
  have inside := (Bool.and_eq_true_iff.mp enabled).2
  have top : ∀ {c₁ rest}, ((R.after (.dispatch t id)).task t).constructs = c₁ :: rest → c₁.number.isSome = true →
      c₁ = c' := by
    intro c₁ rest constructs number
    have same := (lineage'.units_of_top constructs number).symm.trans units'
    exact (List.cons.inj same).1
  split at inside
  · rename_i r n turn last rest region constructs
    simp only [Event.stack, if_true, constructs] at stack
    obtain rfl := top stack rfl
    have own : ∀ ρ i, (R.task t).kind = .implicit ρ i → ρ = r := by
      intro ρ i kind
      obtain ⟨isRegion, isMember, self⟩ := nested.member t isTask ρ i kind
      have other := (nested.kind ρ isRegion i isMember).2.2
      rw [← self, region] at other
      exact (Option.some.inj other).symm
    refine ⟨fun ρ i k j kind number iteration => ?_, fun c ρ i k kind number number' issued j l iteration iteration' => ?_⟩
    · obtain rfl := own ρ i (kept.symm.trans kind)
      cases number
      cases iteration
      have dispatched : R.after (.dispatch t id) = R.dispatchTo t id := rfl
      simp only [dispatchTo, finishIteration_task R t, region, constructs] at dispatched
      rw [dispatched]
      simp
    · obtain rfl := own ρ i kind
      cases number'
      cases iteration'
      rintro rfl
      rw [issued ρ i _ j kind number iteration] at inside
      cases inside
  · rename_i r n turn rest region constructs
    simp only [Event.stack, if_true, constructs] at stack
    obtain rfl := top stack rfl
    refine ⟨fun ρ i k j _ _ none => ?_, fun c ρ i k _ _ _ _ j l _ none => ?_⟩ <;> cases none
  · cases inside

theorem issued_after (nested : R.Nested) (lineage : R.Lineage) (enabled : R.enabled e = true)
    (issued : ∀ x < R.tasks, ∀ c ∈ (R.task x).units, R.Issued x c) :
    ∀ x < (R.after e).tasks, ∀ c ∈ ((R.after e).task x).units, (R.after e).Issued x c := by
  have lineage' := lineage.after nested enabled
  intro x isTask' c inside
  by_cases isTask : x < R.tasks
  · have stack := constructs_after enabled isTask
    cases units_after lineage enabled isTask with
    | same units =>
      rw [units] at inside
      exact issued_lasts nested isTask (issued x isTask c inside)
    | @work work executor c₀ empty units =>
      rw [Event.stack, if_pos rfl] at stack
      have first := lineage'.units_of_top stack (by cases work <;> rfl)
      rw [first, List.mem_singleton] at inside
      subst inside
      intro r i n id _ _ none
      cases work <;> cases none
    | done before units =>
      rw [units] at inside
      cases inside
    | next before units =>
      rw [units, List.mem_singleton] at inside
      subst inside
      exact (dispatch_issues nested lineage' enabled isTask units).1
  · obtain ⟨_, _, _, _, _, _, _, _, made⟩ := new_task isTask isTask'
    rw [made] at inside
    cases inside

end Runtime

theorem System.Reachable.issued {allowed : System → Event → Prop} {s : System} (reached : System.Reachable allowed s) :
    ∀ x < s.runtime.tasks, ∀ c ∈ (s.runtime.task x).units, s.runtime.Issued x c := by
  induction reached with
  | start begun =>
    cases begun
    intro x _ c none
    cases none
  | step before _ stepped ih =>
    obtain ⟨enabled, -, runtime, -⟩ := System.step_cases stepped
    rw [runtime]
    exact Runtime.issued_after before.nested before.lineage enabled ih

end Romp
