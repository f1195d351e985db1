import Romp.Runtime.Origins
import Romp.Runtime.Stacks

namespace Romp

namespace Construct

/-- The bit that the detector reads as the flag of a placeholder, and as the flag of a section too. -/
def marked : Construct → Bool
  | loop _ _ none | sections _ _ => true
  | _ => false

def iteration : Construct → Option (BitVec 64)
  | loop _ _ id => id
  | _ => none

structure Codes (c : Construct) (z : Contents) : Prop where
  marker : z.marker = c.marked
  id : ∀ id, c.iteration = some id → z.workShareId = some id

theorem Codes.of_same {c : Construct} {z z' : Contents} (codes : c.Codes z) (marker : z'.marker = z.marker)
    (id : z'.workShareId = z.workShareId) : c.Codes z' :=
  ⟨marker.trans codes.marker, fun i same => id.trans (codes.id i same)⟩

end Construct

theorem workSegment_codes (work : Work) (number : Nat) (executor : Bool) :
    (Construct.ofWork work number executor).Codes (Detector.workSegment work executor).plain ∧
      (Detector.workSegment work executor).plain.phase = 0 := by
  have marked : (Detector.workSegment work executor).plain.marker = (Construct.ofWork work 0 executor).marked := by
    cases work <;> cases executor <;> decide
  refine ⟨⟨marked.trans ?_, fun _ none => ?_⟩, ?_⟩
  · cases work <;> rfl
  · cases work <;> cases none
  · cases work <;> cases executor <;> decide

theorem workShareUnit_plain (id : BitVec 64) (isSection : Bool) :
    (Segment.workShareUnit id isSection).plain.marker = isSection ∧
      (Segment.workShareUnit id isSection).plain.workShareId = some id ∧
      (Segment.workShareUnit id isSection).plain.phase = 0 := by
  have value : (Segment.workShareUnit id isSection).value = (Segment.workShareUnit 0 isSection).value := rfl
  have same : { (Segment.workShareUnit id isSection).plain with workShareId := some 0 } =
      (Segment.workShareUnit 0 isSection).plain := by
    simp only [Segment.plain, Segment.contents_get, value]
    rfl
  refine ⟨?_, rfl, ?_⟩
  · have marker := congrArg Contents.marker same
    apply marker.trans
    cases isSection <;> decide
  · have phase := congrArg Contents.phase same
    apply phase.trans
    cases isSection <;> decide

namespace Runtime

variable {R : Runtime} {t : Nat} {c : Construct}

theorem Lineage.units_of_top (lineage : R.Lineage) {rest : List Construct}
    (constructs : (R.task t).constructs = c :: rest)
    (number : c.number.isSome = true) : (R.task t).units = [c] := by
  obtain ⟨k, number⟩ := Option.isSome_iff_exists.mp number
  exact (lineage.units_cons constructs number).1

theorem Lineage.opens_other (lineage : R.Lineage) (opens : (R.task t).Opens c) : (R.task t).units ≠ [c] := by
  intro units
  rcases opens with number | ⟨c₀, k, units₀, -, -, later⟩
  · have bound := (lineage.units t).2 c (by rw [units]; exact List.mem_singleton_self c) _ number
    exact absurd bound (lt_irrefl _)
  · rw [units, List.cons.injEq] at units₀
    rw [units₀.1] at later
    exact absurd later (lt_irrefl _)

end Runtime

namespace Advance

variable {R : Runtime} {d d' : Detector} {owner owner' : Nat → Strand} {e : Event} (adv : Advance R d d' owner owner' e)

include adv

/-- The segment of a unit is made when the unit begins, or is a version of another one of the same unit. -/
theorem fresh_unit {r t : Nat} {c : Construct} (bound : r < d'.heap.next) (new : ¬r < d.heap.next)
    (owns : owner' r = ⟨t, some c⟩) :
    (∃ r₀ < d.heap.next, owner r₀ = ⟨t, some c⟩ ∧
      (d'.plain r = e.count (d.plain r₀) ∨ d'.plain r = (d.plain r₀).bump 1)) ∨
    (c.Codes (d'.plain r) ∧ (d'.plain r).phase = 0) := by
  cases adv.fresh bound new with
  | version there kept counted => exact .inl ⟨_, there, kept.symm.trans owns, .inl counted⟩
  | bumped _ _ there kept counted => exact .inl ⟨_, there, kept.symm.trans owns, .inr counted⟩
  | task _ own => cases congrArg Strand.body (own.symm.trans owns)
  | member _ _ _ own => cases congrArg Strand.body (own.symm.trans owns)
  | @unit t' c' isTask begun own opens units =>
    right
    cases own.symm.trans owns
    have fresh := adv.lineage.opens_other opens
    have stack := Runtime.constructs_after adv.enabled isTask
    have enabled := adv.enabled
    have top : ∀ {c₁ rest}, ((R.after e).task t).constructs = c₁ :: rest → c₁.number.isSome = true → c = c₁ := by
      intro c₁ rest constructs number
      have same := adv.lineage'.units_of_top constructs number
      rw [units, List.cons.injEq] at same
      exact same.1
    have next : ∀ s : Segment, d'.heap = (d.heap.alloc s).1 → d'.plain r = s.plain := by
      intro s heap
      obtain rfl : r = d.heap.next := by
        rw [heap] at bound
        exact Nat.le_antisymm (Nat.lt_succ_iff.mp bound) (Nat.not_lt.mp new)
      rw [Detector.plain, heap, Heap.alloc_read]
    cases Runtime.units_after adv.lineage adv.enabled isTask with
    | same before => exact absurd (before.symm.trans units) fresh
    | done _ before => cases before.symm.trans units
    | @work work executor c₀ =>
      rw [Event.stack, if_pos rfl] at stack
      obtain ⟨upper, -, heap⟩ := Detector.handle_workBegin adv.handled
      rw [next _ heap, top stack (by cases work <;> rfl)]
      exact workSegment_codes ..
    | @next id c₀ c₁ k =>
      obtain ⟨init, unit, isSection, -, heap, kind⟩ := Detector.handle_dispatch adv.handled
      obtain ⟨marker, number, phase⟩ := workShareUnit_plain id isSection
      rw [next _ heap]
      simp only [Runtime.enabled, Bool.and_eq_true] at enabled
      have inside := enabled.2
      split at inside
      · rename_i r' n last rest region constructs
        simp only [Event.stack, if_true, constructs] at stack
        obtain rfl := top stack rfl
        refine ⟨⟨marker.trans ?_, fun i same => ?_⟩, phase⟩
        · change isSection = false
          rw [← Bool.not_eq_true, kind, constructs]
          rintro ⟨_, _, _, other⟩
          cases other
        · cases same
          exact number
      · rename_i r' n unit rest region constructs
        simp only [Event.stack, if_true, constructs] at stack
        obtain rfl := top stack rfl
        exact ⟨⟨marker.trans (kind.mpr ⟨_, _, _, constructs⟩), fun i none => by cases none⟩, phase⟩
      · cases inside

end Advance

def Detector.Coded (d : Detector) (owner : Nat → Strand) : Prop :=
  ∀ r < d.heap.next, ∀ t c, owner r = ⟨t, some c⟩ → c.Codes (d.plain r)

theorem Advance.coded {R : Runtime} {d d' : Detector} {owner owner' : Nat → Strand} {e : Event}
    (adv : Advance R d d' owner owner' e) (coded : d.Coded owner) : d'.Coded owner' := by
  intro r bound t c owns
  by_cases old : r < d.heap.next
  · rw [adv.owners r old] at owns
    rw [adv.plain old]
    exact coded r old t c owns
  · rcases adv.fresh_unit bound old owns with ⟨r₀, there, kept, counted | counted⟩ | ⟨codes, -⟩
    · rw [counted]
      exact (coded r₀ there t c kept).of_same (Event.count_marker ..) (Event.count_workShareId ..)
    · rw [counted]
      exact (coded r₀ there t c kept).of_same rfl rfl
    · exact codes

structure Sourced (s : System) (owner : Nat → Strand) (fork : Nat → Contents) (below : Strand → Contents) :
    Prop where
  placed : Placed s owner
  origins : Origins s.runtime s.detector owner fork below
  coded : s.detector.Coded owner

theorem Sourced.step {s s' : System} {owner : Nat → Strand} {fork : Nat → Contents} {below : Strand → Contents}
    (sourced : Sourced s owner fork below) (nested : s.runtime.Nested) (lineage : s.runtime.Lineage)
    (closing : s.runtime.Closing) {e : Event} (stepped : s.step e = some s') :
    ∃ owner' fork' below', Sourced s' owner' fork' below' ∧ Advance s.runtime s.detector s'.detector owner owner' e := by
  obtain ⟨-, -, runtime, -⟩ := System.step_cases stepped
  obtain ⟨owner', placed', adv⟩ := sourced.placed.advance nested lineage closing stepped
  obtain ⟨fork', below', origins', -⟩ := adv.origins sourced.origins
  rw [← runtime] at origins'
  exact ⟨owner', fork', below', ⟨placed', origins', adv.coded sourced.coded⟩, adv⟩

theorem System.Reachable.sourced {allowed : System → Event → Prop} {s : System} (reached : System.Reachable allowed s) :
    ∃ owner fork below, Sourced s owner fork below := by
  induction reached with
  | @start s begun =>
    refine ⟨_, fun _ => s.detector.plain 0, fun _ => s.detector.plain 0,
      System.placed_initial begun, System.origins_initial begun _ _, ?_⟩
    rintro r bound t c none
    cases none
  | step before _ stepped ih =>
    obtain ⟨owner, fork, below, sourced⟩ := ih
    obtain ⟨owner', fork', below', sourced', -⟩ := sourced.step before.nested before.lineage before.closing stepped
    exact ⟨owner', fork', below', sourced'⟩

end Romp
