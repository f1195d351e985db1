import Romp.Access.Calls

namespace Romp

section Reporting

variable {flags : ReportFlags}

theorem checkEach_grown {h h' : AccessHistory} {reports reports' : RaceReports} {accesses : List Access}
    (ran : checkEach flags h reports accesses = .ok (h', reports')) :
    ∃ n, reports.Grown flags reports' n := by
  induction accesses generalizing h reports with
  | nil =>
    cases ran
    exact ⟨0, RaceReports.Grown.refl ..⟩
  | cons a rest ih =>
    unfold checkEach at ran
    obtain ⟨done, called, ran⟩ := ok_of_bind ran
    obtain ⟨n, grown⟩ := ih ran
    exact ⟨_, (checkDataRace_effect called).1.trans grown⟩

/-- Where no call finds two races, the first race that is found is the last one. -/
theorem checkEach_once {h h' : AccessHistory} {reports reports' : RaceReports} {accesses : List Access}
    (ran : checkEach flags h reports accesses = .ok (h', reports'))
    (single : ∀ first a rest, accesses = first ++ a :: rest → ∀ h₁ reports₁,
      checkEach flags h reports first = .ok (h₁, reports₁) → a.conflicts h₁ ≤ 1) :
    ∃ n, reports.Grown flags reports' n ∧ n ≤ 1 ∧ (h.dataRaceFound = true → n = 0) := by
  induction accesses generalizing h reports with
  | nil =>
    cases ran
    exact ⟨0, RaceReports.Grown.refl .., by omega, fun _ => rfl⟩
  | cons a rest ih =>
    unfold checkEach at ran
    obtain ⟨done, called, ran⟩ := ok_of_bind ran
    obtain ⟨grown, found, -⟩ := checkDataRace_effect called
    have here := single [] a rest rfl h reports rfl
    obtain ⟨n, later, few, silent⟩ := ih ran fun first b others split h₁ reports₁ ran₁ => by
      apply single (a :: first) b others (by rw [split]; rfl) h₁ reports₁
      rw [checkEach_cons called]
      exact ran₁
    refine ⟨_, grown.trans later, ?_, fun before => ?_⟩
    · by_cases quiet : a.conflicts h = 0
      · omega
      · have reported : done.history.dataRaceFound = true := by simp [found, quiet]
        have := silent reported
        omega
    · have quiet := a.conflicts_none (.inr (.inl before))
      have reported : done.history.dataRaceFound = true := by rw [found, before, Bool.true_or]
      have := silent reported
      omega

theorem checkDataRace_silent {h : AccessHistory} {reports : RaceReports} {a : Access} {done : Checked}
    (found : h.dataRaceFound = true) (ran : checkDataRace flags h a reports = .ok done) :
    a.consults h = [] ∧ done.history.records ⊆ h.records := by
  refine ⟨if_pos (.inr (.inl found)), ?_⟩
  by_cases unchecked : a.Unchecked
  · rw [checkDataRace_unchecked unchecked] at ran
    cases ran
    exact List.Subset.refl _
  · rw [checkDataRace_found unchecked found] at ran
    cases ran
    exact List.nil_subset _

/-- The location is reported at most once exactly when no call of the sequence finds more than one
    record of the history that races with its access. -/
theorem reported_once_iff {h : AccessHistory} {reports reports' : RaceReports} {accesses : List Access}
    (ran : checkEach flags AccessHistory.new reports accesses = .ok (h, reports')) :
    (reports'.gNumDataRace ≤ reports.gNumDataRace + 1 ∧
      reports'.gDataRaceRecords.length ≤ reports.gDataRaceRecords.length + 1 ∧
      reports'.runtimeReports.length ≤ reports.runtimeReports.length + 1 ∧
      ∀ first a rest, accesses = first ++ a :: rest → ∀ h₁ reports₁ done,
        checkEach flags AccessHistory.new reports first = .ok (h₁, reports₁) →
          checkDataRace flags h₁ a reports₁ = .ok done → h₁.dataRaceFound = true →
            a.consults h₁ = [] ∧ done.history.records ⊆ h₁.records) ↔
      ∀ first a rest, accesses = first ++ a :: rest → ∀ h₁ reports₁,
        checkEach flags AccessHistory.new reports first = .ok (h₁, reports₁) → a.conflicts h₁ ≤ 1 := by
  constructor
  · rintro ⟨counted, -, -, -⟩ first a rest rfl h₁ reports₁ ran₁
    rw [checkEach_append, ran₁] at ran
    unfold Except.bind checkEach at ran
    obtain ⟨done, called, ran⟩ := ok_of_bind ran
    obtain ⟨m, before⟩ := checkEach_grown ran₁
    obtain ⟨n, after_⟩ := checkEach_grown ran
    have total := ((before.trans (checkDataRace_effect called).1).trans after_).count
    omega
  · intro single
    obtain ⟨n, grown, few, -⟩ := checkEach_once ran single
    have runtime := grown.runtime
    have records := grown.records
    refine ⟨by rw [grown.count]; omega, by split at records <;> omega, by split at runtime <;> omega, ?_⟩
    intro first a rest _ h₁ reports₁ done _ called found
    exact checkDataRace_silent found called

end Reporting

def teamHeap : Except Abort Heap := do
  let (h, root) ← genInitTaskLabel Heap.empty
  let (h, _) ← genImpTaskLabel h root 0 3
  let (h, _) ← genImpTaskLabel h root 1 3
  let (h, _) ← genImpTaskLabel h root 2 3
  .ok h

def team : Context := ⟨teamHeap.toOption.getD Heap.empty, fun _ => TaskData.new, some TaskDepGraph.empty⟩

def memberAccess (member : Nat) (isWrite : Bool) : Access where
  context := team
  label := [0, member]
  lockSet := none
  info := ⟨member, 0, isWrite, false, 0, .eNonThreadPrivate⟩
  uninitialised := ⟨0, 0⟩

/-- Two members read and the third one writes: the write is reported against both reads. -/
theorem reported_twice : ¬ ∀ (flags : ReportFlags) (accesses : List Access) (h : AccessHistory)
    (reports reports' : RaceReports),
    checkEach flags AccessHistory.new reports accesses = .ok (h, reports') →
      reports'.gNumDataRace ≤ reports.gNumDataRace + 1 := by
  intro once
  have two : (checkEach ⟨true, false⟩ AccessHistory.new RaceReports.none
      [memberAccess 1 false, memberAccess 2 false, memberAccess 3 true]).map (fun left => left.2.gNumDataRace) =
        .ok 2 := rfl
  match ran : checkEach ⟨true, false⟩ AccessHistory.new RaceReports.none
      [memberAccess 1 false, memberAccess 2 false, memberAccess 3 true] with
  | .error text =>
    rw [ran] at two
    cases two
  | .ok (h, reports) =>
    have few := once _ _ h _ reports ran
    rw [ran] at two
    have count : reports.gNumDataRace = 2 := Except.ok.inj two
    rw [count] at few
    exact absurd few (by decide)

theorem reported_once_iff_pair : ∃ h reports,
    checkEach ⟨true, false⟩ AccessHistory.new RaceReports.none [memberAccess 1 false, memberAccess 2 true] =
      .ok (h, reports) ∧ h.dataRaceFound = true ∧ ∀ first a rest,
      [memberAccess 1 false, memberAccess 2 true] = first ++ a :: rest → ∀ h₁ reports₁,
        checkEach ⟨true, false⟩ AccessHistory.new RaceReports.none first = .ok (h₁, reports₁) →
          a.conflicts h₁ ≤ 1 := by
  have ran : checkEach ⟨true, false⟩ AccessHistory.new RaceReports.none
      [memberAccess 1 false, memberAccess 2 true] =
        .ok (⟨1, [(memberAccess 1 false).record, (memberAccess 2 true).record]⟩,
          ⟨true, 1, [⟨0, 0, 0⟩], []⟩) := rfl
  refine ⟨_, _, ran, by decide, (reported_once_iff ran).mp ⟨by decide, by decide, by decide, ?_⟩⟩
  intro first a rest _ h₁ reports₁ done _ called found
  exact checkDataRace_silent found called

end Romp
