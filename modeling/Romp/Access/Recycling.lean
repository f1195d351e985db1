import Romp.Access.Calls
import Romp.Access.Pruning

namespace Romp

section Recycling

variable {flags : ReportFlags}

theorem checkEach_filled {h h' : AccessHistory} {reports reports' : RaceReports} {accesses : List Access}
    (ran : checkEach flags h reports accesses = .ok (h', reports')) (fresh : h.memIsRecycled = false)
    (clean : h'.dataRaceFound = false) :
    h.dataRaceFound = false ∧ h'.memIsRecycled = false ∧
      (h.records ≠ [] ∨ (∃ a ∈ accesses, ¬a.Unchecked) → h'.records ≠ []) := by
  induction accesses generalizing h reports with
  | nil =>
    cases ran
    refine ⟨clean, fresh, ?_⟩
    rintro (filled | ⟨a, none, -⟩)
    · exact filled
    · cases none
  | cons a rest ih =>
    unfold checkEach at ran
    obtain ⟨done, called, ran⟩ := ok_of_bind ran
    obtain ⟨-, found, recycled⟩ := checkDataRace_effect called
    obtain ⟨cleanThen, freshEnd, filledEnd⟩ := ih ran (recycled fresh)
    rw [found, Bool.or_eq_false_iff] at cleanThen
    refine ⟨cleanThen.1, freshEnd, fun some => filledEnd ?_⟩
    by_cases unchecked : a.Unchecked
    · rw [checkDataRace_unchecked unchecked] at called
      cases called
      rcases some with filled | ⟨b, member, checked⟩
      · exact .inl filled
      · rcases List.mem_cons.mp member with rfl | later
        · exact absurd unchecked checked
        · exact .inr ⟨b, later, checked⟩
    · exact .inl (checkDataRace_filled unchecked cleanThen.1 fresh called)

theorem exists_first {accesses : List Access} (some : ¬∀ a ∈ accesses, a.Unchecked) :
    ∃ skipped a rest, accesses = skipped ++ a :: rest ∧ (∀ b ∈ skipped, b.Unchecked) ∧ ¬a.Unchecked := by
  induction accesses with
  | nil => exact absurd (fun a none => by cases none) some
  | cons a rest ih =>
    by_cases unchecked : a.Unchecked
    · have others : ¬∀ b ∈ rest, b.Unchecked := fun all => some (List.forall_mem_cons.mpr ⟨unchecked, all⟩)
      obtain ⟨skipped, b, later, rfl, before, checked⟩ := ih others
      exact ⟨a :: skipped, b, later, rfl, List.forall_mem_cons.mpr ⟨unchecked, before⟩, checked⟩
    · exact ⟨[], a, rest, rfl, List.forall_mem_nil _, unchecked⟩

def outcome (left : AccessHistory × RaceReports) : Bool × List Record :=
  (left.1.dataRaceFound, left.1.records)

/-- The first access that looks at a recycled location is spent on clearing it: the run goes on as
    one from a new history without that access. -/
theorem checkEach_recycled {h : AccessHistory} (clean : h.dataRaceFound = false) (reports : RaceReports)
    {skipped : List Access} (unchecked : ∀ a ∈ skipped, a.Unchecked) {a : Access} (checked : ¬a.Unchecked)
    (rest : List Access) :
    checkEach flags (h.setFlag .eMemoryRecycled) reports (skipped ++ a :: rest) =
      checkEach flags AccessHistory.new reports rest := by
  have flag : (h.setFlag .eMemoryRecycled).dataRaceFound = false := h.setFlag_found.trans clean
  rw [checkEach_skips unchecked, checkEach_cons (checkDataRace_recycled checked flag h.setFlag_recycled)]

/-- After a recycling, the runs agree with those on a new history only where none of the accesses
    looks at the location, or where nothing follows. -/
theorem recycled_fresh_iff {before after : List Access} {h : AccessHistory}
    {reports reports' reports'' : RaceReports}
    (ran : checkEach flags AccessHistory.new reports before = .ok (h, reports'))
    (clean : h.dataRaceFound = false) :
    (∀ n, 0 < n → n ≤ after.length →
      (checkEach flags (h.setFlag .eMemoryRecycled) reports' (after.take n)).map outcome =
        (checkEach flags AccessHistory.new reports'' (after.take n)).map outcome) ↔
      after = [] ∨ ∀ a ∈ before ++ after, a.Unchecked := by
  have newClean : AccessHistory.new.dataRaceFound = false := by decide
  have newFresh : AccessHistory.new.memIsRecycled = false := by decide
  obtain ⟨-, -, filled⟩ := checkEach_filled ran newFresh clean
  constructor
  · intro agree
    by_cases nothing : after = []
    · exact .inl nothing
    right
    -- An access of the second part that looks at the location is recorded in one run only.
    have later : ∀ a ∈ after, a.Unchecked := by
      by_contra some
      obtain ⟨skipped, a, rest, split, unchecked, checked⟩ := exists_first some
      have now := agree (skipped.length + 1) (by omega) (by rw [split]; simp)
      rw [split, List.take_length_add_append, List.take_one, List.head?_cons, Option.toList_some,
        checkEach_recycled clean reports' unchecked checked, checkEach_skips unchecked,
        checkEach_cons (checkDataRace_first checked newClean newFresh rfl)] at now
      cases now
    -- Without one, the old records are still there.
    intro a member
    rcases List.mem_append.mp member with earlier | late
    · by_contra checked
      obtain ⟨b, rest, rfl⟩ := List.exists_cons_of_ne_nil nothing
      have now := agree 1 (by omega) (by simp)
      rw [List.take_one, List.head?_cons, Option.toList_some, checkEach_unchecked (by simpa using later b),
        checkEach_unchecked (by simpa using later b)] at now
      have empty : h.records = [] := congrArg Prod.snd (Except.ok.inj now)
      exact filled (.inr ⟨a, earlier, checked⟩) empty
    · exact later a late
  · rintro (rfl | unchecked) n positive bound
    · simp at bound
      omega
    · have skips : ∀ a ∈ after.take n, a.Unchecked := fun a member =>
        unchecked a (List.mem_append_right _ (List.mem_of_mem_take member))
      have start : h = AccessHistory.new := by
        rw [checkEach_unchecked fun a member => unchecked a (List.mem_append_left _ member)] at ran
        cases ran
        rfl
      rw [checkEach_unchecked skips, checkEach_unchecked skips, start]
      simp only [Except.map, outcome, AccessHistory.setFlag_found]
      rfl

end Recycling

theorem recycled_race_lost : ¬ ∀ (flags : ReportFlags) (before after : List Access) (h : AccessHistory)
    (reports reports' reports'' : RaceReports),
    checkEach flags AccessHistory.new reports before = .ok (h, reports') → h.dataRaceFound = false →
      ∀ n, 0 < n → n ≤ after.length →
        (checkEach flags (h.setFlag .eMemoryRecycled) reports' (after.take n)).map outcome =
          (checkEach flags AccessHistory.new reports'' (after.take n)).map outcome := by
  intro agree
  have now := agree ⟨true, false⟩ [foundRace 0] [foundRace 0, foundRace 1] ⟨0, [(foundRace 0).record]⟩
    RaceReports.none RaceReports.none RaceReports.none rfl rfl 2 (by decide) (by decide)
  have verdict := congrArg (Except.map Prod.fst) now
  cases verdict

theorem recycled_fresh_iff_race :
    ¬([foundRace 0, foundRace 1] = [] ∨ ∀ a ∈ [foundRace 0] ++ [foundRace 0, foundRace 1], a.Unchecked) ∧
      ¬∀ n, 0 < n → n ≤ [foundRace 0, foundRace 1].length →
        (checkEach ⟨true, false⟩ ((⟨0, [(foundRace 0).record]⟩ : AccessHistory).setFlag .eMemoryRecycled)
            RaceReports.none ([foundRace 0, foundRace 1].take n)).map outcome =
          (checkEach ⟨true, false⟩ AccessHistory.new RaceReports.none
            ([foundRace 0, foundRace 1].take n)).map outcome := by
  have checked : ¬(foundRace 0).Unchecked := by decide
  have looks : ¬([foundRace 0, foundRace 1] = [] ∨
      ∀ a ∈ [foundRace 0] ++ [foundRace 0, foundRace 1], a.Unchecked) := by
    rintro (none | all)
    · cases none
    · exact checked (all _ List.mem_cons_self)
  have ran : checkEach ⟨true, false⟩ AccessHistory.new RaceReports.none [foundRace 0] =
      .ok (⟨0, [(foundRace 0).record]⟩, RaceReports.none) := rfl
  exact ⟨looks, fun agree => looks ((recycled_fresh_iff ran rfl).mp agree)⟩

end Romp
