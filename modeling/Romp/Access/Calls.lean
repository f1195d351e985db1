import Romp.Access.Coverage

namespace Romp

def Access.Unchecked (a : Access) : Prop :=
  a.info.hwLock = true ∨ a.info.dataSharingType = .eThreadPrivateBelowExit ∨
    a.info.dataSharingType = .eStaticThreadPrivate

instance (a : Access) : Decidable a.Unchecked := inferInstanceAs (Decidable (_ ∨ _))

namespace AccessHistory

theorem setFlag_recycled (h : AccessHistory) : (h.setFlag .eMemoryRecycled).memIsRecycled = true := by
  simp only [memIsRecycled, setFlag, bne_iff_ne]
  intro none
  have bit := congrArg (BitVec.getLsbD · 1) none
  simp [AccessHistoryFlag.code] at bit

theorem setFlag_found (h : AccessHistory) :
    (h.setFlag .eMemoryRecycled).dataRaceFound = h.dataRaceFound := by
  have apart : AccessHistoryFlag.eMemoryRecycled.code &&& AccessHistoryFlag.eDataRaceFound.code = 0 := by
    decide
  simp only [dataRaceFound, setFlag]
  congr 1
  apply BitVec.eq_of_getLsbD_eq
  intro i _
  have bit := congrArg (BitVec.getLsbD · i) apart
  simp only [BitVec.getLsbD_and, BitVec.getLsbD_or] at bit ⊢
  cases h.state.getLsbD i <;> simp_all

end AccessHistory

section Calls

variable {flags : ReportFlags} {h : AccessHistory} {a : Access} {reports : RaceReports}

theorem checkDataRace_unchecked (unchecked : a.Unchecked) :
    checkDataRace flags h a reports = .ok ⟨h, reports, a.context.taskDepGraph⟩ := by
  unfold checkDataRace
  by_cases lock : a.info.hwLock = true
  · rw [if_pos lock]
  · rw [if_neg lock, if_pos (unchecked.resolve_left lock)]

theorem checkDataRace_found (checked : ¬a.Unchecked) (found : h.dataRaceFound = true) :
    checkDataRace flags h a reports = .ok ⟨{ h with records := [] }, reports, a.context.taskDepGraph⟩ := by
  obtain ⟨lock, sharing⟩ := not_or.mp checked
  unfold checkDataRace
  rw [if_neg lock, if_neg sharing, if_pos found]

theorem checkDataRace_recycled (checked : ¬a.Unchecked) (clean : h.dataRaceFound = false)
    (recycled : h.memIsRecycled = true) :
    checkDataRace flags h a reports = .ok ⟨AccessHistory.new, reports, a.context.taskDepGraph⟩ := by
  obtain ⟨lock, sharing⟩ := not_or.mp checked
  unfold checkDataRace
  rw [if_neg lock, if_neg sharing, clean, if_neg Bool.false_ne_true, if_pos recycled]
  rfl

theorem checkDataRace_first (checked : ¬a.Unchecked) (clean : h.dataRaceFound = false)
    (fresh : h.memIsRecycled = false) (empty : h.records = []) :
    checkDataRace flags h a reports =
      .ok ⟨{ h with records := [a.record] }, reports, a.context.taskDepGraph⟩ := by
  obtain ⟨lock, sharing⟩ := not_or.mp checked
  unfold checkDataRace
  rw [if_neg lock, if_neg sharing, clean, if_neg Bool.false_ne_true, fresh, if_neg Bool.false_ne_true,
    if_pos empty]

def Access.scan (a : Access) (h : AccessHistory) (reports : RaceReports) : Scan where
  isHistBeforeCurrent := false
  diffIndex := a.uninitialised.diffIndex
  skipAddCur := false
  state := h.state
  taskDepGraph := a.context.taskDepGraph
  reports := reports

theorem checkDataRace_scan (checked : ¬a.Unchecked) (clean : h.dataRaceFound = false)
    (fresh : h.memIsRecycled = false) (filled : h.records ≠ []) :
    checkDataRace flags h a reports =
      (scanRecords a.context flags a.info a.record h.records (a.scan h reports)).bind fun (scan, records) =>
        .ok ⟨⟨scan.state, if scan.skipAddCur then records else records ++ [a.record]⟩, scan.reports,
          scan.taskDepGraph⟩ := by
  obtain ⟨lock, sharing⟩ := not_or.mp checked
  unfold checkDataRace
  rw [if_neg lock, if_neg sharing, clean, if_neg Bool.false_ne_true, fresh, if_neg Bool.false_ne_true,
    if_neg filled]
  rfl

/-- How many records of the history race with the access. The graph is handed from one analysis to
    the next: a search leaves entries in it. -/
def conflicts (ctx : Context) (cur : Record) : Option TaskDepGraph → List Record → Nat
  | _, [] => 0
  | graph, hist :: rest =>
    match analyzeRaceCondition { ctx with taskDepGraph := graph } hist cur false 0 with
    | .error _ => 0
    | .ok analysis => (if analysis.race then 1 else 0) + conflicts ctx cur analysis.taskDepGraph rest

theorem analyzeRaceCondition_race {ctx : Context} {hist cur : Record} {before : Bool} {diffIndex : Int}
    {analysis : RaceAnalysis} (analyzed : analyzeRaceCondition ctx hist cur before diffIndex = .ok analysis) :
    ∃ other, analyzeRaceCondition ctx hist cur false 0 = .ok other ∧ other.race = analysis.race ∧
      other.taskDepGraph = analysis.taskDepGraph := by
  unfold analyzeRaceCondition at analyzed ⊢
  by_cases excluded : analyzeMutualExclusion hist cur = true
  · rw [if_pos excluded] at analyzed ⊢
    cases analyzed
    exact ⟨_, rfl, rfl, rfl⟩
  · by_cases reduction : (ctx.tasks cur.taskPtr).inReduction = true
    · rw [if_neg excluded, if_pos reduction] at analyzed ⊢
      cases analyzed
      exact ⟨_, rfl, rfl, rfl⟩
    · rw [if_neg excluded, if_neg reduction] at analyzed ⊢
      exact ⟨analysis, analyzed, rfl, rfl⟩

/-- The reports after `n` races more: a `DataRaceInfo` for each, or a report at run time. -/
structure RaceReports.Grown (flags : ReportFlags) (reports reports' : RaceReports) (n : Nat) : Prop where
  count : reports'.gNumDataRace = reports.gNumDataRace + n
  records : reports'.gDataRaceRecords.length =
    reports.gDataRaceRecords.length + if flags.gReportLineInfo then n else 0
  runtime : reports'.runtimeReports.length =
    reports.runtimeReports.length + if !flags.gReportLineInfo && flags.gReportAtRuntime then n else 0

theorem RaceReports.Grown.refl (flags : ReportFlags) (reports : RaceReports) : reports.Grown flags reports 0 :=
  ⟨rfl, by simp, by simp⟩

theorem RaceReports.Grown.trans {first second third : RaceReports} {m n : Nat} (left : first.Grown flags second m)
    (right : second.Grown flags third n) : first.Grown flags third (m + n) := by
  refine ⟨by rw [right.count, left.count, Nat.add_assoc], ?_, ?_⟩
  · rw [right.records, left.records]
    split <;> omega
  · rw [right.runtime, left.runtime]
    split <;> omega

theorem reportRace_grown (hist cur : Record) (info : CheckInfo) :
    reports.Grown flags (reportRace flags hist cur info reports) 1 := by
  refine ⟨rfl, ?_, ?_⟩
  · unfold reportRace
    cases flags.gReportLineInfo <;> simp
  · unfold reportRace
    cases flags.gReportLineInfo <;> cases flags.gReportAtRuntime <;> simp

theorem setFound_twice (state : BitVec 64) :
    state ||| AccessHistoryFlag.eDataRaceFound.code ||| AccessHistoryFlag.eDataRaceFound.code =
      state ||| AccessHistoryFlag.eDataRaceFound.code := by
  rw [BitVec.or_assoc, BitVec.or_self]

theorem scanRecords_cons {ctx : Context} {checkInfo : CheckInfo} {cur hist : Record} {rest left : List Record}
    {scan scan' : Scan} (done : scanRecords ctx flags checkInfo cur (hist :: rest) scan = .ok (scan', left)) :
    ∃ next kept others, scanRecord ctx flags checkInfo cur hist scan = .ok (next, kept) ∧
      scanRecords ctx flags checkInfo cur rest next = .ok (scan', others) ∧
      left = if kept then hist :: others else others := by
  unfold scanRecords at done
  obtain ⟨⟨next, kept⟩, first, done⟩ := ok_of_bind done
  obtain ⟨⟨last, others⟩, second, done⟩ := ok_of_bind done
  cases done
  exact ⟨next, kept, others, first, second, rfl⟩

theorem scanRecords_conflicts {ctx : Context} {checkInfo : CheckInfo} {cur : Record}
    {records left : List Record} {scan scan' : Scan}
    (done : scanRecords ctx flags checkInfo cur records scan = .ok (scan', left)) :
    scan.reports.Grown flags scan'.reports (conflicts ctx cur scan.taskDepGraph records) ∧
      scan'.state = if conflicts ctx cur scan.taskDepGraph records = 0 then scan.state
        else scan.state ||| AccessHistoryFlag.eDataRaceFound.code := by
  induction records generalizing scan left with
  | nil =>
    cases done
    exact ⟨RaceReports.Grown.refl .., rfl⟩
  | cons hist rest ih =>
    obtain ⟨scan₁, kept, others, first, second, rfl⟩ := scanRecords_cons done
    obtain ⟨grown, state⟩ := ih second
    unfold scanRecord at first
    obtain ⟨analysis, analyzed, first⟩ := ok_of_bind first
    cases first
    obtain ⟨other, same, race, graph⟩ := analyzeRaceCondition_race analyzed
    simp only [conflicts, same, race, graph]
    cases raced : analysis.race with
    | false =>
      rw [raced] at grown state
      simp only [Bool.false_eq_true, if_false, Nat.zero_add] at grown state ⊢
      exact ⟨grown, state⟩
    | true =>
      rw [raced] at grown state
      simp only [if_true] at grown state ⊢
      refine ⟨(reportRace_grown hist cur checkInfo).trans grown, ?_⟩
      rw [if_neg (by omega), state, setFound_twice, ite_self]

theorem scanRecord_kept {ctx : Context} {checkInfo : CheckInfo} {cur hist : Record} {scan scan' : Scan}
    {kept : Bool} (done : scanRecord ctx flags checkInfo cur hist scan = .ok (scan', kept))
    (skips : scan'.skipAddCur = true) : scan.skipAddCur = true ∨ kept = true := by
  unfold scanRecord at done
  obtain ⟨analysis, -, done⟩ := ok_of_bind done
  cases done
  rcases Bool.or_eq_true_iff.mp skips with before | decision
  · exact .inl before
  · right
    simp only [of_decide_eq_true decision]
    decide

theorem scanRecords_kept {ctx : Context} {checkInfo : CheckInfo} {cur : Record} {records left : List Record}
    {scan scan' : Scan} (done : scanRecords ctx flags checkInfo cur records scan = .ok (scan', left))
    (skips : scan'.skipAddCur = true) : scan.skipAddCur = true ∨ left ≠ [] := by
  induction records generalizing scan left with
  | nil =>
    cases done
    exact .inl skips
  | cons hist rest ih =>
    obtain ⟨scan₁, kept, others, first, second, rfl⟩ := scanRecords_cons done
    cases kept with
    | true => exact .inr (List.cons_ne_nil hist others)
    | false =>
      rcases ih second with before | filled
      · exact .inl ((scanRecord_kept first before).resolve_right Bool.false_ne_true)
      · exact .inr filled

def Access.consults (a : Access) (h : AccessHistory) : List Record :=
  if a.Unchecked ∨ h.dataRaceFound = true ∨ h.memIsRecycled = true then [] else h.records

def Access.conflicts (a : Access) (h : AccessHistory) : Nat :=
  Romp.conflicts a.context a.record a.context.taskDepGraph (a.consults h)

theorem found_or (state : BitVec 64) (n : Nat) :
    (((if n = 0 then state else state ||| AccessHistoryFlag.eDataRaceFound.code) &&&
      AccessHistoryFlag.eDataRaceFound.code) != 0) =
        ((state &&& AccessHistoryFlag.eDataRaceFound.code != 0) || n != 0) := by
  cases n with
  | zero => simp
  | succ n =>
    rw [if_neg (Nat.succ_ne_zero n), found_setFlag]
    simp

theorem Access.conflicts_none (a : Access) {h : AccessHistory}
    (nothing : a.Unchecked ∨ h.dataRaceFound = true ∨ h.memIsRecycled = true) : a.conflicts h = 0 := by
  rw [Access.conflicts, Access.consults, if_pos nothing]
  rfl

/-- What one call does to the reports and to the flags, whatever way it takes. -/
theorem checkDataRace_effect {done : Checked} (ran : checkDataRace flags h a reports = .ok done) :
    reports.Grown flags done.reports (a.conflicts h) ∧
      done.history.dataRaceFound = (h.dataRaceFound || a.conflicts h != 0) ∧
      (h.memIsRecycled = false → done.history.memIsRecycled = false) := by
  by_cases unchecked : a.Unchecked
  · rw [checkDataRace_unchecked unchecked] at ran
    cases ran
    rw [a.conflicts_none (.inl unchecked)]
    exact ⟨RaceReports.Grown.refl .., by simp, id⟩
  cases found : h.dataRaceFound with
  | true =>
    rw [checkDataRace_found unchecked found] at ran
    cases ran
    rw [a.conflicts_none (.inr (.inl found))]
    exact ⟨RaceReports.Grown.refl .., found, id⟩
  | false =>
    cases recycled : h.memIsRecycled with
    | true =>
      rw [checkDataRace_recycled unchecked found recycled] at ran
      cases ran
      rw [a.conflicts_none (.inr (.inr recycled))]
      have start : AccessHistory.new.dataRaceFound = false := by decide
      exact ⟨RaceReports.Grown.refl .., start, fun no => by cases no⟩
    | false =>
      have looks : ¬(a.Unchecked ∨ h.dataRaceFound = true ∨ h.memIsRecycled = true) := by
        simp [unchecked, found, recycled]
      rw [Access.conflicts, Access.consults, if_neg looks]
      by_cases empty : h.records = []
      · rw [checkDataRace_first unchecked found recycled empty] at ran
        cases ran
        rw [empty]
        exact ⟨RaceReports.Grown.refl .., found, fun _ => recycled⟩
      · rw [checkDataRace_scan unchecked found recycled empty] at ran
        obtain ⟨⟨scan, left⟩, scanned, ran⟩ := ok_of_bind ran
        cases ran
        obtain ⟨grown, state⟩ := scanRecords_conflicts scanned
        change scan.state = if Romp.conflicts a.context a.record a.context.taskDepGraph h.records = 0
          then h.state else h.state ||| AccessHistoryFlag.eDataRaceFound.code at state
        refine ⟨grown, ?_, fun _ => ?_⟩
        · simp only [AccessHistory.dataRaceFound, state]
          rw [found_or]
          exact congrArg (· || _) found
        · simp only [AccessHistory.memIsRecycled, state] at recycled ⊢
          by_cases quiet : Romp.conflicts a.context a.record a.context.taskDepGraph h.records = 0
          · rw [if_pos quiet]
            exact recycled
          · rw [if_neg quiet, recycled_setFlag]
            exact recycled

/-- A call that looks at the location leaves a record there, unless a race or a recycling is found. -/
theorem checkDataRace_filled {done : Checked} (checked : ¬a.Unchecked) (clean : h.dataRaceFound = false)
    (fresh : h.memIsRecycled = false) (ran : checkDataRace flags h a reports = .ok done) :
    done.history.records ≠ [] := by
  by_cases empty : h.records = []
  · rw [checkDataRace_first checked clean fresh empty] at ran
    cases ran
    exact List.cons_ne_nil a.record []
  · rw [checkDataRace_scan checked clean fresh empty] at ran
    obtain ⟨⟨scan, left⟩, scanned, ran⟩ := ok_of_bind ran
    cases ran
    cases skips : scan.skipAddCur with
    | true => exact (scanRecords_kept scanned skips).resolve_left Bool.false_ne_true
    | false => exact List.append_ne_nil_of_right_ne_nil left (List.cons_ne_nil a.record [])

theorem checkEach_append (first rest : List Access) : checkEach flags h reports (first ++ rest) =
    (checkEach flags h reports first).bind fun (h, reports) => checkEach flags h reports rest := by
  induction first generalizing h reports with
  | nil => rfl
  | cons a first ih =>
    rw [List.cons_append, checkEach, checkEach]
    cases called : checkDataRace flags h a reports with
    | error text => rfl
    | ok done => exact ih

theorem checkEach_unchecked {accesses : List Access} (unchecked : ∀ a ∈ accesses, a.Unchecked) :
    checkEach flags h reports accesses = .ok (h, reports) := by
  induction accesses with
  | nil => rfl
  | cons a rest ih =>
    rw [checkEach, checkDataRace_unchecked (unchecked a List.mem_cons_self)]
    exact ih fun b member => unchecked b (List.mem_cons_of_mem _ member)

theorem checkEach_skips {skipped : List Access} (unchecked : ∀ a ∈ skipped, a.Unchecked) (rest : List Access) :
    checkEach flags h reports (skipped ++ rest) = checkEach flags h reports rest := by
  rw [checkEach_append, checkEach_unchecked unchecked]
  rfl

theorem checkEach_cons {done : Checked} (called : checkDataRace flags h a reports = .ok done)
    (rest : List Access) :
    checkEach flags h reports (a :: rest) = checkEach flags done.history done.reports rest := by
  rw [checkEach, called]
  rfl

end Calls

end Romp
