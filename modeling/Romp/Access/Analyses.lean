import Romp.Access.Calls

namespace Romp

/-- What `analyzeRaceCondition` answers for the records, one after the other: where it returns early, the
    out-parameters are what they were after the record before. -/
def analyses (ctx : Context) (cur : Record) : Option TaskDepGraph → Bool × Int → List Record →
    Except Abort (List (Record × RaceAnalysis))
  | _, _, [] => .ok []
  | graph, stale, hist :: rest => do
    let analysis ← analyzeRaceCondition { ctx with taskDepGraph := graph } hist cur stale.1 stale.2
    let later ← analyses ctx cur analysis.taskDepGraph (analysis.isHistBeforeCur, analysis.diffIndex) rest
    .ok ((hist, analysis) :: later)

def manages (cur : Record) (p : Record × RaceAnalysis) : RecordManagement :=
  manageAccessRecord p.1 cur p.2.isHistBeforeCur p.2.diffIndex

namespace Access

def analyses (a : Access) (records : List Record) : Except Abort (List (Record × RaceAnalysis)) :=
  Romp.analyses a.context a.record a.context.taskDepGraph (false, a.uninitialised.diffIndex) records

def deletes (a : Access) (p : Record × RaceAnalysis) : Bool := manages a.record p = .eDelHist

def skipsFor (a : Access) (p : Record × RaceAnalysis) : Bool := manages a.record p = .eSkipAddCur

def leaves (a : Access) (analysed : List (Record × RaceAnalysis)) : List Record :=
  ((analysed.filter fun p => !a.deletes p).map Prod.fst) ++ if analysed.any a.skipsFor then [] else [a.record]

end Access

section Scan

variable {ctx : Context} {flags : ReportFlags} {info : CheckInfo} {cur : Record}

theorem analyses_cons {graph : Option TaskDepGraph} {stale : Bool × Int} {hist : Record} {rest : List Record}
    {analysed : List (Record × RaceAnalysis)} (ok : analyses ctx cur graph stale (hist :: rest) = .ok analysed) :
    ∃ analysis later, analyzeRaceCondition { ctx with taskDepGraph := graph } hist cur stale.1 stale.2 = .ok analysis ∧
      analyses ctx cur analysis.taskDepGraph (analysis.isHistBeforeCur, analysis.diffIndex) rest = .ok later ∧
      analysed = (hist, analysis) :: later := by
  obtain ⟨analysis, first, ok⟩ := ok_of_bind ok
  obtain ⟨later, second, ok⟩ := ok_of_bind ok
  cases ok
  exact ⟨analysis, later, first, second, rfl⟩

theorem analyses_records {graph : Option TaskDepGraph} {stale : Bool × Int} {records : List Record}
    {analysed : List (Record × RaceAnalysis)} (ok : analyses ctx cur graph stale records = .ok analysed) :
    analysed.map Prod.fst = records := by
  induction records generalizing graph stale analysed with
  | nil =>
    cases ok
    rfl
  | cons hist rest ih =>
    obtain ⟨analysis, later, -, second, rfl⟩ := analyses_cons ok
    rw [List.map_cons, ih second]

variable (flags info) in
theorem scanRecords_analyses {records : List Record} {analysed : List (Record × RaceAnalysis)} (scan : Scan)
    (ok : analyses ctx cur scan.taskDepGraph (scan.isHistBeforeCurrent, scan.diffIndex) records = .ok analysed) :
    ∃ scan', scanRecords ctx flags info cur records scan =
        .ok (scan', (analysed.filter fun p => manages cur p ≠ .eDelHist).map Prod.fst) ∧
      scan'.skipAddCur = (scan.skipAddCur || analysed.any fun p => manages cur p = .eSkipAddCur) ∧
      scan'.found = (scan.found || analysed.any fun p => p.2.race) := by
  induction records generalizing scan analysed with
  | nil =>
    cases ok
    exact ⟨scan, rfl, by simp, by simp⟩
  | cons hist rest ih =>
    obtain ⟨analysis, later, first, second, rfl⟩ := analyses_cons ok
    obtain ⟨next, scanned, before, index, graph, skips, found⟩ :
        ∃ next, scanRecord ctx flags info cur hist scan =
            .ok (next, decide (manages cur (hist, analysis) ≠ .eDelHist)) ∧
          next.isHistBeforeCurrent = analysis.isHistBeforeCur ∧ next.diffIndex = analysis.diffIndex ∧
          next.taskDepGraph = analysis.taskDepGraph ∧
          next.skipAddCur = (scan.skipAddCur || decide (manages cur (hist, analysis) = .eSkipAddCur)) ∧
          next.found = (scan.found || analysis.race) := by
      unfold scanRecord
      rw [first]
      refine ⟨_, rfl, rfl, rfl, rfl, rfl, ?_⟩
      cases raced : analysis.race with
      | false => simp [Scan.found]
      | true => simp only [Scan.found, if_true, found_setFlag, Bool.or_true]
    rw [← before, ← index, ← graph] at second
    obtain ⟨scan', rests, skips', found'⟩ := ih next second
    refine ⟨scan', ?_, ?_, ?_⟩
    · unfold scanRecords
      rw [scanned]
      simp only [bind, Except.bind, rests, List.filter_cons]
      split <;> rfl
    · rw [skips', skips, List.any_cons, Bool.or_assoc]
    · rw [found', found, List.any_cons, Bool.or_assoc]

theorem analyzeRaceCondition_edges {r : Record} {before : Bool} {diffIndex : Int} {analysis : RaceAnalysis}
    (analyzed : analyzeRaceCondition ctx r cur before diffIndex = .ok analysis) :
    SameEdges analysis.taskDepGraph ctx.taskDepGraph := by
  unfold analyzeRaceCondition at analyzed
  split at analyzed
  · cases analyzed
    rfl
  · split at analyzed
    · cases analyzed
      rfl
    · obtain ⟨order, decided, analyzed⟩ := ok_of_bind analyzed
      cases analyzed
      exact decideOrder_keeps_edges decided

theorem analyses_one {graph : Option TaskDepGraph} {stale : Bool × Int} {records : List Record}
    {analysed : List (Record × RaceAnalysis)} (ok : analyses ctx cur graph stale records = .ok analysed)
    (edges : SameEdges graph ctx.taskDepGraph) {p : Record × RaceAnalysis} (member : p ∈ analysed) :
    ∃ graph' before diffIndex, SameEdges graph' ctx.taskDepGraph ∧
      analyzeRaceCondition { ctx with taskDepGraph := graph' } p.1 cur before diffIndex = .ok p.2 := by
  induction records generalizing graph stale analysed with
  | nil =>
    cases ok
    cases member
  | cons hist rest ih =>
    obtain ⟨analysis, later, first, second, rfl⟩ := analyses_cons ok
    rcases List.mem_cons.mp member with rfl | member
    · exact ⟨graph, stale.1, stale.2, edges, first⟩
    · exact ih second ((analyzeRaceCondition_edges first).trans edges) member

theorem scanRecords_edges {records left : List Record} {scan scan' : Scan}
    (scanned : scanRecords ctx flags info cur records scan = .ok (scan', left)) :
    SameEdges scan'.taskDepGraph scan.taskDepGraph := by
  induction records generalizing scan left with
  | nil =>
    cases scanned
    rfl
  | cons hist rest ih =>
    obtain ⟨next, kept, others, first, second, -⟩ := scanRecords_cons scanned
    unfold scanRecord at first
    obtain ⟨analysis, analysed, first⟩ := ok_of_bind first
    have one := analyzeRaceCondition_edges analysed
    cases first
    exact (ih second).trans one

theorem analyses_of_scan {records left : List Record} {scan scan' : Scan}
    (scanned : scanRecords ctx flags info cur records scan = .ok (scan', left)) :
    ∃ analysed, analyses ctx cur scan.taskDepGraph (scan.isHistBeforeCurrent, scan.diffIndex) records =
      .ok analysed := by
  induction records generalizing scan left with
  | nil => exact ⟨[], rfl⟩
  | cons hist rest ih =>
    obtain ⟨next, kept, others, first, second, -⟩ := scanRecords_cons scanned
    unfold scanRecord at first
    obtain ⟨analysis, analysed, first⟩ := ok_of_bind first
    cases first
    obtain ⟨later, rests⟩ := ih second
    refine ⟨(hist, analysis) :: later, ?_⟩
    rw [analyses, analysed]
    simp only [bind, Except.bind, rests]

end Scan

section Call

variable {flags : ReportFlags} {a : Access} {h : AccessHistory} {reports : RaceReports} {done : Checked}

theorem checkDataRace_looks (checked : ¬a.Unchecked) (clean : h.dataRaceFound = false) (fresh : h.memIsRecycled = false) :
    checkDataRace flags h a reports =
      (scanRecords a.context flags a.info a.record h.records (a.scan h reports)).bind fun (scan, records) =>
        .ok ⟨⟨scan.state, if scan.skipAddCur then records else records ++ [a.record]⟩, scan.reports,
          scan.taskDepGraph⟩ := by
  by_cases empty : h.records = []
  · rw [checkDataRace_first checked clean fresh empty, empty]
    rfl
  · exact checkDataRace_scan checked clean fresh empty

variable (flags reports) in
theorem checkDataRace_ok (checked : ¬a.Unchecked) (clean : h.dataRaceFound = false)
    (fresh : h.memIsRecycled = false) {analysed : List (Record × RaceAnalysis)}
    (ok : a.analyses h.records = .ok analysed) :
    ∃ done, checkDataRace flags h a reports = .ok done ∧ done.history.records = a.leaves analysed ∧
      done.history.dataRaceFound = analysed.any fun p => p.2.race := by
  obtain ⟨scan, scanned, skips, found⟩ := scanRecords_analyses flags a.info (a.scan h reports) ok
  rw [checkDataRace_looks checked clean fresh, scanned]
  refine ⟨_, rfl, ?_, ?_⟩
  · have skips : scan.skipAddCur = analysed.any a.skipsFor := skips.trans (Bool.false_or _)
    simp only [skips, Access.leaves, Access.deletes]
    split <;> simp
  · have start : (a.scan h reports).found = false := clean
    rw [start, Bool.false_or] at found
    exact found

theorem checkDataRace_analysed (checked : ¬a.Unchecked) (clean : h.dataRaceFound = false)
    (fresh : h.memIsRecycled = false) (ran : checkDataRace flags h a reports = .ok done) :
    ∃ analysed, a.analyses h.records = .ok analysed ∧ done.history.records = a.leaves analysed ∧
      done.history.dataRaceFound = analysed.any fun p => p.2.race := by
  rw [checkDataRace_looks checked clean fresh] at ran
  obtain ⟨⟨scan, left⟩, scanned, ended⟩ := ok_of_bind ran
  obtain ⟨analysed, ok⟩ := analyses_of_scan scanned
  obtain ⟨done', ran', facts⟩ := checkDataRace_ok flags reports checked clean fresh ok
  rw [checkDataRace_looks checked clean fresh, ran, Except.ok.injEq] at ran'
  subst ran'
  exact ⟨analysed, ok, facts⟩

theorem checkDataRace_edges (ran : checkDataRace flags h a reports = .ok done) :
    SameEdges done.taskDepGraph a.context.taskDepGraph := by
  by_cases unchecked : a.Unchecked
  · rw [checkDataRace_unchecked unchecked] at ran
    cases ran
    rfl
  cases found : h.dataRaceFound with
  | true =>
    rw [checkDataRace_found unchecked found] at ran
    cases ran
    rfl
  | false =>
    cases recycled : h.memIsRecycled with
    | true =>
      rw [checkDataRace_recycled unchecked found recycled] at ran
      cases ran
      rfl
    | false =>
      rw [checkDataRace_looks unchecked found recycled] at ran
      obtain ⟨⟨scan, left⟩, scanned, ran⟩ := ok_of_bind ran
      cases ran
      exact scanRecords_edges scanned

end Call

end Romp
