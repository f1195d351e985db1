import Romp.Access.Calls
import Romp.Checks.Threads

namespace Romp

def Judges (ctx : Context) (cur r : Record) (before : Bool) : Prop :=
  happensBefore (ctx.heap.read r.label) (ctx.heap.read cur.label) = .ok before

def conflict (cur r : Record) (before : Bool) : Bool := !before && (r.isWrite || cur.isWrite)

structure Record.Bare (ctx : Context) (cur : Record) : Prop where
  lockSet : cur.lockSet = none
  inReduction : (ctx.tasks cur.taskPtr).inReduction = false

def RaceReports.Tells (reports : RaceReports) (info : DataRaceInfo) : Prop :=
  info ∈ reports.gDataRaceRecords ∨ info ∈ reports.runtimeReports

section Scan

variable {ctx : Context} {flags : ReportFlags} {checkInfo : CheckInfo} {cur r : Record} {before : Bool}

def Spared (ctx : Context) (cur r : Record) : Prop :=
  analyzeMutualExclusion r cur = true ∨ (ctx.tasks cur.taskPtr).inReduction = true

theorem Record.Bare.not_spared (bare : cur.Bare ctx) : ¬Spared ctx cur r := by
  rintro (excluded | reduction)
  · rw [analyzeMutualExclusion, bare.lockSet] at excluded
    cases lockSet : r.lockSet <;> simp [lockSet] at excluded
  · exact absurd (bare.inReduction.symm.trans reduction) Bool.false_ne_true

theorem analyzeRaceCondition_spared (spared : Spared ctx cur r) (graph : Option TaskDepGraph) (stale : Bool)
    (diffIndex : Int) :
    analyzeRaceCondition { ctx with taskDepGraph := graph } r cur stale diffIndex = .ok ⟨false, stale, diffIndex, graph⟩ := by
  unfold analyzeRaceCondition
  by_cases excluded : analyzeMutualExclusion r cur = true
  · rw [if_pos excluded]
  · rw [if_neg excluded, if_pos (spared.resolve_left excluded)]

theorem analyzeRaceCondition_judged (implicit : (ctx.tasks cur.taskPtr).isExplicitTask = false)
    (judges : Judges ctx cur r before) (met : ¬Spared ctx cur r) (graph : Option TaskDepGraph) (stale : Bool)
    (diffIndex : Int) :
    analyzeRaceCondition { ctx with taskDepGraph := graph } r cur stale diffIndex =
      .ok ⟨conflict cur r before, before, compareLabels (ctx.heap.read r.label) (ctx.heap.read cur.label), graph⟩ := by
  obtain ⟨apart, calm⟩ := not_or.mp met
  have decided : decideOrder { ctx with taskDepGraph := graph } r cur = .ok (before, graph) := by
    rw [decideOrder, judges]
    cases before <;> simp [bind, Except.bind, implicit]
  simp [analyzeRaceCondition, apart, calm, decided, conflict, bind, Except.bind]

theorem reportRace_tells {reports : RaceReports} {info : DataRaceInfo}
    (told : (reportRace flags r cur checkInfo reports).Tells info) :
    reports.Tells info ∨ info = ⟨r.instnAddr, cur.instnAddr, checkInfo.byteAddress⟩ := by
  unfold reportRace at told
  rcases told with told | told
  · simp only at told
    split at told
    · rcases List.mem_append.mp told with old | new
      · exact .inl (.inl old)
      · exact .inr (List.mem_singleton.mp new)
    · exact .inl (.inl told)
  · simp only at told
    split at told
    · rcases List.mem_append.mp told with old | new
      · exact .inl (.inr old)
      · exact .inr (List.mem_singleton.mp new)
    · exact .inl (.inr told)

/-- What an iteration does that finds a race or does not. Of an access that nothing protects it finds every race; the
    record then goes only where the access is ordered behind it, and makes the access be left out only where it stays
    and has the label of the access. -/
structure Scanned (ctx : Context) (checkInfo : CheckInfo) (cur r : Record) (before : Bool) (scan scan' : Scan)
    (stays races : Bool) : Prop where
  real : races = true → conflict cur r before = true ∧ ¬Spared ctx cur r
  found : scan'.found = (scan.found || races)
  recycled : scan'.recycled = scan.recycled
  graph : scan'.taskDepGraph = scan.taskDepGraph
  flagged : scan'.reports.gDataRaceFound = (scan.reports.gDataRaceFound || races)
  told : ∀ info, scan'.reports.Tells info → scan.reports.Tells info ∨
    races = true ∧ info = ⟨r.instnAddr, cur.instnAddr, checkInfo.byteAddress⟩
  misses : cur.Bare ctx → races = conflict cur r before
  deleted : cur.Bare ctx → stays = false → before = true ∧ (r.isWrite = true → cur.isWrite = true)
  skips : cur.Bare ctx → scan'.skipAddCur = true → scan.skipAddCur = true ∨
    stays = true ∧ sameLabel ctx r cur ∧ (cur.isWrite = true → r.isWrite = true)

variable (flags checkInfo) in
theorem scanRecord_spared (spared : Spared ctx cur r) (scan : Scan) :
    ∃ scan' stays, scanRecord ctx flags checkInfo cur r scan = .ok (scan', stays) ∧
      Scanned ctx checkInfo cur r before scan scan' stays false := by
  have protects : ¬cur.Bare ctx := fun bare => bare.not_spared spared
  rw [scanRecord, analyzeRaceCondition_spared spared]
  refine ⟨_, _, rfl, fun races => ?_, (Bool.or_false _).symm, rfl, rfl, (Bool.or_false _).symm, fun info => .inl,
    fun bare => ?_, fun bare => ?_, fun bare => ?_⟩
  · exact absurd races Bool.false_ne_true
  · exact absurd bare protects
  · exact absurd bare protects
  · exact absurd bare protects

variable (flags checkInfo) in
theorem scanRecord_judged (implicit : (ctx.tasks cur.taskPtr).isExplicitTask = false)
    (judges : Judges ctx cur r before) (met : ¬Spared ctx cur r) (scan : Scan) :
    ∃ scan' stays, scanRecord ctx flags checkInfo cur r scan = .ok (scan', stays) ∧
      Scanned ctx checkInfo cur r before scan scan' stays (conflict cur r before) := by
  rw [scanRecord, analyzeRaceCondition_judged implicit judges met]
  refine ⟨_, _, rfl, fun races => ⟨races, met⟩, ?_, ?_, rfl, ?_, fun info told => ?_, fun _ => rfl, fun _ erased => ?_,
    fun _ skips => ?_⟩
  · simp only [Scan.found]
    cases conflict cur r before with
    | true =>
      rw [if_pos rfl, found_setFlag, Bool.or_true]
    | false =>
      rw [if_neg Bool.false_ne_true, Bool.or_false]
  · simp only [Scan.recycled]
    split
    · exact recycled_setFlag _
    · rfl
  · cases conflict cur r before with
    | true => simp [reportRace]
    | false => simp
  · simp only at told
    cases race : conflict cur r before with
    | false =>
      rw [race] at told
      exact .inl told
    | true =>
      rw [race] at told
      exact (reportRace_tells told).imp_right fun same => ⟨rfl, same⟩
  · obtain ⟨ordered, write, -⟩ := manageAccessRecord_delHist (by simpa using erased)
    exact ⟨ordered, write⟩
  · rcases Bool.or_eq_true_iff.mp skips with earlier | decision
    · exact .inl earlier
    · obtain ⟨same, write, -⟩ := manageAccessRecord_skipAddCur (of_decide_eq_true decision)
      refine .inr ⟨?_, same, write⟩
      rw [of_decide_eq_true decision]
      rfl

variable (flags checkInfo) in
theorem scanRecord_scanned (implicit : (ctx.tasks cur.taskPtr).isExplicitTask = false)
    (judges : Judges ctx cur r before) (scan : Scan) :
    ∃ scan' stays races, scanRecord ctx flags checkInfo cur r scan = .ok (scan', stays) ∧
      Scanned ctx checkInfo cur r before scan scan' stays races := by
  by_cases spared : Spared ctx cur r
  · obtain ⟨scan', stays, scanned⟩ := scanRecord_spared flags checkInfo spared scan
    exact ⟨scan', stays, _, scanned⟩
  · obtain ⟨scan', stays, scanned⟩ := scanRecord_judged flags checkInfo implicit judges spared scan
    exact ⟨scan', stays, _, scanned⟩

theorem not_spared_locks (met : ¬Spared ctx cur r) :
    ∀ lock ∈ (lockBag r.lockSet).getD 0, lock ∉ (lockBag cur.lockSet).getD 0 := by
  have apart := Bool.eq_false_iff.mpr (not_or.mp met).1
  unfold analyzeMutualExclusion at apart
  intro lock inHist inCur
  cases hist : r.lockSet with
  | none => simp [lockBag, hist] at inHist
  | some held =>
    cases mine : cur.lockSet with
    | none => simp [lockBag, mine] at inCur
    | some held' =>
      rw [hist, mine] at apart
      rw [hist] at inHist
      rw [mine] at inCur
      obtain ⟨common, -⟩ := Bool.or_eq_false_iff.mp apart
      have shared : held.hasCommonLock held' = true :=
        List.any_eq_true.mpr ⟨lock, inHist, List.any_eq_true.mpr ⟨lock, inCur, beq_self_eq_true lock⟩⟩
      exact absurd (common.symm.trans shared) Bool.false_ne_true

end Scan

end Romp
