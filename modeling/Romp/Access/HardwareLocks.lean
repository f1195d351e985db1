import Romp.Access.Repeats

namespace Romp

def Access.on (a : Access) (uninitialised : Uninitialised) : Access := { a with uninitialised }

/-- Two accesses that race, but for the hardware lock: by tasks that are not ordered, not both reads, under no common
    lock. -/
structure RacingPair (x y : Access) : Prop where
  unordered : ∃ graph, decideOrder y.context x.record y.record = .ok (false, graph)
  others : x.info.taskPtr ≠ y.info.taskPtr
  write : x.info.isWrite = true ∨ y.info.isWrite = true
  noLock : ¬∃ lock ∈ heldLocks x.lockSet, lock ∈ heldLocks y.lockSet

/-- An access covers an earlier one when it is ordered after it or made by the same explicit task, is a write if that is
    one, and holds no other locks. -/
def Access.Covering (b x : Access) : Prop :=
  (orderedBefore b.context x.record b.record = true ∨
    (b.context.tasks b.info.taskPtr).isExplicitTask = true ∧ x.info.taskPtr = b.info.taskPtr) ∧
  (x.info.isWrite = true → b.info.isWrite = true) ∧ heldLocks b.lockSet ⊆ heldLocks x.lockSet

/-- The history before, the accesses in between and the bytes that the stack holds at each call. -/
structure Between (x : Access) where
  history : AccessHistory
  reports : RaceReports
  accesses : List Access
  first : Uninitialised
  second : Uninitialised

def Between.Uncovered {x : Access} (i : Between x) : Prop := ∀ b ∈ i.accesses, ¬b.Covering x

/-- The record is analysed for the access, and not deleted. -/
def Access.Spares (b : Access) (h : AccessHistory) (r : Record) : Prop :=
  b.Unchecked ∨ h.memIsRecycled = false ∧
    ∃ analysed, b.analyses h.records = .ok analysed ∧ ∃ p ∈ analysed, p.1 = r ∧ b.deletes p = false

namespace Between

variable {x : Access}

def record (i : Between x) : Record := (x.on i.first).record

/-- The first access is recorded, as no record stands for it, or a record like its own is there and stays. -/
def Recorded (i : Between x) : Prop :=
  (¬x.Unchecked ∧ i.history.memIsRecycled = false ∧
    ∃ analysed, (x.on i.first).analyses i.history.records = .ok analysed ∧
      analysed.any (x.on i.first).skipsFor = false) ∨
    i.record ∈ i.history.records ∧ (x.on i.first).Spares i.history i.record

/-- An access in between for which `analyzeRaceCondition` returns early on the record does not delete it, and none
    finds the memory recycled. -/
def Spared (flags : ReportFlags) (i : Between x) : Prop :=
  ∀ before b h reports, before ++ [b] <+: i.accesses →
    checkEach flags i.history i.reports (x.on i.first :: before) = .ok (h, reports) → h.dataRaceFound = false →
      analyzeMutualExclusion i.record b.record = true ∨ h.memIsRecycled = true → b.Spares h i.record

end Between

section Call

variable {flags : ReportFlags} {b : Access} {h : AccessHistory} {reports : RaceReports} {done : Checked} {r : Record}

theorem found_stays (ran : checkDataRace flags h b reports = .ok done) (found : h.dataRaceFound = true) :
    done.history.dataRaceFound = true := by
  rw [(checkDataRace_effect ran).2.1, found]
  rfl

theorem found_stays_each {accesses : List Access} {h' : AccessHistory} {reports' : RaceReports}
    (ran : checkEach flags h reports accesses = .ok (h', reports')) (quiet : h'.dataRaceFound = false) :
    h.dataRaceFound = false := by
  induction accesses generalizing h reports with
  | nil =>
    cases ran
    exact quiet
  | cons a rest ih =>
    obtain ⟨done, called, ran⟩ := ok_of_bind ran
    have later := ih ran
    rw [(checkDataRace_effect called).2.1, Bool.or_eq_false_iff] at later
    exact later.1

theorem Access.mem_leaves {analysed : List (Record × RaceAnalysis)} : r ∈ b.leaves analysed ↔
    (∃ p ∈ analysed, p.1 = r ∧ b.deletes p = false) ∨ r = b.record ∧ analysed.any b.skipsFor = false := by
  rw [Access.leaves, List.mem_append]
  apply or_congr
  · simp only [List.mem_map, List.mem_filter, Bool.not_eq_true']
    exact exists_congr fun p => by tauto
  · cases analysed.any b.skipsFor <;> simp

theorem checkDataRace_holds_iff (checked : ¬b.Unchecked) (clean : h.dataRaceFound = false)
    (ran : checkDataRace flags h b reports = .ok done) :
    r ∈ done.history.records ↔ b.Spares h r ∨ h.memIsRecycled = false ∧
      ∃ analysed, b.analyses h.records = .ok analysed ∧ r = b.record ∧ analysed.any b.skipsFor = false := by
  cases recycled : h.memIsRecycled with
  | true =>
    rw [checkDataRace_recycled checked clean recycled] at ran
    cases ran
    simp [Access.Spares, checked, recycled, AccessHistory.new]
  | false =>
  obtain ⟨analysed, ok, left, -⟩ := checkDataRace_analysed checked clean recycled ran
  rw [left, Access.mem_leaves]
  constructor
  · rintro (stays | comes)
    · exact .inl (.inr ⟨recycled, analysed, ok, stays⟩)
    · exact .inr ⟨rfl, analysed, ok, comes⟩
  · rintro ((unchecked | ⟨-, analysed', ok', stays⟩) | ⟨-, analysed', ok', comes⟩)
    · exact absurd unchecked checked
    · cases ok.symm.trans ok'
      exact .inl stays
    · cases ok.symm.trans ok'
      exact .inr comes

theorem Access.analysed_of_mem {records : List Record} {analysed : List (Record × RaceAnalysis)}
    (ok : b.analyses records = .ok analysed) (inside : r ∈ records) : ∃ p ∈ analysed, p.1 = r := by
  rw [← analyses_records ok] at inside
  exact List.mem_map.mp inside

theorem analyses_reduction {ctx : Context} {cur : Record} (reduction : (ctx.tasks cur.taskPtr).inReduction = true)
    {graph : Option TaskDepGraph} {diffIndex : Int} {records : List Record} {analysed : List (Record × RaceAnalysis)}
    (ok : analyses ctx cur graph (false, diffIndex) records = .ok analysed) {p : Record × RaceAnalysis}
    (member : p ∈ analysed) : p.2.isHistBeforeCur = false ∧ p.2.race = false := by
  induction records generalizing graph analysed with
  | nil =>
    cases ok
    cases member
  | cons hist rest ih =>
    obtain ⟨analysis, later, first, second, rfl⟩ := analyses_cons ok
    have early : analyzeRaceCondition { ctx with taskDepGraph := graph } hist cur false diffIndex =
        .ok ⟨false, false, diffIndex, graph⟩ := by
      unfold analyzeRaceCondition
      split <;> rfl
    cases first.symm.trans early
    rcases List.mem_cons.mp member with rfl | member
    · exact ⟨rfl, rfl⟩
    · exact ih second member

theorem Access.spares_of_compared {x : Access} {u : Uninitialised} (ran : checkDataRace flags h b reports = .ok done)
    (clean : h.dataRaceFound = false) (fresh : h.memIsRecycled = false) (inside : (x.on u).record ∈ h.records)
    (alone : analyzeMutualExclusion (x.on u).record b.record = false) (covered : ¬b.Covering x) :
    b.Spares h (x.on u).record := by
  by_cases unchecked : b.Unchecked
  · exact .inl unchecked
  right
  obtain ⟨analysed, ok, -⟩ := checkDataRace_analysed unchecked clean fresh ran
  obtain ⟨p, member, same⟩ := Access.analysed_of_mem ok inside
  refine ⟨fresh, analysed, ok, p, member, same, ?_⟩
  rw [← Bool.not_eq_true]
  intro deleted
  obtain ⟨before, write, subset⟩ := manageAccessRecord_delHist (of_decide_eq_true deleted)
  cases calm : (b.context.tasks b.record.taskPtr).inReduction with
  | true =>
    have late := (analyses_reduction calm ok member).1
    cases before.symm.trans late
  | false =>
    obtain ⟨graph, stale, diffIndex, edges, analysis⟩ := analyses_one ok rfl member
    rw [same] at analysis write subset
    obtain ⟨decided, -, -, verdict, compared⟩ := analyzeRaceCondition_compared calm alone analysis
    have writes : x.info.isWrite = true → b.info.isWrite = true := by simpa [Access.record, Access.on] using write
    have decides : Decides b.context b.record (x.on u).record := decides_of_happensBefore compared fun explicit task =>
      absurd ⟨.inr ⟨explicit, task⟩, writes, isSubset_sound subset⟩ covered
    obtain ⟨graph', ordered⟩ := decides graph edges
    rw [ordered, Except.ok.injEq, Prod.mk.injEq, before] at decided
    exact covered ⟨.inl decided.1, writes, isSubset_sound subset⟩

end Call

section Pair

variable {flags : ReportFlags} {x y : Access} {i : Between x} {h : AccessHistory} {reports : RaceReports}

theorem Between.Uncovered.other (open_ : i.Uncovered) {b : Access} (member : b ∈ i.accesses) : i.record ≠ b.record := by
  intro same
  refine open_ b member ⟨.inl ?_, ?_, ?_⟩
  · have label : x.label = b.label := congrArg Record.label same
    simp [orderedBefore, decideOrder, Access.record, label, happensBefore_self, bind, Except.bind]
  · intro write
    have kind : i.record.isWrite = b.record.isWrite := congrArg Record.isWrite same
    have first : i.record.isWrite = x.info.isWrite := Record.make_isWrite ..
    have second : b.record.isWrite = b.info.isWrite := Record.make_isWrite ..
    rw [← second, ← kind, first, write]
  · have locks : x.lockSet = b.lockSet := congrArg Record.lockSet same
    rw [locks]
    exact List.Subset.refl _

theorem Between.recorded_iff {done : Checked}
    (ran : checkDataRace flags i.history (x.on i.first) i.reports = .ok done)
    (quiet : done.history.dataRaceFound = false) : i.record ∈ done.history.records ↔ i.Recorded := by
  have clean : i.history.dataRaceFound = false := by
    have found := (checkDataRace_effect ran).2.1
    rw [quiet] at found
    exact (Bool.or_eq_false_iff.mp found.symm).1
  by_cases unchecked : (x.on i.first).Unchecked
  · rw [checkDataRace_unchecked unchecked] at ran
    cases ran
    refine ⟨fun there => .inr ⟨there, .inl unchecked⟩, fun recorded => ?_⟩
    rcases recorded with ⟨checked, -⟩ | ⟨there, -⟩
    · exact absurd unchecked checked
    · exact there
  · rw [checkDataRace_holds_iff unchecked clean ran]
    constructor
    · rintro (stays | ⟨fresh, analysed, ok, -, added⟩)
      · refine .inr ⟨?_, stays⟩
        obtain ⟨-, analysed, ok, p, member, same, -⟩ := stays.resolve_left unchecked
        rw [← same, ← analyses_records ok]
        exact List.mem_map_of_mem member
      · exact .inl ⟨unchecked, fresh, analysed, ok, added⟩
    · rintro (⟨-, fresh, analysed, ok, added⟩ | ⟨-, stays⟩)
      · exact .inr ⟨fresh, analysed, ok, rfl, added⟩
      · exact .inl stays

/-- The record of the first access is in the history that the second one meets exactly when it has been recorded and
    no early return has cost it. -/
theorem Between.stays_iff (open_ : i.Uncovered)
    (ran : checkEach flags i.history i.reports (x.on i.first :: i.accesses) = .ok (h, reports))
    (quiet : h.dataRaceFound = false) : i.record ∈ h.records ↔ i.Recorded ∧ i.Spared flags := by
  obtain ⟨first, called, later⟩ := ok_of_bind ran
  have recorded := i.recorded_iff called (found_stays_each later quiet)
  have states : ∀ before, before <+: i.accesses → ∃ g rs,
      checkEach flags i.history i.reports (x.on i.first :: before) = .ok (g, rs) ∧ g.dataRaceFound = false ∧
        (i.record ∈ h.records → i.record ∈ g.records) := by
    intro before start
    obtain ⟨rest, split⟩ := start
    rw [← split, ← List.cons_append, checkEach_append] at ran
    obtain ⟨⟨g, rs⟩, reached, rests⟩ := ok_of_bind ran
    refine ⟨g, rs, reached, found_stays_each rests quiet, fun there => ?_⟩
    rcases checkEach_records rests _ there with old | ⟨b, member, same⟩
    · exact old
    · exact absurd same (open_.other (split ▸ List.mem_append_right _ member))
  constructor
  · intro there
    obtain ⟨g, rs, reached, -, inside⟩ := states [] (List.nil_prefix)
    have same : checkEach flags i.history i.reports [x.on i.first] = .ok (first.history, first.reports) :=
      (checkEach_cons called []).trans rfl
    cases same.symm.trans reached
    refine ⟨recorded.mp (inside there), fun before b g rs start reached clean _ => ?_⟩
    obtain ⟨g', rs', reached', -, inside⟩ := states (before ++ [b]) start
    rw [← List.cons_append] at reached'
    obtain ⟨g₁, rs₁, done, reached₁, call, rfl, rfl⟩ := checkEach_concat reached'
    cases reached.symm.trans reached₁
    have stays := inside there
    by_cases unchecked : b.Unchecked
    · exact .inl unchecked
    · rcases (checkDataRace_holds_iff unchecked clean call).mp stays with spares | ⟨_, _, _, same, _⟩
      · exact spares
      · exact absurd same (open_.other (start.subset (by simp)))
  · rintro ⟨there, spared⟩
    have all : ∀ before, before <+: i.accesses → ∀ g rs,
        checkEach flags i.history i.reports (x.on i.first :: before) = .ok (g, rs) → i.record ∈ g.records := by
      intro before
      induction before using List.reverseRecOn with
      | nil =>
        intro _ g rs reached
        have same : checkEach flags i.history i.reports [x.on i.first] = .ok (first.history, first.reports) :=
          (checkEach_cons called []).trans rfl
        cases same.symm.trans reached
        exact recorded.mpr there
      | append_singleton before b ih =>
        intro start g rs reached
        rw [← List.cons_append] at reached
        obtain ⟨g₁, rs₁, done, reached₁, call, rfl, rfl⟩ := checkEach_concat reached
        have earlier := (List.prefix_append before [b]).trans start
        obtain ⟨g', rs', same, clean, -⟩ := states before earlier
        cases same.symm.trans reached₁
        have inside := ih earlier _ _ same
        have member : b ∈ i.accesses := start.subset (by simp)
        have spares : b.Spares g₁ i.record := by
          by_cases early : analyzeMutualExclusion i.record b.record = true ∨ g₁.memIsRecycled = true
          · exact spared before b _ _ start same clean early
          · rw [not_or, Bool.not_eq_true, Bool.not_eq_true] at early
            exact Access.spares_of_compared call clean early.2 inside early.1 (open_ b member)
        by_cases unchecked : b.Unchecked
        · rw [checkDataRace_unchecked unchecked] at call
          cases call
          exact inside
        · exact (checkDataRace_holds_iff unchecked clean call).mpr (.inl spares)
    exact all i.accesses (List.prefix_refl _) h reports ran

/-- The second access races with the record of the first one exactly when it is compared with it. -/
theorem RacingPair.races_iff (pair : RacingPair x y) {u u' : Uninitialised} {records : List Record}
    {analysed : List (Record × RaceAnalysis)} (ok : (y.on u').analyses records = .ok analysed)
    {p : Record × RaceAnalysis} (member : p ∈ analysed) (same : p.1 = (x.on u).record) :
    p.2.race = true ↔ (y.context.tasks y.info.taskPtr).inReduction = false ∧
      analyzeMutualExclusion (x.on u).record (y.on u').record = false := by
  obtain ⟨graph, before, diffIndex, edges, analysis⟩ := analyses_one ok rfl member
  rw [same] at analysis
  cases calm : (y.context.tasks (y.on u').record.taskPtr).inReduction with
  | true =>
    have calm' : (y.context.tasks y.info.taskPtr).inReduction = true := calm
    rw [(analyses_reduction calm ok member).2, calm']
    simp
  | false =>
  have calm' : (y.context.tasks y.info.taskPtr).inReduction = false := calm
  rw [calm']
  cases alone : analyzeMutualExclusion (x.on u).record (y.on u').record with
  | true =>
    rw [analyzeRaceCondition, if_pos alone, Except.ok.injEq] at analysis
    rw [← analysis]
    simp
  | false =>
    obtain ⟨decided, -, race, -⟩ := analyzeRaceCondition_compared calm alone analysis
    obtain ⟨graph', unordered⟩ := pair.unordered
    have verdict : decideOrder y.context (x.on u).record (y.on u').record = .ok (false, graph') := unordered
    have decides : Decides y.context (y.on u').record (x.on u).record := decides_of_ok _ verdict (.inl pair.others)
    obtain ⟨graph'', ordered⟩ := decides graph edges
    have order := ordered.symm.trans decided
    rw [orderedBefore, verdict, Except.ok.injEq, Prod.mk.injEq] at order
    have write : ((x.on u).record.isWrite || (y.on u').record.isWrite) = true := by
      have first : (x.on u).record.isWrite = x.info.isWrite := Record.make_isWrite ..
      have second : (y.on u').record.isWrite = y.info.isWrite := Record.make_isWrite ..
      rw [first, second, Bool.or_eq_true]
      exact pair.write
    rw [race, ← order.1, write]
    simp

end Pair

theorem racingPair_of_siblings {label label' : Label} {locks locks' : Option SmallLockSet} {task task' : Nat}
    (unordered : ∃ graph, decideOrder siblings (siblingAccess task label locks).record
      (siblingAccess task' label' locks').record = .ok (false, graph))
    (others : task ≠ task') (noLock : ¬∃ lock ∈ heldLocks locks, lock ∈ heldLocks locks') :
    RacingPair (siblingAccess task label locks) (siblingAccess task' label' locks') where
  unordered := unordered
  others := others
  write := .inl rfl
  noLock := noLock

def lockedBetween : Between (lostRace 1) := ⟨AccessHistory.new, RaceReports.none, [lostRace 2], ⟨0, 0⟩, ⟨0, 0⟩⟩

theorem lockedBetween_uncovered : lockedBetween.Uncovered := by
  intro b member covering
  rw [List.mem_singleton.mp member] at covering
  rcases covering.1 with before | ⟨-, same⟩
  · cases before
  · cases same

theorem lockedBetween_recorded : lockedBetween.Recorded :=
  .inl ⟨by decide, rfl, [], rfl, rfl⟩

theorem lockedBetween_spared : lockedBetween.Spared ⟨true, false⟩ := by
  intro before b h reports start ran _ _
  have split : before = [] ∧ b = lostRace 2 := by
    obtain ⟨rest, same⟩ := start
    cases before with
    | nil => exact ⟨rfl, (List.cons.inj same).1⟩
    | cons a before => simp [lockedBetween] at same
  obtain ⟨rfl, rfl⟩ := split
  cases ran
  exact .inr ⟨rfl, _, rfl, _, List.mem_singleton_self _, rfl, rfl⟩

def atomicWrite : Access := { foundRace 0 with info := { (foundRace 0).info with hwLock := true } }

end Romp
