import Mathlib.Data.List.Dedup
import Mathlib.Data.List.Perm.Subperm
import Romp.Access.Analyses
import Romp.Access.Lifetimes
import Romp.Access.Recycling
import Romp.Core.Shift

namespace Romp

def Access.again (a : Access) (taskDepGraph : Option TaskDepGraph) (uninitialised : Uninitialised) : Access :=
  { a with context := { a.context with taskDepGraph }, uninitialised }

/-- An earlier access of the same explicit task is ordered before this one by its label. -/
def OwnOrdered (a b : Access) : Prop :=
  (a.context.tasks a.info.taskPtr).isExplicitTask = true → b.info.taskPtr = a.info.taskPtr →
    happensBefore (a.context.heap.read b.label) (a.context.heap.read a.label) = .ok true

/-- The access comes after a call for the same one, and leaves as many records as it has found. -/
def RepeatKept (flags : ReportFlags) (a : Access) (done : Checked) (u : Uninitialised) : Prop :=
  ∃ done', checkDataRace flags done.history (a.again done.taskDepGraph u) done.reports = .ok done' ∧
    done'.history.records.length = done.history.records.length

def Access.Balanced (a : Access) (analysed : List (Record × RaceAnalysis)) : Prop :=
  analysed.countP a.deletes = if analysed.any a.skipsFor then 0 else 1

/-- No analysis of the repeated access aborts, and the records that it deletes make up for the one that it adds. -/
def RepeatBalanced (a : Access) (done : Checked) (u : Uninitialised) : Prop :=
  ∃ analysed, (a.again done.taskDepGraph u).analyses done.history.records = .ok analysed ∧
    (a.again done.taskDepGraph u).Balanced analysed

def Record.triple (r : Record) : Label × Option SmallLockSet × Bool := (r.label, r.lockSet, r.isWrite)
def Access.triple (a : Access) : Label × Option SmallLockSet × Bool := (a.label, a.lockSet, a.info.isWrite)

@[simp] theorem Access.record_triple (a : Access) : a.record.triple = a.triple := by
  simp only [Record.triple, Access.record, Record.make_label, Record.make_lockSet, Record.make_isWrite, triple]

/-- A record of the access's own triple is deleted for it, or a record stands for the access. -/
def Access.Tidy (a : Access) (records : List Record) : Prop :=
  ∃ analysed, a.analyses records = .ok analysed ∧
    (analysed.any a.skipsFor = true ∨ ∀ p ∈ analysed, p.1.triple = a.triple → a.deletes p = true)

theorem AccessHistory.clean_of_zero (records : List Record) :
    (⟨0, records⟩ : AccessHistory).dataRaceFound = false ∧ (⟨0, records⟩ : AccessHistory).memIsRecycled = false := by
  constructor <;> simp [dataRaceFound, memIsRecycled]

theorem compareLabels_self (label : List Segment) : compareLabels label label = eSameLabel := by
  have walked := compareFrom_stretch (SameStretch.refl label) 0 [] []
  rwa [List.append_nil] at walked

theorem happensBefore_self (label : List Segment) : happensBefore label label = .ok true := by
  rw [happensBefore, compareLabels_self]
  rfl

theorem decides_of_happensBefore {ctx : Context} {r cur : Record} {before : Bool}
    (verdict : happensBefore (ctx.heap.read r.label) (ctx.heap.read cur.label) = .ok before)
    (own : (ctx.tasks cur.taskPtr).isExplicitTask = true → r.taskPtr = cur.taskPtr → before = true) :
    Decides ctx cur r := by
  cases before with
  | true => exact decides_of_ok (true, ctx.taskDepGraph) (by simp [decideOrder, verdict, bind, Except.bind]) (.inr verdict)
  | false =>
    by_cases explicit : (ctx.tasks cur.taskPtr).isExplicitTask = true
    · have apart : r.taskPtr ≠ cur.taskPtr := fun same => Bool.false_ne_true (own explicit same)
      have decided : ∃ answer, decideOrder ctx r cur = .ok answer := by
        simp only [decideOrder, verdict, bind, Except.bind, Bool.false_eq_true, if_false]
        split
        · split
          · exact ⟨_, rfl⟩
          · split <;> exact ⟨_, rfl⟩
        · exact ⟨_, rfl⟩
      obtain ⟨answer, decided⟩ := decided
      exact decides_of_ok answer decided (.inl apart)
    · intro graph _
      refine ⟨graph, ?_⟩
      simp [decideOrder, orderedBefore, verdict, bind, Except.bind, explicit]

/-- What becomes of a record when nothing is left over from an earlier one. -/
def decision (ctx : Context) (cur hist : Record) : RecordManagement :=
  manageAccessRecord hist cur (orderedBefore ctx hist cur)
    (compareLabels (ctx.heap.read hist.label) (ctx.heap.read cur.label))

section Compared

variable {ctx : Context} {cur : Record} (calm : (ctx.tasks cur.taskPtr).inReduction = false)

include calm

theorem analyzeRaceCondition_compared {graph : Option TaskDepGraph} {r : Record} {before : Bool} {diffIndex : Int}
    {analysis : RaceAnalysis} (alone : analyzeMutualExclusion r cur = false)
    (analyzed : analyzeRaceCondition { ctx with taskDepGraph := graph } r cur before diffIndex = .ok analysis) :
    decideOrder { ctx with taskDepGraph := graph } r cur = .ok (analysis.isHistBeforeCur, analysis.taskDepGraph) ∧
      analysis.diffIndex = compareLabels (ctx.heap.read r.label) (ctx.heap.read cur.label) ∧
      analysis.race = (!analysis.isHistBeforeCur && (r.isWrite || cur.isWrite)) ∧
      ∃ verdict, happensBefore (ctx.heap.read r.label) (ctx.heap.read cur.label) = .ok verdict := by
  simp only [analyzeRaceCondition, alone, calm, Bool.false_eq_true, if_false] at analyzed
  obtain ⟨order, decided, analyzed⟩ := ok_of_bind analyzed
  cases analyzed
  refine ⟨decided, rfl, rfl, ?_⟩
  unfold decideOrder at decided
  obtain ⟨verdict, compared, -⟩ := ok_of_bind decided
  exact ⟨verdict, compared⟩

variable {records : List Record} {graph : Option TaskDepGraph} {stale : Bool × Int}
  {analysed : List (Record × RaceAnalysis)}

variable (graph stale) in
theorem analyses_compared (alone : ∀ r ∈ records, analyzeMutualExclusion r cur = false)
    (decides : ∀ r ∈ records, Decides ctx cur r) (edges : SameEdges graph ctx.taskDepGraph) :
    ∃ analysed, analyses ctx cur graph stale records = .ok analysed ∧
      ∀ p ∈ analysed, manages cur p = decision ctx cur p.1 := by
  induction records generalizing graph stale with
  | nil => exact ⟨[], rfl, List.forall_mem_nil _⟩
  | cons r rest ih =>
    rw [List.forall_mem_cons] at alone decides
    obtain ⟨graph', decided⟩ := decides.1 graph edges
    have edges' : SameEdges graph' ctx.taskDepGraph := (decideOrder_keeps_edges decided).trans edges
    obtain ⟨later, rests, same⟩ := ih graph' (orderedBefore ctx r cur,
      compareLabels (ctx.heap.read r.label) (ctx.heap.read cur.label)) alone.2 decides.2 edges'
    let analysis : RaceAnalysis := ⟨!orderedBefore ctx r cur && (r.isWrite || cur.isWrite), orderedBefore ctx r cur,
      compareLabels (ctx.heap.read r.label) (ctx.heap.read cur.label), graph'⟩
    refine ⟨(r, analysis) :: later, ?_, List.forall_mem_cons.mpr ⟨rfl, same⟩⟩
    simp only [analyses, analyzeRaceCondition, alone.1, calm, decided, bind, Except.bind, Bool.false_eq_true, if_false,
      rests, analysis]

theorem analyses_verdict (ok : analyses ctx cur graph stale records = .ok analysed) {r : Record} (inside : r ∈ records)
    (alone : analyzeMutualExclusion r cur = false) :
    ∃ verdict, happensBefore (ctx.heap.read r.label) (ctx.heap.read cur.label) = .ok verdict := by
  induction records generalizing graph stale analysed with
  | nil => cases inside
  | cons hist rest ih =>
    obtain ⟨analysis, later, first, second, -⟩ := analyses_cons ok
    rcases List.mem_cons.mp inside with rfl | inside
    · exact (analyzeRaceCondition_compared calm alone first).2.2.2
    · exact ih second inside

end Compared

theorem decision_again {a : Access} {graph : Option TaskDepGraph} {u : Uninitialised} {r : Record}
    (edges : SameEdges graph a.context.taskDepGraph) (decides : Decides a.context a.record r) :
    decision (a.again graph u).context (a.again graph u).record r = decision a.context a.record r ∧
      Decides (a.again graph u).context (a.again graph u).record r := by
  obtain ⟨graph', decided⟩ := decides graph edges
  have order : orderedBefore (a.again graph u).context r (a.again graph u).record =
      orderedBefore a.context r a.record := by
    have verdict : decideOrder (a.again graph u).context r (a.again graph u).record =
        .ok (orderedBefore a.context r a.record, graph') := decided
    rw [orderedBefore, verdict]
  refine ⟨?_, fun graph'' same => ?_⟩
  · unfold decision
    rw [order]
    simp only [manageAccessRecord, Access.again, Access.record, Record.make_isWrite, Record.make_lockSet,
      Record.make_label]
  · obtain ⟨graph₂, decided₂⟩ := decides graph'' (same.trans edges)
    rw [order]
    exact ⟨graph₂, decided₂⟩

section Leaves

variable {a : Access} {analysed : List (Record × RaceAnalysis)} {records : List Record}

variable (a analysed) in
theorem Access.leaves_length : (a.leaves analysed).length + analysed.countP a.deletes =
    analysed.length + if analysed.any a.skipsFor then 0 else 1 := by
  have kept := List.length_eq_length_filter_add (l := analysed) a.deletes
  have deleted : analysed.countP a.deletes = (analysed.filter a.deletes).length := List.countP_eq_length_filter ..
  rw [Access.leaves, List.length_append, List.length_map]
  cases analysed.any a.skipsFor <;> simp <;> omega

theorem Access.decision_own {r : Record} (same : r.triple = a.triple)
    (alone : analyzeMutualExclusion r a.record = false) : decision a.context a.record r = .eDelHist := by
  simp only [Record.triple, Access.triple, Prod.mk.injEq] at same
  obtain ⟨label, lockSet, write⟩ := same
  have order : orderedBefore a.context r a.record = true := by
    simp [orderedBefore, decideOrder, label, Access.record, happensBefore_self, bind, Except.bind]
  have subset : isSubset a.record.lockSet r.lockSet = true := by
    have self : a.record.lockSet = a.lockSet := rfl
    rw [lockSet, self, isSubset_iff]
    by_cases absent : a.lockSet = none
    · exact .inl absent
    · refine .inr ⟨absent, le_refl _, fun lock member => ?_⟩
      exact absurd ⟨lock, by rw [lockSet]; exact member, member⟩ (commonLock_excludes alone)
  have kind : a.record.isWrite = a.info.isWrite := Record.make_isWrite ..
  simp only [decision, manageAccessRecord, order, subset, write, kind]
  cases a.info.isWrite <;> rfl

/-- What a call has kept is kept again, and stands for the access again; else the record that it has added is deleted. -/
theorem Access.leaves_balanced (decided : ∀ p ∈ analysed, manages a.record p = decision a.context a.record p.1)
    (added : analysed.any a.skipsFor = false → decision a.context a.record a.record = .eDelHist) :
    ((a.leaves analysed).countP fun r => decision a.context a.record r = .eDelHist) =
      if ((a.leaves analysed).any fun r => decision a.context a.record r = .eSkipAddCur) = true then 0 else 1 := by
  generalize same : (analysed.filter fun p => !a.deletes p).map Prod.fst = left
  have kept : ∀ r ∈ left, decision a.context a.record r ≠ .eDelHist := by
    intro r member
    rw [← same] at member
    obtain ⟨p, inside, rfl⟩ := List.mem_map.mp member
    obtain ⟨inside, stays⟩ := List.mem_filter.mp inside
    rw [← decided p inside]
    simpa [Access.deletes] using stays
  have zero : (left.countP fun r => decision a.context a.record r = .eDelHist) = 0 :=
    List.countP_eq_zero.mpr fun r member => by simpa using kept r member
  cases stands : analysed.any a.skipsFor with
  | true =>
    obtain ⟨p, inside, skip⟩ := List.any_eq_true.mp stands
    have skip : manages a.record p = .eSkipAddCur := of_decide_eq_true skip
    have stays : p.1 ∈ left := same ▸
      List.mem_map_of_mem (List.mem_filter.mpr ⟨inside, by simp [Access.deletes, skip]⟩)
    have leaves : a.leaves analysed = left := by
      rw [Access.leaves, stands, if_pos rfl, List.append_nil, same]
    have found : (left.any fun r => decision a.context a.record r = .eSkipAddCur) = true :=
      List.any_eq_true.mpr ⟨p.1, stays, decide_eq_true ((decided p inside).symm.trans skip)⟩
    rw [leaves, found, if_pos rfl, zero]
  | false =>
    have deleted := added stands
    have leaves : a.leaves analysed = left ++ [a.record] := by
      rw [Access.leaves, stands, if_neg Bool.false_ne_true, same]
    have none : ((left ++ [a.record]).any fun r => decision a.context a.record r = .eSkipAddCur) = false := by
      rw [List.any_eq_false]
      intro r member
      rcases List.mem_append.mp member with old | new
      · rw [← same] at old
        obtain ⟨p, inside, rfl⟩ := List.mem_map.mp old
        have inside := (List.mem_filter.mp inside).1
        have notSkip := List.any_eq_false.mp stands p inside
        rw [← decided p inside]
        exact notSkip
      · rw [List.mem_singleton.mp new, deleted]
        simp
    have one : ([a.record].countP fun r => decision a.context a.record r = .eDelHist) = 1 := by
      rw [List.countP_singleton, deleted, decide_eq_true rfl, if_pos rfl]
    rw [leaves, none, if_neg Bool.false_ne_true, List.countP_append, zero, one]

end Leaves

section Call

variable {flags : ReportFlags} {a : Access} {h : AccessHistory} {reports : RaceReports} {done : Checked}
  {u : Uninitialised}

/-- The repeated access leaves as many records exactly when those that it deletes make up for it. -/
theorem repeat_kept_iff (fresh : h.memIsRecycled = false) (called : checkDataRace flags h a reports = .ok done)
    (quiet : done.history.dataRaceFound = false) :
    RepeatKept flags a done u ↔ a.Unchecked ∨ RepeatBalanced a done u := by
  have fresh' := (checkDataRace_effect called).2.2 fresh
  by_cases unchecked : a.Unchecked
  · have again : (a.again done.taskDepGraph u).Unchecked := unchecked
    exact ⟨fun _ => .inl unchecked, fun _ => ⟨_, checkDataRace_unchecked again, rfl⟩⟩
  have checked : ¬(a.again done.taskDepGraph u).Unchecked := unchecked
  have lengths : ∀ {analysed}, (a.again done.taskDepGraph u).analyses done.history.records = .ok analysed →
      analysed.length = done.history.records.length := by
    intro analysed ok
    rw [← analyses_records ok, List.length_map]
  constructor
  · rintro ⟨done', again, same⟩
    right
    obtain ⟨analysed, ok, left, -⟩ := checkDataRace_analysed checked quiet fresh' again
    have count := (a.again done.taskDepGraph u).leaves_length analysed
    rw [← left, same, lengths ok] at count
    exact ⟨analysed, ok, Nat.add_left_cancel count⟩
  · intro condition
    obtain ⟨analysed, ok, balanced⟩ := condition.resolve_left unchecked
    obtain ⟨done', again, left, -⟩ := checkDataRace_ok flags done.reports checked quiet fresh' ok
    have count := (a.again done.taskDepGraph u).leaves_length analysed
    refine ⟨done', again, ?_⟩
    rw [← left, lengths ok, ← balanced] at count
    exact Nat.add_right_cancel count

section Calm

variable (checked : ¬a.Unchecked) (fresh : h.memIsRecycled = false)
  (called : checkDataRace flags h a reports = .ok done) (quiet : done.history.dataRaceFound = false)
  (calm : (a.context.tasks a.info.taskPtr).inReduction = false)
  (own : (a.context.tasks a.info.taskPtr).isExplicitTask = true → ∀ r ∈ h.records, r.taskPtr = a.info.taskPtr →
    happensBefore (a.context.heap.read r.label) (a.context.heap.read a.label) = .ok true)
  (first : ∀ r ∈ h.records, analyzeMutualExclusion r a.record = false)
  (second : ∀ r ∈ done.history.records, analyzeMutualExclusion r (a.again done.taskDepGraph u).record = false)

include checked fresh called quiet calm own first second

/-- Where the analysis returns early on no record, in neither call, both decide on a record in the same way. -/
theorem decided_again : ∃ analysed repeated, done.history.records = a.leaves analysed ∧
    (a.again done.taskDepGraph u).analyses done.history.records = .ok repeated ∧
    (∀ p ∈ analysed, manages a.record p = decision a.context a.record p.1) ∧
    ∀ p ∈ repeated, manages (a.again done.taskDepGraph u).record p = decision a.context a.record p.1 := by
  have clean : h.dataRaceFound = false := by
    have found := (checkDataRace_effect called).2.1
    rw [quiet] at found
    exact (Bool.or_eq_false_iff.mp found.symm).1
  have edges : SameEdges done.taskDepGraph a.context.taskDepGraph := checkDataRace_edges called
  obtain ⟨analysed, ok, left, -⟩ := checkDataRace_analysed checked clean fresh called
  have decides : ∀ r ∈ h.records, Decides a.context a.record r := by
    intro r member
    obtain ⟨verdict, compared⟩ := analyses_verdict calm ok member (first r member)
    exact decides_of_happensBefore compared fun explicit same =>
      Except.ok.inj (compared.symm.trans (own explicit r member same))
  obtain ⟨analysed', ok', decided⟩ := analyses_compared calm a.context.taskDepGraph
    (false, a.uninitialised.diffIndex) first decides rfl
  cases ok.symm.trans ok'
  have again : ∀ r ∈ done.history.records,
      decision (a.again done.taskDepGraph u).context (a.again done.taskDepGraph u).record r = decision a.context a.record r ∧
        Decides (a.again done.taskDepGraph u).context (a.again done.taskDepGraph u).record r := by
    intro r member
    rcases checkDataRace_records called member with old | rfl
    · exact decision_again edges (decides r old)
    · exact decision_again edges (decides_of_happensBefore (happensBefore_self _) fun _ _ => rfl)
  obtain ⟨repeated, ok₂, decided₂⟩ := analyses_compared calm done.taskDepGraph (false, u.diffIndex) second
    (fun r member => (again r member).2) rfl
  refine ⟨analysed, repeated, left, ok₂, decided, fun p member => ?_⟩
  have inside : p.1 ∈ done.history.records := by
    rw [← analyses_records ok₂]
    exact List.mem_map_of_mem member
  rw [decided₂ p member, (again p.1 inside).1]

/-- Then the second call deletes the record of the first one, or finds again what the first one has found in its
    place. -/
theorem repeat_balanced : RepeatBalanced a done u := by
  obtain ⟨analysed, repeated, left, ok, decided, decided'⟩ :=
    decided_again checked fresh called quiet calm own first second
  refine ⟨repeated, ok, ?_⟩
  have names : repeated.map Prod.fst = a.leaves analysed := (analyses_records ok).trans left
  have count : repeated.countP (a.again done.taskDepGraph u).deletes =
      (a.leaves analysed).countP fun r => decision a.context a.record r = .eDelHist := by
    rw [← names, List.countP_map]
    exact List.countP_congr fun p member => by simp [Access.deletes, decided' p member]
  have skips : repeated.any (a.again done.taskDepGraph u).skipsFor =
      (a.leaves analysed).any fun r => decision a.context a.record r = .eSkipAddCur := by
    rw [← names, List.any_map, Bool.eq_iff_iff, List.any_eq_true, List.any_eq_true]
    exact exists_congr fun p => and_congr_right fun member => by simp [Access.skipsFor, decided' p member]
  rw [Access.Balanced, count, skips]
  apply Access.leaves_balanced decided
  intro added
  have inside : a.record ∈ done.history.records := by
    rw [left, Access.leaves, added]
    exact List.mem_append_right _ (List.mem_singleton_self _)
  have edges : SameEdges done.taskDepGraph a.context.taskDepGraph := checkDataRace_edges called
  rw [← (decision_again (u := u) edges (decides_of_happensBefore (happensBefore_self _) fun _ _ => rfl)).1]
  exact Access.decision_own (a := a.again done.taskDepGraph u) a.record_triple (second a.record inside)

end Calm

end Call

section Step

variable {flags : ReportFlags} {a : Access} {h : AccessHistory} {reports : RaceReports} {done : Checked}
  {records : List Record} {analysed : List (Record × RaceAnalysis)}

theorem leaves_distinct_iff (ok : a.analyses records = .ok analysed) (distinct : (records.map Record.triple).Nodup) :
    ((a.leaves analysed).map Record.triple).Nodup ↔
      (analysed.any a.skipsFor = true ∨ ∀ p ∈ analysed, p.1.triple = a.triple → a.deletes p = true) := by
  have stays : (((analysed.filter fun p => !a.deletes p).map Prod.fst).map Record.triple).Nodup := by
    rw [← analyses_records ok] at distinct
    exact distinct.sublist ((List.filter_sublist.map Prod.fst).map Record.triple)
  rw [Access.leaves]
  cases stands : analysed.any a.skipsFor with
  | true =>
    rw [if_pos rfl, List.append_nil]
    exact ⟨fun _ => .inl rfl, fun _ => stays⟩
  | false =>
    rw [if_neg Bool.false_ne_true, List.map_append, List.map_singleton, a.record_triple, ← List.concat_eq_append,
      List.nodup_concat]
    constructor
    · rintro ⟨absent, -⟩
      right
      intro p member same
      by_contra kept
      refine absent (same ▸ List.mem_map_of_mem (List.mem_map_of_mem (List.mem_filter.mpr ⟨member, ?_⟩)))
      simpa using kept
    · intro tidy
      have deleted := tidy.resolve_left Bool.false_ne_true
      refine ⟨fun present => ?_, stays⟩
      obtain ⟨r, kept, same⟩ := List.mem_map.mp present
      obtain ⟨p, member, rfl⟩ := List.mem_map.mp kept
      obtain ⟨member, notDeleted⟩ := List.mem_filter.mp member
      rw [deleted p member same] at notDeleted
      cases notDeleted

theorem checkDataRace_distinct_iff (fresh : h.memIsRecycled = false) (ran : checkDataRace flags h a reports = .ok done)
    (distinct : (h.records.map Record.triple).Nodup) : (done.history.records.map Record.triple).Nodup ↔
      (¬a.Unchecked → h.dataRaceFound = false → a.Tidy h.records) := by
  by_cases unchecked : a.Unchecked
  · rw [checkDataRace_unchecked unchecked] at ran
    cases ran
    exact ⟨fun _ checked => absurd unchecked checked, fun _ => distinct⟩
  cases found : h.dataRaceFound with
  | true =>
    rw [checkDataRace_found unchecked found] at ran
    cases ran
    exact ⟨fun _ _ none => Bool.noConfusion none, fun _ => List.nodup_nil⟩
  | false =>
    obtain ⟨analysed, ok, left, -⟩ := checkDataRace_analysed unchecked found fresh ran
    rw [left, leaves_distinct_iff ok distinct]
    constructor
    · intro tidy _ _
      exact ⟨analysed, ok, tidy⟩
    · intro tidy
      obtain ⟨analysed', ok', tidy⟩ := tidy unchecked rfl
      cases ok.symm.trans ok'
      exact tidy

theorem Access.tidy_of_alone (calm : (a.context.tasks a.info.taskPtr).inReduction = false)
    (ok : a.analyses records = .ok analysed)
    (alone : ∀ r ∈ records, r.triple = a.triple → analyzeMutualExclusion r a.record = false) : a.Tidy records := by
  refine ⟨analysed, ok, .inr fun p member same => ?_⟩
  obtain ⟨graph, before, diffIndex, -, analysis⟩ := analyses_one ok rfl member
  have inside : p.1 ∈ records := by
    rw [← analyses_records ok]
    exact List.mem_map_of_mem member
  obtain ⟨decided, index, -, -⟩ := analyzeRaceCondition_compared calm (alone p.1 inside same) analysis
  have order : p.2.isHistBeforeCur = orderedBefore a.context p.1 a.record := by
    have label : p.1.label = a.label := congrArg Prod.fst same
    have self : a.record.label = a.label := rfl
    simp only [decideOrder, orderedBefore, label, self, happensBefore_self, bind, Except.bind, if_true,
      Except.ok.injEq, Prod.mk.injEq] at decided ⊢
    exact decided.1.symm
  have own := Access.decision_own same (alone p.1 inside same)
  rw [decision, ← order, ← index] at own
  exact decide_eq_true own

end Step

def DistinctAlong (flags : ReportFlags) (accesses : List Access) : Prop :=
  ∀ before h reports, before <+: accesses → checkEach flags AccessHistory.new RaceReports.none before = .ok (h, reports) →
    (h.records.map Record.triple).Nodup

/-- Every access of the run that looks at the history is tidy. -/
def TidyAlong (flags : ReportFlags) (accesses : List Access) : Prop :=
  ∀ before a h reports, before ++ [a] <+: accesses →
    checkEach flags AccessHistory.new RaceReports.none before = .ok (h, reports) → ¬a.Unchecked →
      h.dataRaceFound = false → a.Tidy h.records

def AloneAlong (flags : ReportFlags) (accesses : List Access) : Prop :=
  ∀ before a h reports, before ++ [a] <+: accesses →
    checkEach flags AccessHistory.new RaceReports.none before = .ok (h, reports) →
      (a.context.tasks a.info.taskPtr).inReduction = false ∧
        ∀ r ∈ h.records, r.triple = a.triple → analyzeMutualExclusion r a.record = false

section Run

variable {flags : ReportFlags} {h h' : AccessHistory} {reports reports' : RaceReports} {accesses before : List Access}

theorem checkEach_records (ran : checkEach flags h reports accesses = .ok (h', reports')) :
    ∀ r ∈ h'.records, r ∈ h.records ∨ ∃ b ∈ accesses, r = b.record := by
  induction accesses generalizing h reports with
  | nil =>
    cases ran
    exact fun r member => .inl member
  | cons a rest ih =>
    obtain ⟨done, called, ran⟩ := ok_of_bind ran
    intro r member
    rcases ih ran r member with before | ⟨b, later, same⟩
    · rcases checkDataRace_records called before with old | same
      · exact .inl old
      · exact .inr ⟨a, List.mem_cons_self, same⟩
    · exact .inr ⟨b, List.mem_cons_of_mem _ later, same⟩

theorem checkEach_fresh (ran : checkEach flags h reports accesses = .ok (h', reports')) (fresh : h.memIsRecycled = false) :
    h'.memIsRecycled = false := by
  induction accesses generalizing h reports with
  | nil =>
    cases ran
    exact fresh
  | cons a rest ih =>
    obtain ⟨done, called, ran⟩ := ok_of_bind ran
    exact ih ran ((checkDataRace_effect called).2.2 fresh)

theorem checkEach_concat {a : Access} (ran : checkEach flags h reports (before ++ [a]) = .ok (h', reports')) :
    ∃ g rs done, checkEach flags h reports before = .ok (g, rs) ∧ checkDataRace flags g a rs = .ok done ∧
      h' = done.history ∧ reports' = done.reports := by
  rw [checkEach_append] at ran
  obtain ⟨⟨g, rs⟩, first, ran⟩ := ok_of_bind ran
  obtain ⟨done, called, ran⟩ := ok_of_bind ran
  cases ran
  exact ⟨g, rs, done, first, called, rfl, rfl⟩

theorem checkEach_prefix (ran : checkEach flags h reports accesses = .ok (h', reports')) (start : before <+: accesses) :
    ∃ g rs, checkEach flags h reports before = .ok (g, rs) := by
  obtain ⟨later, rfl⟩ := start
  rw [checkEach_append] at ran
  obtain ⟨⟨g, rs⟩, first, -⟩ := ok_of_bind ran
  exact ⟨g, rs, first⟩

/-- There is never more than one record for a triple exactly when the accesses are tidy. -/
theorem distinctAlong_iff (ran : checkEach flags AccessHistory.new RaceReports.none accesses = .ok (h', reports')) :
    DistinctAlong flags accesses ↔ TidyAlong flags accesses := by
  have fresh := fun {before h reports} (first : checkEach flags AccessHistory.new RaceReports.none before =
    .ok (h, reports)) => checkEach_fresh first (AccessHistory.clean_of_zero []).2
  constructor
  · intro distinct before a h reports start first checked clean
    obtain ⟨g, rs, both⟩ := checkEach_prefix ran start
    obtain ⟨h₁, reports₁, done, first', called, rfl, rfl⟩ := checkEach_concat both
    cases first.symm.trans first'
    have now := distinct before h reports ((List.prefix_append ..).trans start) first
    have next := distinct _ _ _ start both
    exact (checkDataRace_distinct_iff (fresh first) called now).mp next checked clean
  · intro tidy before h reports start first
    induction before using List.reverseRecOn generalizing h reports with
    | nil =>
      cases first
      exact List.nodup_nil
    | append_singleton before a ih =>
      obtain ⟨g, rs, done, first', called, rfl, rfl⟩ := checkEach_concat first
      have now := ih g rs ((List.prefix_append ..).trans start) first'
      exact (checkDataRace_distinct_iff (fresh first') called now).mpr (tidy before a g rs start first')

theorem tidyAlong_of_alone (ran : checkEach flags AccessHistory.new RaceReports.none accesses = .ok (h', reports'))
    (alone : AloneAlong flags accesses) : TidyAlong flags accesses := by
  intro before a h reports start first checked clean
  obtain ⟨g, rs, both⟩ := checkEach_prefix ran start
  obtain ⟨h₁, reports₁, done, first', called, rfl, rfl⟩ := checkEach_concat both
  cases first.symm.trans first'
  have fresh := checkEach_fresh first (AccessHistory.clean_of_zero []).2
  obtain ⟨analysed, ok, -⟩ := checkDataRace_analysed checked clean fresh called
  obtain ⟨calm, apart⟩ := alone before a h reports start first
  exact Access.tidy_of_alone calm ok apart

theorem records_le_triples (ran : checkEach flags AccessHistory.new RaceReports.none accesses = .ok (h, reports))
    (distinct : (h.records.map Record.triple).Nodup) : h.records.length ≤ (accesses.map Access.triple).dedup.length := by
  have inside : h.records.map Record.triple ⊆ (accesses.map Access.triple).dedup := by
    intro x member
    obtain ⟨r, kept, rfl⟩ := List.mem_map.mp member
    rcases checkEach_records ran r kept with none | ⟨b, handed, rfl⟩
    · cases none
    · rw [List.mem_dedup, b.record_triple]
      exact List.mem_map_of_mem handed
  have bound := (List.Nodup.subperm distinct inside).length_le
  rwa [List.length_map] at bound

end Run

def releasedWrite : Access := siblingAccess 2 [0, 1, 2] (some SmallLockSet.empty)

end Romp
