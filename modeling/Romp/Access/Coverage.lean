import Romp.Access.CheckDataRace
import Romp.Order.Covering
import Romp.Tasks.DepOrder

open Covering

namespace Romp

def SameEdges (left right : Option TaskDepGraph) : Prop :=
  left.map (fun g => TaskDepGraph.successors g.graph) =
    right.map fun g => TaskDepGraph.successors g.graph

theorem hasPath_keeps_edges {graph result : Adjacency} {a b : Nat} {path : Bool}
    (found : TaskDepGraph.hasPath graph a b = some (path, result)) :
    TaskDepGraph.successors result = TaskDepGraph.successors graph := by
  unfold TaskDepGraph.hasPath at found
  split at found
  · simp only [Option.some.injEq, Prod.mk.injEq] at found
    rw [found.2]
  · exact TaskDepGraph.hasPathLoop_keeps_edges b found

theorem decideOrder_keeps_edges {ctx : Context} {hist cur : Record} {ordered : Bool}
    {graph : Option TaskDepGraph} (decided : decideOrder ctx hist cur = .ok (ordered, graph)) :
    SameEdges graph ctx.taskDepGraph := by
  unfold decideOrder at decided
  cases verdict : happensBefore (ctx.heap.read hist.label) (ctx.heap.read cur.label) with
  | error text => simp [verdict, bind, Except.bind] at decided
  | ok before =>
    simp only [verdict, bind, Except.bind] at decided
    split at decided
    · cases decided; rfl
    · split at decided
      · cases known : ctx.taskDepGraph with
        | none => simp only [known] at decided; cases decided; rfl
        | some g =>
          simp only [known] at decided
          split at decided
          · cases decided; rfl
          · rename_i path searched found
            cases decided
            simp [SameEdges, hasPath_keeps_edges found]
      · cases decided; rfl

def orderedBefore (ctx : Context) (hist cur : Record) : Bool :=
  match decideOrder ctx hist cur with
  | .ok (ordered, _) => ordered
  | .error _ => false

def sameLabel (ctx : Context) (hist cur : Record) : Prop :=
  compareLabels (ctx.heap.read hist.label) (ctx.heap.read cur.label) = eSameLabel

instance (ctx : Context) (hist cur : Record) : Decidable (sameLabel ctx hist cur) :=
  inferInstanceAs (Decidable (_ = _))

def CommonLock (left right : Record) : Prop :=
  ∃ lock ∈ heldLocks left.lockSet, lock ∈ heldLocks right.lockSet

/-- The values that the out-parameters of `analyzeRaceCondition` keep from an earlier record do no
    harm: a record that shares a lock with the current access is deleted only if it really is
    ordered before it, and stands for it only if its label really is the same. The last part of a
    clause is about two records excluded by the uninitialised hardware lock bit alone. -/
def StaleHarmless (ctx : Context) (cur : Record) : Bool × Int → List Record → Prop
  | _, [] => True
  | stale, r :: rest =>
    if analyzeMutualExclusion r cur then
      (manageAccessRecord r cur stale.1 stale.2 = .eDelHist → orderedBefore ctx r cur) ∧
      (manageAccessRecord r cur stale.1 stale.2 = .eSkipAddCur → sameLabel ctx r cur) ∧
      (CommonLock r cur ∨ orderedBefore ctx r cur ∨ (r.isWrite = false ∧ cur.isWrite = false)) ∧
      StaleHarmless ctx cur stale rest
    else StaleHarmless ctx cur (orderedBefore ctx r cur,
      compareLabels (ctx.heap.read r.label) (ctx.heap.read cur.label)) rest

/-- The verdict that a check in `ctx` reaches on every record is decided, whatever the searches
    before it have inserted. -/
def Decides (ctx : Context) (cur : Record) (r : Record) : Prop :=
  ∀ graph, SameEdges graph ctx.taskDepGraph →
    ∃ graph', decideOrder { ctx with taskDepGraph := graph } r cur = .ok (orderedBefore ctx r cur, graph')

theorem hasPath_touched {graph graph' : Adjacency} {a b : Nat} (other : a ≠ b)
    (edges : TaskDepGraph.successors graph' = TaskDepGraph.successors graph) :
    (TaskDepGraph.hasPath graph' a b).map Prod.fst = (TaskDepGraph.hasPath graph a b).map Prod.fst := by
  obtain ⟨answer, result, found, correct, -⟩ := TaskDepGraph.hasPath_correct graph other
  obtain ⟨answer', result', found', correct', -⟩ := TaskDepGraph.hasPath_correct graph' other
  have same : TaskDepGraph.Edge graph' = TaskDepGraph.Edge graph := by
    funext c d
    simp only [TaskDepGraph.Edge, edges]
  rw [same, ← correct] at correct'
  simp only [found, found', Option.map_some, Option.some.injEq]
  exact Bool.eq_iff_iff.mpr correct'

/-- The entries that a search inserts change the verdict on no pair of different tasks. -/
theorem decides_of_ok {ctx : Context} {r cur : Record} (verdict : Bool × Option TaskDepGraph)
    (decided : decideOrder ctx r cur = .ok verdict)
    (apart : r.taskPtr ≠ cur.taskPtr ∨
      happensBefore (ctx.heap.read r.label) (ctx.heap.read cur.label) = .ok true) : Decides ctx cur r := by
  intro graph edges
  have answer : orderedBefore ctx r cur = verdict.1 := by rw [orderedBefore, decided]
  rw [answer]
  unfold decideOrder at decided ⊢
  cases known : happensBefore (ctx.heap.read r.label) (ctx.heap.read cur.label) with
  | error text => simp [known, bind, Except.bind] at decided
  | ok before =>
    simp only [known, bind, Except.bind] at decided ⊢
    cases before with
    | true => cases decided; exact ⟨_, rfl⟩
    | false =>
      have other := apart.resolve_right (by simp [known])
      simp only [Bool.false_eq_true, if_false] at decided ⊢
      split at decided
      · rename_i explicit
        rw [if_pos explicit]
        cases first : ctx.taskDepGraph <;> cases second : graph <;>
          simp only [SameEdges, first, second, Option.map_some, Option.map_none, reduceCtorEq,
            Option.some.injEq] at edges decided ⊢
        · cases decided; exact ⟨_, rfl⟩
        · rename_i g g'
          have same := hasPath_touched other edges
          obtain ⟨answer, result, found, -⟩ := TaskDepGraph.hasPath_correct g.graph other
          obtain ⟨answer', result', found', -⟩ := TaskDepGraph.hasPath_correct g'.graph other
          simp only [found, found', Option.map_some, Option.some.injEq] at same decided ⊢
          cases decided
          exact ⟨_, by rw [same]⟩
      · rename_i explicit
        rw [if_neg explicit]
        cases decided
        exact ⟨_, rfl⟩

def Deleted (ctx : Context) (hist cur : Record) : Prop :=
  (hist.isWrite → cur.isWrite) ∧ orderedBefore ctx hist cur ∧ isSubset cur.lockSet hist.lockSet

def StandsFor (ctx : Context) (hist cur : Record) : Prop :=
  (cur.isWrite → hist.isWrite) ∧ sameLabel ctx hist cur ∧ isSubset hist.lockSet cur.lockSet

def Racy (ctx : Context) (hist cur : Record) : Prop :=
  orderedBefore ctx hist cur = false ∧ ¬ CommonLock hist cur ∧ (hist.isWrite ∨ cur.isWrite)

theorem manageAccessRecord_delHist {hist cur : Record} {before : Bool} {diffIndex : Int}
    (decision : manageAccessRecord hist cur before diffIndex = .eDelHist) :
    before = true ∧ (hist.isWrite → cur.isWrite) ∧ isSubset cur.lockSet hist.lockSet := by
  simp only [manageAccessRecord] at decision
  split at decision
  · rename_i taken
    revert taken
    cases hist.isWrite <;> cases cur.isWrite <;> simp
  · split at decision <;> cases decision

theorem manageAccessRecord_skipAddCur {hist cur : Record} {before : Bool} {diffIndex : Int}
    (decision : manageAccessRecord hist cur before diffIndex = .eSkipAddCur) :
    diffIndex = eSameLabel ∧ (cur.isWrite → hist.isWrite) ∧ isSubset hist.lockSet cur.lockSet := by
  simp only [manageAccessRecord] at decision
  split at decision
  · cases decision
  · split at decision
    · rename_i taken
      revert taken
      cases hist.isWrite <;> cases cur.isWrite <;> simp
    · cases decision

theorem commonLock_excludes {hist cur : Record} (excluded : analyzeMutualExclusion hist cur = false) :
    ¬ CommonLock hist cur := by
  rintro ⟨lock, left, right⟩
  unfold analyzeMutualExclusion at excluded
  cases histLocks : hist.lockSet with
  | none => simp [heldLocks, histLocks] at left
  | some histSet =>
    cases curLocks : cur.lockSet with
    | none => simp [heldLocks, curLocks] at right
    | some curSet =>
      simp only [heldLocks, histLocks, curLocks, Option.map_some, Option.getD_some] at left right
      simp only [histLocks, curLocks, Bool.or_eq_false_iff, SmallLockSet.hasCommonLock,
        List.any_eq_false] at excluded
      exact excluded.1 lock left (by simp [right])

section Scan

variable {ctx : Context} {flags : ReportFlags} {checkInfo : CheckInfo} {cur : Record}

def Scan.found (scan : Scan) : Bool := scan.state &&& AccessHistoryFlag.eDataRaceFound.code != 0
def Scan.recycled (scan : Scan) : Bool := scan.state &&& AccessHistoryFlag.eMemoryRecycled.code != 0

theorem found_setFlag (state : BitVec 64) : ((state ||| AccessHistoryFlag.eDataRaceFound.code) &&&
    AccessHistoryFlag.eDataRaceFound.code != 0) = true := by
  rw [bne_iff_ne]
  intro none
  have bit := congrArg (BitVec.getLsbD · 0) none
  simp [AccessHistoryFlag.code] at bit

theorem recycled_setFlag (state : BitVec 64) : ((state ||| AccessHistoryFlag.eDataRaceFound.code) &&&
    AccessHistoryFlag.eMemoryRecycled.code != 0) =
      (state &&& AccessHistoryFlag.eMemoryRecycled.code != 0) := by
  have apart : AccessHistoryFlag.eDataRaceFound.code &&& AccessHistoryFlag.eMemoryRecycled.code = 0 := by
    decide
  congr 1
  apply BitVec.eq_of_getLsbD_eq
  intro i _
  have bit := congrArg (BitVec.getLsbD · i) apart
  simp only [BitVec.getLsbD_and, BitVec.getLsbD_or] at bit ⊢
  cases state.getLsbD i <;> simp_all

variable (flags checkInfo) in
theorem scanRecord_spec (calm : (ctx.tasks cur.taskPtr).inReduction = false) {r : Record} {scan : Scan}
    {rest : List Record} (decides : Decides ctx cur r)
    (edges : SameEdges scan.taskDepGraph ctx.taskDepGraph)
    (harmless : StaleHarmless ctx cur (scan.isHistBeforeCurrent, scan.diffIndex) (r :: rest)) :
    ∃ scan' kept, scanRecord ctx flags checkInfo cur r scan = .ok (scan', kept) ∧
      SameEdges scan'.taskDepGraph ctx.taskDepGraph ∧
      StaleHarmless ctx cur (scan'.isHistBeforeCurrent, scan'.diffIndex) rest ∧
      (kept = false → Deleted ctx r cur) ∧
      (scan'.skipAddCur → scan.skipAddCur ∨ (kept ∧ StandsFor ctx r cur)) ∧
      (Racy ctx r cur → scan'.found) ∧ (scan.found → scan'.found) ∧ scan'.recycled = scan.recycled := by
  unfold scanRecord
  by_cases excluded : analyzeMutualExclusion r cur = true
  · simp only [StaleHarmless, excluded, if_true] at harmless
    obtain ⟨deletes, skips, exclusion, later⟩ := harmless
    simp only [analyzeRaceCondition, excluded, if_true, bind, Except.bind]
    refine ⟨_, _, rfl, edges, later, ?_, ?_, ?_, ?_, rfl⟩
    · intro erased
      have decision := by simpa using erased
      have facts := manageAccessRecord_delHist decision
      exact ⟨facts.2.1, deletes decision, facts.2.2⟩
    · intro skipped
      simp only [Bool.or_eq_true, decide_eq_true_eq] at skipped
      rcases skipped with before | decision
      · exact .inl before
      · have facts := manageAccessRecord_skipAddCur decision
        exact .inr ⟨by simp [decision], facts.2.1, skips decision, facts.2.2⟩
    · rintro ⟨unordered, apart, write⟩
      rcases exclusion with shared | ordered | reads
      · exact absurd shared apart
      · rw [unordered] at ordered
        cases ordered
      · simp [reads] at write
    · exact id
  · simp only [StaleHarmless, excluded, Bool.false_eq_true, if_false] at harmless
    obtain ⟨graph', decided⟩ := decides scan.taskDepGraph edges
    have kept' : SameEdges graph' ctx.taskDepGraph := (decideOrder_keeps_edges decided).trans edges
    simp only [analyzeRaceCondition, excluded, calm, decided, Bool.false_eq_true, if_false, bind,
      Except.bind]
    refine ⟨_, _, rfl, kept', harmless, ?_, ?_, ?_, ?_, ?_⟩
    · intro erased
      have facts := manageAccessRecord_delHist (by simpa using erased)
      exact ⟨facts.2.1, facts.1, facts.2.2⟩
    · intro skipped
      simp only [Bool.or_eq_true, decide_eq_true_eq] at skipped
      rcases skipped with before | decision
      · exact .inl before
      · have facts := manageAccessRecord_skipAddCur decision
        exact .inr ⟨by simp [decision], facts.2.1, facts.1, facts.2.2⟩
    · rintro ⟨unordered, -, write⟩
      have race : (!orderedBefore ctx r cur && (r.isWrite || cur.isWrite)) = true := by
        simpa [unordered] using write
      simp only [Scan.found, race, if_true]
      exact found_setFlag _
    · intro before
      simp only [Scan.found]
      split
      · exact found_setFlag _
      · exact before
    · simp only [Scan.recycled]
      split
      · exact recycled_setFlag _
      · rfl

variable (flags checkInfo) in
theorem scanRecords_spec (scan : Scan) (calm : (ctx.tasks cur.taskPtr).inReduction = false)
    {records : List Record} (decides : ∀ r ∈ records, Decides ctx cur r)
    (edges : SameEdges scan.taskDepGraph ctx.taskDepGraph)
    (harmless : StaleHarmless ctx cur (scan.isHistBeforeCurrent, scan.diffIndex) records) :
    ∃ scan' kept, scanRecords ctx flags checkInfo cur records scan = .ok (scan', kept) ∧
      (∀ r ∈ kept, r ∈ records) ∧ (∀ r ∈ records, r ∈ kept ∨ Deleted ctx r cur) ∧
      (scan'.skipAddCur → scan.skipAddCur ∨ ∃ r ∈ kept, StandsFor ctx r cur) ∧
      ((∃ r ∈ records, Racy ctx r cur) → scan'.found) ∧ (scan.found → scan'.found) ∧
      scan'.recycled = scan.recycled := by
  induction records generalizing scan with
  | nil => exact ⟨scan, [], rfl, by simp, by simp, .inl, by simp, id, rfl⟩
  | cons r rest ih =>
    obtain ⟨scan₁, kept₁, step, edges₁, harmless₁, erased, skipped, raced, found, recycled⟩ :=
      scanRecord_spec flags checkInfo calm
        (decides r List.mem_cons_self) edges harmless
    obtain ⟨scan₂, kept₂, steps, inside, covered, skips, races, founds, recycles⟩ :=
      ih scan₁ (fun s member => decides s (List.mem_cons_of_mem _ member)) edges₁ harmless₁
    refine ⟨scan₂, if kept₁ then r :: kept₂ else kept₂, ?_, ?_, ?_, ?_, ?_, fun h => founds (found h),
      recycles.trans recycled⟩
    · simp only [scanRecords, step, steps, bind, Except.bind]
    · intro s member
      cases kept₁
      · exact List.mem_cons_of_mem _ (inside s member)
      · rcases List.mem_cons.mp member with rfl | member
        · exact List.mem_cons_self
        · exact List.mem_cons_of_mem _ (inside s member)
    · intro s member
      rcases List.mem_cons.mp member with rfl | member
      · cases kept₁
        · exact .inr (erased rfl)
        · exact .inl List.mem_cons_self
      · rcases covered s member with still | gone
        · cases kept₁
          · exact .inl still
          · exact .inl (List.mem_cons_of_mem _ still)
        · exact .inr gone
    · intro skip
      rcases skips skip with before | ⟨s, member, stands⟩
      · rcases skipped before with before | ⟨isKept, stands⟩
        · exact .inl before
        · exact .inr ⟨r, by simp [isKept], stands⟩
      · exact .inr ⟨s, by cases kept₁ <;> simp [member], stands⟩
    · rintro ⟨s, member, racy⟩
      rcases List.mem_cons.mp member with rfl | member
      · exact founds (raced racy)
      · exact races ⟨s, member, racy⟩

end Scan

end Romp
