import Romp.Access.Pruning
import Romp.Tasks.DepOrder

namespace Romp

open TaskDepGraph

/-- Both tasks have a lock set, and a lock is in both or both accesses are locked by hardware. -/
def Record.ShareLock (x y : Record) : Prop :=
  ∃ locks others, x.lockSet = some locks ∧ y.lockSet = some others ∧
    ((∃ lock ∈ locks.locks, lock ∈ others.locks) ∨ (x.hasHwLock = true ∧ y.hasHwLock = true))

theorem hasCommonLock_iff (s other : SmallLockSet) :
    s.hasCommonLock other = true ↔ ∃ lock ∈ s.locks, lock ∈ other.locks := by
  simp [SmallLockSet.hasCommonLock]

theorem analyzeMutualExclusion_iff (x y : Record) : analyzeMutualExclusion x y = true ↔ x.ShareLock y := by
  unfold analyzeMutualExclusion Record.ShareLock
  cases x.lockSet with
  | none => simp
  | some locks =>
    cases y.lockSet with
    | none => simp
    | some others => simp [hasCommonLock_iff]

/-- The check runs with the graph that the registrations have made, and the entries without a node
    that earlier searches have inserted into it. -/
def Context.HasGraph (ctx : Context) (ids : Nat → Int) (regs : List Registration) : Prop :=
  ∃ g, ctx.taskDepGraph = some g ∧ successors g.graph = successors (register ids regs).graph

def DependenceOrdered (ctx : Context) (ids : Nat → Int) (regs : List Registration) (x y : Record) : Prop :=
  (ctx.tasks x.taskPtr).isExplicitTask = true ∧ (ctx.tasks y.taskPtr).isExplicitTask = true ∧
    FirstOrdered ids regs x.taskPtr y.taskPtr

section Analysis

variable {ctx : Context} {ids : Nat → Int} {regs : List Registration} {x y : Record}

/-- What the labels leave undecided is decided by the dependences. -/
theorem decideOrder_iff (graph : ctx.HasGraph ids regs) (others : x.taskPtr ≠ y.taskPtr) {before : Bool}
    (labels : happensBefore (ctx.heap.read x.label) (ctx.heap.read y.label) = .ok before) :
    ∃ order left, decideOrder ctx x y = .ok (order, left) ∧
      (order = true ↔ before = true ∨ DependenceOrdered ctx ids regs x y) := by
  obtain ⟨g, known, same⟩ := graph
  rw [decideOrder, labels]
  cases before with
  | true => exact ⟨true, ctx.taskDepGraph, rfl, by simp⟩
  | false =>
    cases later : (ctx.tasks y.taskPtr).isExplicitTask with
    | false => exact ⟨false, ctx.taskDepGraph, rfl, by simp [DependenceOrdered, later]⟩
    | true =>
      cases earlier : (ctx.tasks x.taskPtr).isExplicitTask with
      | false => exact ⟨false, ctx.taskDepGraph, rfl, by simp [DependenceOrdered, earlier]⟩
      | true =>
        obtain ⟨path, left, searched, correct, -⟩ := hasPath_correct g.graph others
        refine ⟨path, some { g with graph := left }, ?_, ?_⟩
        · rw [known]
          simp only [Bool.and_self, if_true, searched]
          rfl
        · have edges : Edge g.graph = FirstEdge ids regs := by
            funext a b
            rw [← register_edge_iff ids regs a b, Edge, Edge, same]
          rw [correct, edges]
          simp [DependenceOrdered, earlier, later, FirstOrdered]

theorem analyzeRaceCondition_excused (excused : x.ShareLock y ∨ (ctx.tasks y.taskPtr).inReduction = true)
    (before : Bool) (diff : Int) :
    (analyzeRaceCondition ctx x y before diff).map RaceAnalysis.race = .ok false := by
  rw [← analyzeMutualExclusion_iff] at excused
  unfold analyzeRaceCondition
  by_cases lock : analyzeMutualExclusion x y = true
  · rw [if_pos lock]
    rfl
  · rw [if_neg lock, if_pos (excused.resolve_left lock)]
    rfl

theorem analyzeRaceCondition_exposed (noLock : ¬x.ShareLock y)
    (calm : (ctx.tasks y.taskPtr).inReduction = false) (before : Bool) (diff : Int) :
    (analyzeRaceCondition ctx x y before diff).map RaceAnalysis.race =
      (decideOrder ctx x y).map fun order => !order.1 && (x.isWrite || y.isWrite) := by
  rw [← analyzeMutualExclusion_iff] at noLock
  unfold analyzeRaceCondition
  rw [if_neg noLock, if_neg (Bool.not_eq_true _ ▸ calm)]
  cases decideOrder ctx x y <;> rfl

end Analysis

/-- A check of the second record against the first one finds no race, whatever the out-parameters hold. -/
def Excluded (ctx : Context) (x y : Record) : Prop :=
  ∀ before diff, (analyzeRaceCondition ctx x y before diff).map RaceAnalysis.race = .ok false

def Races (ctx : Context) (x y : Record) : Prop :=
  ∀ before diff, (analyzeRaceCondition ctx x y before diff).map RaceAnalysis.race = .ok true

/-- The accesses of two explicit tasks that have both registered a mutexinoutset dependence on a variable. -/
structure MutexPair (ctx : Context) (ids : Nat → Int) (regs : List Registration) (v : Variable)
    (x y : Record) : Prop where
  graph : ctx.HasGraph ids regs
  explicit : (ctx.tasks x.taskPtr).isExplicitTask = true ∧ (ctx.tasks y.taskPtr).isExplicitTask = true
  others : x.taskPtr ≠ y.taskPtr
  first : (x.taskPtr, ⟨v, .mutexinoutset⟩) ∈ regs
  second : (y.taskPtr, ⟨v, .mutexinoutset⟩) ∈ regs

/-- Neither the labels nor the dependences order two conflicting accesses, and nothing else excuses them. -/
structure Unprotected (ctx : Context) (ids : Nat → Int) (regs : List Registration) (x y : Record) : Prop where
  labels : happensBefore (ctx.heap.read x.label) (ctx.heap.read y.label) = .ok false
  dependences : ¬DependenceOrdered ctx ids regs x y
  write : x.isWrite = true ∨ y.isWrite = true
  noLock : ¬x.ShareLock y
  calm : (ctx.tasks y.taskPtr).inReduction = false

def OutsidersRace (ctx : Context) (ids : Nat → Int) (regs : List Registration) (v : Variable) (x : Record) : Prop :=
  ∀ z : Record, (z.taskPtr, ⟨v, .mutexinoutset⟩) ∉ regs →
    (Unprotected ctx ids regs x z → Races ctx x z) ∧ (Unprotected ctx ids regs z x → Races ctx z x)

def ExcusedOtherwise (ctx : Context) (ids : Nat → Int) (regs : List Registration) (x y : Record) : Prop :=
  x.ShareLock y ∨ (ctx.tasks y.taskPtr).inReduction = true ∨
    ∃ before, happensBefore (ctx.heap.read x.label) (ctx.heap.read y.label) = .ok before ∧
      (before = true ∨ FirstOrdered ids regs x.taskPtr y.taskPtr ∨ (x.isWrite = false ∧ y.isWrite = false))

section Pairs

variable {ctx : Context} {ids : Nat → Int} {regs : List Registration} {v : Variable} {x y : Record}

theorem Unprotected.races (graph : ctx.HasGraph ids regs) (others : x.taskPtr ≠ y.taskPtr)
    (free : Unprotected ctx ids regs x y) : Races ctx x y := by
  intro before diff
  obtain ⟨order, left, decided, ordered⟩ := decideOrder_iff graph others free.labels
  have unordered : order = false := by
    cases order with
    | false => rfl
    | true =>
      rcases ordered.mp rfl with none | chain
      · cases none
      · exact absurd chain free.dependences
  have conflict : (x.isWrite || y.isWrite) = true := Bool.or_eq_true _ _ ▸ free.write
  rw [analyzeRaceCondition_exposed free.noLock free.calm, decided, unordered]
  simp only [Except.map, conflict, Bool.not_false, Bool.and_self]

theorem MutexPair.excluded_iff (pair : MutexPair ctx ids regs v x y) :
    Excluded ctx x y ↔ ExcusedOtherwise ctx ids regs x y := by
  by_cases locked : x.ShareLock y
  · exact ⟨fun _ => .inl locked, fun _ => analyzeRaceCondition_excused (.inl locked)⟩
  by_cases reduction : (ctx.tasks y.taskPtr).inReduction = true
  · exact ⟨fun _ => .inr (.inl reduction), fun _ => analyzeRaceCondition_excused (.inr reduction)⟩
  unfold Excluded ExcusedOtherwise
  simp only [analyzeRaceCondition_exposed locked (Bool.not_eq_true _ ▸ reduction), locked, reduction,
    Bool.false_eq_true, false_or, forall_const]
  cases labels : happensBefore (ctx.heap.read x.label) (ctx.heap.read y.label) with
  | error text =>
    have aborts : decideOrder ctx x y = .error text := by
      rw [decideOrder, labels]
      rfl
    simp [aborts, Except.map]
  | ok before =>
    obtain ⟨order, left, decided, ordered⟩ := decideOrder_iff pair.graph pair.others labels
    have chain : DependenceOrdered ctx ids regs x y ↔ FirstOrdered ids regs x.taskPtr y.taskPtr := by
      simp [DependenceOrdered, pair.explicit]
    rw [chain] at ordered
    simp only [decided, Except.map, Except.ok.injEq, exists_eq_left']
    rw [← or_assoc, ← ordered]
    cases order <;> simp

/-- Two tasks of a mutexinoutset set exclude each other only where something else excuses their accesses;
    tasks outside the set race with them as they should. -/
theorem mutexinoutset_excludes_iff (pair : MutexPair ctx ids regs v x y) :
    (Excluded ctx x y ∧ OutsidersRace ctx ids regs v x) ↔ ExcusedOtherwise ctx ids regs x y := by
  rw [pair.excluded_iff]
  refine ⟨And.left, fun excused => ⟨excused, fun z outside => ?_⟩⟩
  have others : x.taskPtr ≠ z.taskPtr := fun same => outside (same ▸ pair.first)
  exact ⟨fun free => free.races pair.graph others, fun free => free.races pair.graph others.symm⟩

end Pairs

def mutexRegistrations : List Registration := [(2, ⟨0x10, .mutexinoutset⟩), (3, ⟨0x10, .mutexinoutset⟩)]

def mutexSiblings : Context where
  heap := siblings.heap
  tasks := fun task => markMutexTask (siblings.tasks task) ⟨0x10, .mutexinoutset⟩
  taskDepGraph := some (register (fun task => task) mutexRegistrations)

theorem mutexPair_siblings (label label' : Label) (locks : Option SmallLockSet) :
    MutexPair mutexSiblings (fun task => task) mutexRegistrations 0x10 (siblingAccess 2 label locks).record
      (siblingAccess 3 label' locks).record :=
  ⟨⟨_, rfl, rfl⟩, ⟨rfl, rfl⟩, show 2 ≠ 3 by decide, .head _, .tail _ (.head _)⟩

/-- Under a lock that both hold, they do exclude each other. -/
theorem mutexinoutset_excludes_locked :
    Excluded mutexSiblings (siblingAccess 2 [0, 1, 2] (some oneLock)).record
      (siblingAccess 3 [0, 3, 4] (some oneLock)).record :=
  ((mutexinoutset_excludes_iff (mutexPair_siblings [0, 1, 2] [0, 3, 4] (some oneLock))).mpr
    (.inl ⟨oneLock, oneLock, rfl, rfl, .inl ⟨7, by decide, by decide⟩⟩)).1

/-- Both write, and nobody looks at the mark that `addDeps` has left on their tasks. -/
theorem mutexinoutset_reported : ¬∀ ctx ids regs v x y, MutexPair ctx ids regs v x y → Excluded ctx x y := by
  intro excluded
  have race : (analyzeRaceCondition mutexSiblings (siblingAccess 2 [0, 1, 2] none).record
      (siblingAccess 3 [0, 3, 4] none).record false 0).map RaceAnalysis.race = .ok true := rfl
  rw [excluded _ _ _ _ _ _ (mutexPair_siblings [0, 1, 2] [0, 3, 4] none)] at race
  cases race

end Romp
