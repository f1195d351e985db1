import Mathlib.Data.List.Induction
import Romp.Tasks.TaskDepGraph

open Relation

namespace Romp

namespace TaskDepGraph

def Edge (graph : Adjacency) (a b : Nat) : Prop := b ∈ successors graph a

@[simp] theorem successors_touch (graph : Adjacency) (cur node : Nat) :
    successors (touch graph cur) node = successors graph node := by
  unfold touch
  cases found : graph.find cur with
  | some nodes => rfl
  | none =>
    by_cases same : node = cur
    · subst same
      simp [successors, Map.find_assign, found]
    · simp [successors, Map.find_assign, same]

theorem hasPathLoop_search (target : Nat) (fuel : Nat) (todo visited : List Nat)
    (graph : Adjacency) : (hasPathLoop target fuel todo visited graph).map Prod.fst =
      Graph.search (successors graph) target fuel todo visited := by
  induction fuel generalizing todo visited graph with
  | zero => cases todo <;> rfl
  | succ fuel ih =>
    cases todo with
    | nil => rfl
    | cons cur todo =>
      have same : successors (touch graph cur) = successors graph := funext fun _ => by simp
      simp only [hasPathLoop, Graph.search]
      split
      · rfl
      · split
        · exact ih ..
        · rw [ih, same]

theorem hasPathLoop_keeps_edges (target : Nat) {fuel : Nat} {todo visited : List Nat}
    {graph result : Adjacency} {answer : Bool}
    (done : hasPathLoop target fuel todo visited graph = some (answer, result)) :
    successors result = successors graph := by
  induction fuel generalizing todo visited graph with
  | zero =>
    cases todo with
    | nil => simp only [hasPathLoop, Option.some.injEq, Prod.mk.injEq] at done; rw [done.2]
    | cons cur todo => cases done
  | succ fuel ih =>
    cases todo with
    | nil => simp only [hasPathLoop, Option.some.injEq, Prod.mk.injEq] at done; rw [done.2]
    | cons cur todo =>
      simp only [hasPathLoop] at done
      split at done
      · simp only [Option.some.injEq, Prod.mk.injEq] at done
        rw [done.2]
      · split at done
        · exact ih done
        · exact (ih done).trans (funext fun _ => by simp)

theorem successors_unknown {graph : Adjacency} {v : Nat} (absent : v ∉ graph.map Prod.fst) :
    successors graph v = [] := by
  have missing : graph.find v = none := by
    induction graph with
    | nil => rfl
    | cons entry graph ih =>
      obtain ⟨key, nodes⟩ := entry
      simp only [List.map_cons, List.mem_cons, not_or] at absent
      simp only [Map.find, List.lookup_cons, beq_eq_false_iff_ne.mpr absent.1]
      exact ih absent.2
  simp [successors, missing]

theorem reaches_iff_path {graph : Adjacency} {a b : Nat} (other : a ≠ b) :
    Graph.Reaches (successors graph) a b ↔ TransGen (Edge graph) a b := by
  rw [Graph.Reaches, reflTransGen_iff_eq_or_transGen]
  constructor
  · rintro (same | path)
    · exact absurd same.symm other
    · exact path
  · exact .inr

/-- `hasPath` always answers, its answer is reachability, and it changes no edge. -/
theorem hasPath_correct (graph : Adjacency) {a b : Nat} (other : a ≠ b) :
    ∃ answer result, hasPath graph a b = some (answer, result) ∧
      (answer = true ↔ TransGen (Edge graph) a b) ∧ successors result = successors graph := by
  cases found : graph.find a with
  | none =>
    refine ⟨false, graph, by simp [hasPath, found], ?_, rfl⟩
    simp only [Bool.false_eq_true, false_iff]
    intro path
    obtain ⟨c, edge, -⟩ := TransGen.head'_iff.mp path
    simp [Edge, successors, found] at edge
  | some nodes =>
    have enough : [a].length + Graph.pending (successors graph) (graph.map Prod.fst) [] ≤
        pathFuel graph := by simp [pathFuel, Graph.pending]
    obtain ⟨answer, searched⟩ := Graph.search_terminates b
      (fun v absent => successors_unknown absent) enough
    have loop := hasPathLoop_search b (pathFuel graph) [a] [] graph
    rw [searched, Option.map_eq_some_iff] at loop
    obtain ⟨⟨answer', result⟩, done, rfl⟩ := loop
    refine ⟨answer', result, by simp [hasPath, found, done], ?_, hasPathLoop_keeps_edges b done⟩
    rw [Graph.search_correct (by simp [Graph.Frontier]) searched, ← reaches_iff_path other]
    simp

theorem hasPath_true_iff (graph : Adjacency) {a b : Nat} (other : a ≠ b) :
    (hasPath graph a b).map Prod.fst = some true ↔ TransGen (Edge graph) a b := by
  obtain ⟨answer, result, done, correct, -⟩ := hasPath_correct graph other
  simp [done, correct]

theorem successors_addEdge (graph : Adjacency) (a b v : Nat) :
    successors (addEdge graph a b) v =
      if v = a then successors graph a ++ [b] else successors graph v := by
  unfold addEdge
  cases found : graph.find a <;> by_cases same : v = a <;>
    simp [successors, Map.find_assign, same, found]

theorem edge_addEdges (ids : Nat → Int) (task : Nat) (depType : DependenceType)
    (stored : List (Nat × DependenceType)) (graph : Adjacency) (a b : Nat) :
    Edge (addEdges ids task depType graph stored) a b ↔ Edge graph a b ∨
      (b = task ∧ ∃ pair ∈ stored, pair.1 = a ∧ ids a < ids task ∧ ordersAfter depType pair.2) := by
  unfold addEdges
  induction stored generalizing graph with
  | nil => simp
  | cons pair stored ih =>
    rw [List.foldl_cons, ih]
    by_cases ordered : ids task > ids pair.1 ∧ ordersAfter depType pair.2
    · have added : Edge (addEdge graph pair.1 task) a b ↔
          Edge graph a b ∨ (b = task ∧ pair.1 = a) := by
        simp only [Edge, successors_addEdge]
        by_cases same : a = pair.1
        · simp [same]
        · simp [same, Ne.symm same]
      simp only [ordered, and_self, if_true, added, List.exists_mem_cons_iff]
      grind
    · simp only [ordered, if_false, List.exists_mem_cons_iff]
      grind

end TaskDepGraph

open TaskDepGraph

abbrev Registration := Nat × Dependence

def register (ids : Nat → Int) (regs : List Registration) : TaskDepGraph :=
  regs.foldl (fun g r => addDeps ids g r.2 r.1) TaskDepGraph.empty

def Registration.IsStored (v : Variable) (r : Registration) : Bool :=
  r.2.variablePtr = v && r.2.dependenceType ≠ .source && r.2.dependenceType ≠ .sink

def firstOn (regs : List Registration) (v : Variable) : Option (Nat × DependenceType) :=
  (regs.find? (Registration.IsStored v)).map fun r => (r.1, r.2.dependenceType)

/-- `a` was the first to register on some variable, and `b`, created later, registered on it too
    with a type that has to wait for `a`'s. -/
def FirstEdge (ids : Nat → Int) (regs : List Registration) (a b : Nat) : Prop :=
  ∃ v first later, firstOn regs v = some (a, first) ∧ (b, ⟨v, later⟩) ∈ regs ∧
    ids a < ids b ∧ ordersAfter later first = true

theorem register_snoc (ids : Nat → Int) (regs : List Registration) (r : Registration) :
    register ids (regs ++ [r]) = addDeps ids (register ids regs) r.2 r.1 := by
  simp [register]

theorem firstOn_snoc (regs : List Registration) (r : Registration) (v : Variable) :
    firstOn (regs ++ [r]) v = (firstOn regs v).or
      (if r.IsStored v then some (r.1, r.2.dependenceType) else none) := by
  unfold firstOn
  rw [List.find?_append]
  cases regs.find? (Registration.IsStored v) with
  | some s => simp
  | none => by_cases stored : r.IsStored v <;> simp [stored]

theorem register_deps (ids : Nat → Int) (regs : List Registration) (v : Variable) :
    (register ids regs).deps.find v = (firstOn regs v).map fun pair => [pair] := by
  induction regs using List.reverseRecOn with
  | nil => rfl
  | append_singleton regs r ih =>
    rw [register_snoc, firstOn_snoc]
    by_cases skipped : r.2.dependenceType = .source ∨ r.2.dependenceType = .sink
    · have unstored : r.IsStored v = false := by
        rcases skipped with h | h <;> simp [Registration.IsStored, h]
      simp [addDeps, skipped, ih, unstored]
    · have kinds := not_or.mp skipped
      cases found : (register ids regs).deps.find r.2.variablePtr with
      | none =>
        by_cases same : v = r.2.variablePtr
        · subst same
          have none : firstOn regs r.2.variablePtr = none := by simpa [found] using ih.symm
          simp [addDeps, found, Map.find_assign, none, Registration.IsStored, kinds]
        · simp [addDeps, skipped, found, Map.find_assign, same, ih, Registration.IsStored, Ne.symm same]
      | some stored =>
        by_cases same : v = r.2.variablePtr
        · subst same
          obtain ⟨pair, first, only⟩ : ∃ pair, firstOn regs r.2.variablePtr = some pair ∧ [pair] = stored := by
            simpa [found, eq_comm] using ih
          simp [addDeps, skipped, found, first, only]
        · simp [addDeps, skipped, found, ih, Registration.IsStored, Ne.symm same]

theorem ordersAfter_stored (v : Variable) {later first : DependenceType} (task : Nat)
    (ordered : ordersAfter later first = true) : Registration.IsStored v (task, ⟨v, later⟩) = true := by
  cases later <;> simp_all [Registration.IsStored, ordersAfter]

theorem firstOn_isSome {regs : List Registration} {r : Registration} {v : Variable}
    (member : r ∈ regs) (stored : r.IsStored v = true) : firstOn regs v ≠ none := by
  simp only [firstOn, ne_eq, Option.map_eq_none_iff, List.find?_eq_none, not_forall]
  exact ⟨r, member, by simp [stored]⟩

theorem firstEdge_snoc (ids : Nat → Int) (regs : List Registration) (r : Registration) (a b : Nat) :
    FirstEdge ids (regs ++ [r]) a b ↔ FirstEdge ids regs a b ∨ (b = r.1 ∧ ∃ first,
      firstOn regs r.2.variablePtr = some (a, first) ∧ ids a < ids b ∧
      ordersAfter r.2.dependenceType first = true) := by
  constructor
  · rintro ⟨v, first, later, found, member, created, ordered⟩
    have stored := ordersAfter_stored v b ordered
    rw [firstOn_snoc] at found
    rcases List.mem_append.mp member with old | new
    · cases known : firstOn regs v with
      | none => exact absurd known (firstOn_isSome old stored)
      | some pair =>
        rw [known, Option.some_or] at found
        exact .inl ⟨v, first, later, known.trans found, old, created, ordered⟩
    · obtain rfl : (b, ⟨v, later⟩) = r := List.mem_singleton.mp new
      cases known : firstOn regs v with
      | none =>
        -- The first registration on a variable adds no edge: the task would precede itself.
        simp only [known, Option.none_or, stored, if_true, Option.some.injEq, Prod.mk.injEq] at found
        exact absurd created (found.1 ▸ lt_irrefl _)
      | some pair =>
        rw [known, Option.some_or] at found
        exact .inr ⟨rfl, first, found, created, ordered⟩
  · rintro (⟨v, first, later, found, member, created, ordered⟩ | ⟨rfl, first, found, created, ordered⟩)
    · refine ⟨v, first, later, ?_, List.mem_append_left _ member, created, ordered⟩
      rw [firstOn_snoc, found, Option.some_or]
    · refine ⟨r.2.variablePtr, first, r.2.dependenceType, ?_, ?_, created, ordered⟩
      · rw [firstOn_snoc, found, Option.some_or]
      · exact List.mem_append_right _ (List.mem_singleton_self r)

/-- The edges of the dependence graph all leave first registrants. -/
theorem register_edge_iff (ids : Nat → Int) (regs : List Registration) (a b : Nat) :
    Edge (register ids regs).graph a b ↔ FirstEdge ids regs a b := by
  induction regs using List.reverseRecOn with
  | nil => simp [register, TaskDepGraph.empty, Edge, successors, Map.find, FirstEdge]
  | append_singleton regs r ih =>
    rw [register_snoc, firstEdge_snoc, ← ih]
    have deps := register_deps ids regs r.2.variablePtr
    by_cases skipped : r.2.dependenceType = .source ∨ r.2.dependenceType = .sink
    · have never : ∀ other, ordersAfter r.2.dependenceType other = false := by
        rcases skipped with h | h <;> simp [h, ordersAfter]
      simp [addDeps, skipped, never]
    · cases known : firstOn regs r.2.variablePtr with
      | none =>
        rw [known, Option.map_none] at deps
        simp [addDeps, skipped, deps]
      | some pair =>
        rw [known, Option.map_some] at deps
        simp only [addDeps, skipped, if_false, deps, edge_addEdges, List.mem_singleton,
          Option.some.injEq, Prod.ext_iff]
        grind

/-- Two dependences on one variable that the tasks of one parent have to keep in creation order. -/
def DependenceType.conflicts (earlier later : DependenceType) : Bool :=
  earlier = .out || earlier = .inout || later = .out || later = .inout ||
    (earlier = .in_ && later = .mutexinoutset) || (earlier = .mutexinoutset && later = .in_)

def Registration.IsTaskDependence (r : Registration) : Prop :=
  r.2.dependenceType ≠ .source ∧ r.2.dependenceType ≠ .sink

/-- Where neither type is one that `addDeps` ignores, its switch is the conflict relation. -/
theorem ordersAfter_eq_conflicts {earlier later : DependenceType}
    (first : earlier ≠ .source ∧ earlier ≠ .sink) (second : later ≠ .source ∧ later ≠ .sink) :
    ordersAfter later earlier = earlier.conflicts later := by
  cases earlier <;> cases later <;> simp_all [ordersAfter, DependenceType.conflicts]

structure InCreationOrder (ids : Nat → Int) (regs : List Registration) : Prop where
  ordered : regs.Pairwise fun r s => r.1 = s.1 ∨ ids r.1 < ids s.1
  dependences : ∀ r ∈ regs, r.IsTaskDependence

def Conflicting (regs : List Registration) (a b : Nat) : Prop :=
  ∃ v earlier later, (a, ⟨v, earlier⟩) ∈ regs ∧ (b, ⟨v, later⟩) ∈ regs ∧
    earlier.conflicts later = true

/-- A chain of tasks in which each one was the first to register on a variable that the next one
    registered on later. -/
def FirstOrdered (ids : Nat → Int) (regs : List Registration) : Nat → Nat → Prop :=
  TransGen (FirstEdge ids regs)

def dependsOn (ids : Nat → Int) (regs : List Registration) (a b : Nat) : Option Bool :=
  (hasPath (register ids regs).graph a b).map Prod.fst

theorem dependsOn_iff {ids : Nat → Int} {a b : Nat} (regs : List Registration)
    (other : a ≠ b) : dependsOn ids regs a b = some true ↔ FirstOrdered ids regs a b := by
  have same : Edge (register ids regs).graph = FirstEdge ids regs := by
    funext c d
    exact propext (register_edge_iff ids regs c d)
  rw [dependsOn, hasPath_true_iff _ other, same, FirstOrdered]

/-- A dependence between two children is kept exactly when a chain of first registrants joins them. -/
theorem dependence_kept_iff {ids : Nat → Int} (regs : List Registration) {a b : Nat}
    (earlier : ids a < ids b) :
    (Conflicting regs a b → dependsOn ids regs a b = some true) ↔
      (Conflicting regs a b → FirstOrdered ids regs a b) := by
  have other : a ≠ b := by
    rintro rfl
    exact lt_irrefl _ earlier
  rw [dependsOn_iff regs other]

def writeUpdateRead : List Registration := [(1, ⟨0x10, .out⟩), (2, ⟨0x10, .inout⟩), (3, ⟨0x10, .in_⟩)]

theorem writeUpdateRead_inCreationOrder : InCreationOrder (fun task => task) writeUpdateRead :=
  ⟨by decide, by simp [writeUpdateRead, Registration.IsTaskDependence]⟩

theorem dependence_kept_first : dependsOn (fun task => task) writeUpdateRead 1 3 = some true := by
  have chain : FirstOrdered (fun task => task) writeUpdateRead 1 3 :=
    .single ⟨0x10, .out, .in_, by decide, by decide, by decide, rfl⟩
  exact (dependence_kept_iff writeUpdateRead (by decide)).mpr (fun _ => chain)
    ⟨0x10, .out, .in_, by decide, by decide, rfl⟩

/-- The read is not ordered after the update: the graph knows of the first task only. -/
theorem dependence_lost : ¬ ∀ (ids : Nat → Int) (regs : List Registration),
    InCreationOrder ids regs → ∀ a b, ids a < ids b → Conflicting regs a b →
      dependsOn ids regs a b = some true := by
  intro kept
  have answer := kept (fun task => task) writeUpdateRead writeUpdateRead_inCreationOrder 2 3 (by decide)
    ⟨0x10, .inout, .in_, by decide, by decide, rfl⟩
  exact absurd answer (by decide)

end Romp
