import Romp.Tasks.DepOrder

open Relation

namespace Romp

open TaskDepGraph

inductive GraphCall where
  | addDeps (ids : Nat → Int) (dep : Dependence) (task : Nat)
  | addEdge (origin target : Nat)
  | hasPath (origin target : Nat)

namespace GraphCall

def isQuery : GraphCall → Bool
  | hasPath .. => true
  | _ => false

def edges (g : TaskDepGraph) : GraphCall → List (Nat × Nat)
  | addDeps ids dep task =>
    if dep.dependenceType = .source ∨ dep.dependenceType = .sink then []
    else match g.deps.find dep.variablePtr with
      | none => []
      | some stored =>
        (stored.filter fun pair => ids task > ids pair.1 ∧ ordersAfter dep.dependenceType pair.2).map fun pair =>
          (pair.1, task)
  | addEdge origin target => [(origin, target)]
  | hasPath .. => []

/-- The graph after a call, which a query that does not end never comes to. -/
def run (g : TaskDepGraph) : GraphCall → Option TaskDepGraph
  | addDeps ids dep task => some (g.addDeps ids dep task)
  | addEdge origin target => some { g with graph := TaskDepGraph.addEdge g.graph origin target }
  | hasPath origin target => (TaskDepGraph.hasPath g.graph origin target).map fun done => { g with graph := done.2 }

end GraphCall

def runCalls (calls : List GraphCall) : Option (TaskDepGraph × List (Nat × Nat)) :=
  calls.foldlM (fun (state : TaskDepGraph × List (Nat × Nat)) call =>
    (call.run state.1).map fun g => (g, state.2 ++ call.edges state.1)) (TaskDepGraph.empty, [])

def Holds (g : TaskDepGraph) (added : List (Nat × Nat)) : Prop := ∀ a b, Edge g.graph a b ↔ (a, b) ∈ added

theorem edge_addEdge (graph : Adjacency) (origin target a b : Nat) :
    Edge (addEdge graph origin target) a b ↔ Edge graph a b ∨ (a, b) = (origin, target) := by
  rw [Edge, successors_addEdge, Edge, Prod.mk.injEq]
  by_cases same : a = origin
  · simp [same]
  · simp [same]

theorem hasPath_ends (graph : Adjacency) (a b : Nat) :
    ∃ answer result, hasPath graph a b = some (answer, result) ∧ successors result = successors graph := by
  by_cases other : a = b
  · subst other
    cases found : graph.find a with
    | none => exact ⟨false, graph, by simp [hasPath, found], rfl⟩
    | some nodes =>
      have fuel : pathFuel graph = (pathFuel graph - 1) + 1 := by
        rw [pathFuel]
        omega
      refine ⟨true, graph, ?_, rfl⟩
      rw [hasPath, found]
      simp only
      rw [fuel, hasPathLoop, if_pos rfl]
  · obtain ⟨answer, result, done, -, edges⟩ := hasPath_correct graph other
    exact ⟨answer, result, done, edges⟩

theorem Holds.run {g : TaskDepGraph} {added : List (Nat × Nat)} (holds : Holds g added) (call : GraphCall) :
    ∃ g', call.run g = some g' ∧ Holds g' (added ++ call.edges g) := by
  cases call with
  | addDeps ids dep task =>
    refine ⟨_, rfl, fun a b => ?_⟩
    by_cases skipped : dep.dependenceType = .source ∨ dep.dependenceType = .sink
    · simp only [TaskDepGraph.addDeps, GraphCall.edges, if_pos skipped, List.append_nil]
      exact holds a b
    · cases found : g.deps.find dep.variablePtr with
      | none =>
        simp only [TaskDepGraph.addDeps, GraphCall.edges, if_neg skipped, found, List.append_nil]
        exact holds a b
      | some stored =>
        simp only [TaskDepGraph.addDeps, GraphCall.edges, if_neg skipped, found, edge_addEdges, holds a b,
          List.mem_append, List.mem_map, List.mem_filter, decide_eq_true_eq, Prod.mk.injEq]
        grind
  | addEdge origin target =>
    refine ⟨_, rfl, fun a b => ?_⟩
    rw [edge_addEdge, holds a b, GraphCall.edges, List.mem_append, List.mem_singleton]
  | hasPath origin target =>
    obtain ⟨answer, result, done, same⟩ := hasPath_ends g.graph origin target
    refine ⟨_, by rw [GraphCall.run, done]; rfl, fun a b => ?_⟩
    rw [GraphCall.edges, List.append_nil, ← holds a b, Edge, same]
    rfl

theorem GraphCall.run_query {g g' : TaskDepGraph} {call : GraphCall} (query : call.isQuery = true)
    (ran : call.run g = some g') : g'.deps = g.deps ∧ call.edges g = [] := by
  cases call with
  | hasPath origin target =>
    obtain ⟨done, -, rfl⟩ := Option.map_eq_some_iff.mp ran
    exact ⟨rfl, rfl⟩
  | _ => cases query

theorem GraphCall.run_deps {g h g' h' : TaskDepGraph} (same : g.deps = h.deps) {call : GraphCall}
    (ran : call.run g = some g') (ran' : call.run h = some h') : g'.deps = h'.deps ∧ call.edges g = call.edges h := by
  cases call with
  | addDeps ids dep task =>
    cases ran
    cases ran'
    have edges : (GraphCall.addDeps ids dep task).edges g = (GraphCall.addDeps ids dep task).edges h := by
      simp only [GraphCall.edges, same]
    refine ⟨?_, edges⟩
    simp only [TaskDepGraph.addDeps, same]
    split
    · exact same
    · split <;> rfl
  | addEdge origin target =>
    cases ran
    cases ran'
    exact ⟨same, rfl⟩
  | hasPath origin target =>
    have kept := GraphCall.run_query rfl ran
    have kept' := GraphCall.run_query rfl ran'
    exact ⟨kept.1.trans (same.trans kept'.1.symm), rfl⟩

theorem runCalls_snoc (calls : List GraphCall) (call : GraphCall) : runCalls (calls ++ [call]) =
    (runCalls calls).bind fun state => (call.run state.1).map fun g => (g, state.2 ++ call.edges state.1) := by
  rw [runCalls, List.foldlM_append]
  refine Option.bind_congr fun state _ => ?_
  simp

/-- Every sequence of calls ends, and adds the same edges without its queries. -/
theorem runCalls_holds (calls : List GraphCall) : ∃ g h added, runCalls calls = some (g, added) ∧
    runCalls (calls.filter fun call => !call.isQuery) = some (h, added) ∧ g.deps = h.deps ∧ Holds g added ∧
    Holds h added := by
  induction calls using List.reverseRecOn with
  | nil =>
    have nothing : Holds TaskDepGraph.empty [] := by
      intro a b
      simp [Edge, successors, TaskDepGraph.empty, Map.find]
    exact ⟨_, _, _, rfl, rfl, rfl, nothing, nothing⟩
  | append_singleton calls call ih =>
    obtain ⟨g, h, added, ran, ran', deps, holds, holds'⟩ := ih
    obtain ⟨g', done, now⟩ := holds.run call
    have all : runCalls (calls ++ [call]) = some (g', added ++ call.edges g) := by
      rw [runCalls_snoc, ran, Option.bind_some, done, Option.map_some]
    cases query : call.isQuery with
    | true =>
      obtain ⟨kept, none⟩ := GraphCall.run_query query done
      rw [none, List.append_nil] at all now
      refine ⟨g', h, added, all, ?_, kept.trans deps, now, holds'⟩
      rw [List.filter_append, List.filter_cons_of_neg (by simp [query]), List.filter_nil, List.append_nil]
      exact ran'
    | false =>
      obtain ⟨h', done', now'⟩ := holds'.run call
      obtain ⟨deps', edges⟩ := GraphCall.run_deps deps done done'
      rw [← edges] at now'
      refine ⟨g', h', _, all, ?_, deps', now, now'⟩
      rw [List.filter_append, List.filter_cons_of_pos (by simp [query]), List.filter_nil, runCalls_snoc, ran',
        Option.bind_some, done', Option.map_some, edges]

/-- After any calls, a query ends and answers whether the edges added so far make a path; without the queries
    before it the answer is the same. -/
theorem hasPath_reachability (calls : List GraphCall) : ∃ g h added, runCalls calls = some (g, added) ∧
    runCalls (calls.filter fun call => !call.isQuery) = some (h, added) ∧
    ∀ a b, a ≠ b → ∃ answer, (hasPath g.graph a b).map Prod.fst = some answer ∧
      (hasPath h.graph a b).map Prod.fst = some answer ∧
      (answer = true ↔ TransGen (fun x y => (x, y) ∈ added) a b) := by
  obtain ⟨g, h, added, ran, ran', -, holds, holds'⟩ := runCalls_holds calls
  refine ⟨g, h, added, ran, ran', fun a b other => ?_⟩
  have edge : Edge g.graph = fun x y => (x, y) ∈ added := funext fun x => funext fun y => propext (holds x y)
  have edge' : Edge h.graph = fun x y => (x, y) ∈ added := funext fun x => funext fun y => propext (holds' x y)
  obtain ⟨answer, result, done, correct, -⟩ := hasPath_correct g.graph other
  obtain ⟨answer', result', done', correct', -⟩ := hasPath_correct h.graph other
  rw [edge] at correct
  rw [edge', ← correct, ← Bool.eq_iff_iff] at correct'
  refine ⟨answer, by rw [done]; rfl, ?_, correct⟩
  rw [done', correct']
  rfl

end Romp
