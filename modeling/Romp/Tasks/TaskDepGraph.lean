import Romp.Graph.Search
import Romp.Tasks.TaskData

namespace Romp

inductive DependenceType where
  | in_ | out | inout | mutexinoutset | source | sink
  deriving DecidableEq, Repr

abbrev Variable := BitVec 64

structure Dependence where
  variablePtr : Variable
  dependenceType : DependenceType
  deriving DecidableEq, Repr

/-- An `unordered_map`, of which only `find` and the assignment to an entry are used. -/
abbrev Map (κ β : Type) := List (κ × β)

namespace Map

variable {κ β : Type} [DecidableEq κ]

def find (m : Map κ β) (key : κ) : Option β := List.lookup key m

def assign (m : Map κ β) (key : κ) (value : β) : Map κ β := (key, value) :: m

theorem find_assign (m : Map κ β) (key other : κ) (value : β) :
    (m.assign key value).find other = if other = key then some value else m.find other := by
  by_cases same : other = key
  · simp [find, assign, same]
  · simp [find, assign, same, List.lookup_cons, beq_eq_false_iff_ne.mpr same]

end Map

abbrev Adjacency := Map Nat (List Nat)

structure TaskDepGraph where
  deps : Map Variable (List (Nat × DependenceType))
  graph : Adjacency

namespace TaskDepGraph

def empty : TaskDepGraph := ⟨[], []⟩

def addEdge (graph : Adjacency) (origin target : Nat) : Adjacency :=
  match graph.find origin with
  | none => graph.assign origin [target]
  | some nodes => graph.assign origin (nodes ++ [target])

/-- The switch of `addDeps`: which earlier dependence a new one has to wait for. -/
def ordersAfter (depType otherDepType : DependenceType) : Bool :=
  match depType with
  | .in_ => otherDepType = .out || otherDepType = .inout || otherDepType = .mutexinoutset
  | .out | .inout => true
  | .mutexinoutset => otherDepType = .in_ || otherDepType = .inout || otherDepType = .out
  | .source | .sink => false

def addEdges (ids : Nat → Int) (task : Nat) (depType : DependenceType) (graph : Adjacency)
    (stored : List (Nat × DependenceType)) : Adjacency :=
  stored.foldl (fun graph pair =>
    if ids task > ids pair.1 ∧ ordersAfter depType pair.2 then addEdge graph pair.1 task
    else graph) graph

/-- Only the first dependence on a variable is stored: the branch that finds the variable adds
    edges and leaves the stored vector as it is. -/
def addDeps (ids : Nat → Int) (g : TaskDepGraph) (dep : Dependence) (task : Nat) :
    TaskDepGraph :=
  if dep.dependenceType = .source ∨ dep.dependenceType = .sink then g
  else match g.deps.find dep.variablePtr with
    | none => { g with deps := g.deps.assign dep.variablePtr [(task, dep.dependenceType)] }
    | some stored => { g with graph := addEdges ids task dep.dependenceType g.graph stored }

/-- The other effect of `addDeps`, on the task that registers the dependence. -/
def markMutexTask (data : TaskData) (dep : Dependence) : TaskData :=
  if dep.dependenceType = .mutexinoutset then { data with isMutexTask := true } else data

def successors (graph : Adjacency) (node : Nat) : List Nat := (graph.find node).getD []

/-- `_graph[cur]` inserts an empty entry for a node that has none. -/
def touch (graph : Adjacency) (cur : Nat) : Adjacency :=
  match graph.find cur with
  | none => graph.assign cur []
  | some _ => graph

def hasPathLoop (target : Nat) :
    Nat → List Nat → List Nat → Adjacency → Option (Bool × Adjacency)
  | _, [], _, graph => some (false, graph)
  | 0, _ :: _, _, _ => none
  | fuel + 1, cur :: todo, visited, graph =>
    if cur = target then some (true, graph)
    else if cur ∈ visited then hasPathLoop target fuel todo visited graph
    else
      let graph := touch graph cur
      let pushed := (successors graph cur).filter fun neighbor => neighbor ∉ cur :: visited
      hasPathLoop target fuel (pushed.reverse ++ todo) (cur :: visited) graph

/-- One unit of fuel for the first node and one for each edge. -/
def pathFuel (graph : Adjacency) : Nat :=
  1 + ((graph.map Prod.fst).map fun v => (successors graph v).length).sum

def hasPath (graph : Adjacency) (origin target : Nat) : Option (Bool × Adjacency) :=
  match graph.find origin with
  | none => some (false, graph)
  | some _ => hasPathLoop target (pathFuel graph) [origin] [] graph

end TaskDepGraph

end Romp
