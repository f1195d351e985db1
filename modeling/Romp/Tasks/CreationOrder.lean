import Romp.Callbacks.Detector
import Romp.Tasks.Siblings

open Relation

namespace Romp

open TaskDepGraph

inductive RegionEvent where
  | create
  | register (task : Nat) (dep : Dependence)

/-- A region with its explicit tasks, which are numbered in the order in which they drew their ids. -/
structure TaskRegion where
  created : Nat
  expLocalId : Nat → Int
  data : ParRegionData

namespace TaskRegion

def new (n : Nat) (p : Int) : TaskRegion := ⟨0, fun _ => 0, .new n p⟩

/-- A new task draws the count as its id, by an atomic fetch-and-add; registrations hold the lock of the region. -/
def step (s : TaskRegion) : RegionEvent → Option TaskRegion
  | .create => some
      { created := s.created + 1
        expLocalId := Function.update s.expLocalId s.created s.data.expTaskCount.toInt
        data := { s.data with expTaskCount := s.data.expTaskCount + 1 } }
  | .register task dep =>
    if task < s.created then
      some { s with data := { s.data with taskDepGraph := s.data.taskDepGraph.addDeps s.expLocalId dep task } }
    else none

def run (s : TaskRegion) (es : List RegionEvent) : Option TaskRegion := es.foldlM step s

end TaskRegion

def drawnId (k : Nat) : Int := (BitVec.ofNat 32 k).toInt

def regionRegistrations (es : List RegionEvent) : List Registration :=
  es.filterMap fun
    | .register task dep => some (task, dep)
    | .create => none

namespace TaskRegion

theorem run_snoc (s : TaskRegion) (es : List RegionEvent) (e : RegionEvent) :
    s.run (es ++ [e]) = (s.run es).bind fun s' => s'.step e := by
  rw [run, List.foldlM_append]
  refine Option.bind_congr fun s' _ => ?_
  simp

theorem step_create (s : TaskRegion) : ∃ s', s.step .create = some s' ∧ s'.created = s.created + 1 := ⟨_, rfl, rfl⟩

theorem step_register (s : TaskRegion) {task : Nat} (isTask : task < s.created) (dep : Dependence) :
    ∃ s', s.step (.register task dep) = some s' ∧ s'.created = s.created := ⟨_, if_pos isTask, rfl⟩

structure Drawn (s : TaskRegion) (regs : List Registration) : Prop where
  count : s.data.expTaskCount = BitVec.ofNat 32 s.created
  ids : ∀ k < s.created, s.expLocalId k = drawnId k
  created : ∀ reg ∈ regs, reg.1 < s.created
  graph : s.data.taskDepGraph = register drawnId regs

theorem Drawn.step {s s' : TaskRegion} {regs : List Registration} (drawn : s.Drawn regs) {e : RegionEvent}
    (stepped : s.step e = some s') : s'.Drawn (regs ++ regionRegistrations [e]) := by
  cases e with
  | create =>
    cases stepped
    refine ⟨?_, fun k less => ?_, fun reg member => ?_, ?_⟩
    · simp only [drawn.count, BitVec.ofNat_add]
      rfl
    · by_cases self : k = s.created
      · simp only [self, Function.update_self, drawn.count, drawnId]
      · simp only [Function.update_of_ne self]
        exact drawn.ids k (by have bound : k < s.created + 1 := less; omega)
    · simp only [regionRegistrations, List.filterMap_cons, List.filterMap_nil, List.append_nil] at member
      exact Nat.lt_succ_of_lt (drawn.created reg member)
    · simp only [regionRegistrations, List.filterMap_cons, List.filterMap_nil, List.append_nil]
      exact drawn.graph
  | register task dep =>
    simp only [TaskRegion.step] at stepped
    split at stepped
    · rename_i isTask
      cases stepped
      have created : ∀ reg ∈ regs ++ regionRegistrations [.register task dep], reg.1 < s.created := by
        intro reg member
        rcases List.mem_append.mp member with old | new
        · exact drawn.created reg old
        · simp only [regionRegistrations, List.filterMap_cons, List.filterMap_nil, List.mem_singleton] at new
          rw [new]
          exact isTask
      refine ⟨drawn.count, drawn.ids, created, ?_⟩
      have before : register s.expLocalId regs = register drawnId regs :=
        register_congr fun reg member => drawn.ids reg.1 (drawn.created reg member)
      have after : register s.expLocalId (regs ++ [(task, dep)]) = register drawnId (regs ++ [(task, dep)]) :=
        register_congr fun reg member => drawn.ids reg.1 (created reg member)
      have now : register drawnId (regs ++ regionRegistrations [.register task dep]) =
          register drawnId (regs ++ [(task, dep)]) := rfl
      rw [now, ← after, register_snoc, before]
      exact congrArg (fun g => addDeps s.expLocalId g dep task) drawn.graph
    · cases stepped

theorem drawn_run {n : Nat} {p : Int} {es : List RegionEvent} {s : TaskRegion} (ran : (new n p).run es = some s) :
    s.Drawn (regionRegistrations es) := by
  induction es using List.reverseRecOn generalizing s with
  | nil =>
    cases ran
    exact ⟨rfl, fun k none => absurd none (Nat.not_lt_zero k), List.forall_mem_nil _, rfl⟩
  | append_singleton es e ih =>
    rw [run_snoc] at ran
    obtain ⟨middle, before, stepped⟩ := Option.bind_eq_some_iff.mp ran
    have same : regionRegistrations (es ++ [e]) = regionRegistrations es ++ regionRegistrations [e] := by
      simp only [regionRegistrations, List.filterMap_append]
    rw [same]
    exact (ih before).step stepped

end TaskRegion

/-- The edges go from smaller to larger ids, so that none of them closes a cycle, and a path from one task to another
    says that the first was created before. -/
structure OrderedByCreation (s : TaskRegion) : Prop where
  ascends : ∀ a b, Edge s.data.taskDepGraph.graph a b → s.expLocalId a < s.expLocalId b
  acyclic : ∀ a, ¬ TransGen (Edge s.data.taskDepGraph.graph) a a
  created : ∀ a b, a ≠ b → (hasPath s.data.taskDepGraph.graph a b).map Prod.fst = some true → a < b
  oneWay : ∀ a b, a ≠ b → ¬ ((hasPath s.data.taskDepGraph.graph a b).map Prod.fst = some true ∧
    (hasPath s.data.taskDepGraph.graph b a).map Prod.fst = some true)

/-- A task that finds a younger one as the first on a variable, and has to wait for its type, has no greater id. -/
def YoungerFirst (regs : List Registration) : Prop :=
  ∀ v first later a b, firstOn regs v = some (a, first) → (b, ⟨v, later⟩) ∈ regs → ordersAfter later first = true →
    b < a → drawnId b ≤ drawnId a

theorem drawnId_of_lt {k : Nat} (small : k < 2 ^ 31) : drawnId k = k := by
  rw [drawnId, BitVec.toInt_eq_toNat_of_lt (by rw [BitVec.toNat_ofNat]; omega), BitVec.toNat_ofNat,
    Nat.mod_eq_of_lt (by omega)]

theorem younger_first_of_few {regs : List Registration} (few : ∀ reg ∈ regs, reg.1 < 2 ^ 31) : YoungerFirst regs := by
  intro v first later a b found member _ less
  have small := few _ (firstOn_mem found)
  have small' := few _ member
  rw [drawnId_of_lt small, drawnId_of_lt small']
  omega

section Run

variable {s : TaskRegion} {regs : List Registration} (drawn : s.Drawn regs)

include drawn

theorem TaskRegion.Drawn.edge (a b : Nat) :
    Edge s.data.taskDepGraph.graph a b ↔ FirstEdge drawnId regs a b := by
  rw [drawn.graph]
  exact register_edge_iff ..

theorem TaskRegion.Drawn.edge_ids {a b : Nat} (edge : Edge s.data.taskDepGraph.graph a b) :
    drawnId a < drawnId b ∧ s.expLocalId a < s.expLocalId b := by
  obtain ⟨v, first, later, found, member, less, -⟩ := (drawn.edge a b).mp edge
  refine ⟨less, ?_⟩
  rw [drawn.ids a (drawn.created _ (firstOn_mem found)), drawn.ids b (drawn.created _ member)]
  exact less

theorem TaskRegion.Drawn.path_ids {a b : Nat} (path : TransGen (Edge s.data.taskDepGraph.graph) a b) :
    drawnId a < drawnId b := by
  induction path with
  | single edge => exact (drawn.edge_ids edge).1
  | tail _ edge ih => exact ih.trans (drawn.edge_ids edge).1

end Run

/-- The graph of a region is ordered by creation exactly when the wrapping of the count puts no younger task before
    an older one that has to wait for it. -/
theorem ordered_by_creation_iff {n : Nat} {p : Int} {es : List RegionEvent} {s : TaskRegion}
    (ran : (TaskRegion.new n p).run es = some s) : OrderedByCreation s ↔ YoungerFirst (regionRegistrations es) := by
  have drawn := TaskRegion.drawn_run ran
  constructor
  · intro ordered v first later a b found member waits less
    by_contra greater
    have edge := (drawn.edge a b).mpr ⟨v, first, later, found, member, not_le.mp greater, waits⟩
    have other : a ≠ b := Nat.ne_of_gt less
    have before := ordered.created a b other ((hasPath_true_iff _ other).mpr (.single edge))
    omega
  · intro younger
    have creation : ∀ a b, Edge s.data.taskDepGraph.graph a b → a < b := by
      intro a b edge
      obtain ⟨v, first, later, found, member, less, waits⟩ := (drawn.edge a b).mp edge
      rcases Nat.lt_trichotomy a b with before | same | after
      · exact before
      · subst same
        exact absurd less (lt_irrefl _)
      · have bound := younger v first later a b found member waits after
        omega
    have paths : ∀ a b, TransGen (Edge s.data.taskDepGraph.graph) a b → a < b := by
      intro a b path
      induction path with
      | single edge => exact creation _ _ edge
      | tail _ edge ih => exact ih.trans (creation _ _ edge)
    refine ⟨fun a b edge => (drawn.edge_ids edge).2, fun a cycle => ?_, fun a b other answer => ?_, ?_⟩
    · exact absurd (drawn.path_ids cycle) (lt_irrefl _)
    · exact paths a b ((hasPath_true_iff _ other).mp answer)
    · rintro a b other ⟨forth, back⟩
      have up := drawn.path_ids ((hasPath_true_iff _ other).mp forth)
      have down := drawn.path_ids ((hasPath_true_iff _ other.symm).mp back)
      omega

/-- Two tasks that write a variable register in the order in which they were created. -/
theorem ordered_by_creation_pair : ∃ s, (TaskRegion.new 2 0).run
    [.create, .create, .register 0 ⟨0x10, .out⟩, .register 1 ⟨0x10, .out⟩] = some s ∧ OrderedByCreation s := by
  obtain ⟨s, ran⟩ := Option.isSome_iff_exists.mp (show ((TaskRegion.new 2 0).run
    [.create, .create, .register 0 ⟨0x10, .out⟩, .register 1 ⟨0x10, .out⟩]).isSome = true from rfl)
  exact ⟨s, ran, (ordered_by_creation_iff ran).mpr (younger_first_of_few (by decide))⟩

theorem creates_run (n : Nat) : ∃ s, (TaskRegion.new 2 0).run (List.replicate n .create) = some s ∧ s.created = n := by
  induction n with
  | zero => exact ⟨_, rfl, rfl⟩
  | succ n ih =>
    obtain ⟨s, ran, created⟩ := ih
    obtain ⟨s', stepped, one⟩ := s.step_create
    refine ⟨s', ?_, by rw [one, created]⟩
    rw [List.replicate_succ', TaskRegion.run_snoc, ran]
    exact stepped

def wrappedCount (k : Nat) : List RegionEvent :=
  List.replicate (k + 1) .create ++ [.register k ⟨0x10, .out⟩] ++ [.register 0 ⟨0x10, .out⟩]

theorem wrappedCount_run (k : Nat) : ∃ s, (TaskRegion.new 2 0).run (wrappedCount k) = some s ∧
    regionRegistrations (wrappedCount k) = [(k, ⟨0x10, .out⟩), (0, ⟨0x10, .out⟩)] := by
  obtain ⟨s, ran, created⟩ := creates_run (k + 1)
  have none : ∀ n, regionRegistrations (List.replicate n .create) = [] := by
    intro n
    simp [regionRegistrations]
  obtain ⟨s₁, first, same⟩ := s.step_register (show k < s.created by omega) ⟨0x10, .out⟩
  obtain ⟨s₂, second, -⟩ := s₁.step_register (show 0 < s₁.created by omega) ⟨0x10, .out⟩
  refine ⟨s₂, ?_, ?_⟩
  · rw [wrappedCount, TaskRegion.run_snoc, TaskRegion.run_snoc, ran, Option.bind_some, first]
    exact second
  · have split : regionRegistrations (wrappedCount k) = regionRegistrations (List.replicate (k + 1) .create) ++
        [(k, ⟨0x10, .out⟩), (0, ⟨0x10, .out⟩)] := by
      simp only [wrappedCount, regionRegistrations, List.filterMap_append, List.append_assoc]
      rfl
    rw [split, none, List.nil_append]

/-- The first task is taken to wait for the one created last. -/
theorem creation_order_wraps : ¬ ∀ n p es s, (TaskRegion.new n p).run es = some s → OrderedByCreation s := by
  intro ordered
  obtain ⟨k, big⟩ : ∃ k, k = 2 ^ 31 := ⟨_, rfl⟩
  obtain ⟨s, ran, regs⟩ := wrappedCount_run k
  have drawn := TaskRegion.drawn_run ran
  have less : drawnId k < drawnId 0 := by
    rw [big]
    decide
  rw [regs] at drawn
  have edge := (drawn.edge k 0).mpr ⟨0x10, .out, .out, rfl, by simp, less, rfl⟩
  have other : k ≠ 0 := by omega
  have before := (ordered 2 0 _ s ran).created k 0 other ((hasPath_true_iff _ other).mpr (.single edge))
  exact absurd before (Nat.not_lt_zero k)

end Romp
