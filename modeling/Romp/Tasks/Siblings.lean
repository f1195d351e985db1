import Romp.Callbacks.Frame
import Romp.Tasks.DepOrder

open Relation

namespace Romp

open TaskDepGraph

/-- The registrations that a run makes for the dependence graph of a region; the tasks are those of
    the state that the run ends in. -/
def registrations (s : System) (r : Nat) (es : List Event) : List Registration :=
  es.flatMap fun
    | .dependences t deps =>
      if (s.runtime.task t).region = some r then deps.map fun dep => (t, dep) else []
    | _ => []

def localId (s : System) (t : Nat) : Int := (s.detector.data t).expLocalId

/-- The dependence graph of every region is what its registrations make of it. -/
structure GraphsKept (s : System) (es : List Event) : Prop where
  tasks : ∀ e ∈ es, ∀ t deps, e = .dependences t deps → t < s.runtime.tasks ∧ (s.runtime.task t).kind = .explicit
  implicit : ∀ t < s.runtime.tasks, ∀ r i, (s.runtime.task t).kind = .implicit r i → localId s t = 0
  later : ∀ t, s.runtime.tasks ≤ t → localId s t = 0
  regions : ∀ t < s.runtime.tasks, ∀ r, (s.runtime.task t).region = some r → r < s.runtime.regions
  graph : ∀ r < s.runtime.regions,
    (s.detector.regions r).taskDepGraph = register (localId s) (registrations s r es)

theorem mem_registrations {s : System} {r : Nat} {es : List Event} {reg : Registration} :
    reg ∈ registrations s r es ↔ ∃ deps, Event.dependences reg.1 deps ∈ es ∧
      (s.runtime.task reg.1).region = some r ∧ reg.2 ∈ deps := by
  simp only [registrations, List.mem_flatMap]
  constructor
  · rintro ⟨e, inside, member⟩
    cases e with
    | dependences t deps =>
      by_cases same : (s.runtime.task t).region = some r
      · simp only [same, if_true, List.mem_map] at member
        obtain ⟨dep, isDep, rfl⟩ := member
        exact ⟨deps, inside, same, isDep⟩
      · simp [same] at member
    | _ => cases member
  · rintro ⟨deps, inside, same, isDep⟩
    refine ⟨_, inside, ?_⟩
    simp only [same, if_true, List.mem_map]
    exact ⟨reg.2, isDep, rfl⟩

theorem firstOn_mem {regs : List Registration} {v : Variable} {pair : Nat × DependenceType}
    (first : firstOn regs v = some pair) : (pair.1, ⟨v, pair.2⟩) ∈ regs := by
  obtain ⟨reg, found, rfl⟩ := Option.map_eq_some_iff.mp first
  have stored := List.find?_some found
  simp only [Registration.IsStored, Bool.and_eq_true, decide_eq_true_eq] at stored
  obtain ⟨⟨same, -⟩, -⟩ := stored
  subst same
  exact List.mem_of_find?_eq_some found

theorem register_congr {ids ids' : Nat → Int} {regs : List Registration}
    (same : ∀ reg ∈ regs, ids' reg.1 = ids reg.1) : register ids' regs = register ids regs := by
  induction regs using List.reverseRecOn with
  | nil => rfl
  | append_singleton regs reg ih =>
    have before := ih fun other member => same other (List.mem_append_left _ member)
    have last := same reg (List.mem_append_right _ (List.mem_singleton_self reg))
    have deps := register_deps ids regs reg.2.variablePtr
    rw [register_snoc, register_snoc, before, addDeps, addDeps, deps]
    cases first : firstOn regs reg.2.variablePtr with
    | none => rfl
    | some pair =>
      have stored := same _ (List.mem_append_left _ (firstOn_mem first))
      simp only [addEdges, Option.map_some, List.foldl_cons, List.foldl_nil, last, stored]

theorem registrations_congr {s s' : System} {r : Nat} {es : List Event}
    (same : ∀ t deps, Event.dependences t deps ∈ es →
      (s'.runtime.task t).region = (s.runtime.task t).region) :
    registrations s' r es = registrations s r es := by
  refine List.flatMap_congr fun e inside => ?_
  cases e with
  | dependences t deps => simp only [same t deps inside]
  | _ => rfl

theorem registrations_snoc (s : System) (r : Nat) (es : List Event) (e : Event) :
    registrations s r (es ++ [e]) = registrations s r es ++ registrations s r [e] := by
  simp [registrations]

namespace GraphsKept

variable {s s' : System} {es : List Event} (kept : GraphsKept s es)

include kept

theorem registered {r : Nat} {reg : Registration} (member : reg ∈ registrations s r es) :
    reg.1 < s.runtime.tasks := by
  obtain ⟨deps, inside, -⟩ := mem_registrations.mp member
  exact (kept.tasks _ inside _ deps rfl).1

omit kept in
theorem initial (begun : System.initial = .ok s) : GraphsKept s [] := by
  unfold System.initial at begun
  obtain ⟨detector, created, made⟩ := ok_of_bind begun
  unfold on_initial_task at created
  obtain ⟨⟨heap, label⟩, -, created⟩ := ok_of_bind created
  cases created
  cases made
  refine ⟨fun _ none => absurd none List.not_mem_nil, fun t isTask r i kind => ?_, fun t _ => ?_, ?_, ?_⟩
  · cases kind
  · by_cases self : t = 0
    · simp [localId, self, TaskData.new]
    · simp [localId, self, Detector.empty, TaskData.new]
  · intro t _ r none
    cases none
  · intro r none
    exact absurd none (Nat.not_lt_zero _)

theorem quiet {e : Event} (grown : s.runtime.Extends s'.runtime)
    (silent : ∀ t deps, e ≠ .dependences t deps)
    (implicit : ∀ t < s'.runtime.tasks, ∀ r i, (s'.runtime.task t).kind = .implicit r i → localId s' t = 0)
    (later : ∀ t, s'.runtime.tasks ≤ t → localId s' t = 0)
    (regions : ∀ t < s'.runtime.tasks, ∀ r, (s'.runtime.task t).region = some r → r < s'.runtime.regions)
    (ids : ∀ t < s.runtime.tasks, localId s' t = localId s t)
    (graphs : ∀ r < s'.runtime.regions, (r < s.runtime.regions ∧
      (s'.detector.regions r).taskDepGraph = (s.detector.regions r).taskDepGraph) ∨
      (s.runtime.regions ≤ r ∧ (s'.detector.regions r).taskDepGraph = TaskDepGraph.empty)) :
    GraphsKept s' (es ++ [e]) := by
  have same : ∀ r, registrations s' r (es ++ [e]) = registrations s r es := by
    intro r
    have none : registrations s' r [e] = [] := by
      cases e with
      | dependences t deps => exact absurd rfl (silent t deps)
      | _ => rfl
    rw [registrations_snoc, none, List.append_nil]
    refine registrations_congr fun t deps inside => ?_
    exact (grown.fixed t (kept.tasks _ inside t deps rfl).1).region
  refine ⟨?_, implicit, later, regions, ?_⟩
  · rintro x inside t deps rfl
    rcases List.mem_append.mp inside with old | new
    · obtain ⟨isTask, kind⟩ := kept.tasks _ old t deps rfl
      exact ⟨Nat.lt_of_lt_of_le isTask grown.tasks, (grown.fixed t isTask).kind.trans kind⟩
    · exact absurd (List.mem_singleton.mp new).symm (silent t deps)
  · intro r isRegion
    rw [same]
    rcases graphs r isRegion with ⟨old, graph⟩ | ⟨new, graph⟩
    · rw [graph, kept.graph r old]
      exact (register_congr fun reg member => ids reg.1 (kept.registered member)).symm
    · have none : registrations s r es = [] := by
        rw [List.eq_nil_iff_forall_not_mem]
        intro reg member
        obtain ⟨deps, inside, inRegion, -⟩ := mem_registrations.mp member
        have bound := kept.regions reg.1 (kept.registered member) r inRegion
        omega
      rw [graph, none]
      rfl

theorem still {e : Event} (grown : s.runtime.Extends s'.runtime)
    (silent : ∀ t deps, e ≠ .dependences t deps)
    (counts : s'.runtime.tasks = s.runtime.tasks ∧ s'.runtime.regions = s.runtime.regions)
    (ids : localId s' = localId s) (regions : s'.detector.regions = s.detector.regions) :
    GraphsKept s' (es ++ [e]) := by
  refine kept.quiet grown silent ?_ ?_ ?_ (fun t _ => congrFun ids t) ?_
  · intro t isTask r i kind
    rw [counts.1] at isTask
    rw [(grown.fixed t isTask).kind] at kind
    rw [ids]
    exact kept.implicit t isTask r i kind
  · intro t bound
    rw [counts.1] at bound
    rw [ids]
    exact kept.later t bound
  · intro t isTask r inRegion
    rw [counts.1] at isTask
    rw [(grown.fixed t isTask).region] at inRegion
    rw [counts.2]
    exact kept.regions t isTask r inRegion
  · intro r isRegion
    rw [counts.2] at isRegion
    exact .inl ⟨isRegion, by rw [regions]⟩

theorem parallelBegin {t size : Nat} (stepped : s.step (.parallelBegin t size) = some s') :
    GraphsKept s' (es ++ [.parallelBegin t size]) := by
  obtain ⟨enabled, handled, runtime, -⟩ := System.step_cases stepped
  have grown : s.runtime.Extends s'.runtime := runtime ▸ Runtime.after_extends ..
  simp only [Detector.handle, Except.ok.injEq] at handled
  have ids : localId s' = localId s := by
    funext x
    rw [localId, ← handled]
    rfl
  have tasks : s'.runtime.tasks = s.runtime.tasks + size := by rw [runtime]; rfl
  have count : s'.runtime.regions = s.runtime.regions + 1 := by rw [runtime]; rfl
  refine kept.quiet grown (fun _ _ h => by cases h) ?_ ?_ ?_ (fun x _ => congrFun ids x) ?_
  · intro x _ r i kind
    rw [ids]
    by_cases old : x < s.runtime.tasks
    · rw [(grown.fixed x old).kind] at kind
      exact kept.implicit x old r i kind
    · exact kept.later x (by omega)
  · intro x bound
    rw [ids]
    exact kept.later x (by omega)
  · intro x isTask r inRegion
    by_cases old : x < s.runtime.tasks
    · rw [(grown.fixed x old).region] at inRegion
      have bound := kept.regions x old r inRegion
      omega
    · have new : s.runtime.tasks ≤ x ∧ x < s.runtime.tasks + size := by omega
      simp only [runtime, Runtime.after, Runtime.fork, new, and_self, if_true, Task.new,
        Option.some.injEq] at inRegion
      omega
  · intro r isRegion
    rw [← handled]
    by_cases old : r < s.runtime.regions
    · refine .inl ⟨old, ?_⟩
      simp [on_ompt_callback_parallel_begin, Nat.ne_of_lt old]
    · obtain rfl : r = s.runtime.regions := by omega
      refine .inr ⟨le_refl _, ?_⟩
      simp [on_ompt_callback_parallel_begin, ParRegionData.new]

theorem implicitBegin {t : Nat} (stepped : s.step (.implicitBegin t) = some s') :
    GraphsKept s' (es ++ [.implicitBegin t]) := by
  obtain ⟨enabled, handled, runtime, -⟩ := System.step_cases stepped
  have grown : s.runtime.Extends s'.runtime := runtime ▸ Runtime.after_extends ..
  simp only [Runtime.enabled, Bool.and_eq_true, decide_eq_true_eq] at enabled
  have same : localId s' = localId s ∧ s'.detector.regions = s.detector.regions := by
    simp only [Detector.handle] at handled
    split at handled
    · rename_i r i kind
      have zero := kept.implicit t enabled.1 r i kind
      unfold on_ompt_callback_implicit_task at handled
      split at handled
      · have unchanged := Except.ok.inj handled
        exact ⟨funext fun x => by rw [localId, localId, unchanged], by rw [unchanged]⟩
      · obtain ⟨label, -, handled⟩ := ok_of_bind handled
        obtain ⟨⟨heap, made⟩, -, handled⟩ := ok_of_bind handled
        have changed := Except.ok.inj handled
        refine ⟨funext fun x => ?_, by rw [← changed]; rfl⟩
        rw [localId, ← changed, Detector.setData_data]
        by_cases self : x = t
        · rw [if_pos self, self, zero]
          rfl
        · rw [if_neg self]
          rfl
    · have unchanged := Except.ok.inj handled
      exact ⟨funext fun x => by rw [localId, localId, unchanged], by rw [unchanged]⟩
  exact kept.still grown (fun _ _ h => by cases h) (by rw [runtime]; exact ⟨rfl, rfl⟩) same.1 same.2

theorem taskCreate {t : Nat} (stepped : s.step (.taskCreate t) = some s') :
    GraphsKept s' (es ++ [.taskCreate t]) := by
  obtain ⟨enabled, handled, runtime, -⟩ := System.step_cases stepped
  have grown : s.runtime.Extends s'.runtime := runtime ▸ Runtime.after_extends ..
  obtain ⟨ids, graphs⟩ := on_ompt_callback_task_create_spec handled
  have tasks : s'.runtime.tasks = s.runtime.tasks + 1 := by rw [runtime]; rfl
  have count : s'.runtime.regions = s.runtime.regions := by rw [runtime]; rfl
  have created : s'.runtime.task s.runtime.tasks = Task.new .explicit t
      ((s.runtime.task t).strands t) s.runtime.accesses (s.runtime.task t).region ((s.runtime.task t).groups ++ (s.runtime.task t).openGroups) true (s.runtime.task t).known := by
    simp [runtime, Runtime.after]
  have isTask := (Runtime.running_lt enabled).1
  refine kept.quiet grown (fun _ _ h => by cases h) ?_ ?_ ?_ (fun x bound => ids x (Nat.ne_of_lt bound)) ?_
  · intro x bound r i kind
    by_cases new : x = s.runtime.tasks
    · rw [new, created] at kind
      cases kind
    · have old : x < s.runtime.tasks := by omega
      rw [(grown.fixed x old).kind] at kind
      exact (ids x new).trans (kept.implicit x old r i kind)
  · intro x bound
    exact (ids x (by omega)).trans (kept.later x (by omega))
  · intro x bound r inRegion
    rw [count]
    by_cases new : x = s.runtime.tasks
    · rw [new, created] at inRegion
      exact kept.regions t isTask r inRegion
    · have old : x < s.runtime.tasks := by omega
      rw [(grown.fixed x old).region] at inRegion
      exact kept.regions x old r inRegion
  · intro r isRegion
    exact .inl ⟨count ▸ isRegion, graphs r⟩

theorem dependences {t : Nat} {deps : List Dependence} (stepped : s.step (.dependences t deps) = some s') :
    GraphsKept s' (es ++ [.dependences t deps]) := by
  obtain ⟨enabled, handled, runtime, -⟩ := System.step_cases stepped
  simp only [Runtime.enabled, Bool.and_eq_true, decide_eq_true_eq] at enabled
  have changed := Except.ok.inj handled
  have same : s'.runtime = s.runtime := runtime
  have registered : ∀ r, registrations s' r (es ++ [.dependences t deps]) = registrations s r es ++
      if (s.runtime.task t).region = some r then deps.map fun dep => (t, dep) else [] := by
    intro r
    rw [registrations_snoc, registrations_congr fun t deps _ => by rw [same]]
    simp [registrations, same]
  have ids : localId s' = localId s := by
    funext x
    rw [localId, ← changed]
    cases inRegion : (s.runtime.task t).region with
    | none => rfl
    | some region => exact (on_ompt_callback_dependences_spec s.detector region t deps).1 x
  refine ⟨?_, ?_, ?_, ?_, ?_⟩
  · rintro x inside y deps' rfl
    rw [same]
    rcases List.mem_append.mp inside with old | new
    · exact kept.tasks _ old y deps' rfl
    · cases List.mem_singleton.mp new
      exact ⟨enabled.1.1, enabled.2⟩
  · rw [same, ids]
    exact kept.implicit
  · rw [same, ids]
    exact kept.later
  · rw [same]
    exact kept.regions
  · intro r isRegion
    rw [same] at isRegion
    have before := kept.graph r isRegion
    rw [registered, ids, ← changed]
    cases inRegion : (s.runtime.task t).region with
    | none =>
      simp only [reduceCtorEq, if_false, List.append_nil]
      exact before
    | some region =>
      obtain ⟨-, others, graph⟩ := on_ompt_callback_dependences_spec s.detector region t deps
      by_cases here : r = region
      · subst here
        rw [graph, before, if_pos rfl, register, register, List.foldl_append, List.foldl_map]
        rfl
      · have elsewhere : ¬ (some region = some r) := fun equal => here (Option.some.inj equal).symm
        rw [others r here, if_neg elsewhere, List.append_nil, before]

theorem step {e : Event} (stepped : s.step e = some s') : GraphsKept s' (es ++ [e]) := by
  obtain ⟨enabled, handled, runtime, -⟩ := System.step_cases stepped
  have grown : s.runtime.Extends s'.runtime := runtime ▸ Runtime.after_extends ..
  by_cases plain : e.Creates
  · cases e with
    | parallelBegin t size => exact kept.parallelBegin stepped
    | implicitBegin t => exact kept.implicitBegin stepped
    | taskCreate t => exact kept.taskCreate stepped
    | dependences t deps => exact kept.dependences stepped
    | _ => exact plain.elim
  · have same := Detector.handle_sameTasks plain handled
    refine kept.still grown ?_ (runtime ▸ Runtime.after_counts plain) (funext same.ids) same.regions
    rintro t deps rfl
    exact plain trivial

end GraphsKept

theorem System.graphs_kept {s : System} {es : List Event} (ran : System.run es = some s) : GraphsKept s es :=
  System.run_induction (motive := fun es s => GraphsKept s es) (fun _ => GraphsKept.initial)
    (fun _ _ _ _ _ kept stepped => kept.step stepped) ran

/-- Two children of one parent, the first created before the second, with dependences on a common
    variable that have to keep that order. -/
def SiblingEdge (s : System) (regs : List Registration) (a b : Nat) : Prop :=
  (s.runtime.task a).parent = (s.runtime.task b).parent ∧ a < b ∧ Conflicting regs a b

def OrdersSiblings (s : System) (es : List Event) (r : Nat) : Prop :=
  let graph := (s.detector.regions r).taskDepGraph.graph
  let edge := SiblingEdge s (registrations s r es)
  (∀ a b, Edge graph a b → edge a b) ∧
    ∀ a b, a ≠ b → (hasPath graph a b).map Prod.fst = some true → TransGen edge a b

/-- Whoever registers, with a greater id, a dependence on a variable that has to wait for the first
    task that registered on it, is a sibling of that task and was created after it. -/
def FirstMeetsSiblings (s : System) (es : List Event) (r : Nat) : Prop :=
  ∀ v first later a b, firstOn (registrations s r es) v = some (a, first) →
    (b, ⟨v, later⟩) ∈ registrations s r es → localId s a < localId s b → ordersAfter later first = true →
    (s.runtime.task a).parent = (s.runtime.task b).parent ∧ a < b

theorem FirstEdge.conflicting {ids : Nat → Int} {regs : List Registration} {a b : Nat}
    (edge : FirstEdge ids regs a b) : Conflicting regs a b := by
  obtain ⟨v, first, later, found, member, -, ordered⟩ := edge
  refine ⟨v, first, later, firstOn_mem found, member, ?_⟩
  obtain ⟨reg, isReg, same⟩ := Option.map_eq_some_iff.mp found
  have stored := List.find?_some isReg
  have stored' := ordersAfter_stored v b ordered
  simp only [Registration.IsStored, Bool.and_eq_true, decide_eq_true_eq] at stored stored'
  cases same
  rw [← ordersAfter_eq_conflicts ⟨stored.1.2, stored.2⟩ ⟨stored'.1.2, stored'.2⟩]
  exact ordered

/-- The dependences of a region order siblings only, exactly when the first task on every variable
    meets none but its younger siblings there. -/
theorem siblings_ordered_iff {s : System} {es : List Event} (ran : System.run es = some s) {r : Nat}
    (isRegion : r < s.runtime.regions) : OrdersSiblings s es r ↔ FirstMeetsSiblings s es r := by
  have graph := (System.graphs_kept ran).graph r isRegion
  have edge : ∀ a b, Edge (s.detector.regions r).taskDepGraph.graph a b ↔
      FirstEdge (localId s) (registrations s r es) a b := by
    intro a b
    rw [graph]
    exact register_edge_iff ..
  constructor
  · rintro ⟨edges, -⟩ v first later a b found member created ordered
    have sibling := edges a b ((edge a b).mpr ⟨v, first, later, found, member, created, ordered⟩)
    exact ⟨sibling.1, sibling.2.1⟩
  · intro meets
    have edges : ∀ a b, Edge (s.detector.regions r).taskDepGraph.graph a b →
        SiblingEdge s (registrations s r es) a b := by
      intro a b isEdge
      have first := (edge a b).mp isEdge
      have conflicting := first.conflicting
      obtain ⟨v, earlier, later, found, member, created, ordered⟩ := first
      obtain ⟨parents, older⟩ := meets v earlier later a b found member created ordered
      exact ⟨parents, older, conflicting⟩
    refine ⟨edges, fun a b other answer => ?_⟩
    rw [hasPath_true_iff _ other] at answer
    exact TransGen.mono edges _ _ answer

def writeThenRead : List Event :=
  [.parallelBegin 0 2, .implicitBegin 1, .taskCreate 1, .dependences 3 [⟨0x10, .out⟩], .taskCreate 1,
    .dependences 4 [⟨0x10, .in_⟩]]

theorem siblings_ordered_pair : ∃ s, System.run writeThenRead = some s ∧ OrdersSiblings s writeThenRead 0 := by
  obtain ⟨s, ran, isRegion, made, parents, ids⟩ : ∃ s, System.run writeThenRead = some s ∧
      (0 < s.runtime.regions ∧ registrations s 0 writeThenRead = [(3, ⟨0x10, .out⟩), (4, ⟨0x10, .in_⟩)] ∧
        (s.runtime.task 3).parent = (s.runtime.task 4).parent ∧ localId s 3 < localId s 4) :=
    exists_of_any (by decide)
  refine ⟨s, ran, (siblings_ordered_iff ran isRegion).mpr ?_⟩
  intro v first later a b found member created _
  have member' := firstOn_mem found
  rw [made] at member member'
  simp only [List.mem_cons, Prod.mk.injEq, List.not_mem_nil, or_false] at member member'
  rcases member' with ⟨rfl, -⟩ | ⟨rfl, -⟩ <;> rcases member with ⟨rfl, -⟩ | ⟨rfl, -⟩
  · exact absurd created (lt_irrefl _)
  · exact ⟨parents, by decide⟩
  · exact absurd created (not_lt_of_gt ids)
  · exact absurd created (lt_irrefl _)

def unrelatedWrites : List Event :=
  [.parallelBegin 0 2, .implicitBegin 1, .implicitBegin 2, .taskCreate 1, .dependences 3 [⟨0x10, .out⟩],
    .taskCreate 2, .dependences 4 [⟨0x10, .out⟩]]

/-- The second child is taken to wait for the first one, with which it has no parent in common. -/
theorem unrelated_ordered : ∃ s, System.run unrelatedWrites = some s ∧ 0 < s.runtime.regions ∧
    (hasPath (s.detector.regions 0).taskDepGraph.graph 3 4).map Prod.fst = some true ∧
    ¬ OrdersSiblings s unrelatedWrites 0 := by
  obtain ⟨s, ran, isRegion, path, edge, parents⟩ : ∃ s, System.run unrelatedWrites = some s ∧
      (0 < s.runtime.regions ∧
        (hasPath (s.detector.regions 0).taskDepGraph.graph 3 4).map Prod.fst = some true ∧
        4 ∈ successors (s.detector.regions 0).taskDepGraph.graph 3 ∧
        (s.runtime.task 3).parent ≠ (s.runtime.task 4).parent) :=
    exists_of_any (by decide)
  exact ⟨s, ran, isRegion, path, fun siblings => parents (siblings.1 3 4 edge).1⟩

end Romp
