import Mathlib.Data.List.Induction
import Romp.Runtime.System

namespace Romp

def Construct.ofWork (work : Work) (number : Nat) (executor : Bool) : Construct :=
  match work with
  | .loop => .loop number 0 none
  | .sections => .sections number 0
  | .single => .single number executor

theorem Construct.ofWork_number (work : Work) (number : Nat) (executor : Bool) :
    (ofWork work number executor).number = some number := by
  cases work <;> rfl

namespace Runtime

variable (s : Runtime) (t : Nat) (task : Task) (r : Nat) (region : Region)

@[simp] theorem set_task (x : Nat) : (s.set t task).task x = if x = t then task else s.task x := by
  simp [set, Function.update_apply]

@[simp] theorem set_tasks : (s.set t task).tasks = s.tasks := rfl
@[simp] theorem set_region : (s.set t task).region = s.region := rfl
@[simp] theorem set_regions : (s.set t task).regions = s.regions := rfl
@[simp] theorem set_groups : (s.set t task).groups = s.groups := rfl
@[simp] theorem set_accesses : (s.set t task).accesses = s.accesses := rfl

@[simp] theorem setRegion_region (x : Nat) :
    (s.setRegion r region).region x = if x = r then region else s.region x := by
  simp [setRegion, Function.update_apply]

@[simp] theorem setRegion_task : (s.setRegion r region).task = s.task := rfl
@[simp] theorem setRegion_tasks : (s.setRegion r region).tasks = s.tasks := rfl
@[simp] theorem setRegion_regions : (s.setRegion r region).regions = s.regions := rfl
@[simp] theorem setRegion_groups : (s.setRegion r region).groups = s.groups := rfl
@[simp] theorem setRegion_accesses : (s.setRegion r region).accesses = s.accesses := rfl

theorem mem_tasksWith {p : Task → Bool} {x : Nat} :
    x ∈ s.tasksWith p ↔ x < s.tasks ∧ p (s.task x) = true := by
  simp [tasksWith]

theorem mem_children {x : Nat} : x ∈ s.children t ↔
    x < s.tasks ∧ (s.task x).kind = .explicit ∧ (s.task x).parent = t := by
  simp [children, mem_tasksWith]

theorem mem_explicitTasks {x : Nat} : x ∈ s.explicitTasks r ↔
    x < s.tasks ∧ (s.task x).kind = .explicit ∧ (s.task x).region = some r := by
  simp [explicitTasks, mem_tasksWith]

theorem gather_iff {ts : List Nat} {a : Nat} :
    s.gather ts a = true ↔ ∃ x ∈ ts, (s.task x).known a = true := by
  simp [gather]

theorem allEnded_iff {ts : List Nat} :
    s.allEnded ts = true ↔ ∀ x ∈ ts, (s.task x).ended = true := by
  simp [allEnded]

end Runtime

theorem Region.mem_members {r : Region} {x : Nat} :
    x ∈ r.members ↔ ∃ i < r.size, r.first + i = x := by
  simp [Region.members]

namespace Task

theorem running_iff {t : Task} : t.running = true ↔ t.begun = true ∧ t.ended = false ∧
    t.arrived = t.passed ∧ t.closing = false ∧ ∀ c rest, t.constructs = c :: rest → c.isIdle = false := by
  simp only [running, Bool.and_eq_true, Bool.not_eq_true', beq_iff_eq, and_assoc]
  refine and_congr_right fun _ => and_congr_right fun _ => and_congr_right fun _ =>
    and_congr_right fun _ => ?_
  cases t.constructs with
  | nil => simp
  | cons c rest => simp

@[simp] theorem learn_known (t : Task) (news : Nat → Bool) (a : Nat) :
    (t.learn news).known a = (t.known a || news a) := rfl

end Task

theorem Runtime.running_lt {R : Runtime} {t : Nat} (runs : R.running t = true) :
    t < R.tasks ∧ (R.task t).running = true := by
  simpa [Runtime.running] using runs

structure Task.SameOrigin (t t' : Task) : Prop where
  kind : t'.kind = t.kind
  parent : t'.parent = t.parent
  region : t'.region = t.region
  line : t'.line = t.line
  born : t'.born = t.born
  groups : t'.groups = t.groups

theorem Task.SameOrigin.refl (t : Task) : t.SameOrigin t := ⟨rfl, rfl, rfl, rfl, rfl, rfl⟩

theorem Task.SameOrigin.trans {t t' t'' : Task} (first : t.SameOrigin t') (second : t'.SameOrigin t'') :
    t.SameOrigin t'' :=
  ⟨second.kind.trans first.kind, second.parent.trans first.parent, second.region.trans first.region,
    second.line.trans first.line, second.born.trans first.born, second.groups.trans first.groups⟩

structure Runtime.Extends (R R' : Runtime) : Prop where
  tasks : R.tasks ≤ R'.tasks
  fixed : ∀ t < R.tasks, (R.task t).SameOrigin (R'.task t)

namespace Runtime

variable {R R' R'' : Runtime}

theorem Extends.refl (R : Runtime) : R.Extends R := ⟨le_refl _, fun _ _ => .refl _⟩

theorem Extends.trans (first : R.Extends R') (second : R'.Extends R'') : R.Extends R'' :=
  ⟨first.tasks.trans second.tasks, fun t isTask =>
    (first.fixed t isTask).trans (second.fixed t (Nat.lt_of_lt_of_le isTask first.tasks))⟩

theorem set_extends {x : Nat} {task : Task} (same : (R.task x).SameOrigin task) : R.Extends (R.set x task) := by
  refine ⟨le_refl _, fun t _ => ?_⟩
  rw [set_task]
  by_cases self : t = x
  · rw [if_pos self, self]
    exact same
  · rw [if_neg self]
    exact .refl _

theorem setRegion_extends (r : Nat) (region : Region) : R.Extends (R.setRegion r region) :=
  ⟨le_refl _, fun _ _ => .refl _⟩

theorem finishIteration_extends (t : Nat) : R.Extends (R.finishIteration t) := by
  unfold finishIteration
  split
  · exact setRegion_extends ..
  · exact .refl R

theorem after_extends (R : Runtime) (e : Event) : R.Extends (R.after e) := by
  cases e with
  | parallelBegin t size =>
    refine ⟨Nat.le_add_right _ _, fun x isTask => ?_⟩
    simp only [after, fork, Nat.not_le.mpr isTask, false_and, if_false]
    by_cases self : x = t
    · rw [if_pos self, self]
      exact ⟨rfl, rfl, rfl, rfl, rfl, rfl⟩
    · rw [if_neg self]
      exact .refl _
  | release r =>
    refine ⟨le_refl _, fun x _ => ?_⟩
    simp only [after, setRegion_task, releaseTask]
    split <;> exact ⟨rfl, rfl, rfl, rfl, rfl, rfl⟩
  | taskwaitEnd t =>
    refine ⟨le_refl _, fun x _ => ?_⟩
    simp only [after, waitTask]
    by_cases self : x = t
    · rw [if_pos self, self]
      exact ⟨rfl, rfl, rfl, rfl, rfl, rfl⟩
    · rw [if_neg self]
      split <;> exact ⟨rfl, rfl, rfl, rfl, rfl, rfl⟩
  | taskCreate t =>
    refine ⟨Nat.le_succ _, fun x isTask => ?_⟩
    simp only [after, set_task, if_neg (Nat.ne_of_lt isTask)]
    exact .refl _
  | dependences => exact .refl R
  | implicitBegin | barrierBegin | barrierEnd | implicitEnd | parallelEnd | taskComplete | orderedBegin =>
    exact set_extends ⟨rfl, rfl, rfl, rfl, rfl, rfl⟩
  | taskgroupBegin t =>
    have entered : R.Extends (R.set t ((R.task t).enter (.taskgroup R.groups))) :=
      set_extends ⟨rfl, rfl, rfl, rfl, rfl, rfl⟩
    exact ⟨entered.tasks, entered.fixed⟩
  | taskgroupEnd t =>
    simp only [after]
    split
    · exact set_extends ⟨rfl, rfl, rfl, rfl, rfl, rfl⟩
    · exact .refl R
  | workBegin t work executor =>
    have begun : ∀ construct number, R.Extends
        (R.set t { (R.task t).enter construct with works := number }) :=
      fun _ _ => set_extends ⟨rfl, rfl, rfl, rfl, rfl, rfl⟩
    simp only [after, beginWork]
    split
    · exact (begun _ _).trans (setRegion_extends ..)
    · exact begun _ _
  | workEnd t => exact (finishIteration_extends t).trans (set_extends ⟨rfl, rfl, rfl, rfl, rfl, rfl⟩)
  | dispatch t id =>
    have moved : ∀ (S : Runtime) constructs, S.Extends (S.set t { S.task t with constructs }) :=
      fun _ _ => set_extends ⟨rfl, rfl, rfl, rfl, rfl, rfl⟩
    simp only [after, dispatchTo]
    apply (finishIteration_extends t).trans
    split
    · exact (moved _ _).trans (setRegion_extends ..)
    · exact moved _ _
    · exact .refl _
  | orderedEnd t =>
    have left : R.Extends (R.set t (R.task t).leave) := set_extends ⟨rfl, rfl, rfl, rfl, rfl, rfl⟩
    exact left.trans (finishIteration_extends t)
  | access t =>
    have learned : R.Extends (R.set t ((R.task t).learn fun a => a == R.accesses)) :=
      set_extends ⟨rfl, rfl, rfl, rfl, rfl, rfl⟩
    exact ⟨learned.tasks, learned.fixed⟩

end Runtime

theorem exists_of_any {α : Type} {p : α → Prop} [DecidablePred p] {x : Option α}
    (evaluated : (x.any fun a => p a) = true) : ∃ a, x = some a ∧ p a := by
  obtain ⟨a, found, holds⟩ := (Option.any_eq_true _ _).mp evaluated
  exact ⟨a, found, of_decide_eq_true holds⟩

namespace System

def logged (s : System) : Event → List Entry
  | .access t => s.log ++ (s.entry t).toList
  | _ => s.log

theorem step_cases {s s' : System} {e : Event} (stepped : s.step e = some s') :
    s.runtime.enabled e = true ∧ s.detector.handle s.runtime e = .ok s'.detector ∧
      s'.runtime = s.runtime.after e ∧ s'.log = s.logged e := by
  unfold step at stepped
  split at stepped
  · rename_i enabled
    cases handled : s.detector.handle s.runtime e with
    | error text => simp [handled] at stepped
    | ok detector =>
      simp only [handled] at stepped
      split at stepped
      · obtain ⟨entry, made, rfl⟩ := Option.map_eq_some_iff.mp stepped
        exact ⟨enabled, rfl, rfl, by simp [logged, made]⟩
      · cases stepped
        refine ⟨enabled, rfl, rfl, ?_⟩
        cases e <;> first | rfl | rename_i none; exact absurd rfl (none _)
  · cases stepped

theorem step_access {s s' : System} {t : Nat} (stepped : s.step (.access t) = some s') :
    ∃ label, (s.detector.data t).label = some label ∧ s'.detector = s.detector ∧
      s'.log = s.log ++ [⟨t, label, (s.runtime.task t).strands t, (s.runtime.task t).constructs⟩] := by
  unfold step at stepped
  split at stepped
  · simp only [Detector.handle] at stepped
    obtain ⟨entry, made, rfl⟩ := Option.map_eq_some_iff.mp stepped
    obtain ⟨label, known, rfl⟩ := Option.map_eq_some_iff.mp made
    exact ⟨label, known, rfl, rfl⟩
  · cases stepped

/-- The states that a run reaches when each of its steps is one of the `allowed` ones. -/
inductive Reachable (allowed : System → Event → Prop) : System → Prop where
  | start {s} : initial = .ok s → Reachable allowed s
  | step {s s' e} : Reachable allowed s → allowed s e → s.step e = some s' → Reachable allowed s'

theorem Reachable.weaken {allowed allowed' : System → Event → Prop} {s : System}
    (reached : Reachable allowed s) (weaker : ∀ s e, allowed s e → allowed' s e) :
    Reachable allowed' s := by
  induction reached with
  | start begun => exact .start begun
  | step _ permitted stepped ih => exact ih.step (weaker _ _ permitted) stepped

inductive Leads (allowed : System → Event → Prop) (s : System) : System → Prop where
  | refl : Leads allowed s s
  | step {s₁ s₂ e} : Leads allowed s s₁ → allowed s₁ e → s₁.step e = some s₂ → Leads allowed s s₂

theorem runFrom_induction {s : System} {motive : List Event → System → Prop} (start : motive [] s)
    (next : ∀ es e s₁ s₂, s.runFrom es = some s₁ → motive es s₁ → s₁.step e = some s₂ → motive (es ++ [e]) s₂)
    {es : List Event} {s' : System} (ran : s.runFrom es = some s') : motive es s' := by
  induction es using List.reverseRecOn generalizing s' with
  | nil =>
    cases ran
    exact start
  | append_singleton es e ih =>
    rw [runFrom, List.foldlM_append] at ran
    obtain ⟨middle, before, last⟩ := Option.bind_eq_some_iff.mp ran
    have stepped : middle.step e = some s' := by simpa using last
    exact next es e middle s' before (ih before) stepped

theorem Leads.of_runFrom {s s' : System} {es : List Event} (ran : s.runFrom es = some s') :
    Leads (fun _ _ => True) s s' :=
  runFrom_induction (motive := fun _ s' => Leads (fun _ _ => True) s s') .refl
    (fun _ _ _ _ _ path stepped => path.step trivial stepped) ran

/-- The states of a run, from the first event on. -/
theorem run_induction {motive : List Event → System → Prop} (start : ∀ s, initial = .ok s → motive [] s)
    (next : ∀ es e s s', run es = some s → motive es s → s.step e = some s' → motive (es ++ [e]) s')
    {es : List Event} {s : System} (ran : run es = some s) : motive es s := by
  have from_ : ∀ {s₀ es s}, initial = .ok s₀ → s₀.runFrom es = some s → run es = some s := by
    intro s₀ es s begun ran
    rw [run, begun]
    exact ran
  unfold run at ran
  split at ran
  · cases ran
  · rename_i first begun
    exact runFrom_induction (start first begun)
      (fun es e s s' before ih stepped => next es e s s' (from_ begun before) ih stepped) ran

theorem Reachable.runFrom {allowed : System → Event → Prop} {s s' : System} {es : List Event}
    (reached : Reachable allowed s) (permitted : ∀ e ∈ es, ∀ s, allowed s e)
    (ran : s.runFrom es = some s') : Reachable allowed s' := by
  induction es generalizing s with
  | nil =>
    cases ran
    exact reached
  | cons e es ih =>
    rw [System.runFrom, List.foldlM_cons] at ran
    obtain ⟨middle, stepped, rest⟩ := Option.bind_eq_some_iff.mp ran
    exact ih (reached.step (permitted e List.mem_cons_self s) stepped)
      (fun e member => permitted e (List.mem_cons_of_mem _ member)) rest

theorem Reachable.of_run {allowed : System → Event → Prop} {s : System} {es : List Event}
    (permitted : ∀ e ∈ es, ∀ s, allowed s e) (ran : run es = some s) : Reachable allowed s := by
  unfold run at ran
  split at ran
  · cases ran
  · rename_i begun
    exact (Reachable.start begun).runFrom permitted ran

def runWhile (check : System → Event → Bool) (es : List Event) : Option System :=
  match initial with
  | .error _ => none
  | .ok s => es.foldlM (fun s e => if check s e then s.step e else none) s

theorem Reachable.of_checked {allowed : System → Event → Prop} {check : System → Event → Bool} {s : System}
    {es : List Event} (sound : ∀ s e, check s e = true → allowed s e) (ran : runWhile check es = some s) :
    Reachable allowed s := by
  have steps : ∀ (es : List Event) (s s' : System), Reachable allowed s →
      es.foldlM (fun s e => if check s e then s.step e else none) s = some s' → Reachable allowed s' := by
    intro es
    induction es with
    | nil =>
      intro s s' reached ran
      cases ran
      exact reached
    | cons e es ih =>
      intro s s' reached ran
      rw [List.foldlM_cons] at ran
      obtain ⟨middle, stepped, rest⟩ := Option.bind_eq_some_iff.mp ran
      split at stepped
      · rename_i passes
        exact ih middle s' (reached.step (sound s e passes) stepped) rest
      · cases stepped
  unfold runWhile at ran
  split at ran
  · cases ran
  · rename_i begun
    exact steps es _ s (.start begun) ran

end System

end Romp
