import Romp.Callbacks.Frame
import Romp.Runtime.Labels

namespace Romp

def Event.stack (R : Runtime) (x : Nat) : Event → List Construct → List Construct
  | .parallelBegin t _, l => if t = x then .parallel R.regions :: l else l
  | .parallelEnd r, l => if (R.region r).encountering = x then l.tail else l
  | .taskgroupBegin t, l => if t = x then .taskgroup R.groups :: l else l
  | .workBegin t work executor, l => if t = x then .ofWork work (R.task t).works executor :: l else l
  | .orderedBegin t, l => if t = x then .ordered :: l else l
  | .taskgroupEnd t, l | .workEnd t, l | .orderedEnd t, l => if t = x then l.tail else l
  | .dispatch t id, l =>
    if t = x then
      match l with
      | .loop number turn _ :: rest => .loop number (turn + 1) (some id) :: rest
      | .sections number turn :: rest => .sections number (turn + 1) :: rest
      | l => l
    else l
  | _, l => l

namespace Runtime

variable {R : Runtime}

theorem constructs_after {e : Event} (enabled : R.enabled e = true) {x : Nat} (isTask : x < R.tasks) :
    ((R.after e).task x).constructs = e.stack R x (R.task x).constructs := by
  cases e with
  | parallelBegin t size =>
    rw [fork_task isTask]
    by_cases self : x = t
    · subst self
      simp [Event.stack, Task.enter]
    · simp [Event.stack, self, Ne.symm self]
  | release r =>
    obtain ⟨known, same⟩ := release_kept (R := R) (r := r) x
    rw [same]
    rfl
  | taskwaitEnd t =>
    simp only [after, waitTask]
    by_cases self : x = t
    · rw [if_pos self, self]
      rfl
    · rw [if_neg self]
      split <;> rfl
  | taskCreate t => simp [after, Nat.ne_of_lt isTask, Event.stack]
  | dependences => rfl
  | implicitBegin t | barrierBegin t | barrierEnd t | implicitEnd t | taskComplete t =>
    by_cases self : x = t <;> simp [after, self, Event.stack]
  | access t => by_cases self : x = t <;> simp [after, self, Event.stack, Task.learn]
  | parallelEnd r =>
    by_cases self : x = (R.region r).encountering
    · simp [after, self, Event.stack, Task.learn, Task.leave]
    · simp [after, self, Ne.symm self, Event.stack]
  | taskgroupBegin t | orderedBegin t =>
    by_cases self : x = t
    · simp [after, self, Event.stack, Task.enter]
    · simp [after, self, Ne.symm self, Event.stack]
  | taskgroupEnd t =>
    simp only [Runtime.enabled, Bool.and_eq_true] at enabled
    obtain ⟨-, inside⟩ := enabled
    split at inside
    · rename_i g rest constructs
      have opened : (R.task t).openGroups.head? = some g := by
        rw [Task.openGroups, constructs]
        rfl
      by_cases self : x = t
      · simp [after, opened, self, Event.stack, Task.learn, Task.leave]
      · simp [after, opened, self, Ne.symm self, Event.stack]
    · cases inside
  | workBegin t work executor =>
    have same : ((R.after (.workBegin t work executor)).task x).constructs =
        ((R.set t { (R.task t).enter (.ofWork work (R.task t).works executor) with
          works := (R.task t).works + 1 }).task x).constructs := by
      simp only [after, beginWork]
      cases work <;> split <;> rfl
    rw [same]
    by_cases self : x = t
    · simp [self, Event.stack, Task.enter]
    · simp [self, Ne.symm self, Event.stack]
  | workEnd t =>
    by_cases self : x = t
    · simp [after, finishIteration_task, self, Event.stack, Task.leave]
    · simp [after, finishIteration_task, self, Ne.symm self, Event.stack]
  | orderedEnd t =>
    by_cases self : x = t
    · simp [after, finishIteration_task, self, Event.stack, Task.leave]
    · simp [after, finishIteration_task, self, Ne.symm self, Event.stack]
  | dispatch t id =>
    simp only [Runtime.enabled, Bool.and_eq_true] at enabled
    have task := finishIteration_task R t
    have same : R.after (.dispatch t id) = R.dispatchTo t id := rfl
    have inside := enabled.2
    split at inside
    · rename_i r number turn last rest region constructs
      simp only [dispatchTo, task, region, constructs] at same
      by_cases self : x = t
      · simp [same, self, Event.stack, constructs]
      · simp [same, self, Ne.symm self, Event.stack, task]
    · rename_i r number unit rest region constructs
      simp only [dispatchTo, task, region, constructs] at same
      by_cases self : x = t
      · simp [same, self, Event.stack, constructs]
      · simp [same, self, Ne.symm self, Event.stack, task]
    · cases inside

end Runtime

/-- Around a worksharing construct there are taskgroups only. -/
def Construct.Stacked (l : List Construct) : Prop :=
  ∀ inner c outer, l = inner ++ c :: outer → c.number.isSome = true → outer.all Construct.isTaskgroup = true

namespace Construct.Stacked

variable {l rest : List Construct} {c c' : Construct}

theorem enter (stacked : Stacked l) (plain : c.number = none) : Stacked (c :: l) := by
  intro inner c₁ outer split number
  cases inner with
  | nil =>
    rw [List.nil_append, List.cons.injEq] at split
    rw [← split.1, plain] at number
    cases number
  | cons first inner =>
    rw [List.cons_append, List.cons.injEq] at split
    exact stacked inner c₁ outer split.2 number

theorem groups (groups : l.all Construct.isTaskgroup = true) : Stacked (c :: l) := by
  intro inner c₁ outer split number
  cases inner with
  | nil =>
    rw [List.nil_append, List.cons.injEq] at split
    exact split.2 ▸ groups
  | cons first inner =>
    rw [List.cons_append, List.cons.injEq] at split
    have group := List.all_eq_true.mp groups c₁ (by rw [split.2]; simp)
    rw [Construct.number_none group] at number
    cases number

theorem tail (stacked : Stacked l) : Stacked l.tail := by
  cases l with
  | nil => exact stacked
  | cons first rest => exact fun inner c₁ outer split => stacked (first :: inner) c₁ outer (by rw [List.tail_cons] at split; rw [split]; rfl)

theorem swap (stacked : Stacked (c :: rest)) (number : c.number.isSome = true) : Stacked (c' :: rest) :=
  .groups (stacked [] c rest rfl number)

end Construct.Stacked

theorem Runtime.stacked_after {R : Runtime} {e : Event} (enabled : R.enabled e = true)
    (stacked : ∀ x < R.tasks, Construct.Stacked (R.task x).constructs) :
    ∀ x < (R.after e).tasks, Construct.Stacked ((R.after e).task x).constructs := by
  intro x isTask
  by_cases old : x < R.tasks
  · have before := stacked x old
    rw [constructs_after enabled old]
    cases e with
    | parallelBegin t | taskgroupBegin t | orderedBegin t =>
      rw [Event.stack]
      split
      · exact before.enter rfl
      · exact before
    | parallelEnd r | taskgroupEnd t | workEnd t | orderedEnd t =>
      rw [Event.stack]
      split
      · exact before.tail
      · exact before
    | workBegin t work executor =>
      simp only [Runtime.enabled, Bool.and_eq_true] at enabled
      rw [Event.stack]
      split
      · rename_i self
        exact .groups (self ▸ enabled.1.2)
      · exact before
    | dispatch t id =>
      simp only [Event.stack]
      split
      · split
        · rename_i top
          exact Construct.Stacked.swap (top ▸ before) rfl
        · rename_i top
          exact Construct.Stacked.swap (top ▸ before) rfl
        · exact before
      · exact before
    | _ => exact before
  · obtain ⟨_, _, _, _, _, _, _, _, made⟩ := new_task old isTask
    rw [made]
    intro inner c outer split
    cases inner <;> cases split

theorem System.Reachable.stacked {allowed : System → Event → Prop} {s : System} (reached : System.Reachable allowed s) :
    ∀ x < s.runtime.tasks, Construct.Stacked (s.runtime.task x).constructs := by
  induction reached with
  | start begun =>
    cases begun
    intro x _ inner c outer split
    cases inner <;> cases split
  | step before _ stepped ih =>
    obtain ⟨enabled, -, runtime, -⟩ := System.step_cases stepped
    rw [runtime]
    exact Runtime.stacked_after enabled ih

end Romp
