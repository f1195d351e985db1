import Romp.Runtime.Steps

namespace Romp

/-- What no callback changes for a task that it does not create: its local id, and the regions. -/
structure Detector.SameTasks (d d' : Detector) : Prop where
  ids : ∀ t, (d'.data t).expLocalId = (d.data t).expLocalId
  regions : d'.regions = d.regions

namespace Detector.SameTasks

variable {d d' d'' : Detector}

theorem refl (d : Detector) : d.SameTasks d := ⟨fun _ => rfl, rfl⟩

theorem trans (first : d.SameTasks d') (second : d'.SameTasks d'') : d.SameTasks d'' :=
  ⟨fun t => (second.ids t).trans (first.ids t), second.regions.trans first.regions⟩

theorem setData {t : Nat} {data : TaskData} (same : data.expLocalId = (d.data t).expLocalId) :
    d.SameTasks (d.setData t data) := by
  refine ⟨fun x => ?_, rfl⟩
  rw [setData_data]
  by_cases self : x = t
  · rw [if_pos self, self, same]
  · rw [if_neg self]

theorem setLabel (t : Nat) (label : Option Label) : d.SameTasks (d.setLabel t label) := setData rfl

theorem setChildren (t : Nat) (children : List Nat) :
    d.SameTasks (d.setData t { d.data t with childExpTaskData := children }) := setData rfl

theorem heap {heap : Heap} (same : Detector.SameTasks { d with heap } d') : d.SameTasks d' :=
  ⟨same.ids, same.regions⟩

theorem mutateLabel {t : Nat} {mutate : Heap → Label → Except Abort (Heap × Label)}
    (done : d.mutateLabel t mutate = .ok d') : d.SameTasks d' := by
  obtain ⟨label, -, done⟩ := ok_of_bind done
  obtain ⟨⟨heap, mutated⟩, -, done⟩ := ok_of_bind done
  cases done
  exact (setLabel t _).heap

theorem markTaskwait {phase child : Nat} (done : Romp.markTaskwait phase d child = .ok d') : d.SameTasks d' := by
  obtain ⟨label, -, done⟩ := ok_of_bind done
  obtain ⟨last, -, done⟩ := ok_of_bind done
  cases done
  exact ⟨fun _ => rfl, rfl⟩

theorem foldlM {step : Detector → Nat → Except Abort Detector}
    (one : ∀ (e e' : Detector) t, step e t = .ok e' → e.SameTasks e') {children : List Nat}
    (done : children.foldlM step d = .ok d') : d.SameTasks d' := by
  induction children generalizing d with
  | nil =>
    cases done
    exact refl _
  | cons child children ih =>
    obtain ⟨middle, first, rest⟩ := ok_of_bind done
    exact (one d middle child first).trans (ih rest)

theorem markTaskGroup {len group child : Nat} {result : Detector × Bool}
    (done : Romp.markTaskGroup len group d child = .ok result) : d.SameTasks result.1 := by
  obtain ⟨label, -, done⟩ := ok_of_bind done
  split at done
  · cases done
    exact refl d
  · obtain ⟨last, -, done⟩ := ok_of_bind done
    split at done
    · obtain ⟨⟨heap, mutated⟩, -, done⟩ := ok_of_bind done
      cases done
      exact (setLabel child _).heap
    · cases done
      exact refl d

theorem markTaskGroups {len group : Nat} {children : List Nat} {result : Detector × List Nat}
    (done : Romp.markTaskGroups len group d children = .ok result) : d.SameTasks result.1 := by
  induction children generalizing d result with
  | nil =>
    cases done
    exact refl d
  | cons child children ih =>
    obtain ⟨⟨middle, stays⟩, first, done⟩ := ok_of_bind done
    obtain ⟨⟨last, rest⟩, others, done⟩ := ok_of_bind done
    cases done
    have marked : d.SameTasks middle := markTaskGroup first
    have later : middle.SameTasks last := ih others
    exact marked.trans later

theorem sync_region {kind : SyncRegion} {endPoint : ScopeEndpoint} {t : Nat}
    (done : on_ompt_callback_sync_region d kind endPoint t = .ok d') : d.SameTasks d' := by
  unfold on_ompt_callback_sync_region at done
  split at done
  · cases done
    exact setData rfl
  · exact mutateLabel done
  · cases done
    exact refl d
  · obtain ⟨label, -, done⟩ := ok_of_bind done
    obtain ⟨⟨heap, mutated⟩, -, done⟩ := ok_of_bind done
    obtain ⟨middle, marked, done⟩ := ok_of_bind done
    cases done
    obtain ⟨last, -, marked⟩ := ok_of_bind marked
    obtain ⟨folded, marks, marked⟩ := ok_of_bind marked
    cases marked
    have same : d.SameTasks folded := (foldlM (fun _ _ _ => markTaskwait) marks).heap
    exact same.trans ((setChildren t _).trans (setLabel t _))
  · obtain ⟨label, -, done⟩ := ok_of_bind done
    obtain ⟨⟨heap, mutated⟩, -, done⟩ := ok_of_bind done
    obtain ⟨middle, marked, done⟩ := ok_of_bind done
    cases done
    obtain ⟨last, -, marked⟩ := ok_of_bind marked
    obtain ⟨⟨folded, children⟩, marks, marked⟩ := ok_of_bind marked
    cases marked
    have same : d.SameTasks folded := (markTaskGroups marks).heap
    exact same.trans ((setChildren t _).trans (setLabel t _))
  · exact mutateLabel done
  · exact mutateLabel done
  · exact mutateLabel done
  · exact mutateLabel done
  · cases done
    exact setData rfl
  · cases done
    exact refl d

theorem work {wsType : WorkType} {endPoint : ScopeEndpoint} {t : Nat}
    (done : on_ompt_callback_work d wsType endPoint t = .ok d') : d.SameTasks d' := by
  unfold on_ompt_callback_work at done
  split at done
  any_goals exact mutateLabel done
  all_goals cases done
  all_goals exact setLabel t _

theorem dispatch {t : Nat} {kind : DispatchKind} {id : BitVec 64}
    (done : on_ompt_callback_dispatch d t kind id = .ok d') : d.SameTasks d' := by
  unfold on_ompt_callback_dispatch at done
  split at done
  any_goals exact mutateLabel done
  cases done
  exact setLabel t none

end Detector.SameTasks

def Event.Creates : Event → Prop
  | .parallelBegin .. | .implicitBegin _ | .taskCreate _ | .dependences .. => True
  | _ => False

theorem Runtime.after_counts {R : Runtime} {e : Event} (plain : ¬ e.Creates) :
    (R.after e).tasks = R.tasks ∧ (R.after e).regions = R.regions := by
  have finish : ∀ (S : Runtime) t, (S.finishIteration t).tasks = S.tasks ∧
      (S.finishIteration t).regions = S.regions := by
    intro S t
    unfold Runtime.finishIteration
    split <;> exact ⟨rfl, rfl⟩
  cases e with
  | parallelBegin | implicitBegin | taskCreate | dependences => exact absurd trivial plain
  | taskgroupEnd t =>
    simp only [Runtime.after]
    split <;> exact ⟨rfl, rfl⟩
  | workBegin t work executor =>
    simp only [Runtime.after, Runtime.beginWork]
    split <;> exact ⟨rfl, rfl⟩
  | dispatch t id =>
    simp only [Runtime.after, Runtime.dispatchTo]
    split <;> exact finish R t
  | workEnd t => exact finish R t
  | orderedEnd t => exact finish (R.set t (R.task t).leave) t
  | _ => exact ⟨rfl, rfl⟩

theorem Runtime.new_task {R : Runtime} {e : Event} {x : Nat} (new : ¬x < R.tasks) (isTask : x < (R.after e).tasks) :
    ∃ kind parent line born region groups begun known,
      (R.after e).task x = Task.new kind parent line born region groups begun known := by
  by_cases creates : e.Creates
  · cases e with
    | parallelBegin t size =>
      have made : R.tasks ≤ x ∧ x < R.tasks + size := ⟨Nat.le_of_not_lt new, isTask⟩
      simp only [after, fork, made, and_self, if_true]
      exact ⟨_, _, _, _, _, _, _, _, rfl⟩
    | taskCreate t =>
      have made : x < R.tasks + 1 := isTask
      obtain rfl : x = R.tasks := by omega
      simp only [after, set_task, if_true]
      exact ⟨_, _, _, _, _, _, _, _, rfl⟩
    | implicitBegin | dependences => exact absurd isTask new
    | _ => exact creates.elim
  · rw [(after_counts creates).1] at isTask
    exact absurd isTask new

theorem on_ompt_callback_dependences_spec (d : Detector) (region t : Nat) (deps : List Dependence) :
    let d' := on_ompt_callback_dependences d (some region) t deps
    (∀ x, (d'.data x).expLocalId = (d.data x).expLocalId) ∧
      (∀ r, r ≠ region → d'.regions r = d.regions r) ∧
      (d'.regions region).taskDepGraph =
        deps.foldl (fun g dep => g.addDeps (fun x => (d.data x).expLocalId) dep t)
          (d.regions region).taskDepGraph := by
  simp only [on_ompt_callback_dependences]
  induction deps generalizing d with
  | nil => exact ⟨fun _ => rfl, fun _ _ => rfl, rfl⟩
  | cons dep deps ih =>
    obtain ⟨ids, others, graph⟩ := ih (maintainTaskDeps d region t dep)
    have kept : ∀ x, ((maintainTaskDeps d region t dep).data x).expLocalId = (d.data x).expLocalId := by
      intro x
      simp only [maintainTaskDeps, Detector.setData_data, TaskDepGraph.markMutexTask]
      by_cases self : x = t
      · rw [if_pos self, self]
        split <;> rfl
      · rw [if_neg self]
    refine ⟨fun x => (ids x).trans (kept x), fun r other => ?_, ?_⟩
    · rw [List.foldl_cons, others r other]
      simp [maintainTaskDeps, Detector.setData, other]
    · rw [List.foldl_cons, List.foldl_cons, graph]
      simp only [kept]
      simp [maintainTaskDeps, Detector.setData]

theorem on_ompt_callback_task_create_spec {d d' : Detector} {t new : Nat} {region : Option Nat}
    (created : on_ompt_callback_task_create d t new ompt_task_explicit region = .ok d') :
    (∀ x, x ≠ new → (d'.data x).expLocalId = (d.data x).expLocalId) ∧
      ∀ r, (d'.regions r).taskDepGraph = (d.regions r).taskDepGraph := by
  obtain ⟨label, -, created⟩ := ok_of_bind created
  obtain ⟨⟨heap, made⟩, -, created⟩ := ok_of_bind created
  obtain ⟨⟨heap', mutated⟩, -, created⟩ := ok_of_bind created
  cases region with
  | none =>
    cases created
    refine ⟨fun x other => ?_, fun _ => rfl⟩
    simp only [Detector.setData_data, if_neg other]
    by_cases self : x = t
    · rw [if_pos self, self]
    · rw [if_neg self]
  | some r =>
    cases created
    refine ⟨fun x other => ?_, fun y => ?_⟩
    · simp only [Detector.setData_data, if_neg other]
      by_cases self : x = t
      · rw [if_pos self, self]
      · rw [if_neg self]
    · simp only [Detector.setData, Function.update_apply]
      by_cases self : y = r
      · rw [if_pos self, self]
      · rw [if_neg self]

theorem Detector.handle_sameTasks {d d' : Detector} {s : Runtime} {e : Event} (plain : ¬ e.Creates)
    (handled : d.handle s e = .ok d') : d.SameTasks d' := by
  cases e with
  | parallelBegin | implicitBegin | taskCreate | dependences => exact absurd trivial plain
  | release | parallelEnd | access =>
    cases handled
    exact .refl d
  | barrierBegin | barrierEnd | taskwaitEnd | taskgroupBegin | taskgroupEnd =>
    rw [Detector.handle] at handled
    exact .sync_region handled
  | implicitEnd t =>
    simp only [Detector.handle] at handled
    split at handled
    · unfold on_ompt_callback_implicit_task at handled
      split at handled
      · cases handled
        exact .refl d
      · obtain ⟨label, -, handled⟩ := ok_of_bind handled
        obtain ⟨mutated, -, handled⟩ := ok_of_bind handled
        cases handled
        exact .setLabel _ _
    · cases handled
      exact .refl d
  | taskComplete t =>
    obtain ⟨mutated, -, handled⟩ := ok_of_bind handled
    cases handled
    exact .setLabel _ _
  | workBegin | workEnd => exact .work handled
  | dispatch => exact .dispatch handled
  | orderedBegin | orderedEnd => exact .mutateLabel handled

end Romp
