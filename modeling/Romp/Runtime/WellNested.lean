import Romp.Runtime.Brackets

namespace Romp

structure Unmarked (s : System) (owner : Nat → Strand) (fork : Nat → Contents) (below : Strand → Contents) :
    Prop where
  placed : Placed s owner
  origins : Origins s.runtime s.detector owner fork below
  kids : Kids s.runtime s.detector
  bare : s.detector.Clean s.runtime owner Segment.Bare fun _ => True

theorem Unmarked.step {s s' : System} {owner : Nat → Strand} {fork : Nat → Contents}
    {below : Strand → Contents} (unmarked : Unmarked s owner fork below) (nested : s.runtime.Nested)
    (lineage : s.runtime.Lineage) (closing : s.runtime.Closing) {e : Event} (groups : s.GroupsEnded e)
    (stepped : s.step e = some s') : ∃ owner' fork' below', Unmarked s' owner' fork' below' ∧
      Advance s.runtime s.detector s'.detector owner owner' e := by
  obtain ⟨-, -, runtime, -⟩ := System.step_cases stepped
  obtain ⟨owner', placed', adv⟩ := unmarked.placed.advance nested lineage closing stepped
  obtain ⟨fork', below', origins', -⟩ := adv.origins unmarked.origins
  have kids' := adv.kids_after unmarked.kids
  have bare' := adv.bare_after unmarked.origins unmarked.kids groups unmarked.bare
  rw [← runtime] at origins' kids' bare'
  exact ⟨owner', fork', below', ⟨placed', origins', kids', bare'⟩, adv⟩

theorem System.kids_initial {s : System} (begun : System.initial = .ok s) (t : Nat) : s.detector.children t = [] := by
  cases begun
  by_cases first : t = 0
  · subst first
    rfl
  · simp only [Detector.children, Detector.setData_data, if_neg first]
    rfl

theorem System.clean_initial {s : System} (begun : System.initial = .ok s) {owner : Nat → Strand} {clean : Segment → Prop}
    (tells : Segment.TellsMarks clean) (pending : Nat → Prop) : s.detector.Clean s.runtime owner clean pending := by
  cases begun
  intro t isTask _ _ label known z inside _ _
  cases Nat.lt_one_iff.mp isTask
  cases known
  rw [List.mem_singleton.mp inside]
  exact tells.bare _ ⟨by decide, by decide, rfl⟩

theorem System.Reachable.unmarked {s : System} (reached : System.Reachable System.GroupsEnded s) :
    ∃ owner fork below, Unmarked s owner fork below := by
  induction reached with
  | @start s begun =>
    refine ⟨_, fun _ => s.detector.plain 0, fun _ => s.detector.plain 0, System.placed_initial begun,
      System.origins_initial begun _ _, fun t c child => ?_,
      System.clean_initial begun ⟨fun _ bare => bare, fun _ _ same bare => bare.of_marks same⟩ _⟩
    rw [System.kids_initial begun] at child
    cases child
  | step before groups stepped ih =>
    obtain ⟨owner, fork, below, unmarked⟩ := ih
    obtain ⟨owner', fork', below', unmarked', -⟩ :=
      unmarked.step before.nested before.lineage before.closing groups stepped
    exact ⟨owner', fork', below', unmarked'⟩

def Event.Opens (t : Nat) : Event → Prop
  | .parallelBegin p _ | .taskgroupBegin p | .workBegin p _ _ | .orderedBegin p => p = t
  | _ => False

def System.depth (s : System) (t : Nat) : Nat := (s.runtime.task t).constructs.length

/-- The steps of a run from the one, after `s`, in which the task enters a construct, for as long as it has not left it,
    with what the task has done meanwhile in the segment that its label ended with in `s`. -/
inductive Within (allowed : System → Event → Prop) (t : Nat) (s : System) (opening : Event) : Tally → System → Prop
  | enter {s'} : opening.Opens t → allowed s opening → s.step opening = some s' →
      Within allowed t s opening (Tally.next {} s.runtime t (s.runtime.task t).body opening) s'
  | go {k s₁ s₂ e} : Within allowed t s opening k s₁ → allowed s₁ e → s₁.step e = some s₂ → s.depth t < s₂.depth t →
      Within allowed t s opening (k.next s₁.runtime t (s.runtime.task t).body e) s₂

inductive Bracket (allowed : System → Event → Prop) (t : Nat) (s : System) (opening : Event) : Tally → System → Prop
  | leave {k s₁ s₂ e} : Within allowed t s opening k s₁ → allowed s₁ e → s₁.step e = some s₂ → s₂.depth t = s.depth t →
      Bracket allowed t s opening (k.next s₁.runtime t (s.runtime.task t).body e) s₂

/-- A step of a run in which the taskgroups account for children that have ended only, and which is not a barrier of
    the task's own region. -/
def BracketStep (t : Nat) (s : System) (e : Event) : Prop := s.GroupsEnded e ∧ e ≠ .barrierEnd t

section Runs

variable {s : System} {t : Nat} {opening : Event}

theorem opens_deeper {R : Runtime} (enabled : R.enabled opening = true) (opens : opening.Opens t) :
    R.running t = true ∧ (R.task t).constructs.length < ((R.after opening).task t).constructs.length := by
  have runs : R.running t = true := by
    cases opening with
    | parallelBegin p | workBegin p | orderedBegin p =>
      cases opens
      simp only [Runtime.enabled, Bool.and_eq_true] at enabled
      first | exact enabled.1 | exact enabled.1.1
    | taskgroupBegin p =>
      cases opens
      exact enabled
    | _ => cases opens
  refine ⟨runs, ?_⟩
  rw [Runtime.constructs_after enabled (Runtime.running_lt runs).1]
  cases opening with
  | parallelBegin p | workBegin p | orderedBegin p | taskgroupBegin p =>
    cases opens
    rw [Event.stack, if_pos rfl]
    exact Nat.lt_succ_self _
  | _ => cases opens

theorem Within.reached {k : Tally} {s' : System} (reached : System.Reachable System.GroupsEnded s)
    (inside : Within (BracketStep t) t s opening k s') :
    System.Reachable System.GroupsEnded s' ∧ t < s'.runtime.tasks ∧ (s'.runtime.task t).begun = true := by
  have after : ∀ {s₁ s₂ : System} {e : Event}, s₁.step e = some s₂ → t < s₁.runtime.tasks → (s₁.runtime.task t).begun = true →
      t < s₂.runtime.tasks ∧ (s₂.runtime.task t).begun = true := by
    intro s₁ s₂ e stepped isTask begun
    obtain ⟨-, -, runtime, -⟩ := System.step_cases stepped
    rw [runtime]
    exact ⟨Nat.lt_of_lt_of_le isTask (Runtime.after_extends _ _).tasks, Runtime.begun_lasts isTask begun⟩
  induction inside with
  | enter opens allowed stepped =>
    obtain ⟨enabled, -⟩ := System.step_cases stepped
    obtain ⟨isTask, runs⟩ := Runtime.running_lt (opens_deeper enabled opens).1
    exact ⟨reached.step allowed.1 stepped, after stepped isTask (Task.running_iff.mp runs).1⟩
  | go _ allowed stepped _ ih =>
    exact ⟨ih.1.step allowed.1 stepped, after stepped ih.2.1 ih.2.2⟩

theorem Within.midway (reached : System.Reachable System.GroupsEnded s) {front : Label} {x : Nat} {k : Tally}
    {s' : System}
    (known : s.detector.label t = some (front ++ [x])) (inside : Within (BracketStep t) t s opening k s') :
    System.Reachable System.GroupsEnded s' ∧ t < s'.runtime.tasks ∧ (s'.runtime.task t).begun = true ∧
      s.depth t < s'.depth t ∧
      Midway s'.runtime s'.detector t (s.runtime.task t).constructs front (s.detector.plain x) k := by
  obtain ⟨reached', isTask', begun'⟩ := inside.reached reached
  refine ⟨reached', isTask', begun', ?_⟩
  clear reached' isTask' begun'
  induction inside with
  | @enter s' opens allowed stepped =>
    obtain ⟨enabled, -, runtime, -⟩ := System.step_cases stepped
    obtain ⟨runs, deeper⟩ := opens_deeper enabled opens
    obtain ⟨isTask, runs⟩ := Runtime.running_lt runs
    obtain ⟨owner, fork, below, unmarked⟩ := reached.unmarked
    obtain ⟨owner', fork', below', -, adv⟩ :=
      unmarked.step reached.nested reached.lineage reached.closing allowed.1 stepped
    have start : Midway s.runtime s.detector t (s.runtime.task t).constructs front (s.detector.plain x) {} :=
      .direct (List.nil_append _).symm (List.forall_mem_nil _) known
        (Tally.apply_zero (plain_offset_lt _) (plain_taskGroup_lt _).1 (plain_taskGroup_lt _).2).symm rfl rfl
    have midway := adv.midway_step start isTask (Task.running_iff.mp runs).1 unmarked.origins allowed.2
      (.inr (.inl deeper))
    rw [System.depth, System.depth, runtime]
    exact ⟨deeper, midway⟩
  | @go k s₁ s₂ e before allowed stepped deeper ih =>
    obtain ⟨deep, midway⟩ := ih
    obtain ⟨reached₁, isTask, begun⟩ := before.reached reached
    obtain ⟨-, -, runtime, -⟩ := System.step_cases stepped
    obtain ⟨owner, fork, below, unmarked⟩ := reached₁.unmarked
    obtain ⟨owner', fork', below', -, adv⟩ :=
      unmarked.step reached₁.nested reached₁.lineage reached₁.closing allowed.1 stepped
    refine ⟨deeper, ?_⟩
    rw [runtime]
    exact adv.midway_step midway isTask begun unmarked.origins allowed.2 (.inl deep)

end Runs

/-- What the count comes to for each construct. -/
def Tally.Fits (k : Tally) (R R' : Runtime) : Event → Prop
  | .workBegin _ .single _ => k = {}
  | .workBegin _ _ _ => k = { loops := 1 }
  | .parallelBegin _ _ => k = { barriers := (R'.region R.regions).released }
  | .orderedBegin _ => k.orders = 1
  | .taskgroupBegin _ => 0 < k.groups ∧ k.orders = 0
  | _ => False

/-- The task has its label again: the segments before the last are the same objects, and the last one has the
    same fields, but for the counts. -/
def Tally.Restores (k : Tally) (s s' : System) (t : Nat) : Prop :=
  ∃ front x x', s.detector.label t = some (front ++ [x]) ∧ s'.detector.label t = some (front ++ [x']) ∧
    (s'.detector.heap.objects x').contents = k.net (s.detector.heap.objects x).contents ∧
    (s'.detector.heap.objects x').orderSecVal = (s.detector.heap.objects x).orderSecVal

theorem bracket_net {s s' : System} {t : Nat} {opening : Event} {k : Tally}
    (reached : System.Reachable System.GroupsEnded s) (bracket : Bracket (BracketStep t) t s opening k s') :
    k.Restores s s' t := by
  obtain ⟨owner, fork, below, unmarked⟩ := reached.unmarked
  cases bracket with
  | @leave k s₁ _ e within allowed stepped same =>
    have runs : s.runtime.running t = true := by
      clear allowed stepped same
      induction within with
      | enter opens allowed stepped => exact (opens_deeper (System.step_cases stepped).1 opens).1
      | go _ _ _ _ ih => exact ih
    obtain ⟨isTask, runs⟩ := Runtime.running_lt runs
    obtain ⟨begun, live, -⟩ := Task.running_iff.mp runs
    obtain ⟨label, known, -, -⟩ := unmarked.placed.lined.label t isTask begun
    obtain ⟨front, x, rfl⟩ := unmarked.placed.lined.label_last isTask begun live known
    obtain ⟨reached₁, isTask₁, begun₁, deep, midway⟩ := within.midway reached known
    obtain ⟨enabled, -, runtime, -⟩ := System.step_cases stepped
    obtain ⟨owner₁, fork₁, below₁, unmarked₁⟩ := reached₁.unmarked
    obtain ⟨owner', fork', below', unmarked', adv⟩ :=
      unmarked₁.step reached₁.nested reached₁.lineage reached₁.closing allowed.1 stepped
    have midway' := adv.midway_step midway isTask₁ begun₁ unmarked₁.origins allowed.2 (.inl deep)
    rw [← runtime] at midway'
    have isTask' : t < s'.runtime.tasks := by
      rw [runtime]
      exact Nat.lt_of_lt_of_le isTask₁ (Runtime.after_extends _ _).tasks
    have begun' : (s'.runtime.task t).begun = true := by
      rw [runtime]
      exact Runtime.begun_lasts isTask₁ begun₁
    -- the step that leaves the construct does not end the task
    have live' : (s'.runtime.task t).ended = false := by
      rw [← Bool.not_eq_true]
      intro ended
      have idle := (reached₁.step allowed.1 stepped).lineage.idle t ended
      have live₁ : (s₁.runtime.task t).ended = false := by
        rw [← Bool.not_eq_true]
        intro ended
        rw [System.depth, System.depth, reached₁.lineage.idle t ended] at deep
        exact absurd deep (Nat.not_lt_zero _)
      have stack := Runtime.constructs_after enabled isTask₁
      rw [runtime] at ended idle
      have unmoved : e.stack s₁.runtime t (s₁.runtime.task t).constructs = (s₁.runtime.task t).constructs := by
        rcases Runtime.ended_by isTask₁ live₁ ended with rfl | rfl <;> rfl
      rw [stack, unmoved] at idle
      rw [System.depth, System.depth, idle] at deep
      exact absurd deep (Nat.not_lt_zero _)
    cases midway' with
    | unit stack =>
      rw [System.depth, System.depth, stack] at same
      simp only [List.length_append, List.length_cons] at same
      omega
    | @direct outer y stack plain label counted groups orders =>
      have empty : outer = [] := by
        rw [System.depth, System.depth, stack, List.length_append] at same
        exact List.eq_nil_of_length_eq_zero (by omega)
      subst empty
      have bare := unmarked.bare t isTask begun live _ known x (by simp)
        (unmarked.placed.lined.guards_last isTask begun live known) trivial
      have bare' := unmarked'.bare t isTask' begun' live' _ label y (by simp)
        (unmarked'.placed.lined.guards_last isTask' begun' live' label) trivial
      refine ⟨front, x, y, known, label, ?_, bare'.orderSecVal.trans bare.orderSecVal.symm⟩
      rw [Segment.contents_unmarked bare'.taskwaited bare'.taskGroupSync,
        Segment.contents_unmarked bare.taskwaited bare.taskGroupSync]
      exact counted.trans (Tally.apply_net (plain_taskGroup_lt _).2 groups orders)

end Romp
