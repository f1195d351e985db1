import Romp.Runtime.Offsets
import Romp.Runtime.WellNested

namespace Romp

def Construct.isSingle : Construct → Bool
  | single .. => true
  | _ => false

namespace Runtime

variable {R : Runtime} {t : Nat} {e : Event}

theorem leaves (enabled : R.enabled e = true) (isTask : t < R.tasks)
    (shorter : ((R.after e).task t).constructs.length < (R.task t).constructs.length) :
    ∃ c rest, (R.task t).constructs = c :: rest ∧ ((R.after e).task t).constructs = rest ∧
      (e = .workEnd t ∧ c.number.isSome = true ∨ (∃ r, e = .parallelEnd r ∧ c = .parallel r) ∨
        e = .taskgroupEnd t ∧ c.isTaskgroup = true ∨ e = .orderedEnd t ∧ c = .ordered) := by
  have stack := constructs_after enabled isTask
  have moved : e.stack R t (R.task t).constructs ≠ (R.task t).constructs := by
    intro same
    rw [stack, same] at shorter
    exact absurd shorter (lt_irrefl _)
  have grown : ∀ c, e.stack R t (R.task t).constructs ≠ c :: (R.task t).constructs := by
    intro c same
    rw [stack, same, List.length_cons] at shorter
    omega
  cases e with
  | parallelBegin p | taskgroupBegin p | workBegin p | orderedBegin p =>
    by_cases self : p = t
    · exact absurd (if_pos self) (grown _)
    · exact absurd (if_neg self) moved
  | parallelEnd r =>
    by_cases self : (R.region r).encountering = t
    · simp only [Runtime.enabled, Bool.and_eq_true, beq_iff_eq, self] at enabled
      obtain ⟨rest, top⟩ := List.head?_eq_some_iff.mp enabled.2
      rw [Event.stack, if_pos self, top] at stack
      exact ⟨_, rest, top, stack, .inr (.inl ⟨r, rfl, rfl⟩)⟩
    · exact absurd (if_neg self) moved
  | taskgroupEnd p =>
    by_cases self : p = t
    · subst self
      simp only [Runtime.enabled, Bool.and_eq_true] at enabled
      have inside := enabled.2
      split at inside
      · rename_i g rest top
        rw [Event.stack, if_pos rfl, top] at stack
        exact ⟨_, rest, top, stack, .inr (.inr (.inl ⟨rfl, rfl⟩))⟩
      · cases inside
    · exact absurd (if_neg self) moved
  | orderedEnd p =>
    by_cases self : p = t
    · subst self
      simp only [Runtime.enabled, Bool.and_eq_true, beq_iff_eq] at enabled
      obtain ⟨rest, top⟩ := List.head?_eq_some_iff.mp enabled.2
      rw [Event.stack, if_pos rfl, top] at stack
      exact ⟨_, rest, top, stack, .inr (.inr (.inr ⟨rfl, rfl⟩))⟩
    · exact absurd (if_neg self) moved
  | workEnd p =>
    by_cases self : p = t
    · subst self
      simp only [Runtime.enabled, Bool.and_eq_true] at enabled
      cases top : (R.task p).constructs with
      | nil => simp [top] at enabled
      | cons c rest =>
        rw [Event.stack, if_pos rfl, top] at stack
        refine ⟨c, rest, rfl, stack, .inl ⟨rfl, ?_⟩⟩
        cases c <;> simp [top, Construct.number] at enabled ⊢
    · exact absurd (if_neg self) moved
  | dispatch p id =>
    have same : ((Event.dispatch p id).stack R t (R.task t).constructs).length = (R.task t).constructs.length := by
      simp only [Event.stack]
      split
      · split
        · rename_i top
          rw [top]
          rfl
        · rename_i top
          rw [top]
          rfl
        · rfl
      · rfl
    rw [stack, same] at shorter
    exact absurd shorter (lt_irrefl _)
  | _ => exact absurd rfl moved

/-- A task is in a unit of a worksharing construct that it met with the constructs `base` around it. -/
def InUnit (R : Runtime) (t : Nat) (base : List Construct) (single : Bool) : Prop :=
  ∃ inner c, (R.task t).constructs = inner ++ c :: base ∧ (∀ c ∈ inner, c.number = none) ∧
    c.number.isSome = true ∧ c.isSingle = single

section InUnit

variable {base : List Construct} {single : Bool}

theorem InUnit.body (inUnit : R.InUnit t base single) (idle : ∀ c ∈ base, c.number = none) :
    (R.task t).body ≠ base.find? fun c => c.number.isSome := by
  obtain ⟨inner, c, before, low, number, -⟩ := inUnit
  rw [Task.body, before, find_none low, find_unit number, find_idle idle]
  exact Option.some_ne_none _

theorem InUnit.step (inUnit : R.InUnit t base single) (enabled : R.enabled e = true) (isTask : t < R.tasks)
    (deep : base.length < ((R.after e).task t).constructs.length) : (R.after e).InUnit t base single := by
  obtain ⟨inner, c, before, low, number, kind⟩ := inUnit
  have stack := constructs_after enabled isTask
  have push : ∀ new : Construct, new.number = none → ((R.after e).task t).constructs = new :: (R.task t).constructs →
      (R.after e).InUnit t base single := by
    intro new plain after
    refine ⟨new :: inner, c, by rw [after, before]; rfl, fun c inside => ?_, number, kind⟩
    rcases List.mem_cons.mp inside with rfl | inside
    · exact plain
    · exact low c inside
  have keep : e.stack R t (R.task t).constructs = (R.task t).constructs → (R.after e).InUnit t base single :=
    fun same => ⟨inner, c, (stack.trans same).trans before, low, number, kind⟩
  by_cases shorter : ((R.after e).task t).constructs.length < (R.task t).constructs.length
  · obtain ⟨first, rest, top, after, -⟩ := leaves enabled isTask shorter
    cases inner with
    | nil =>
      rw [top, List.nil_append, List.cons.injEq] at before
      rw [after, before.2] at deep
      exact absurd deep (lt_irrefl _)
    | cons first' inner' =>
      rw [top, List.cons_append, List.cons.injEq] at before
      exact ⟨inner', c, after.trans before.2, fun c inside => low c (List.mem_cons_of_mem _ inside), number, kind⟩
  · cases e with
    | parallelBegin p | taskgroupBegin p | orderedBegin p =>
      by_cases self : p = t
      · exact push _ rfl (stack.trans (if_pos self))
      · exact keep (if_neg self)
    | workBegin p =>
      by_cases self : p = t
      · subst self
        simp only [Runtime.enabled, Bool.and_eq_true] at enabled
        have group := List.all_eq_true.mp enabled.1.2 c (by simp [before])
        rw [Construct.number_none group] at number
        cases number
      · exact keep (if_neg self)
    | dispatch p id =>
      by_cases self : p = t
      · cases inner with
        | nil =>
          rw [before, List.nil_append] at stack
          cases c with
          | loop | sections =>
            simp only [Event.stack, if_pos self] at stack
            exact ⟨[], _, stack, low, rfl, kind⟩
          | _ =>
            simp only [Event.stack, if_pos self] at stack
            exact ⟨[], _, stack, low, number, kind⟩
        | cons first inner' =>
          apply keep
          have plain := low first (by simp)
          rw [before]
          cases first with
          | loop | sections | single => cases plain
          | _ => simp only [Event.stack, if_pos self, List.cons_append]
      · apply keep
        simp only [Event.stack, if_neg self]
    | parallelEnd r =>
      by_cases self : (R.region r).encountering = t
      · rw [Event.stack, if_pos self, before] at stack
        rw [stack, before] at shorter
        cases inner <;> simp at shorter
      · exact keep (if_neg self)
    | taskgroupEnd p | workEnd p | orderedEnd p =>
      by_cases self : p = t
      · rw [Event.stack, if_pos self, before] at stack
        rw [stack, before] at shorter
        cases inner <;> simp at shorter
      · exact keep (if_neg self)
    | _ => exact keep rfl

theorem InUnit.leave (inUnit : R.InUnit t base single) (enabled : R.enabled e = true) (isTask : t < R.tasks)
    (same : ((R.after e).task t).constructs.length = base.length) :
    e = .workEnd t ∧ ((R.after e).task t).constructs = base ∧
      ∃ c, (R.task t).constructs = c :: base ∧ c.isSingle = single := by
  obtain ⟨inner, c, before, low, number, kind⟩ := inUnit
  have shorter : ((R.after e).task t).constructs.length < (R.task t).constructs.length := by
    rw [same, before]
    simp
    omega
  obtain ⟨first, rest, top, after, how⟩ := leaves enabled isTask shorter
  have empty : inner = [] := by
    rw [after] at same
    rw [top] at before
    have lengths := congrArg List.length before
    simp only [List.length_cons, List.length_append] at lengths
    exact List.eq_nil_of_length_eq_zero (by omega)
  subst empty
  rw [top, List.nil_append, List.cons.injEq] at before
  obtain ⟨rfl, rfl⟩ := before
  refine ⟨?_, after, first, top, kind⟩
  rcases how with ⟨ends, -⟩ | ⟨r, -, rfl⟩ | ⟨-, group⟩ | ⟨-, rfl⟩
  · exact ends
  · cases number
  · rw [Construct.number_none group] at number
    cases number
  · cases number

end InUnit

structure AwaitsRegion (R : Runtime) (t : Nat) (base : List Construct) (r : Nat) : Prop where
  stack : (R.task t).constructs = .parallel r :: base
  isRegion : r < R.regions
  forker : (R.region r).encountering = t

def heard (R : Runtime) (r : Nat) : Nat := if (R.task (R.memberOf r 0)).ended then (R.region r).released else 0

theorem AwaitsRegion.not_running {base : List Construct} {r : Nat} (waits : R.AwaitsRegion t base r) :
    R.running t = false := by
  rw [← Bool.not_eq_true]
  intro runs
  have idle := (Task.running_iff.mp (running_lt runs).2).2.2.2.2 _ _ waits.stack
  cases idle

theorem AwaitsRegion.keep {base : List Construct} {r : Nat} (waits : R.AwaitsRegion t base r)
    (enabled : R.enabled e = true)
    (isTask : t < R.tasks) (deep : base.length < ((R.after e).task t).constructs.length) :
    (R.after e).AwaitsRegion t base r := by
  have stack := constructs_after enabled isTask
  have rests := waits.not_running
  have region := region_after (e := e) waits.isRegion
  suffices same : ((R.after e).task t).constructs = (R.task t).constructs from
    ⟨same.trans waits.stack, Nat.lt_of_lt_of_le waits.isRegion (regions_le R e), region.encountering.trans waits.forker⟩
  by_cases shorter : ((R.after e).task t).constructs.length < (R.task t).constructs.length
  · rw [waits.stack, List.length_cons] at shorter
    omega
  · have idle : ∀ p, R.running p = true → p ≠ t := by
      rintro p runs rfl
      cases runs.symm.trans rests
    rw [waits.stack] at stack shorter
    have tail : ((R.after e).task t).constructs ≠ base := fun same => by simp [same] at deep
    cases e with
    | parallelBegin p | taskgroupBegin p | orderedBegin p | workBegin p =>
      have other := idle p (by simp only [Runtime.enabled, Bool.and_eq_true] at enabled; tauto)
      rw [stack, Event.stack, if_neg other, waits.stack]
    | dispatch p id =>
      rw [stack, waits.stack]
      simp only [Event.stack, ite_self]
    | parallelEnd ρ =>
      by_cases self : (R.region ρ).encountering = t
      · rw [Event.stack, if_pos self] at stack
        exact absurd stack tail
      · rw [stack, Event.stack, if_neg self, waits.stack]
    | taskgroupEnd p | workEnd p | orderedEnd p =>
      by_cases self : p = t
      · rw [Event.stack, if_pos self] at stack
        exact absurd stack tail
      · rw [stack, Event.stack, if_neg self, waits.stack]
    | _ => exact stack.trans waits.stack.symm

theorem AwaitsRegion.leave {base : List Construct} {r : Nat} (waits : R.AwaitsRegion t base r)
    (enabled : R.enabled e = true) (isTask : t < R.tasks)
    (same : ((R.after e).task t).constructs.length = base.length) :
    e = .parallelEnd r ∧ (R.Nested → R.heard r = ((R.after e).region r).released) := by
  have shorter : ((R.after e).task t).constructs.length < (R.task t).constructs.length := by
    rw [same, waits.stack, List.length_cons]
    omega
  obtain ⟨c, rest, top, -, how⟩ := leaves enabled isTask shorter
  rw [waits.stack, List.cons.injEq] at top
  obtain ⟨rfl, -⟩ := top
  have ends : e = .parallelEnd r := by
    rcases how with ⟨-, number⟩ | ⟨ρ, ends, same⟩ | ⟨-, group⟩ | ⟨-, ordered⟩
    · cases number
    · cases same
      exact ends
    · cases group
    · cases ordered
  refine ⟨ends, fun nested => ?_⟩
  subst ends
  have first := (nested.bounds r waits.isRegion).1
  simp only [Runtime.enabled, Bool.and_eq_true, allEnded_iff] at enabled
  have ended := enabled.1.2 (R.memberOf r 0) (Region.mem_members.mpr ⟨0, first, rfl⟩)
  rw [heard, ended, if_pos rfl]
  rfl

end Runtime

namespace Advance

variable {R : Runtime} {d d' : Detector} {owner owner' : Nat → Strand} {e : Event} {t : Nat}
  (adv : Advance R d d' owner owner' e)

include adv

theorem heard_step {base : List Construct} {r : Nat} (waits : R.AwaitsRegion t base r) (isTask : t < R.tasks) :
    ({ barriers := R.heard r } : Tally).count R t e = { barriers := (R.after e).heard r } := by
  have enabled := adv.enabled
  have isRegion := waits.isRegion
  have first := (adv.nested.bounds r isRegion).1
  have kind := (adv.nested.kind r isRegion 0 first).1
  have isMember := adv.nested.member_lt isRegion first
  have member := Runtime.after_memberOf (e := e) isRegion 0
  have rests := waits.not_running
  have idle : ∀ p, R.running p = true → p ≠ t := by
    rintro p runs rfl
    cases runs.symm.trans rests
  by_cases joins : e = .implicitEnd (R.memberOf r 0)
  · obtain ⟨-, -, live, -, -, -, -, -⟩ := adv.joining isRegion joins
    have released : ((R.after e).region r).released = (R.region r).released := by
      rcases (Runtime.region_after (e := e) isRegion).released with same | ⟨release, -⟩
      · exact same
      · cases joins.symm.trans release
    have ended : ((R.after e).task (R.memberOf r 0)).ended = true := by simp [joins, Runtime.after]
    rw [Runtime.heard, Runtime.heard, member, ended, live, released, if_neg Bool.false_ne_true, if_pos rfl, joins]
    simp only [Tally.count, kind, waits.forker, if_true, Nat.zero_add]
  · have same : (R.after e).heard r = R.heard r := by
      rw [Runtime.heard, Runtime.heard, member]
      cases ended : (R.task (R.memberOf r 0)).ended with
      | true => rw [Runtime.ended_lasts isMember ended, if_pos rfl, if_pos rfl, adv.released_ended isRegion ended]
      | false =>
        have live : ((R.after e).task (R.memberOf r 0)).ended = false := by
          rw [← Bool.not_eq_true]
          intro ended'
          rcases Runtime.ended_by isMember ended ended' with ends | rfl
          · exact joins ends
          · simp only [Runtime.enabled, Bool.and_eq_true, decide_eq_true_eq, kind] at enabled
            cases enabled.1.2
        rw [live, if_neg Bool.false_ne_true, if_neg Bool.false_ne_true]
    rw [same]
    cases e with
    | taskCreate p | taskgroupBegin p =>
      rw [Tally.count, if_neg (idle p enabled)]
    | taskwaitEnd p | taskgroupEnd p | orderedBegin p | orderedEnd p =>
      simp only [Runtime.enabled, Bool.and_eq_true] at enabled
      rw [Tally.count, if_neg (idle p enabled.1)]
    | workEnd p =>
      have other : p ≠ t := by
        rintro rfl
        simp [Runtime.enabled, waits.stack] at enabled
      rw [Tally.count, if_neg other]
    | implicitEnd m =>
      simp only [Runtime.enabled, Bool.and_eq_true, decide_eq_true_eq, Bool.not_eq_true'] at enabled
      obtain ⟨⟨⟨⟨isMember', -⟩, -⟩, live⟩, -⟩ := enabled
      simp only [Tally.count]
      split
      · rename_i ρ kind'
        obtain ⟨isRegion', room, self⟩ := adv.nested.member m isMember' ρ 0 kind'
        have notForker : (R.region ρ).encountering ≠ t := by
          intro forker
          rw [self] at live
          have isOpen := adv.nested.live_open isRegion' room live
          rw [Runtime.IsOpen, forker, waits.stack] at isOpen
          cases isOpen
          exact joins (by rw [self])
        rw [if_neg notForker]
      · rfl
    | _ => rfl

end Advance

theorem Runtime.ordered_loop {R : Runtime} {t : Nat} (enabled : R.enabled (.orderedBegin t) = true) :
    ∃ number turn id rest, (R.task t).constructs = .loop number turn (some id) :: rest := by
  simp only [Runtime.enabled, Runtime.currentIteration, Bool.and_eq_true] at enabled
  have inside := enabled.2
  split at inside
  · rename_i iteration
    split at iteration
    · rename_i top
      exact ⟨_, _, _, _, top⟩
    · cases iteration
  · cases inside

/-- In a construct a task enters no ordered section that counts in the segment around it. -/
theorem Midway.next_kept {R : Runtime} {d : Detector} {t : Nat} {base : List Construct} {front : Label} {z : Contents}
    {k : Tally} {e : Event} (midway : Midway R d t base front z k) (enabled : R.enabled e = true) (isTask : t < R.tasks)
    (deep : base.length < (R.task t).constructs.length) :
    (k.next R t (base.find? fun c => c.number.isSome) e).orders = k.orders ∧
      k.groups ≤ (k.next R t (base.find? fun c => c.number.isSome) e).groups := by
  rw [Tally.next]
  by_cases counts : ((R.after e).task t).body = base.find? fun c => c.number.isSome
  · rw [if_pos counts]
    cases e with
    | orderedBegin p =>
      by_cases self : p = t
      · subst self
        have stack := Runtime.constructs_after enabled isTask
        rw [Event.stack, if_pos rfl] at stack
        cases midway with
        | @direct outer y before plain =>
          obtain ⟨number, turn, id, rest, top⟩ := Runtime.ordered_loop enabled
          cases outer with
          | nil =>
            rw [before] at deep
            exact absurd deep (lt_irrefl _)
          | cons first outer' =>
            rw [top, List.cons_append, List.cons.injEq] at before
            cases before.1.symm ▸ plain first (by simp)
        | @unit inner c outer y u before low number plain idle =>
          rw [Task.body, stack, before, find_idle idle, List.find?_cons_of_neg (by simp [Construct.number]),
            find_none low,
            find_unit number] at counts
          cases counts
      · rw [Tally.count, if_neg self]
        exact ⟨rfl, le_refl _⟩
    | taskCreate p | taskwaitEnd p | taskgroupBegin p | taskgroupEnd p | orderedEnd p =>
      by_cases self : p = t
      · rw [Tally.count, if_pos self]
        exact ⟨rfl, by simp⟩
      · rw [Tally.count, if_neg self]
        exact ⟨rfl, le_refl _⟩
    | workEnd p =>
      simp only [Tally.count]
      split
      · split <;> exact ⟨rfl, le_refl _⟩
      · exact ⟨rfl, le_refl _⟩
    | implicitEnd m =>
      simp only [Tally.count]
      split
      · split <;> exact ⟨rfl, le_refl _⟩
      · exact ⟨rfl, le_refl _⟩
    | _ => exact ⟨rfl, le_refl _⟩
  · rw [if_neg counts]
    exact ⟨rfl, le_refl _⟩

section Runs

variable {s s' : System} {t : Nat} {opening : Event} {k : Tally}

theorem Within.inUnit {work : Work} {executor : Bool} (opening_ : opening = .workBegin t work executor)
    (reached : System.Reachable System.GroupsEnded s) (within : Within (BracketStep t) t s opening k s') :
    (∀ c ∈ (s.runtime.task t).constructs, c.number = none) ∧ k = {} ∧
      s'.runtime.InUnit t (s.runtime.task t).constructs (work == .single) := by
  induction within with
  | enter opens allowed stepped =>
    obtain ⟨enabled, -, runtime, -⟩ := System.step_cases stepped
    have isTask := (Runtime.running_lt (opens_deeper enabled opens).1).1
    have stack := Runtime.constructs_after enabled isTask
    subst opening_
    rw [Event.stack, if_pos rfl] at stack
    simp only [Runtime.enabled, Bool.and_eq_true] at enabled
    refine ⟨fun c inside => Construct.number_none (List.all_eq_true.mp enabled.1.2 c inside), ?_, ?_⟩
    · rw [Tally.next]
      exact ite_self _
    · rw [runtime]
      refine ⟨[], _, stack, List.forall_mem_nil _, ?_, ?_⟩ <;> cases work <;> rfl
  | @go k s₁ s₂ e before allowed stepped deeper ih =>
    obtain ⟨idle, rfl, inUnit⟩ := ih
    obtain ⟨enabled, -, runtime, -⟩ := System.step_cases stepped
    have isTask := (before.reached reached).2.1
    rw [System.depth, System.depth, runtime] at deeper
    have inUnit' := inUnit.step enabled isTask deeper
    refine ⟨idle, ?_, runtime ▸ inUnit'⟩
    rw [Tally.next, if_neg ?_]
    have body : (s.runtime.task t).body = (s.runtime.task t).constructs.find? fun c => c.number.isSome := rfl
    rw [body]
    exact inUnit'.body idle

theorem Within.awaits {size : Nat} (opening_ : opening = .parallelBegin t size)
    (reached : System.Reachable System.GroupsEnded s) (within : Within (BracketStep t) t s opening k s') :
    k = { barriers := s'.runtime.heard s.runtime.regions } ∧
      s'.runtime.AwaitsRegion t (s.runtime.task t).constructs s.runtime.regions := by
  induction within with
  | enter opens allowed stepped =>
    obtain ⟨enabled, -, runtime, -⟩ := System.step_cases stepped
    have isTask := (Runtime.running_lt (opens_deeper enabled opens).1).1
    have stack := Runtime.constructs_after enabled isTask
    subst opening_
    rw [Event.stack, if_pos rfl] at stack
    rw [runtime]
    have region : (s.runtime.after (.parallelBegin t size)).region s.runtime.regions = s.runtime.newRegion t size := by
      rw [Runtime.fork_region, if_pos rfl]
    refine ⟨?_, stack, Nat.lt_succ_self _, by rw [region]; rfl⟩
    have none : (s.runtime.after (.parallelBegin t size)).heard s.runtime.regions = 0 := by
      rw [Runtime.heard, region]
      exact ite_self _
    rw [none, Tally.next]
    exact ite_self _
  | @go k s₁ s₂ e before allowed stepped deeper ih =>
    obtain ⟨rfl, awaits⟩ := ih
    obtain ⟨enabled, -, runtime, -⟩ := System.step_cases stepped
    obtain ⟨reached₁, isTask, -⟩ := before.reached reached
    obtain ⟨owner, fork, below, unmarked⟩ := reached₁.unmarked
    obtain ⟨owner', fork', below', -, adv⟩ :=
      unmarked.step reached₁.nested reached₁.lineage reached₁.closing allowed.1 stepped
    rw [System.depth, System.depth, runtime] at deeper
    have awaits' := awaits.keep enabled isTask deeper
    have body : ((s₁.runtime.after e).task t).body = (s.runtime.task t).body := by
      rw [Task.body, awaits'.stack]
      exact List.find?_cons_of_neg Bool.false_ne_true
    rw [runtime]
    refine ⟨?_, awaits'⟩
    rw [Tally.next, if_pos body]
    exact adv.heard_step awaits isTask

theorem Within.kept (reached : System.Reachable System.GroupsEnded s) {front : Label} {x : Nat}
    (known : s.detector.label t = some (front ++ [x])) (within : Within (BracketStep t) t s opening k s') :
    (opening = .orderedBegin t → k.orders = 1) ∧ (opening = .taskgroupBegin t → 0 < k.groups ∧ k.orders = 0) := by
  induction within with
  | enter opens allowed stepped =>
    obtain ⟨enabled, -, -, -⟩ := System.step_cases stepped
    have isTask := (Runtime.running_lt (opens_deeper enabled opens).1).1
    have stack := Runtime.constructs_after enabled isTask
    have body : ∀ c : Construct, c.number = none →
        ((s.runtime.after opening).task t).constructs = c :: (s.runtime.task t).constructs →
        ((s.runtime.after opening).task t).body = (s.runtime.task t).body := by
      intro c plain top
      rw [Task.body, top, Task.body, List.find?_cons_of_neg (by simp [plain])]
    constructor
    · rintro rfl
      rw [Event.stack, if_pos rfl] at stack
      rw [Tally.next, if_pos (body _ rfl stack), Tally.count, if_pos rfl]
    · rintro rfl
      rw [Event.stack, if_pos rfl] at stack
      rw [Tally.next, if_pos (body _ rfl stack), Tally.count, if_pos rfl]
      exact ⟨Nat.one_pos, rfl⟩
  | @go k s₁ s₂ e before allowed stepped deeper ih =>
    obtain ⟨enabled, -, -, -⟩ := System.step_cases stepped
    obtain ⟨-, isTask, -, deep, midway⟩ := before.midway reached known
    obtain ⟨orders, groups⟩ := midway.next_kept enabled isTask deep
    refine ⟨fun opened => orders.trans (ih.1 opened), fun opened => ?_⟩
    obtain ⟨positive, none⟩ := ih.2 opened
    exact ⟨Nat.lt_of_lt_of_le positive groups, orders.trans none⟩

end Runs

/-- A construct gives the task its label back, but for what it has counted in the last segment. -/
theorem bracket_restores {s s' : System} {t : Nat} {opening : Event} {k : Tally}
    (reached : System.Reachable System.GroupsEnded s) (bracket : Bracket (BracketStep t) t s opening k s') :
    k.Restores s s' t ∧ k.Fits s.runtime s'.runtime opening := by
  refine ⟨bracket_net reached bracket, ?_⟩
  obtain ⟨front, x, x', known, -⟩ := bracket_net reached bracket
  cases bracket with
  | @leave k s₁ _ e within allowed stepped same =>
    obtain ⟨enabled, -, runtime, -⟩ := System.step_cases stepped
    obtain ⟨reached₁, isTask, -, deep, midway⟩ := within.midway reached known
    have kept := within.kept reached known
    obtain ⟨orders, groups⟩ := midway.next_kept enabled isTask deep
    have opens : opening.Opens t := by
      clear midway kept orders groups deep isTask reached₁ same runtime enabled stepped allowed
      induction within with
      | enter opens _ _ => exact opens
      | go _ _ _ _ ih => exact ih
    rw [System.depth, System.depth, runtime] at same
    cases opening with
    | workBegin p work executor =>
      cases opens
      obtain ⟨idle, rfl, inUnit⟩ := within.inUnit rfl reached
      obtain ⟨rfl, after, c, top, kind⟩ := inUnit.leave enabled isTask same
      have body : ((s₁.runtime.after (.workEnd t)).task t).body = (s.runtime.task t).body := by
        rw [Task.body, after]
        rfl
      have counted : ({} : Tally).count s₁.runtime t (.workEnd t) = if c.isSingle then {} else { loops := 1 } := by
        simp only [Tally.count, if_true, top]
        cases c <;> rfl
      rw [Tally.next, if_pos body, counted, kind]
      cases work <;> rfl
    | parallelBegin p size =>
      cases opens
      obtain ⟨rfl, awaits⟩ := within.awaits rfl reached
      have heard := awaits.leave enabled isTask same
      have nothing : ({ barriers := s₁.runtime.heard s.runtime.regions } : Tally).next s₁.runtime t
          (s.runtime.task t).body e = { barriers := s₁.runtime.heard s.runtime.regions } := by
        rw [Tally.next, heard.1]
        exact ite_self _
      rw [nothing, Tally.Fits, runtime, heard.2 reached₁.nested]
    | orderedBegin p =>
      cases opens
      exact orders.trans (kept.1 rfl)
    | taskgroupBegin p =>
      cases opens
      obtain ⟨positive, none⟩ := kept.2 rfl
      exact ⟨Nat.lt_of_lt_of_le positive groups, orders.trans none⟩
    | _ => cases opens

def Event.notBarrierOf (t : Nat) : Event → Bool
  | .barrierEnd p => p != t
  | _ => true

theorem Event.notBarrierOf_ne {t : Nat} {e : Event} (other : e.notBarrierOf t = true) : e ≠ .barrierEnd t := by
  rintro rfl
  simp [notBarrierOf] at other

/-- A taskgroup ends when every child that its task has in the list has ended. -/
def System.quietGroups (t : Nat) (s : System) : Event → Bool
  | .taskgroupEnd p => (s.detector.children p).all fun c => (s.runtime.task c).ended
  | e => e.notBarrierOf t

theorem System.quietGroups_step (t : Nat) (s : System) (e : Event) (quiet : s.quietGroups t e = true) :
    BracketStep t s e := by
  refine ⟨?_, ?_⟩
  · rintro p rfl init r known c child x -
    exact List.all_eq_true.mp quiet c child
  · rintro rfl
    have other : (Event.barrierEnd t).notBarrierOf t = true := quiet
    exact Event.notBarrierOf_ne other rfl

/-- A construct that is run from its begin to its end. -/
def System.bracket (check : System → Event → Bool) (t : Nat) (s : System) (opening : Event) (inner : List Event)
    (closing : Event) : Option (Tally × System) :=
  let next := fun (k : Tally) (s₁ : System) e =>
    if check s₁ e then (s₁.step e).map fun s₂ => (k.next s₁.runtime t (s.runtime.task t).body e, s₂) else none
  let deeper := fun (p : Tally × System) => if s.depth t < p.2.depth t then some p else none
  do
    let entered ← next {} s opening
    let last ← inner.foldlM (fun p e => (next p.1 p.2 e).bind deeper) entered
    let left ← next last.1 last.2 closing
    if left.2.depth t = s.depth t then some left else none

theorem Bracket.of_run {allowed : System → Event → Prop} {check : System → Event → Bool} {t : Nat} {s s' : System}
    {opening closing : Event} {inner : List Event} {k : Tally} (sound : ∀ s e, check s e = true → allowed s e)
    (opens : opening.Opens t) (ran : s.bracket check t opening inner closing = some (k, s')) :
    Bracket allowed t s opening k s' := by
  have next : ∀ {k : Tally} {s₁ : System} {e : Event} {p : Tally × System},
      (if check s₁ e then (s₁.step e).map fun s₂ => (k.next s₁.runtime t (s.runtime.task t).body e, s₂) else none) =
        some p →
      allowed s₁ e ∧ s₁.step e = some p.2 ∧ p.1 = k.next s₁.runtime t (s.runtime.task t).body e := by
    intro k s₁ e p stepped
    split at stepped
    · rename_i passes
      obtain ⟨s₂, made, rfl⟩ := Option.map_eq_some_iff.mp stepped
      exact ⟨sound _ _ passes, made, rfl⟩
    · cases stepped
  rw [System.bracket] at ran
  obtain ⟨entered, begun, ran⟩ := Option.bind_eq_some_iff.mp ran
  obtain ⟨⟨k₁, s₁⟩, went, ran⟩ := Option.bind_eq_some_iff.mp ran
  obtain ⟨left, ended, ran⟩ := Option.bind_eq_some_iff.mp ran
  have within : ∀ (inner : List Event) (p : Tally × System), Within allowed t s opening p.1 p.2 →
      inner.foldlM (fun p e =>
        (if check p.2 e then
          (p.2.step e).map fun s₂ => (p.1.next p.2.runtime t (s.runtime.task t).body e, s₂) else none).bind
            fun p => if s.depth t < p.2.depth t then some p else none) p = some (k₁, s₁) →
      Within allowed t s opening k₁ s₁ := by
    intro inner
    induction inner with
    | nil =>
      intro p inside went
      cases went
      exact inside
    | cons e inner ih =>
      intro p inside went
      rw [List.foldlM_cons] at went
      obtain ⟨middle, stepped, rest⟩ := Option.bind_eq_some_iff.mp went
      obtain ⟨after, made, deeper⟩ := Option.bind_eq_some_iff.mp stepped
      split at deeper
      · rename_i deep
        cases deeper
        obtain ⟨permitted, step, counted⟩ := next made
        refine ih middle ?_ rest
        rw [counted]
        exact .go inside permitted step deep
      · cases deeper
  obtain ⟨permitted, step, counted⟩ := next begun
  have start : Within allowed t s opening entered.1 entered.2 := by
    rw [counted]
    exact .enter opens permitted step
  split at ran
  · rename_i same
    cases ran
    obtain ⟨permitted, step, counted⟩ := next ended
    have counted : k = k₁.next s₁.runtime t (s.runtime.task t).body closing := counted
    rw [counted]
    exact .leave (within inner entered start went) permitted step same
  · cases ran

/-- A member creates a task in a taskgroup, which the end of the taskgroup waits for. -/
theorem bracket_restores_group : ∃ s s' k, System.runWhile (System.quietGroups 1)
    [.parallelBegin 0 1, .implicitBegin 1] = some s ∧
    s.bracket (System.quietGroups 1) 1 (.taskgroupBegin 1) [.taskCreate 1, .taskComplete 2]
    (.taskgroupEnd 1) = some (k, s') ∧
    k.Restores s s' 1 ∧ k.Fits s.runtime s'.runtime (.taskgroupBegin 1) := by
  obtain ⟨s, ran, bracket⟩ : ∃ s, System.runWhile (System.quietGroups 1) [.parallelBegin 0 1, .implicitBegin 1] = some s ∧
      (s.bracket (System.quietGroups 1) 1 (.taskgroupBegin 1) [.taskCreate 1, .taskComplete 2] (.taskgroupEnd 1)).isSome = true :=
    exists_of_any (by decide)
  obtain ⟨⟨k, s'⟩, bracket⟩ := Option.isSome_iff_exists.mp bracket
  have reached : System.Reachable System.GroupsEnded s :=
    .of_checked (fun s e quiet => (System.quietGroups_step 1 s e quiet).1) ran
  exact ⟨s, s', k, ran, bracket, bracket_restores reached (.of_run (System.quietGroups_step 1) rfl bracket)⟩

def strayGroup : List Event :=
  [.parallelBegin 0 2, .implicitBegin 1, .implicitBegin 2, .taskCreate 1, .workBegin 1 .single true,
    .workBegin 2 .single false, .workEnd 2, .barrierBegin 2 true, .taskgroupBegin 1]

/-- While the task is in a taskgroup of its own, the taskgroup of the member ends: the task is not in it, but has a
    label as short and the same number of taskgroups, so that its last segment gets the mark, and keeps it. -/
theorem bracket_marked : ¬ ∀ s s' t opening k, System.Reachable (fun _ _ => True) s →
    Bracket (fun _ e => e ≠ .barrierEnd t) t s opening k s' →
    k.Restores s s' t ∧ k.Fits s.runtime s'.runtime opening := by
  intro restores
  obtain ⟨s, ran, bracket⟩ : ∃ s, System.run strayGroup = some s ∧
      ((s.bracket (fun _ => Event.notBarrierOf 3) 3 (.taskgroupBegin 3) [.taskgroupEnd 1] (.taskgroupEnd 3)).any fun p =>
        decide ((∃ label ∈ s.detector.label 3, ∀ x ∈ label, (s.detector.heap.objects x).contents.taskGroupSync = false) ∧
          ∃ label ∈ p.2.detector.label 3, ∃ x ∈ label.getLast?,
            (p.2.detector.heap.objects x).contents.taskGroupSync = true)) = true :=
    exists_of_any (by decide)
  obtain ⟨⟨k, s'⟩, made, holds⟩ := (Option.any_eq_true _ _).mp bracket
  obtain ⟨⟨label, known, clear⟩, label', known', x', last, marked⟩ := of_decide_eq_true holds
  have reached : System.Reachable (fun _ _ => True) s := .of_run (fun _ _ _ => trivial) ran
  have bracketed : Bracket (fun _ e => e ≠ .barrierEnd 3) 3 s (.taskgroupBegin 3) k s' :=
    .of_run (fun _ _ => Event.notBarrierOf_ne) rfl made
  obtain ⟨⟨front, x, y, before, after, contents, -⟩, -⟩ := restores s s' 3 _ k reached bracketed
  cases Option.mem_unique known before
  cases Option.mem_unique known' after
  rw [List.getLast?_concat, Option.mem_some_iff] at last
  subst last
  rw [contents] at marked
  cases marked.symm.trans (clear x (by simp))

end Romp
