import Romp.Runtime.Marks
import Romp.Runtime.Stacks

namespace Romp

/-- What a task has done in one of its segments, and not in the unit of a worksharing construct below it: the tasks it
    has created, its taskwaits, the loops and sections it has been in, the taskgroups and ordered sections it has begun
    and ended, and the barriers of the regions it has forked. -/
structure Tally where
  tasks : Nat := 0
  waits : Nat := 0
  loops : Nat := 0
  groups : Nat := 0
  groupEnds : Nat := 0
  orders : Nat := 0
  orderEnds : Nat := 0
  barriers : Nat := 0
  deriving DecidableEq

namespace Tally

def count (k : Tally) (R : Runtime) (t : Nat) : Event → Tally
  | .taskCreate p => if p = t then { k with tasks := k.tasks + 1 } else k
  | .taskwaitEnd p => if p = t then { k with waits := k.waits + 1 } else k
  | .taskgroupBegin p => if p = t then { k with groups := k.groups + 1 } else k
  | .taskgroupEnd p => if p = t then { k with groupEnds := k.groupEnds + 1 } else k
  | .orderedBegin p => if p = t then { k with orders := k.orders + 1 } else k
  | .orderedEnd p => if p = t then { k with orderEnds := k.orderEnds + 1 } else k
  | .workEnd p =>
    if p = t then
      match (R.task t).constructs with
      | .single .. :: _ => k
      | _ => { k with loops := k.loops + 1 }
    else k
  | .implicitEnd m =>
    match (R.task m).kind with
    | .implicit r 0 =>
      if (R.region r).encountering = t then { k with barriers := k.barriers + (R.region r).released } else k
    | _ => k
  | _ => k

/-- An event counts if it leaves the task in the unit that `body` names. -/
def next (k : Tally) (R : Runtime) (t : Nat) (body : Option Construct) (e : Event) : Tally :=
  if ((R.after e).task t).body = body then k.count R t e else k

def apply (k : Tally) (z : Contents) : Contents :=
  { z with
    taskcreate := z.taskcreate + k.tasks
    loopCount := z.loopCount + k.loops
    phase := z.phase + (k.orders + k.orderEnds)
    taskwait := z.taskwait + k.waits
    offset := (z.offset + k.barriers * z.span) % 2 ^ 16
    taskGroupId := (z.taskGroupId + (k.groups + k.groupEnds)) % 2 ^ 16
    taskGroupLevel := (z.taskGroupLevel + (k.groups + k.groupEnds * (2 ^ 16 - 1))) % 2 ^ 16 }

def net (k : Tally) (z : Contents) : Contents :=
  { z with
    taskcreate := z.taskcreate + k.tasks
    loopCount := z.loopCount + k.loops
    phase := z.phase + 2 * k.orders
    taskwait := z.taskwait + k.waits
    offset := (z.offset + k.barriers * z.span) % 2 ^ 16
    taskGroupId := (z.taskGroupId + 2 * k.groups) % 2 ^ 16 }

variable {k : Tally} {z : Contents}

theorem apply_net (small : z.taskGroupLevel < 2 ^ 16) (groups : k.groups = k.groupEnds)
    (orders : k.orders = k.orderEnds) :
    k.apply z = k.net z := by
  have level : (z.taskGroupLevel + (k.groupEnds + k.groupEnds * (2 ^ 16 - 1))) % 2 ^ 16 = z.taskGroupLevel := by omega
  rw [apply, net, groups, orders, level, Nat.two_mul, Nat.two_mul]

theorem apply_zero (offset : z.offset < 2 ^ 16) (id : z.taskGroupId < 2 ^ 16) (level : z.taskGroupLevel < 2 ^ 16) :
    apply {} z = z := by
  simp only [apply, Nat.add_zero, Nat.zero_mul, Nat.mod_eq_of_lt offset, Nat.mod_eq_of_lt id, Nat.mod_eq_of_lt level]

theorem apply_bump (n : Nat) : ({ k with barriers := k.barriers + n } : Tally).apply z = (k.apply z).bump n := by
  simp only [apply, Contents.bump, Nat.mod_add_mod, Nat.add_mul, Nat.add_assoc]

end Tally

def Event.AtLast (t : Nat) : Event → Prop
  | .taskCreate p | .taskwaitEnd p | .taskgroupBegin p | .taskgroupEnd p | .orderedBegin p | .orderedEnd p => p = t
  | _ => False

theorem Tally.apply_count {k : Tally} {z : Contents} {R : Runtime} {t : Nat} {e : Event} (last : e.AtLast t) :
    (k.count R t e).apply z = e.count (k.apply z) := by
  cases e with
  | taskCreate p | taskwaitEnd p | taskgroupBegin p | orderedBegin p | orderedEnd p =>
    cases last
    simp only [count, if_true, apply, Event.count, Nat.mod_add_mod, Contents.mk.injEq, true_and, and_true]
    first | rfl | omega
  | taskgroupEnd p =>
    cases last
    simp only [count, if_true, apply, Event.count, Nat.mod_add_mod, Contents.mk.injEq, true_and, and_true]
    omega
  | _ => cases last

theorem plain_taskGroup_lt (s : Segment) : s.plain.taskGroupId < 2 ^ 16 ∧ s.plain.taskGroupLevel < 2 ^ 16 := by
  have fields := s.contents_get
  rw [Segment.plain, fields]
  exact ⟨Segment.taskGroupIdField.get_lt _, Segment.taskGroupLevelField.get_lt _⟩

/-- Where a task is that has entered constructs in the segment after `front` of its label: in that segment, or in the
    unit of a worksharing construct below it. -/
inductive Midway (R : Runtime) (d : Detector) (t : Nat) (base : List Construct) (front : Label) (z : Contents)
    (k : Tally) : Prop
  | direct {outer y} (stack : (R.task t).constructs = outer ++ base) (plain : ∀ c ∈ outer, c.number = none)
      (label : d.label t = some (front ++ [y])) (counted : d.plain y = k.apply z)
      (groups : k.groups = k.groupEnds + outer.countP Construct.isTaskgroup)
      (orders : k.orders = k.orderEnds + outer.count .ordered) : Midway R d t base front z k
  | unit {inner c outer y u} (stack : (R.task t).constructs = inner ++ c :: (outer ++ base))
      (low : ∀ c ∈ inner, c.number = none) (number : c.number.isSome = true) (plain : ∀ c ∈ outer, c.number = none)
      (idle : ∀ c ∈ base, c.number = none) (label : d.label t = some (front ++ [y, u])) (counted : d.plain y = k.apply z)
      (groups : k.groups = k.groupEnds + outer.countP Construct.isTaskgroup)
      (orders : k.orders = k.orderEnds + outer.count .ordered) : Midway R d t base front z k

theorem find_none {outer rest : List Construct} (plain : ∀ c ∈ outer, c.number = none) :
    (outer ++ rest).find? (fun c => c.number.isSome) = rest.find? fun c => c.number.isSome := by
  rw [List.find?_append, List.find?_eq_none.mpr fun c inside => by rw [plain c inside]; exact Bool.false_ne_true,
    Option.none_or]

theorem find_unit {c : Construct} {rest : List Construct} (number : c.number.isSome = true) :
    (c :: rest).find? (fun c => c.number.isSome) = some c := by
  simp [number]

theorem find_idle {rest : List Construct} (idle : ∀ c ∈ rest, c.number = none) :
    rest.find? (fun c => c.number.isSome) = none :=
  List.find?_eq_none.mpr fun c inside => by rw [idle c inside]; exact Bool.false_ne_true

namespace Advance

variable {R : Runtime} {d d' : Detector} {owner owner' : Nat → Strand} {e : Event} {fork : Nat → Contents}
  {below : Strand → Contents} (adv : Advance R d d' owner owner' e)

include adv

theorem label_others {t : Nat} (isTask : t < R.tasks) (begun : (R.task t).begun = true) (other : e.actor ≠ some t)
    (noJoin : ∀ r < R.regions, e = .implicitEnd (R.memberOf r 0) → (R.region r).encountering ≠ t) :
    d'.label t = d.label t := by
  cases adv.turn with
  | still plain labels => exact labels t
  | touch _ _ _ _ _ actor moves =>
    refine moves.others t fun self => other ?_
    rw [actor, self]
  | create _ _ _ _ _ _ _ others =>
    refine others t (fun self => other ?_) (Nat.ne_of_lt isTask)
    rw [self]
    rfl
  | @enter r i upper isRegion isMember isOpen unbegun _ _ others =>
    refine others t fun self => ?_
    rw [self, unbegun] at begun
    cases begun
  | @barrier r i upper x own isRegion isMember _ _ _ moves =>
    refine moves.others t fun self => other ?_
    rw [self]
    rfl
  | @join r upper own isRegion live closing settled before now others heap =>
    exact others t fun self => noJoin r isRegion rfl self.symm

theorem last_counted {t : Nat} (last : e.AtLast t) : ∃ init r n,
    d.label t = some (init ++ [r]) ∧ d'.label t = some (init ++ [n]) ∧ d'.plain n = e.count (d.plain r) := by
  have handled := adv.handled
  have turn := adv.turn
  have fresh : ∀ {init : Label} {r : Nat}, d.label t = some (init ++ [r]) → d'.label t = some (init ++ [d.heap.next]) →
      d'.plain d.heap.next = e.count (d.plain r) → ∃ init r n,
        d.label t = some (init ++ [r]) ∧ d'.label t = some (init ++ [n]) ∧ d'.plain n = e.count (d.plain r) :=
    fun old new counted => ⟨_, _, _, old, new, counted⟩
  cases e with
  | taskCreate p =>
    cases last
    cases turn with
    | still _ _ next begun =>
      have made := (begun R.tasks (Nat.lt_succ_self _) (by simp [Runtime.after, Task.new])).1
      exact absurd made (lt_irrefl _)
    | touch _ _ _ _ _ _ _ _ count => exact absurd count (Nat.succ_ne_self _)
    | create _ _ _ _ old now _ _ _ _ _ _ counted => exact ⟨_, _, _, old, now, counted⟩
  | taskwaitEnd p =>
    cases last
    obtain ⟨init, r, s, refs, moves, counted, heap, -⟩ := Detector.handle_taskwaitEnd handled
    apply fresh moves.old moves.new
    rw [Detector.plain, heap, (Heap.mark_grows _ refs (Segment.plain_markTaskwaited _)).plain _ (Nat.lt_succ_self _),
      Heap.alloc_read, plain_setTaskwait counted]
    rfl
  | taskgroupBegin p =>
    cases last
    obtain ⟨init, r, relabels, heap⟩ := Detector.handle_taskgroupBegin handled
    apply fresh relabels.old relabels.new
    rw [Detector.plain, heap, Heap.alloc_read, plain_setTaskGroup]
    rfl
  | taskgroupEnd p =>
    cases last
    obtain ⟨init, r, s, refs, moves, made, heap, -⟩ := Detector.handle_taskgroupEnd handled
    apply fresh moves.old moves.new
    rw [Detector.plain, heap, (Heap.mark_grows _ refs Segment.plain_setTaskGroupSync).plain _ (Nat.lt_succ_self _),
      Heap.alloc_read, made, plain_setTaskGroup]
    rfl
  | orderedBegin p | orderedEnd p =>
    cases last
    obtain ⟨init, r, s, relabels, counted, heap⟩ := Detector.handle_ordered handled
    apply fresh relabels.old relabels.new
    rw [Detector.plain, heap, Heap.alloc_read, plain_setPhase counted]
    rfl
  | _ => cases last

section Step

variable {t : Nat} {base : List Construct} {front : Label} {z : Contents} {k : Tally}
  (midway : Midway R d t base front z k) (isTask : t < R.tasks) (begun : (R.task t).begun = true)

include midway isTask begun

theorem midway_frame (label : d'.label t = d.label t) (stack : ((R.after e).task t).constructs = (R.task t).constructs)
    (nothing : k.count R t e = k) :
    Midway (R.after e) d' t base front z (k.next R t (base.find? fun c => c.number.isSome) e) := by
  have same : k.next R t (base.find? fun c => c.number.isSome) e = k := by
    rw [Tally.next, nothing, ite_self]
  rw [same]
  cases midway with
  | direct before plain known counted groups orders =>
    have held := adv.held isTask begun known
    exact .direct (stack.trans before) plain (label.trans known) ((adv.plain (held _ (by simp))).trans counted) groups orders
  | unit before low number plain idle known counted groups orders =>
    have held := adv.held isTask begun known
    exact .unit (stack.trans before) low number plain idle (label.trans known)
      ((adv.plain (held _ (by simp))).trans counted) groups orders

omit adv midway isTask begun in
theorem pop_direct {c : Construct} {outer rest : List Construct} (stack : c :: rest = outer ++ base)
    (long : base.length < (c :: rest).length) : ∃ outer', outer = c :: outer' ∧ rest = outer' ++ base := by
  cases outer with
  | nil =>
    rw [stack] at long
    exact absurd long (lt_irrefl _)
  | cons first outer' =>
    rw [List.cons_append, List.cons.injEq] at stack
    exact ⟨outer', by rw [stack.1], stack.2⟩

omit adv midway isTask begun in
theorem pop_unit {c unit : Construct} {inner lower rest : List Construct} (stack : c :: rest = inner ++ unit :: lower)
    (plain : c.number = none) (number : unit.number.isSome = true) :
    ∃ inner', inner = c :: inner' ∧ rest = inner' ++ unit :: lower := by
  cases inner with
  | nil =>
    rw [List.nil_append, List.cons.injEq] at stack
    rw [← stack.1, plain] at number
    cases number
  | cons first inner' =>
    rw [List.cons_append, List.cons.injEq] at stack
    exact ⟨inner', by rw [stack.1], stack.2⟩

theorem midway_last (last : e.AtLast t) (deep : base.length < (R.task t).constructs.length ∨
      base.length < ((R.after e).task t).constructs.length ∨ base.length = 0) :
    Midway (R.after e) d' t base front z (k.next R t (base.find? fun c => c.number.isSome) e) := by
  obtain ⟨init, r, n, old, new, counted⟩ := adv.last_counted last
  have stack := Runtime.constructs_after adv.enabled isTask
  have enabled := adv.enabled
  have apply := Tally.apply_count (k := k) (z := z) (R := R) last
  cases midway with
  | @direct outer y before plain known same groups orders =>
    rw [known, Option.some.injEq] at old
    obtain ⟨rfl, single⟩ := List.append_inj' old rfl
    cases single
    have level : ∀ outer', ((R.after e).task t).constructs = outer' ++ base → (∀ c ∈ outer', c.number = none) →
        (k.count R t e).groups = (k.count R t e).groupEnds + outer'.countP Construct.isTaskgroup →
        (k.count R t e).orders = (k.count R t e).orderEnds + outer'.count .ordered →
        Midway (R.after e) d' t base front z (k.next R t (base.find? fun c => c.number.isSome) e) := by
      intro outer' stack' plain' groups' orders'
      have body : ((R.after e).task t).body = base.find? fun c => c.number.isSome := by
        rw [Task.body, stack', find_none plain']
      rw [Tally.next, if_pos body]
      exact .direct stack' plain' new (by rw [counted, same, apply]) groups' orders'
    -- a construct that ends is one that has been entered since
    have pops : ∀ c rest, (R.task t).constructs = c :: rest → ((R.after e).task t).constructs = rest →
        ∃ outer', outer = c :: outer' ∧ ((R.after e).task t).constructs = outer' ++ base := by
      intro c rest top after
      rw [top, after] at deep
      obtain ⟨outer', split, lower⟩ := pop_direct (top.symm.trans before) (by simp only [List.length_cons] at deep ⊢; omega)
      exact ⟨outer', split, after.trans lower⟩
    cases e with
    | taskCreate p | taskwaitEnd p =>
      cases last
      refine level outer (stack.trans before) plain ?_ ?_ <;> simp only [Tally.count, if_true]
      · exact groups
      · exact orders
    | taskgroupBegin p =>
      cases last
      rw [Event.stack, if_pos rfl, before] at stack
      refine level (.taskgroup R.groups :: outer) stack (fun c inside => ?_) ?_ ?_
      · rcases List.mem_cons.mp inside with rfl | inside
        · rfl
        · exact plain c inside
      · simp only [Tally.count, if_true, List.countP_cons, Construct.isTaskgroup, groups]
        omega
      · simp only [Tally.count, if_true, orders]
        rw [List.count_cons_of_ne (by simp)]
    | orderedBegin p =>
      cases last
      rw [Event.stack, if_pos rfl, before] at stack
      refine level (.ordered :: outer) stack (fun c inside => ?_) ?_ ?_
      · rcases List.mem_cons.mp inside with rfl | inside
        · rfl
        · exact plain c inside
      · simp only [Tally.count, if_true, List.countP_cons, Construct.isTaskgroup, groups]
        rfl
      · simp only [Tally.count, if_true, List.count_cons_self, orders]
        omega
    | taskgroupEnd p =>
      cases last
      simp only [Runtime.enabled, Bool.and_eq_true] at enabled
      obtain ⟨-, inside⟩ := enabled
      split at inside
      · rename_i g rest top
        rw [Event.stack, if_pos rfl, top] at stack
        obtain ⟨outer', rfl, after⟩ := pops _ rest top stack
        refine level outer' after (fun c inside => plain c (List.mem_cons_of_mem _ inside)) ?_ ?_
        · simp only [Tally.count, if_true, List.countP_cons, Construct.isTaskgroup] at groups ⊢
          omega
        · rw [List.count_cons_of_ne (by simp)] at orders
          simpa only [Tally.count, if_true] using orders
      · cases inside
    | orderedEnd p =>
      cases last
      simp only [Runtime.enabled, Bool.and_eq_true, beq_iff_eq] at enabled
      obtain ⟨rest, top⟩ := List.head?_eq_some_iff.mp enabled.2
      rw [Event.stack, if_pos rfl, top] at stack
      obtain ⟨outer', rfl, after⟩ := pops _ rest top stack
      refine level outer' after (fun c inside => plain c (List.mem_cons_of_mem _ inside)) ?_ ?_
      · simpa only [Tally.count, if_true, List.countP_cons, Construct.isTaskgroup, Bool.false_eq_true, if_false,
          Nat.add_zero] using groups
      · simp only [Tally.count, if_true, List.count_cons_self] at orders ⊢
        omega
    | _ => cases last
  | @unit inner c outer y u before low number plain idle known same groups orders =>
    rw [known, Option.some.injEq, List.append_cons front y [u]] at old
    obtain ⟨rfl, single⟩ := List.append_inj' old rfl
    cases single
    have there := adv.held isTask begun known y (by simp)
    have level : ∀ inner', ((R.after e).task t).constructs = inner' ++ c :: (outer ++ base) →
        (∀ c ∈ inner', c.number = none) →
        Midway (R.after e) d' t base front z (k.next R t (base.find? fun c => c.number.isSome) e) := by
      intro inner' stack' low'
      have body : ((R.after e).task t).body ≠ base.find? fun c => c.number.isSome := by
        rw [Task.body, stack', find_none low', find_unit number, find_idle idle]
        exact Option.some_ne_none _
      rw [Tally.next, if_neg body]
      exact .unit stack' low' number plain idle (by rw [new, List.append_assoc]; rfl) ((adv.plain there).trans same)
        groups orders
    have pushes : ∀ new : Construct, new.number = none → ∀ c ∈ new :: inner, c.number = none := by
      intro new none c inside
      rcases List.mem_cons.mp inside with rfl | inside
      · exact none
      · exact low c inside
    have pops : ∀ new rest, new.number = none → (R.task t).constructs = new :: rest →
        ((R.after e).task t).constructs = rest → ∃ inner', inner = new :: inner' ∧
          ((R.after e).task t).constructs = inner' ++ c :: (outer ++ base) := by
      intro new rest none top after
      obtain ⟨inner', split, lower⟩ := pop_unit (top.symm.trans before) none number
      exact ⟨inner', split, after.trans lower⟩
    cases e with
    | taskCreate p | taskwaitEnd p =>
      cases last
      exact level inner (stack.trans before) low
    | taskgroupBegin p | orderedBegin p =>
      cases last
      rw [Event.stack, if_pos rfl, before] at stack
      exact level (_ :: inner) stack (pushes _ rfl)
    | taskgroupEnd p =>
      cases last
      simp only [Runtime.enabled, Bool.and_eq_true] at enabled
      obtain ⟨-, inside⟩ := enabled
      split at inside
      · rename_i g rest top
        rw [Event.stack, if_pos rfl, top] at stack
        obtain ⟨inner', rfl, after⟩ := pops _ rest rfl top stack
        exact level inner' after fun c inside => low c (List.mem_cons_of_mem _ inside)
      · cases inside
    | orderedEnd p =>
      cases last
      simp only [Runtime.enabled, Bool.and_eq_true, beq_iff_eq] at enabled
      obtain ⟨rest, top⟩ := List.head?_eq_some_iff.mp enabled.2
      rw [Event.stack, if_pos rfl, top] at stack
      obtain ⟨inner', rfl, after⟩ := pops _ rest rfl top stack
      exact level inner' after fun c inside => low c (List.mem_cons_of_mem _ inside)
    | _ => cases last

theorem midway_workBegin {work : Work} {executor : Bool} (begins : e = .workBegin t work executor) :
    Midway (R.after e) d' t base front z (k.next R t (base.find? fun c => c.number.isSome) e) := by
  have stack := Runtime.constructs_after adv.enabled isTask
  have enabled := adv.enabled
  have handled := adv.handled
  subst begins
  simp only [Runtime.enabled, Bool.and_eq_true] at enabled
  have idle := enabled.1.2
  rw [Event.stack, if_pos rfl] at stack
  have number : (Construct.ofWork work (R.task t).works executor).number.isSome = true := by cases work <;> rfl
  obtain ⟨upper, relabels, heap⟩ := Detector.handle_workBegin handled
  have none : ∀ c ∈ (R.task t).constructs, c.number = none :=
    fun c inside => Construct.number_none (List.all_eq_true.mp idle c inside)
  cases midway with
  | @direct outer y before plain known same groups orders =>
    rw [before] at stack none
    have idle : ∀ c ∈ base, c.number = Option.none := fun c inside => none c (List.mem_append_right _ inside)
    have body : ((R.after (.workBegin t work executor)).task t).body ≠ base.find? fun c => c.number.isSome := by
      rw [Task.body, stack, find_unit number, find_idle idle]
      exact Option.some_ne_none _
    have there := adv.held isTask begun known y (by simp)
    have old := relabels.old
    rw [known, Option.some.injEq] at old
    subst old
    have label : d'.label t = some (front ++ [y, d.heap.next]) := by
      rw [relabels.new, List.append_assoc]
      rfl
    rw [Tally.next, if_neg body]
    exact .unit (show _ = [] ++ _ from stack) (List.forall_mem_nil _) number plain idle label ((adv.plain there).trans same) groups
      orders
  | unit before low number' =>
    rw [before] at none
    rw [none _ (by simp)] at number'
    cases number'

theorem midway_workEnd (ends : e = .workEnd t) (deep : base.length < (R.task t).constructs.length ∨
      base.length < ((R.after e).task t).constructs.length ∨ base.length = 0) :
    Midway (R.after e) d' t base front z (k.next R t (base.find? fun c => c.number.isSome) e) := by
  have stack := Runtime.constructs_after adv.enabled isTask
  have enabled := adv.enabled
  have handled := adv.handled
  subst ends
  simp only [Runtime.enabled, Bool.and_eq_true, decide_eq_true_eq] at enabled
  obtain ⟨-, inside⟩ := enabled
  have common : ∀ {c rest}, (R.task t).constructs = c :: rest → c.number.isSome = true → ∃ outer y u,
      ((R.after (.workEnd t)).task t).constructs = outer ++ base ∧ (∀ c ∈ outer, c.number = none) ∧
      d.label t = some (front ++ [y, u]) ∧ d.plain y = k.apply z ∧
      k.groups = k.groupEnds + outer.countP Construct.isTaskgroup ∧ k.orders = k.orderEnds + outer.count .ordered := by
    intro c rest top number
    rw [Event.stack, if_pos rfl, top, List.tail_cons] at stack
    rw [top, stack] at deep
    cases midway with
    | @direct outer y before plain =>
      obtain ⟨outer', rfl, -⟩ := pop_direct (top.symm.trans before) (by simp only [List.length_cons] at deep ⊢; omega)
      rw [plain c List.mem_cons_self] at number
      cases number
    | @unit inner c' outer y u before low number' plain idle known same groups orders =>
      rw [top] at before
      cases inner with
      | nil =>
        rw [List.nil_append, List.cons.injEq] at before
        exact ⟨outer, y, u, stack.trans before.2, plain, known, same, groups, orders⟩
      | cons first inner =>
        rw [List.cons_append, List.cons.injEq] at before
        rw [before.1, low first List.mem_cons_self] at number
        cases number
  have body : ∀ {outer : List Construct}, ((R.after (.workEnd t)).task t).constructs = outer ++ base →
      (∀ c ∈ outer, c.number = none) → ((R.after (.workEnd t)).task t).body = base.find? fun c => c.number.isSome := by
    intro outer stack plain
    rw [Task.body, stack, find_none plain]
  have shared : ∀ {c rest}, (R.task t).constructs = c :: rest → c.number.isSome = true →
      k.count R t (.workEnd t) = { k with loops := k.loops + 1 } →
      ((∃ number turn last rest, (R.task t).constructs = .loop number turn last :: rest) ∨
        ∃ number unit rest, (R.task t).constructs = .sections number unit :: rest) →
      Midway (R.after (.workEnd t)) d' t base front z
        (k.next R t (base.find? fun c => c.number.isSome) (.workEnd t)) := by
    intro c rest top number counts shares
    obtain ⟨outer, y, u, after, plain, known, same, groups, orders⟩ := common top number
    obtain ⟨init, r, unit, s, relabels, counted, heap⟩ := Detector.handle_workEnd_shared shares handled
    have old := relabels.old
    rw [known, Option.some.injEq] at old
    obtain ⟨rfl, rest_⟩ := List.append_inj' old rfl
    cases rest_
    rw [Tally.next, if_pos (body after plain), counts]
    refine .direct after plain relabels.new ?_ groups orders
    have loops : (d.heap.objects y).plain.loopCount = (k.apply z).loopCount := congrArg Contents.loopCount same
    rw [Detector.plain, heap, Heap.alloc_read, plain_setLoopCount counted]
    change { d.plain y with loopCount := (d.heap.objects y).plain.loopCount + 1 } = _
    rw [loops, same]
    rfl
  split at inside
  · rename_i number executor rest top
    obtain ⟨outer, y, u, after, plain, known, same, groups, orders⟩ := common top rfl
    obtain ⟨init, unit, relabels, heap⟩ := Detector.handle_workEnd_single top handled
    have old := relabels.old
    rw [known, Option.some.injEq, List.append_cons front y [u]] at old
    obtain ⟨rfl, -⟩ := List.append_inj' old rfl
    have there := adv.held isTask begun known y (by simp)
    rw [Tally.next, if_pos (body after plain), show k.count R t (.workEnd t) = k by simp only [Tally.count, if_true, top]]
    exact .direct after plain relabels.new ((adv.plain there).trans same) groups orders
  · rename_i number turn last rest top
    exact shared top rfl (by simp only [Tally.count, if_true, top]) (.inl ⟨number, turn, last, rest, top⟩)
  · rename_i number unit rest top
    exact shared top rfl (by simp only [Tally.count, if_true, top]) (.inr ⟨number, unit, rest, top⟩)
  · cases inside

theorem midway_dispatch {id : BitVec 64} (dispatches : e = .dispatch t id)
    (deep : base.length < (R.task t).constructs.length ∨ base.length < ((R.after e).task t).constructs.length ∨
      base.length = 0) :
    Midway (R.after e) d' t base front z (k.next R t (base.find? fun c => c.number.isSome) e) := by
  have stack := Runtime.constructs_after adv.enabled isTask
  have enabled := adv.enabled
  have handled := adv.handled
  subst dispatches
  simp only [Runtime.enabled, Bool.and_eq_true] at enabled
  obtain ⟨init, unit, isSection, relabels, -⟩ := Detector.handle_dispatch handled
  have moves : ∀ {c c' rest}, (R.task t).constructs = c :: rest → c.number.isSome = true → c'.number.isSome = true →
      ((R.after (.dispatch t id)).task t).constructs = c' :: rest →
      Midway (R.after (.dispatch t id)) d' t base front z
        (k.next R t (base.find? fun c => c.number.isSome) (.dispatch t id)) := by
    intro c c' rest top number number' after
    rw [top, after] at deep
    cases midway with
    | @direct outer y before plain =>
      obtain ⟨outer', rfl, -⟩ := pop_direct (top.symm.trans before) (by simp only [List.length_cons] at deep ⊢; omega)
      rw [plain c List.mem_cons_self] at number
      cases number
    | @unit inner c₀ outer y u before low number₀ plain idle known same groups orders =>
      rw [top] at before
      cases inner with
      | cons first inner =>
        rw [List.cons_append, List.cons.injEq] at before
        rw [before.1, low first List.mem_cons_self] at number
        cases number
      | nil =>
        rw [List.nil_append, List.cons.injEq] at before
        rw [before.2] at after
        have body : ((R.after (.dispatch t id)).task t).body ≠ base.find? fun c => c.number.isSome := by
          rw [Task.body, after, find_unit number', find_idle idle]
          exact Option.some_ne_none _
        have there := adv.held isTask begun known y (by simp)
        have old := relabels.old
        rw [known, Option.some.injEq, List.append_cons front y [u]] at old
        obtain ⟨rfl, -⟩ := List.append_inj' old rfl
        have label : d'.label t = some (front ++ [y, d.heap.next]) := by
          rw [relabels.new, List.append_assoc]
          rfl
        rw [Tally.next, if_neg body]
        exact .unit (show _ = [] ++ _ from after) (List.forall_mem_nil _) number' plain idle label ((adv.plain there).trans same)
          groups orders
  have inside := enabled.2
  split at inside
  · rename_i r number turn last rest region top
    simp only [Event.stack, if_true, top] at stack
    exact moves top rfl rfl stack
  · rename_i r number unit rest region top
    simp only [Event.stack, if_true, top] at stack
    exact moves top rfl rfl stack
  · cases inside

theorem midway_join (origins : Origins R d owner fork below) {r : Nat} (isRegion : r < R.regions)
    (ends : e = .implicitEnd (R.memberOf r 0)) (forker : (R.region r).encountering = t) :
    Midway (R.after e) d' t base front z (k.next R t (base.find? fun c => c.number.isSome) e) := by
  obtain ⟨upper, own, live, closing, settled, known', new, -⟩ := adv.joining isRegion ends
  obtain ⟨init, x, y', old, rfl, same, same', -⟩ := adv.join_shape origins isRegion live closing known'
  have first := (adv.nested.bounds r isRegion).1
  have isMember := adv.nested.member_lt isRegion first
  have counters := adv.nested.counters r isRegion 0 first
  have passed := counters.passed
  have arrived := counters.arrived
  have stack := Runtime.constructs_after adv.enabled isTask
  have there' := adv.held isMember (adv.begun_closing isRegion first closing) known' y' (by simp)
  have counts : k.count R t e = { k with barriers := k.barriers + (R.task (R.memberOf r 0)).passed } := by
    subst ends
    simp only [Tally.count, (adv.nested.kind r isRegion 0 first).1, forker, if_true,
      show (R.region r).released = (R.task (R.memberOf r 0)).passed by omega]
  have unmoved : e.stack R t (R.task t).constructs = (R.task t).constructs := by rw [ends]; rfl
  rw [unmoved] at stack
  rw [forker] at old new
  cases midway with
  | @direct outer y before plain known counted groups orders =>
    rw [known, Option.some.injEq] at old
    obtain ⟨rfl, single⟩ := List.append_inj' old rfl
    cases single
    have body : ((R.after e).task t).body = base.find? fun c => c.number.isSome := by
      rw [Task.body, stack, before, find_none plain]
    rw [Tally.next, if_pos body, counts]
    refine .direct (stack.trans before) plain new ?_ groups orders
    rw [adv.plain there', same', ← same, counted, Tally.apply_bump]
  | @unit inner c outer y u before low number plain idle known counted groups orders =>
    rw [known, Option.some.injEq, List.append_cons front y [u]] at old
    obtain ⟨rfl, single⟩ := List.append_inj' old rfl
    have body : ((R.after e).task t).body ≠ base.find? fun c => c.number.isSome := by
      rw [Task.body, stack, before, find_none low, find_unit number, find_idle idle]
      exact Option.some_ne_none _
    have there := adv.held isTask begun known y (by simp)
    have label : d'.label t = some (front ++ [y, y']) := by
      rw [new, List.append_assoc]
      rfl
    rw [Tally.next, if_neg body]
    exact .unit (stack.trans before) low number plain idle label ((adv.plain there).trans counted) groups orders

theorem midway_region (label : d'.label t = d.label t) (nothing : k.count R t e = k)
    (moves : ((R.after e).task t).constructs = .parallel R.regions :: (R.task t).constructs ∨
      ∃ r rest, (R.task t).constructs = .parallel r :: rest ∧ ((R.after e).task t).constructs = rest)
    (deep : base.length < (R.task t).constructs.length ∨ base.length < ((R.after e).task t).constructs.length ∨
      base.length = 0) :
    Midway (R.after e) d' t base front z (k.next R t (base.find? fun c => c.number.isSome) e) := by
  have same : k.next R t (base.find? fun c => c.number.isSome) e = k := by
    rw [Tally.next, nothing, ite_self]
  rw [same]
  cases midway with
  | @direct outer y before plain known counted groups orders =>
    have counted' := (adv.plain (adv.held isTask begun known y (by simp))).trans counted
    rcases moves with push | ⟨r, rest, top, pop⟩
    · have after : ((R.after e).task t).constructs = (.parallel R.regions :: outer) ++ base := by
        rw [push, before]
        rfl
      refine .direct after (fun c inside => ?_) (label.trans known) counted' groups ?_
      · rcases List.mem_cons.mp inside with rfl | inside
        · rfl
        · exact plain c inside
      · rw [List.count_cons_of_ne (by simp)]
        exact orders
    · rw [top, pop] at deep
      obtain ⟨outer', rfl, lower⟩ := pop_direct (top.symm.trans before) (by simp only [List.length_cons] at deep ⊢; omega)
      rw [List.count_cons_of_ne (by simp)] at orders
      exact .direct (pop.trans lower) (fun c inside => plain c (List.mem_cons_of_mem _ inside)) (label.trans known)
        counted' groups orders
  | @unit inner c outer y u before low number plain idle known counted groups orders =>
    have counted' := (adv.plain (adv.held isTask begun known y (by simp))).trans counted
    rcases moves with push | ⟨r, rest, top, pop⟩
    · have after : ((R.after e).task t).constructs = (.parallel R.regions :: inner) ++ c :: (outer ++ base) := by
        rw [push, before]
        rfl
      refine .unit after (fun c inside => ?_) number plain idle (label.trans known) counted' groups orders
      rcases List.mem_cons.mp inside with rfl | inside
      · rfl
      · exact low c inside
    · obtain ⟨inner', rfl, lower⟩ := pop_unit (top.symm.trans before) rfl number
      exact .unit (pop.trans lower) (fun c inside => low c (List.mem_cons_of_mem _ inside)) number plain idle
        (label.trans known) counted' groups orders

/-- What a step does to a task that has entered constructs. -/
theorem midway_step (origins : Origins R d owner fork below) (noBarrier : e ≠ .barrierEnd t)
    (deep : base.length < (R.task t).constructs.length ∨ base.length < ((R.after e).task t).constructs.length ∨
      base.length = 0 ∧ ((R.after e).task t).ended = false) :
    Midway (R.after e) d' t base front z (k.next R t (base.find? fun c => c.number.isSome) e) := by
  have stack := Runtime.constructs_after adv.enabled isTask
  have enabled := adv.enabled
  have handled := adv.handled
  have frame : e.actor ≠ some t → (∀ m, e ≠ .implicitEnd m) → (∀ r, e = .parallelEnd r → (R.region r).encountering ≠ t) →
      Midway (R.after e) d' t base front z (k.next R t (base.find? fun c => c.number.isSome) e) := by
    intro other noEnd notWaited
    refine adv.midway_frame midway isTask begun (adv.label_others isTask begun other fun r _ self => absurd self (noEnd _))
      (stack.trans ?_) ?_
    · cases e with
      | parallelEnd r => rw [Event.stack, if_neg (notWaited r rfl)]
      | parallelBegin p | taskgroupBegin p | workBegin p | orderedBegin p | taskgroupEnd p | workEnd p | orderedEnd p =>
        rw [Event.stack, if_neg fun self => other (by rw [← self]; rfl)]
      | dispatch p id =>
        have apart : p ≠ t := fun self => other (by rw [← self]; rfl)
        simp only [Event.stack, if_neg apart]
      | _ => rfl
    · cases e with
      | taskCreate p | taskwaitEnd p | taskgroupBegin p | taskgroupEnd p | orderedBegin p | orderedEnd p | workEnd p =>
        rw [Tally.count, if_neg fun self => other (by rw [← self]; rfl)]
      | implicitEnd m => exact absurd rfl (noEnd m)
      | _ => rfl
  have quiet : (∀ d'', d.handle R e = .ok d'' → d''.label t = d.label t) → e.stack R t (R.task t).constructs =
      (R.task t).constructs → k.count R t e = k →
      Midway (R.after e) d' t base front z (k.next R t (base.find? fun c => c.number.isSome) e) :=
    fun label same nothing => adv.midway_frame midway isTask begun (label d' handled) (stack.trans same) nothing
  have busy : (R.task t).constructs = [] → e.stack R t (R.task t).constructs = (R.task t).constructs →
      ((R.after e).task t).ended = true → False := by
    intro empty same ends
    rw [stack, same, empty, ends] at deep
    simp at deep
  have deep' := deep.imp_right (Or.imp_right And.left)
  by_cases ours : e.actor = some t
  · cases e with
    | release | parallelEnd => cases ours
    | parallelBegin p size =>
      cases ours
      cases handled
      rw [Event.stack, if_pos rfl] at stack
      exact adv.midway_region midway isTask begun rfl rfl (.inl stack) deep'
    | implicitBegin p =>
      cases ours
      simp only [Runtime.enabled, Bool.and_eq_true, Bool.not_eq_true'] at enabled
      cases begun.symm.trans enabled.2
    | barrierBegin p | access p => exact quiet (fun d'' same => (by cases same; rfl)) rfl rfl
    | dependences p deps =>
      exact quiet (fun d'' same => (by cases same; exact (Detector.dependences_quiet d _ p deps).labels t)) rfl rfl
    | barrierEnd p =>
      cases ours
      exact absurd rfl noBarrier
    | implicitEnd p =>
      cases ours
      simp only [Runtime.enabled, Bool.and_eq_true, decide_eq_true_eq] at enabled
      obtain ⟨⟨⟨⟨-, closing⟩, -⟩, -⟩, member⟩ := enabled
      cases kind : (R.task t).kind with
      | initial | explicit =>
        rw [kind] at member
        cases member
      | implicit r i =>
        obtain ⟨isRegion, isMember, rfl⟩ := adv.nested.member t isTask r i kind
        exact (busy ((adv.nested.counters r isRegion i isMember).closing closing).2 rfl (by simp [Runtime.after])).elim
    | taskComplete p =>
      cases ours
      simp only [Runtime.enabled, Bool.and_eq_true, List.isEmpty_iff] at enabled
      exact (busy enabled.2 rfl (by simp [Runtime.after])).elim
    | taskCreate p | taskwaitEnd p | taskgroupBegin p | taskgroupEnd p | orderedBegin p | orderedEnd p =>
      cases ours
      exact adv.midway_last midway isTask begun rfl deep'
    | workBegin p work executor =>
      cases ours
      exact adv.midway_workBegin midway isTask begun rfl
    | workEnd p =>
      cases ours
      exact adv.midway_workEnd midway isTask begun rfl deep'
    | dispatch p id =>
      cases ours
      exact adv.midway_dispatch midway isTask begun rfl deep'
  · cases e with
    | parallelEnd r =>
      by_cases forker : (R.region r).encountering = t
      · simp only [Runtime.enabled, Bool.and_eq_true, beq_iff_eq] at enabled
        obtain ⟨rest, top⟩ := List.head?_eq_some_iff.mp enabled.2
        rw [forker] at top
        rw [Event.stack, if_pos forker, top] at stack
        cases handled
        exact adv.midway_region midway isTask begun rfl rfl (.inr ⟨r, rest, top, stack⟩) deep'
      · exact frame ours (by simp) fun r' same => by cases same; exact forker
    | implicitEnd m =>
      by_cases joins : ∃ r < R.regions, m = R.memberOf r 0 ∧ (R.region r).encountering = t
      · obtain ⟨r, isRegion, rfl, forker⟩ := joins
        exact adv.midway_join midway isTask begun origins isRegion rfl forker
      · refine adv.midway_frame midway isTask begun (adv.label_others isTask begun ours fun r isRegion same forker =>
          joins ⟨r, isRegion, Event.implicitEnd.inj same, forker⟩) stack ?_
        simp only [Runtime.enabled, Bool.and_eq_true, decide_eq_true_eq] at enabled
        have isMember := enabled.1.1.1.1
        simp only [Tally.count]
        split
        · rename_i r kind
          obtain ⟨isRegion, -, self⟩ := adv.nested.member m isMember r 0 kind
          rw [if_neg fun forker => joins ⟨r, isRegion, self, forker⟩]
        · rfl
    | _ => exact frame ours (by simp) (by simp)

end Step

end Advance

end Romp
