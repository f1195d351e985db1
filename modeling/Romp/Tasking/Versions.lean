import Romp.Tasking.Turns

namespace Romp

def Runtime.seed (R : Runtime) (strand : Strand) (offset : Nat) : Contents :=
  match strand.body with
  | some c => (Detector.workSegment .single !c.isIdle).plain
  | none =>
    match (R.task strand.task).kind with
    | .initial => .base 1 offset 1
    | .implicit _ i => .base 1 i (R.region 0).size
    | .explicit => .base 2 0 1

def Contents.counted (z : Contents) (taskcreate taskwait : Nat) : Contents := { z with taskcreate, taskwait }

theorem Segment.plain_base {type : SegmentType} {offset span : Nat} {s : Segment} (small : offset < 2 ^ 16)
    (made : Segment.base type offset span = .ok s) : s.plain = .base type.code.toNat offset span := by
  have fits : span < 2 ^ 16 := by
    unfold Segment.base at made
    split at made
    · assumption
    · cases made
  obtain ⟨s', same, contents⟩ := Segment.base_contents type offset fits
  rw [made] at same
  cases same
  rw [Segment.plain, contents, Nat.mod_eq_of_lt small]
  rfl

/-- The segments of a program of `TaskStep`s: those of one strand are versions of each other that count more and
    more, and a task has the last of them in its label. A segment has the mark of a taskwait if a task that was
    created in it has been waited for. -/
structure Versions (R : Runtime) (d : Detector) (owner : Nat → Strand) : Prop where
  seeds : ∀ r < d.heap.next, ∃ o tc tw, d.plain r = (R.seed (owner r) o).counted tc tw
  root : ∀ r < d.heap.next, (owner r).task = 0 → (owner r).body = none ∧ (d.plain r).taskcreate = 0 ∧ (d.plain r).taskwait = 0
  ordered : ∀ r r', r < r' → r' < d.heap.next → owner r = owner r' → (owner r).task ≠ 0 →
    (d.plain r).taskcreate ≤ (d.plain r').taskcreate ∧ (d.plain r).taskwait ≤ (d.plain r').taskwait ∧
      (d.plain r).taskcreate + (d.plain r).taskwait < (d.plain r').taskcreate + (d.plain r').taskwait
  latest : ∀ t < R.tasks, t ≠ 0 → (R.task t).begun = true → (R.task t).ended = false → ∀ label, d.label t = some label →
    ∀ z ∈ label, (owner z).task = t → ∀ r < d.heap.next, owner r = owner z → r ≤ z
  unsynced : ∀ r < d.heap.next, (d.heap.objects r).contents.taskGroupSync = false
  marks : ∀ r < d.heap.next, (d.heap.objects r).contents.taskwaited = true ↔
    ∃ c < R.tasks, (R.task c).kind = .explicit ∧ (R.birth d c).getLast? = some r ∧ (R.task c).waited ≠ none
  listed : ∀ c < R.tasks, (R.task c).kind = .explicit → (R.task c).waited = none →
    c ∈ d.children (R.task c).parent

theorem Lined.birth_last {R : Runtime} {d : Detector} {owner : Nat → Strand} (lined : Lined R d owner) (nested : R.Nested)
    (lineage : R.Lineage) {c : Nat} (isTask : c < R.tasks) (kind : (R.task c).kind = .explicit) :
    ∃ init z, R.birth d c = init ++ [z] ∧ d.heap.Holds (init ++ [z]) ∧ (R.task c).line = init.map owner ++ [owner z] ∧
      (owner z).task = (R.task c).parent := by
  have begun := (nested.explicit c isTask kind).2.1
  obtain ⟨label, known, holds, mapped⟩ := lined.label c isTask begun
  obtain ⟨rest, place⟩ := R.place_line c
  have birth : (R.birth d c).map owner = (R.task c).line := by
    rw [Runtime.birth, known, Option.getD_some, List.map_take, mapped, place]
    exact List.take_left' rfl
  have inside : ∀ r ∈ R.birth d c, r < d.heap.next := by
    intro r member
    rw [Runtime.birth, known] at member
    exact holds r (List.mem_of_mem_take member)
  obtain ⟨upper, strand, line, parent⟩ := lineage.line_last isTask (Advance.explicit_ne_zero nested kind)
  rcases List.eq_nil_or_concat' (R.birth d c) with empty | ⟨init, z, last⟩
  · rw [empty, line] at birth
    cases List.append_ne_nil_of_right_ne_nil upper (List.cons_ne_nil strand []) birth.symm
  · rw [last] at birth inside
    rw [List.map_append, List.map_singleton] at birth
    refine ⟨init, z, last, inside, birth.symm, ?_⟩
    rw [line] at birth
    rw [List.singleton_inj.mp (List.append_inj' birth rfl).2, parent]

theorem Versions.unmarked_root {R : Runtime} {d : Detector} {owner : Nat → Strand} (versions : Versions R d owner)
    (lined : Lined R d owner) (nested : R.Nested) (lineage : R.Lineage) (flat : R.Flat) {x : Nat}
    (there : x < d.heap.next)
    (root : (owner x).task = 0) : (d.heap.objects x).contents.taskwaited = false := by
  rw [← Bool.not_eq_true, versions.marks x there]
  rintro ⟨c, isChild, kind, last, -⟩
  obtain ⟨upper, y, birth, -, -, parent⟩ := lined.birth_last nested lineage isChild kind
  rw [birth, List.getLast?_concat, Option.some.injEq] at last
  subst last
  exact (flat.explicit c isChild kind).2.2.1 (parent.symm.trans root)

theorem Lined.ended_label {R : Runtime} {d : Detector} {owner : Nat → Strand} (lined : Lined R d owner)
    (nested : R.Nested)
    {c : Nat} (isTask : c < R.tasks) (kind : (R.task c).kind = .explicit) (ended : (R.task c).ended = true) :
    d.label c = some (R.birth d c) := by
  obtain ⟨label, known, -, mapped⟩ := lined.label c isTask (nested.explicit c isTask kind).2.1
  rw [Runtime.place, if_pos ⟨kind, ended⟩] at mapped
  rw [Runtime.birth, known, Option.getD_some, ← mapped, List.length_map, List.take_length]

theorem Runtime.waited_children {R : Runtime} (nested : R.Nested) {t c : Nat} (child : c ∈ R.children t) :
    ((R.after (.taskwaitEnd t)).task c).waited = some ((R.task c).waited.getD R.tasks) := by
  obtain ⟨isTask, kind, parent⟩ := (R.mem_children t).mp child
  have earlier := (nested.explicit c isTask kind).1
  have other : c ≠ t := by omega
  simp only [Runtime.after, Runtime.waitTask, if_neg other, if_pos child]

inductive Growth (R : Runtime) (d d' : Detector) (owner owner' : Nat → Strand) (e : Event) (r : Nat) : Prop
  | first (only : r = d.heap.next) (notRoot : (owner' r).task ≠ 0) (new : ∀ z < d.heap.next, owner z ≠ owner' r)
      (plain : d'.plain r = (R.after e).seed (owner' r) 0) (bare : (d'.heap.objects r).Bare) :
      Growth R d d' owner owner' e r
  | bump {x} (there : x < d.heap.next) (root : owner x = ⟨0, none⟩) (own : owner' r = ⟨0, none⟩)
      (plain : d'.plain r = (d.plain x).bump 1) (same : (d.heap.objects x).SameMarks (d'.heap.objects r))
      (last : r + 1 = d'.heap.next) : Growth R d d' owner owner' e r
  | version {t init z a b} (notRoot : t ≠ 0) (running : R.running t = true) (known : d.label t = some (init ++ [z]))
      (now : d'.label t = some (init ++ [r])) (own : owner' r = owner z)
      (acts : a = 1 ∧ b = 0 ∧ e = .taskCreate t ∨ a = 0 ∧ b = 1 ∧ e = .taskwaitEnd t)
      (plain : d'.plain r = (d.plain z).counted ((d.plain z).taskcreate + a) ((d.plain z).taskwait + b))
      (same : (d.heap.objects z).SameMarks (d'.heap.objects r)) (last : r + 1 = d'.heap.next) :
      Growth R d d' owner owner' e r

namespace Advance

variable {s : System} {d' : Detector} {owner owner' : Nat → Strand} {e : Event}
  (adv : Advance s.runtime s.detector d' owner owner' e) (flat : s.runtime.Flat) {fork : Nat → Contents}
  {below : Strand → Contents} (origins : Origins s.runtime s.detector owner fork below)
  (kids : Kids s.runtime s.detector) (permitted : TaskStep s e)

include adv flat origins kids permitted

theorem growth {r : Nat} (bound : r < d'.heap.next) (new : ¬r < s.detector.heap.next) :
    Growth s.runtime s.detector d' owner owner' e r := by
  have past : ∀ {strand : Strand}, ((strand.task < s.runtime.tasks → (s.runtime.task strand.task).begun = false)) →
      ∀ z < s.detector.heap.next, owner z ≠ strand := by
    rintro strand unbegun z there rfl
    obtain ⟨isTask, begun, -⟩ := origins.past z there
    cases begun.symm.trans (unbegun isTask)
  cases adv.taskTurn flat permitted with
  | still heap | complete _ _ _ heap | leave _ _ _ _ heap | join _ _ _ heap =>
    rw [heap] at bound
    exact absurd bound new
  | @enter i x y isMember unbegun old made heap now others children own =>
    obtain rfl : r = s.detector.heap.next := by
      rw [heap] at bound
      change r < s.detector.heap.next + 1 at bound
      omega
    have isRegion : 0 < s.runtime.regions := by
      have enabled := adv.enabled
      simp only [Runtime.enabled, Bool.and_eq_true, decide_eq_true_eq] at enabled
      obtain ⟨_, isRegion, -⟩ := adv.nested.unbegun enabled.1 unbegun
      omega
    have kind := (adv.nested.kind 0 isRegion i isMember).1
    have small : (s.runtime.region 0).size < 2 ^ 16 := by
      unfold Segment.base at made
      split at made
      · assumption
      · cases made
    refine .first rfl ?_ (past ?_) ?_ ?_
    · rw [own]
      exact adv.nested.member_ne_zero isRegion i
    · rw [own]
      exact fun _ => unbegun
    rotate_left
    · rw [heap, Heap.alloc_read]
      exact Segment.bare_base made
    · have after : ((s.runtime.after (.implicitBegin (s.runtime.memberOf 0 i))).task (s.runtime.memberOf 0 i)).kind =
          .implicit 0 i :=
        ((Runtime.after_extends s.runtime _).fixed _ (adv.nested.member_lt isRegion isMember)).kind.trans kind
      rw [own, Detector.plain, heap, Heap.alloc_read, Segment.plain_base (isMember.trans small) made, Runtime.seed]
      simp only [after]
      rfl
  | @barrier i x own isMember begun live relabels root kept heap =>
    obtain rfl : r = s.detector.heap.next := by
      rw [heap] at bound
      change r < s.detector.heap.next + 1 at bound
      omega
    have isTask : s.runtime.memberOf 0 i < s.runtime.tasks := by
      have enabled := adv.enabled
      simp only [Runtime.enabled, Bool.and_eq_true, decide_eq_true_eq] at enabled
      exact enabled.1
    refine .bump (adv.held isTask begun relabels.old x (by simp)) root kept ?_ ?_ (by rw [heap]; rfl)
    rotate_left
    · rw [heap, Heap.alloc_read]
      exact Segment.marks_setOffsetSpan _ _
    rw [Detector.plain, heap, Heap.alloc_read, plain_bump, Contents.bump, Nat.one_mul]
    rfl
  | @create t init z x y running old base counted heap made now others children own kept =>
    have there : z < s.detector.heap.next := by
      obtain ⟨isTask, runs⟩ := Runtime.running_lt running
      exact adv.held isTask (Task.running_iff.mp runs).1 old z (by simp)
    have cases : r = s.detector.heap.next ∨ r = s.detector.heap.next + 1 := by
      rw [heap] at bound
      change r < s.detector.heap.next + 2 at bound
      omega
    rcases cases with rfl | rfl
    · have kind : ((s.runtime.after (.taskCreate t)).task s.runtime.tasks).kind = .explicit := by
        simp [Runtime.after, Task.new]
      have made : d'.heap.objects s.detector.heap.next = x := by
        rw [heap, ((s.detector.heap.alloc x).1.alloc_extends y).2 _ (Nat.lt_succ_self _), Heap.alloc_read]
      refine .first rfl ?_ (past ?_) ?_ ?_
      · rw [own]
        exact Nat.ne_of_gt adv.nested.positive
      · rw [own]
        exact fun impossible => absurd impossible (lt_irrefl _)
      rotate_left
      · rw [made]
        exact Segment.bare_base base
      · rw [own, Detector.plain, made, Segment.plain_base (by decide) base, Runtime.seed]
        simp only [kind]
        rfl
    · have made : d'.heap.objects (s.detector.heap.next + 1) = y := by
        rw [heap]
        exact Heap.alloc_read (s.detector.heap.alloc x).1 y
      refine .version permitted running old now kept (.inl ⟨rfl, rfl, rfl⟩) ?_ ?_ (by rw [heap]; rfl)
      · rw [Detector.plain, made, plain_setTaskcreate counted]
        rfl
      · rw [made]
        exact Segment.marks_setTaskcreate counted
  | @wait t init z x refs running ended moves counted heap lasts children kept =>
    obtain rfl : r = s.detector.heap.next := by
      rw [heap] at bound
      change r < s.detector.heap.next + 1 at bound
      omega
    have made : d'.heap.objects s.detector.heap.next = x := by
      rw [heap, Heap.mark_objects, if_neg, Heap.alloc_read]
      intro marked
      obtain ⟨c, child, above, known⟩ := (lasts _).mp marked
      obtain ⟨isChild, kind, -⟩ := kids t c child
      exact lt_irrefl _ (adv.held isChild (adv.nested.explicit c isChild kind).2.1 known s.detector.heap.next (by simp))
    refine .version permitted running moves.old moves.new kept (.inr ⟨rfl, rfl, rfl⟩) ?_ ?_ (by rw [heap]; rfl)
    · rw [Detector.plain, made, plain_setTaskwait counted]
      rfl
    · rw [made]
      exact Segment.marks_setTaskwait counted
  | @single t executor old running relabels heap own =>
    obtain rfl : r = s.detector.heap.next := by
      rw [heap] at bound
      change r < s.detector.heap.next + 1 at bound
      omega
    refine .first rfl ?_ ?_ ?_ ?_
    rotate_left 3
    · rw [heap, Heap.alloc_read]
      exact Segment.bare_workSegment _ _
    · rw [own]
      rintro rfl
      have enabled := adv.enabled
      simp only [Runtime.enabled, adv.nested.root.1, Bool.and_false, Bool.false_eq_true] at enabled
    · rw [own]
      exact origins.opens_fresh (.inl rfl)
    · rw [own, Detector.plain, heap, Heap.alloc_read, Runtime.seed]
      simp [Construct.isIdle]

omit flat permitted origins kids in
theorem seed_after {strand : Strand} (isTask : strand.task < s.runtime.tasks) (o : Nat) :
    (s.runtime.after e).seed strand o = s.runtime.seed strand o := by
  unfold Runtime.seed
  cases strand.body with
  | some c => rfl
  | none =>
    rw [((Runtime.after_extends s.runtime e).fixed _ isTask).kind]
    cases kind : (s.runtime.task strand.task).kind with
    | initial | explicit => rfl
    | implicit r i =>
      have isRegion := (adv.nested.member _ isTask r i kind).1
      simp only [(Runtime.region_after (e := e) (show 0 < s.runtime.regions by omega)).size]

variable (versions : Versions s.runtime s.detector owner)

include versions

theorem seeds_field : ∀ r < d'.heap.next, ∃ o tc tw, d'.plain r =
    ((s.runtime.after e).seed (owner' r) o).counted tc tw := by
  have old : ∀ z < s.detector.heap.next,
      ∃ o tc tw, s.detector.plain z = ((s.runtime.after e).seed (owner z) o).counted tc tw := by
    intro z there
    obtain ⟨o, tc, tw, plain⟩ := versions.seeds z there
    exact ⟨o, tc, tw, by rw [plain, adv.seed_after (origins.past z there).1]⟩
  intro r bound
  by_cases new : r < s.detector.heap.next
  · rw [adv.owners r new, adv.plain new]
    exact old r new
  · cases adv.growth flat origins kids permitted bound new with
    | first only notRoot fresh plain => exact ⟨0, _, _, plain⟩
    | @bump x there root own plain =>
      obtain ⟨o, tc, tw, before⟩ := old x there
      have initial : ((s.runtime.after e).task 0).kind = .initial :=
        ((Runtime.after_extends s.runtime e).fixed 0 adv.nested.positive).kind.trans adv.nested.root.1
      refine ⟨(o + 1 * 1) % 2 ^ 16, tc, tw, ?_⟩
      rw [plain, own, before, root]
      simp only [Runtime.seed, initial]
      rfl
    | @version t init z a b isActor running known now own more plain =>
      obtain ⟨isTask, runs⟩ := Runtime.running_lt running
      obtain ⟨o, tc, tw, before⟩ := old z (adv.held isTask (Task.running_iff.mp runs).1 known z (by simp))
      refine ⟨o, tc + a, tw + b, ?_⟩
      rw [plain, own, before]
      rfl

theorem root_field : ∀ r < d'.heap.next, (owner' r).task = 0 →
    (owner' r).body = none ∧ (d'.plain r).taskcreate = 0 ∧ (d'.plain r).taskwait = 0 := by
  intro r bound self
  by_cases new : r < s.detector.heap.next
  · rw [adv.owners r new] at self ⊢
    rw [adv.plain new]
    exact versions.root r new self
  · cases adv.growth flat origins kids permitted bound new with
    | first only notRoot => exact absurd self notRoot
    | @bump x there root own plain =>
      rw [own, plain]
      exact ⟨rfl, (versions.root x there (by rw [root])).2⟩
    | @version t init z a b isActor running known now own more plain =>
      -- the initial task creates no tasks and waits for none
      obtain ⟨isTask, runs⟩ := Runtime.running_lt running
      obtain ⟨begun, live, -⟩ := Task.running_iff.mp runs
      rw [own, (adv.lined.last_task isTask begun live known).2] at self
      exact absurd self isActor

theorem ordered_field : ∀ r r', r < r' → r' < d'.heap.next → owner' r = owner' r' → (owner' r).task ≠ 0 →
    (d'.plain r).taskcreate ≤ (d'.plain r').taskcreate ∧ (d'.plain r).taskwait ≤ (d'.plain r').taskwait ∧
      (d'.plain r).taskcreate + (d'.plain r).taskwait < (d'.plain r').taskcreate + (d'.plain r').taskwait := by
  intro r r' less bound same notRoot
  by_cases new' : r' < s.detector.heap.next
  · have there := less.trans new'
    rw [adv.owners r there] at same notRoot
    rw [adv.owners r' new'] at same
    rw [adv.plain there, adv.plain new']
    exact versions.ordered r r' less new' same notRoot
  · cases adv.growth flat origins kids permitted bound new' with
    | first only _ fresh =>
      have there : r < s.detector.heap.next := only ▸ less
      rw [adv.owners r there] at same
      exact absurd same (fresh r there)
    | bump there root own =>
      rw [same, own] at notRoot
      exact absurd rfl notRoot
    | @version t init z a b isActor running known now own acts plain marks last =>
      obtain ⟨isTask, runs⟩ := Runtime.running_lt running
      obtain ⟨begun, live, -⟩ := Task.running_iff.mp runs
      have there := adv.held isTask begun known z (by simp)
      have self := (adv.lined.last_task isTask begun live known).2
      have isOld : r < s.detector.heap.next := by
        by_contra new
        cases adv.growth flat origins kids permitted (less.trans bound) new with
        | first _ _ fresh => exact fresh z there (own.symm.trans same.symm)
        | bump _ _ _ _ _ last' | version _ _ _ _ _ _ _ _ last' => omega
      rw [adv.owners r isOld, own] at same
      rw [adv.plain isOld, plain, Contents.counted]
      have within := versions.latest t isTask isActor begun live _ known z (by simp) self r isOld same
      have more : a + b = 1 := by
        rcases acts with ⟨rfl, rfl, -⟩ | ⟨rfl, rfl, -⟩ <;> rfl
      rcases Nat.lt_or_eq_of_le within with earlier | rfl
      · have counts := versions.ordered r z earlier there same (by rw [same, self]; exact isActor)
        simp only
        omega
      · simp only
        omega

omit versions kids in
theorem own_before {t z : Nat} {label : Label} (notRoot : t ≠ 0) (live : ((s.runtime.after e).task t).ended = false)
    (known : d'.label t = some label) (inside : z ∈ label) (old : z < s.detector.heap.next) (self : (owner z).task = t) :
    t < s.runtime.tasks ∧ (s.runtime.task t).begun = true ∧ (s.runtime.task t).ended = false ∧
      ∃ label, s.detector.label t = some label ∧ z ∈ label := by
  obtain ⟨isTask, begun, -⟩ := origins.past z old
  rw [self] at isTask begun
  refine ⟨isTask, begun, ?_, ?_⟩
  · rw [← Bool.not_eq_true]
    intro ended
    cases (Runtime.ended_lasts isTask ended).symm.trans live
  have same : ∀ {x}, (t ≠ x → d'.label t = s.detector.label t) → t ≠ x →
      ∃ label, s.detector.label t = some label ∧ z ∈ label :=
    fun others other => ⟨label, (others other).symm.trans known, inside⟩
  have moved : ∀ {x init p q}, (t ≠ x → d'.label t = s.detector.label t) → s.detector.label x = some (init ++ p) →
      d'.label x = some (init ++ q) → (∀ r ∈ q, ¬r < s.detector.heap.next) →
      ∃ label, s.detector.label t = some label ∧ z ∈ label := by
    intro x init p q others old' now fresh
    by_cases actor : t = x
    · subst actor
      rw [now, Option.some.injEq] at known
      subst known
      rcases List.mem_append.mp inside with above | here
      · exact ⟨_, old', List.mem_append_left _ above⟩
      · exact absurd old (fresh z here)
    · exact same others actor
  have next : ∀ r ∈ [s.detector.heap.next], ¬r < s.detector.heap.next := by simp
  cases adv.taskTurn flat permitted with
  | still _ labels => exact ⟨label, (labels t).symm.trans known, inside⟩
  | @enter i x y isMember unbegun old' made heap now others =>
    apply same (others t)
    rintro rfl
    cases begun.symm.trans unbegun
  | @barrier i x own isMember _ _ relabels =>
    by_cases actor : t = s.runtime.memberOf 0 i
    · subst actor
      rw [relabels.new, Option.some.injEq] at known
      subst known
      rcases List.mem_cons.mp inside with rfl | here
      · exact absurd old (lt_irrefl _)
      · exact ⟨_, relabels.old, List.mem_cons_of_mem _ here⟩
    · exact same (relabels.others t) actor
  | join _ _ others => exact same (others t) notRoot
  | create running old' _ _ _ made now others =>
    exact moved (fun other => others t other (Nat.ne_of_lt isTask)) old' now (by simp)
  | complete running _ relabels =>
    exact moved (q := []) (relabels.others t) relabels.old (by rw [List.append_nil]; exact relabels.new) (by simp)
  | wait _ _ moves => exact moved (moves.others t) moves.old moves.new next
  | @single _ _ old' _ relabels =>
    exact moved (p := []) (relabels.others t) (by rw [List.append_nil]; exact relabels.old) relabels.new next
  | leave _ _ _ relabels =>
    exact moved (q := []) (relabels.others t) relabels.old (by rw [List.append_nil]; exact relabels.new) (by simp)

theorem latest_field : ∀ t < (s.runtime.after e).tasks, t ≠ 0 → ((s.runtime.after e).task t).begun = true →
    ((s.runtime.after e).task t).ended = false → ∀ label, d'.label t = some label → ∀ z ∈ label, (owner' z).task = t →
    ∀ r < d'.heap.next, owner' r = owner' z → r ≤ z := by
  intro t isTask notRoot begun live label known z inside self r bound same
  by_cases old : z < s.detector.heap.next
  · rw [adv.owners z old] at self same
    obtain ⟨isTask', begun', live', label', known', inside'⟩ :=
      adv.own_before flat origins permitted notRoot live known inside old self
    by_cases there : r < s.detector.heap.next
    · rw [adv.owners r there] at same
      exact versions.latest t isTask' notRoot begun' live' label' known' z inside' self r there same
    · exfalso
      cases adv.growth flat origins kids permitted bound there with
      | first only _ fresh => exact fresh z old same.symm
      | bump _ _ own =>
        rw [← same, own] at self
        exact notRoot self.symm
      | @version x init y a b isActor running before now own acts plain marks last =>
        obtain ⟨isTask'', runs⟩ := Runtime.running_lt running
        obtain ⟨begun'', live'', -⟩ := Task.running_iff.mp runs
        obtain ⟨-, mine⟩ := adv.lined.last_task isTask'' begun'' live'' before
        obtain rfl : x = t := by rw [← mine, ← own, same, self]
        rw [now, Option.some.injEq] at known
        subst known
        have mapped := (adv.lined.place_length isTask'' begun'' before).1
        rw [Runtime.place_live live'', List.map_append, List.map_singleton] at mapped
        rcases List.mem_append.mp inside with above | here
        · apply adv.lineage.strands_last isTask'' mapped.symm
          rw [← own, same]
          exact List.mem_map_of_mem above
        · rw [List.mem_singleton.mp here] at old
          exact there old
  · by_contra less
    cases adv.growth flat origins kids permitted bound (by omega : ¬r < s.detector.heap.next) with
    | first only => omega
    | bump _ _ own =>
      rw [← same, own] at self
      exact notRoot self.symm
    | @version x init y a b isActor running before now own acts plain marks last =>
      obtain ⟨isTask'', runs⟩ := Runtime.running_lt running
      have there := adv.held isTask'' (Task.running_iff.mp runs).1 before y (by simp)
      cases adv.growth flat origins kids permitted (adv.lined'.place_length isTask begun known |>.2 z inside) old with
      | first _ _ fresh => exact fresh y there (own.symm.trans same)
      | bump _ _ own' =>
        rw [own'] at self
        exact notRoot self.symm
      | version _ _ _ _ _ _ _ _ last' => omega

omit versions kids origins in
/-- A step leaves the marks of a segment alone, but for the end of a taskwait. -/
theorem marks_after {r : Nat} (there : r < s.detector.heap.next) :
    (d'.heap.objects r).contents.taskGroupSync = (s.detector.heap.objects r).contents.taskGroupSync ∧
      ((d'.heap.objects r).contents.taskwaited = true ↔ (s.detector.heap.objects r).contents.taskwaited = true ∨
        ∃ t, e = .taskwaitEnd t ∧ ∃ c ∈ s.detector.children t, s.detector.IsLast c r) := by
  have same : (∀ t, e ≠ .taskwaitEnd t) → d'.heap.objects r = s.detector.heap.objects r →
      (d'.heap.objects r).contents.taskGroupSync = (s.detector.heap.objects r).contents.taskGroupSync ∧
        ((d'.heap.objects r).contents.taskwaited = true ↔ (s.detector.heap.objects r).contents.taskwaited = true ∨
          ∃ t, e = .taskwaitEnd t ∧ ∃ c ∈ s.detector.children t, s.detector.IsLast c r) := by
    intro other object
    rw [object]
    refine ⟨rfl, (or_iff_left ?_).symm⟩
    rintro ⟨t, waits, -⟩
    exact other t waits
  have old := fun x => (s.detector.heap.alloc_extends x).2 r there
  cases adv.taskTurn flat permitted with
  | still heap _ _ plain => exact same plain.2.2 (by rw [heap])
  | complete _ _ _ heap | leave _ _ _ _ heap | join _ _ _ heap => exact same (by simp) (by rw [heap])
  | enter _ _ _ _ heap | barrier _ _ _ _ _ _ heap | single _ _ heap => exact same (by simp) (by rw [heap, old])
  | @create t init z x y _ _ _ _ heap =>
    apply same (by simp)
    rw [heap, ((s.detector.heap.alloc x).1.alloc_extends y).2 r (there.trans (Nat.lt_succ_self _)), old]
  | @wait t init z x refs running ended moves counted heap lasts =>
    have marked : (∃ t', Event.taskwaitEnd t = .taskwaitEnd t' ∧
        ∃ c ∈ s.detector.children t', s.detector.IsLast c r) ↔ r ∈ refs := by
      rw [lasts]
      constructor
      · rintro ⟨t', waits, member⟩
        cases waits
        exact member
      · exact fun member => ⟨t, rfl, member⟩
    rw [marked, heap, Heap.mark_objects, old]
    by_cases inside : r ∈ refs
    · rw [if_pos inside, Segment.contents_markTaskwaited]
      simp [inside]
    · rw [if_neg inside]
      simp [inside]

theorem unsynced_field : ∀ r < d'.heap.next, (d'.heap.objects r).contents.taskGroupSync = false := by
  have old : ∀ r < s.detector.heap.next, (d'.heap.objects r).contents.taskGroupSync = false := fun r there =>
    (adv.marks_after flat permitted there).1.trans (versions.unsynced r there)
  intro r bound
  by_cases there : r < s.detector.heap.next
  · exact old r there
  · cases adv.growth flat origins kids permitted bound there with
    | first _ _ _ _ bare => exact bare.2
    | bump there _ _ _ same => exact same.2.trans (versions.unsynced _ there)
    | version _ running known _ _ _ _ same =>
      obtain ⟨isTask, runs⟩ := Runtime.running_lt running
      have there := adv.held isTask (Task.running_iff.mp runs).1 known _ (List.mem_append_right _ (List.mem_singleton_self _))
      exact same.2.trans (versions.unsynced _ there)

omit kids origins permitted versions flat in
theorem waited_cases {c : Nat} (isTask : c < (s.runtime.after e).tasks)
    (kind : ((s.runtime.after e).task c).kind = .explicit) (waited : ((s.runtime.after e).task c).waited ≠ none) :
    c < s.runtime.tasks ∧ (s.runtime.task c).kind = .explicit ∧
      ((s.runtime.task c).waited ≠ none ∨ ∃ t, e = .taskwaitEnd t ∧ c ∈ s.runtime.children t) := by
  rcases Runtime.explicit_after adv.nested' adv.enabled isTask kind with old | ⟨t, rfl, rfl⟩
  · refine ⟨old, ((Runtime.after_extends s.runtime e).fixed c old).kind.symm.trans kind, ?_⟩
    rcases Runtime.waited_after (R := s.runtime) (e := e) old with same | waits
    · exact .inl (same ▸ waited)
    · exact .inr waits
  · exact absurd (by simp [Runtime.after, Task.new]) waited

omit permitted flat kids in
theorem unmarked_last {t z : Nat} {init : Label} (running : s.runtime.running t = true)
    (known : s.detector.label t = some (init ++ [z])) : (s.detector.heap.objects z).contents.taskwaited = false := by
  obtain ⟨isTask, runs⟩ := Runtime.running_lt running
  have there := adv.held isTask (Task.running_iff.mp runs).1 known z (by simp)
  rw [← Bool.not_eq_true, versions.marks z there]
  rintro ⟨c, isChild, kind, last, -⟩
  obtain ⟨upper, y, birth, holds, line, parent⟩ := adv.lined.birth_last adv.nested adv.lineage isChild kind
  rw [birth, List.getLast?_concat, Option.some.injEq] at last
  subst last
  have self := (adv.lined.last_task isTask (Task.running_iff.mp runs).1 (Task.running_iff.mp runs).2.1 known).2
  have less := origins.births c isChild kind _ (by rw [← parent, self]; exact known) y (by simp)
    (by rw [line, List.getLast?_concat])
  rw [Runtime.tick, birth, List.getLast?_concat] at less
  exact lt_irrefl _ less

theorem marks_field : ∀ r < d'.heap.next, (d'.heap.objects r).contents.taskwaited = true ↔
    ∃ c < (s.runtime.after e).tasks, ((s.runtime.after e).task c).kind = .explicit ∧
      ((s.runtime.after e).birth d' c).getLast? = some r ∧ ((s.runtime.after e).task c).waited ≠ none := by
  have extend := Runtime.after_extends s.runtime e
  intro r bound
  by_cases there : r < s.detector.heap.next
  · rw [(adv.marks_after flat permitted there).2, versions.marks r there]
    constructor
    · rintro (⟨c, isTask, kind, last, waited⟩ | ⟨t, rfl, c, child, above, known⟩)
      · refine ⟨c, Nat.lt_of_lt_of_le isTask extend.tasks, (extend.fixed c isTask).kind.trans kind, ?_, ?_⟩
        · rw [adv.births c isTask kind]
          exact last
        · rcases Runtime.waited_after (R := s.runtime) (e := e) isTask with same | ⟨t, rfl, child⟩
          · rw [same]
            exact waited
          · rw [Runtime.waited_children adv.nested child]
            simp
      · obtain ⟨isChild, kind, parent⟩ := kids t c child
        have isKid := (s.runtime.mem_children t).mpr ⟨isChild, kind, parent⟩
        have enabled := adv.enabled
        simp only [Runtime.enabled, Bool.and_eq_true, Runtime.allEnded_iff] at enabled
        refine ⟨c, isChild, (extend.fixed c isChild).kind.trans kind, ?_, ?_⟩
        · have label := adv.lined.ended_label adv.nested isChild kind (enabled.2 c isKid)
          rw [known, Option.some.injEq] at label
          rw [adv.births c isChild kind, ← label, List.getLast?_concat]
        · rw [Runtime.waited_children adv.nested isKid]
          simp
    · rintro ⟨c, isTask, kind, last, waited⟩
      obtain ⟨old, kind', before⟩ := adv.waited_cases isTask kind waited
      rw [adv.births c old kind'] at last
      by_cases was : (s.runtime.task c).waited = none
      · obtain ⟨t, rfl, child⟩ := before.resolve_left fun h => h was
        obtain ⟨-, -, parent⟩ := (s.runtime.mem_children t).mp child
        have enabled := adv.enabled
        simp only [Runtime.enabled, Bool.and_eq_true, Runtime.allEnded_iff] at enabled
        obtain ⟨upper, z, birth, -⟩ := adv.lined.birth_last adv.nested adv.lineage old kind'
        rw [birth, List.getLast?_concat, Option.some.injEq] at last
        subst last
        exact .inr ⟨t, rfl, c, parent ▸ versions.listed c old kind' was, upper,
          (adv.lined.ended_label adv.nested old kind' (enabled.2 c child)).trans (congrArg some birth)⟩
      · exact .inl ⟨c, old, kind', last, was⟩
  · refine iff_of_false ?_ ?_
    · rw [Bool.not_eq_true]
      cases adv.growth flat origins kids permitted bound there with
      | first _ _ _ _ bare => exact bare.1
      | @bump x there root _ _ same =>
        exact same.1.trans
          (versions.unmarked_root adv.lined adv.nested adv.lineage flat there (by rw [root]))
      | version _ running known _ _ _ _ same => exact same.1.trans (adv.unmarked_last origins versions running known)
    · rintro ⟨c, isTask, kind, last, waited⟩
      obtain ⟨old, kind', -⟩ := adv.waited_cases isTask kind waited
      obtain ⟨upper, z, birth, holds, -⟩ := adv.lined.birth_last adv.nested adv.lineage old kind'
      rw [adv.births c old kind', birth, List.getLast?_concat, Option.some.injEq] at last
      subst last
      exact there (holds z (by simp))

omit kids in
theorem listed_field : ∀ c < (s.runtime.after e).tasks, ((s.runtime.after e).task c).kind = .explicit →
    ((s.runtime.after e).task c).waited = none → c ∈ d'.children ((s.runtime.after e).task c).parent := by
  intro c isTask kind unwaited
  rcases Runtime.explicit_after adv.nested' adv.enabled isTask kind with old | ⟨t, rfl, rfl⟩
  · have fixed := (Runtime.after_extends s.runtime e).fixed c old
    rw [fixed.kind] at kind
    rw [fixed.parent]
    have before : c ∈ s.detector.children (s.runtime.task c).parent := by
      apply versions.listed c old kind
      rcases Runtime.waited_after (R := s.runtime) (e := e) old with same | ⟨t, rfl, child⟩
      · exact same ▸ unwaited
      · rw [Runtime.waited_children adv.nested child] at unwaited
        cases unwaited
    have created := adv.nested.explicit c old kind
    cases adv.taskTurn flat permitted with
    | still _ _ children | join _ _ _ _ children => exact (children _).symm ▸ before
    | barrier _ _ _ relabels | complete _ _ relabels | single _ relabels | leave _ _ _ relabels =>
      exact (relabels.children _).symm ▸ before
    | enter _ unbegun _ _ _ _ _ children =>
      rw [children, if_neg]
      · exact before
      · intro self
        have begun := (adv.parent_begun origins old (explicit_ne_zero adv.nested kind) created.2.1).1
        rw [self, unbegun] at begun
        cases begun
    | @create t _ _ _ _ running _ _ _ _ _ _ _ children =>
      rw [children, if_neg (Nat.ne_of_lt (created.1.trans old))]
      split
      · rename_i self
        rw [self] at before
        exact List.mem_append_left _ before
      · exact before
    | @wait t _ _ _ _ _ _ _ _ _ _ children =>
      rw [children, if_neg]
      · exact before
      · intro self
        have child := (s.runtime.mem_children t).mpr ⟨old, kind, self⟩
        rw [Runtime.waited_children adv.nested child] at unwaited
        cases unwaited
  · have parent : ((s.runtime.after (.taskCreate t)).task s.runtime.tasks).parent = t := by simp [Runtime.after, Task.new]
    rw [parent]
    have turn := adv.taskTurn flat permitted
    generalize same : Event.taskCreate t = e at turn
    cases turn with
    | still _ _ _ plain => exact absurd same.symm (plain.2.1 t)
    | create running _ _ _ _ _ _ _ children =>
      cases same
      rw [children, if_neg (Nat.ne_of_lt (Runtime.running_lt running).1), if_pos rfl]
      simp
    | _ => cases same

theorem versions' : Versions (s.runtime.after e) d' owner' where
  seeds := adv.seeds_field flat origins kids permitted versions
  root := adv.root_field flat origins kids permitted versions
  ordered := adv.ordered_field flat origins kids permitted versions
  latest := adv.latest_field flat origins kids permitted versions
  unsynced := adv.unsynced_field flat origins kids permitted versions
  marks := adv.marks_field flat origins kids permitted versions
  listed := adv.listed_field flat origins permitted versions

end Advance

theorem System.versions_initial {s : System} (begun : System.initial = .ok s) :
    Versions s.runtime s.detector fun _ => ⟨0, none⟩ := by
  cases begun
  refine ⟨fun r bound => ?_, fun r bound _ => ?_, fun r r' less bound => ?_, fun t isTask notRoot => ?_, fun r bound => ?_,
    fun r bound => ?_, fun c isTask kind => ?_⟩
  · cases Nat.lt_one_iff.mp bound
    exact ⟨0, 0, 0, rfl⟩
  · cases Nat.lt_one_iff.mp bound
    exact ⟨rfl, rfl, rfl⟩
  · cases Nat.lt_one_iff.mp bound
    exact absurd less (Nat.not_lt_zero r)
  · exact absurd (Nat.lt_one_iff.mp isTask) notRoot
  · cases Nat.lt_one_iff.mp bound
    rfl
  · cases Nat.lt_one_iff.mp bound
    apply iff_of_false (by decide)
    rintro ⟨c, isTask, kind, -⟩
    cases Nat.lt_one_iff.mp isTask
    cases kind
  · cases Nat.lt_one_iff.mp isTask
    cases kind

structure Tasked (s : System) (owner : Nat → Strand) (fork : Nat → Contents) (below : Strand → Contents) :
    Prop where
  nested : s.runtime.Nested
  lineage : s.runtime.Lineage
  closing : s.runtime.Closing
  flat : s.runtime.Flat
  placed : Placed s owner
  origins : Origins s.runtime s.detector owner fork below
  kids : Kids s.runtime s.detector
  versions : Versions s.runtime s.detector owner

theorem System.tasked_initial {s : System} (begun : System.initial = .ok s) :
    Tasked s (fun _ => ⟨0, none⟩) (fun _ => s.detector.plain 0) fun _ => s.detector.plain 0 := by
  have reached : System.Reachable (fun _ _ => True) s := .start begun
  have flat : System.Reachable TaskStep s := .start begun
  refine ⟨reached.nested, reached.lineage, reached.closing, flat.flat, System.placed_initial begun,
    System.origins_initial begun _ _, ?_, System.versions_initial begun⟩
  intro t c child
  rw [System.kids_initial begun] at child
  cases child

theorem Tasked.step {s s' : System} {owner : Nat → Strand} {fork : Nat → Contents} {below : Strand → Contents}
    (tasked : Tasked s owner fork below) {e : Event} (permitted : TaskStep s e) (stepped : s.step e = some s') :
    ∃ owner' fork' below', Tasked s' owner' fork' below' ∧
      Advance s.runtime s.detector s'.detector owner owner' e ∧
      Advance.Keeps s.runtime s.detector owner e fork fork' below below' := by
  obtain ⟨nested, lineage, closing, flat, placed, origins, kids, versions⟩ := tasked
  obtain ⟨enabled, -, runtime, -⟩ := System.step_cases stepped
  obtain ⟨owner', placed', adv⟩ := placed.advance nested lineage closing stepped
  obtain ⟨fork', below', origins', keeps⟩ := adv.origins origins
  have versions' := adv.versions' flat origins kids permitted versions
  have kids' := adv.kids_after kids
  have flat' := flat.after nested lineage permitted enabled
  have closing' := nested.closing_after closing adv.nested' enabled
  rw [← runtime] at origins' versions' kids' flat' closing'
  exact ⟨owner', fork', below', ⟨runtime ▸ adv.nested', runtime ▸ adv.lineage', closing', flat', placed', origins', kids',
    versions'⟩, adv, keeps⟩

theorem Runtime.Lineage.line_eq {R : Runtime} (lineage : R.Lineage) {c c' : Nat} (isTask : c < R.tasks) (notRoot : c ≠ 0)
    (isTask' : c' < R.tasks) (notRoot' : c' ≠ 0) (same : (R.task c).line.getLast? = (R.task c').line.getLast?) :
    (R.task c).line = (R.task c').line := by
  obtain ⟨-, body, line⟩ := lineage.line c isTask notRoot
  obtain ⟨-, body', line'⟩ := lineage.line c' isTask' notRoot'
  have last : ∀ (upper : List Strand) (t : Nat) (body : Option Construct),
      (upper ++ (⟨t, none⟩ : Strand) :: (body.toList.map fun c => ⟨t, some c⟩)).getLast? = some ⟨t, body⟩ := by
    intro upper t body
    cases body with
    | none => exact List.getLast?_concat
    | some c => exact (congrArg List.getLast? (List.append_cons _ _ _)).trans List.getLast?_concat
  rw [line, line', last, last, Option.some.injEq, Strand.mk.injEq] at same
  rw [line, line', same.1, same.2]

/-- No two tasks are created in one segment. -/
theorem Tasked.birth_unique {s : System} {owner : Nat → Strand} {fork : Nat → Contents}
    {below : Strand → Contents} (tasked : Tasked s owner fork below) {c c' z : Nat} (isTask : c < s.runtime.tasks)
    (kind : (s.runtime.task c).kind = .explicit) (isTask' : c' < s.runtime.tasks)
    (kind' : (s.runtime.task c').kind = .explicit) (born : (s.runtime.birth s.detector c).getLast? = some z)
    (born' : (s.runtime.birth s.detector c').getLast? = some z) : c = c' := by
  by_contra differ
  have line : ∀ {c}, c < s.runtime.tasks → (s.runtime.task c).kind = .explicit →
      (s.runtime.birth s.detector c).getLast? = some z → (s.runtime.task c).line.getLast? = some (owner z) := by
    intro c isTask kind born
    obtain ⟨init, z', birth, -, line, -⟩ := tasked.placed.lined.birth_last tasked.nested tasked.lineage isTask kind
    rw [birth, List.getLast?_concat, Option.some.injEq] at born
    rw [line, List.getLast?_concat, born]
  apply tasked.origins.apart c isTask kind c' isTask' kind' differ
  · apply tasked.lineage.line_eq isTask (Advance.explicit_ne_zero tasked.nested kind) isTask'
      (Advance.explicit_ne_zero tasked.nested kind')
    rw [line isTask kind born, line isTask' kind' born']
  · rw [Runtime.tick, Runtime.tick, born, born']

end Romp
