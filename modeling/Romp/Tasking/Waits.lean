import Romp.Tasking.Versions

namespace Romp

def Event.BeginsWork : Event → Prop
  | .workBegin .. => True
  | _ => False

instance (e : Event) : Decidable e.BeginsWork :=
  match e with
  | .workBegin .. => .isTrue trivial
  | .parallelBegin .. | .implicitBegin _ | .barrierBegin .. | .release _ | .barrierEnd _ | .implicitEnd _ | .parallelEnd _
  | .taskCreate _ | .dependences .. | .taskComplete _ | .taskwaitEnd _ | .taskgroupBegin _ | .taskgroupEnd _ | .workEnd _
  | .dispatch .. | .orderedBegin _ | .orderedEnd _ | .access _ => .isFalse id

/-- The steps of such a program in which no member executes a single. -/
def TreeStep (s : System) (e : Event) : Prop := TaskStep s e ∧ ¬e.BeginsWork

instance (s : System) (e : Event) : Decidable (TreeStep s e) := inferInstanceAs (Decidable (_ ∧ _))

namespace Runtime

variable {R : Runtime}

def Undivided (R : Runtime) : Prop := ∀ t < R.tasks, (R.task t).works = 0

theorem Undivided.after (undivided : R.Undivided) (lineage : R.Lineage) {e : Event} (enabled : R.enabled e = true)
    (noWork : ¬e.BeginsWork) : (R.after e).Undivided := by
  intro t isTask
  by_cases old : t < R.tasks
  · have before := undivided t old
    cases units_after lineage enabled old with
    | same _ works => exact works.trans before
    | work => exact absurd trivial noWork
    | done _ _ works | next _ _ _ _ _ works => exact works.trans before
  · obtain ⟨_, _, _, _, _, _, _, _, made⟩ := new_task old isTask
    rw [made]
    rfl

theorem Undivided.units (undivided : R.Undivided) (lineage : R.Lineage) {t : Nat} (isTask : t < R.tasks) :
    (R.task t).units = [] := by
  rw [List.eq_nil_iff_forall_not_mem]
  intro c inside
  obtain ⟨k, number⟩ := Option.isSome_iff_exists.mp (List.mem_filter.mp inside).2
  have less := (lineage.units t).2 c inside k number
  rw [undivided t isTask] at less
  exact Nat.not_lt_zero k less

def waits (R : Runtime) (d : Detector) (c : Nat) : Nat :=
  ((R.birth d c).getLast?.map fun r => (d.plain r).taskwait).getD 0

end Runtime

theorem Origins.undivided {R : Runtime} {d : Detector} {owner : Nat → Strand} {fork : Nat → Contents}
    {below : Strand → Contents} (origins : Origins R d owner fork below) (undivided : R.Undivided) {r : Nat}
    (there : r < d.heap.next) : (owner r).body = none := by
  obtain ⟨isTask, -, past⟩ := origins.past r there
  cases body : (owner r).body with
  | none => rfl
  | some c =>
    obtain ⟨k, -, less, -⟩ := past c body
    rw [undivided _ isTask] at less
    exact absurd less (Nat.not_lt_zero k)

/-- Where a task has waited for some of its children and not for others, its segments have counted the taskwaits in
    between. -/
structure Waits (R : Runtime) (d : Detector) (owner : Nat → Strand) : Prop where
  bounded : ∀ c < R.tasks, ∀ n, (R.task c).waited = some n → c < n ∧ n ≤ R.tasks
  siblings : ∀ c < R.tasks, (R.task c).kind = .explicit → ∀ c' < R.tasks, (R.task c').kind = .explicit →
    (R.task c).parent = (R.task c').parent →
    (R.waits d c < R.waits d c' ↔ ∃ n, (R.task c).waited = some n ∧ n ≤ c')
  passed : ∀ c < R.tasks, (R.task c).kind = .explicit → ∀ v < d.heap.next, owner v = ⟨(R.task c).parent, none⟩ →
    R.waits d c < (d.plain v).taskwait → (R.task c).waited ≠ none
  behind : ∀ c < R.tasks, (R.task c).kind = .explicit → (R.task c).waited ≠ none →
    (R.task (R.task c).parent).ended = false → ∀ label, d.label (R.task c).parent = some label → ∀ z ∈ label,
    owner z = ⟨(R.task c).parent, none⟩ → R.waits d c < (d.plain z).taskwait

theorem Lined.born {R : Runtime} {d : Detector} {owner : Nat → Strand} {fork : Nat → Contents}
    {below : Strand → Contents} (lined : Lined R d owner) (nested : R.Nested) (lineage : R.Lineage)
    (origins : Origins R d owner fork below) (undivided : R.Undivided) {c : Nat} (isTask : c < R.tasks)
    (kind : (R.task c).kind = .explicit) : ∃ upper z, R.birth d c = upper ++ [z] ∧ z < d.heap.next ∧
      owner z = ⟨(R.task c).parent, none⟩ ∧ R.waits d c = (d.plain z).taskwait := by
  obtain ⟨upper, z, birth, holds, -, parent⟩ := lined.birth_last nested lineage isTask kind
  have there := holds z (by simp)
  refine ⟨upper, z, birth, there, ?_, ?_⟩
  · rw [← parent, ← origins.undivided undivided there]
  · rw [Runtime.waits, birth, List.getLast?_concat, Option.map_some, Option.getD_some]

theorem Versions.taskwait_le {R : Runtime} {d : Detector} {owner : Nat → Strand} (versions : Versions R d owner)
    {v z : Nat}
    (within : v ≤ z) (there : z < d.heap.next) (same : owner v = owner z) (notRoot : (owner z).task ≠ 0) :
    (d.plain v).taskwait ≤ (d.plain z).taskwait := by
  rcases Nat.lt_or_eq_of_le within with earlier | rfl
  · exact (versions.ordered v z earlier there same (same ▸ notRoot)).2.1
  · exact le_refl _

namespace Advance

variable {s : System} {d' : Detector} {owner owner' : Nat → Strand} {e : Event}
  (adv : Advance s.runtime s.detector d' owner owner' e)

include adv

theorem waits_after {c : Nat} (isTask : c < s.runtime.tasks) (kind : (s.runtime.task c).kind = .explicit) :
    (s.runtime.after e).waits d' c = s.runtime.waits s.detector c := by
  obtain ⟨upper, z, birth, holds, -⟩ := adv.lined.birth_last adv.nested adv.lineage isTask kind
  rw [Runtime.waits, Runtime.waits, adv.births c isTask kind, birth, List.getLast?_concat, Option.map_some,
    Option.map_some,
    adv.plain (holds z (by simp))]

theorem bounded_field (bounded : ∀ c < s.runtime.tasks, ∀ n, (s.runtime.task c).waited = some n → c < n ∧
    n ≤ s.runtime.tasks) :
    ∀ c < (s.runtime.after e).tasks, ∀ n, ((s.runtime.after e).task c).waited = some n →
      c < n ∧ n ≤ (s.runtime.after e).tasks := by
  have grown := (Runtime.after_extends s.runtime e).tasks
  intro c isTask n waited
  by_cases old : c < s.runtime.tasks
  · have before : ∀ n, (s.runtime.task c).waited = some n → c < n ∧ n ≤ (s.runtime.after e).tasks := by
      intro n same
      obtain ⟨less, within⟩ := bounded c old n same
      exact ⟨less, within.trans grown⟩
    rcases Runtime.waited_after (R := s.runtime) (e := e) old with same | ⟨t, rfl, child⟩
    · exact before n (same.symm.trans waited)
    · rw [Runtime.waited_children adv.nested child, Option.some.injEq] at waited
      cases was : (s.runtime.task c).waited with
      | none =>
        rw [was] at waited
        subst waited
        exact ⟨old, grown⟩
      | some m =>
        rw [was] at waited
        subst waited
        exact before m was
  · obtain ⟨_, _, _, _, _, _, _, _, made⟩ := Runtime.new_task old isTask
    rw [made] at waited
    cases waited

variable (flat : s.runtime.Flat) {fork : Nat → Contents} {below : Strand → Contents}
  (origins : Origins s.runtime s.detector owner fork below) (kids : Kids s.runtime s.detector) (permitted : TaskStep s e)
  (versions : Versions s.runtime s.detector owner) (undivided : s.runtime.Undivided)

include flat origins kids permitted versions undivided

omit kids in
theorem newborn {t : Nat} (creates : e = .taskCreate t) : ∃ init r, t ≠ 0 ∧ (s.runtime.task t).ended = false ∧
    s.detector.label t = some (init ++ [r]) ∧ r < s.detector.heap.next ∧ owner r = ⟨t, none⟩ ∧
    ((s.runtime.after e).task s.runtime.tasks).parent = t ∧
    (s.runtime.after e).waits d' s.runtime.tasks = (s.detector.plain r).taskwait ∧
    ∀ v < s.detector.heap.next, owner v = ⟨t, none⟩ → (s.detector.plain v).taskwait ≤ (s.detector.plain r).taskwait := by
  have turn := adv.taskTurn flat permitted
  subst creates
  have notRoot : t ≠ 0 := permitted
  generalize same : Event.taskCreate t = e at turn
  cases turn with
  | still _ _ _ plain => exact absurd same.symm (plain.2.1 t)
  | @create _ init r _ _ running known _ _ _ made =>
    cases same
    obtain ⟨isTask, runs⟩ := Runtime.running_lt running
    obtain ⟨begun, live, -⟩ := Task.running_iff.mp runs
    have there := adv.held isTask begun known r (by simp)
    obtain ⟨birth, -, -, parent⟩ := adv.birth_new rfl isTask begun live known made
    have mine : owner r = ⟨t, none⟩ := by
      rw [← (adv.lined.last_task isTask begun live known).2, ← origins.undivided undivided there]
    refine ⟨init, r, notRoot, live, known, there, mine, parent, ?_, fun v isOld own => ?_⟩
    · rw [Runtime.waits, birth, List.getLast?_concat, Option.map_some, Option.getD_some, adv.plain there]
    · have within := versions.latest t isTask notRoot begun live _ known r (by simp) (by rw [mine]) v isOld
        (own.trans mine.symm)
      exact versions.taskwait_le within there (own.trans mine.symm) (by rw [mine]; exact notRoot)
  | _ => cases same

variable (waits : Waits s.runtime s.detector owner)

include waits

theorem passed_field : ∀ c < (s.runtime.after e).tasks, ((s.runtime.after e).task c).kind = .explicit →
    ∀ v < d'.heap.next, owner' v = ⟨((s.runtime.after e).task c).parent, none⟩ →
    (s.runtime.after e).waits d' c < (d'.plain v).taskwait → ((s.runtime.after e).task c).waited ≠ none := by
  intro c isTask kind v bound own later unwaited
  rcases Runtime.explicit_after adv.nested' adv.enabled isTask kind with old | ⟨t, creates, rfl⟩
  · have fixed := (Runtime.after_extends s.runtime e).fixed c old
    rw [fixed.kind] at kind
    rw [fixed.parent] at own
    rw [adv.waits_after old kind] at later
    have was : (s.runtime.task c).waited = none := by
      rcases Runtime.waited_after (R := s.runtime) (e := e) old with same | ⟨t, rfl, child⟩
      · exact same ▸ unwaited
      · rw [Runtime.waited_children adv.nested child] at unwaited
        cases unwaited
    by_cases there : v < s.detector.heap.next
    · rw [adv.owners v there] at own
      rw [adv.plain there] at later
      exact waits.passed c old kind v there own later was
    · cases adv.growth flat origins kids permitted bound there with
      | first _ _ fresh =>
        obtain ⟨-, z, -, isOld, mine, -⟩ := adv.lined.born adv.nested adv.lineage origins undivided old kind
        exact fresh z isOld (mine.trans own.symm)
      | bump _ _ root =>
        rw [root] at own
        exact (flat.explicit c old kind).2.2.1 (congrArg Strand.task own).symm
      | @version t init y a b notRoot running known now kept acts plain =>
        obtain ⟨isActor, runs⟩ := Runtime.running_lt running
        obtain ⟨begun, live, -⟩ := Task.running_iff.mp runs
        rw [kept] at own
        rw [plain] at later
        rcases acts with ⟨rfl, rfl, rfl⟩ | ⟨rfl, rfl, rfl⟩
        · exact waits.passed c old kind y (adv.held isActor begun known y (by simp)) own later was
        · have parent : (s.runtime.task c).parent = t := by
            rw [← (adv.lined.last_task isActor begun live known).2, own]
          rw [Runtime.waited_children adv.nested ((s.runtime.mem_children t).mpr ⟨old, kind, parent⟩)] at unwaited
          cases unwaited
  · obtain ⟨init, r, notRoot, -, known, there, mine, parent, count, most⟩ :=
      adv.newborn flat origins permitted versions undivided creates
    rw [parent] at own
    rw [count] at later
    by_cases isOld : v < s.detector.heap.next
    · rw [adv.owners v isOld] at own
      rw [adv.plain isOld] at later
      exact absurd later (Nat.not_lt.mpr (most v isOld own))
    · cases adv.growth flat origins kids permitted bound isOld with
      | first _ _ fresh => exact fresh r there (mine.trans own.symm)
      | bump _ _ root =>
        rw [root] at own
        exact notRoot (congrArg Strand.task own).symm
      | @version t' init' y a b notRoot' running' known' now kept acts plain =>
        rcases acts with ⟨rfl, rfl, same⟩ | ⟨rfl, rfl, same⟩
        · cases creates.symm.trans same
          rw [known, Option.some.injEq] at known'
          rw [plain, List.singleton_inj.mp (List.append_inj' known' rfl).2] at later
          exact lt_irrefl _ later
        · cases creates.symm.trans same

omit kids in
theorem siblings_field : ∀ c < (s.runtime.after e).tasks, ((s.runtime.after e).task c).kind = .explicit →
    ∀ c' < (s.runtime.after e).tasks, ((s.runtime.after e).task c').kind = .explicit →
    ((s.runtime.after e).task c).parent = ((s.runtime.after e).task c').parent →
    ((s.runtime.after e).waits d' c < (s.runtime.after e).waits d' c' ↔
      ∃ n, ((s.runtime.after e).task c).waited = some n ∧ n ≤ c') := by
  have fixed := (Runtime.after_extends s.runtime e).fixed
  intro c isTask kind c' isTask' kind' same
  rcases Runtime.explicit_after adv.nested' adv.enabled isTask kind with old | ⟨t, creates, rfl⟩
  · rw [(fixed c old).kind] at kind
    rw [(fixed c old).parent] at same
    rw [adv.waits_after old kind]
    rcases Runtime.explicit_after adv.nested' adv.enabled isTask' kind' with old' | ⟨t, creates, rfl⟩
    · rw [(fixed c' old').kind] at kind'
      rw [(fixed c' old').parent] at same
      rw [adv.waits_after old' kind', waits.siblings c old kind c' old' kind' same]
      rcases Runtime.waited_after (R := s.runtime) (e := e) old with kept | ⟨t, rfl, child⟩
      · rw [kept]
      · rw [Runtime.waited_children adv.nested child]
        cases (s.runtime.task c).waited with
        | some n => rfl
        | none =>
          simp only [reduceCtorEq, false_and, exists_false, Option.getD_none, Option.some.injEq, exists_eq_left',
            false_iff]
          omega
    · obtain ⟨init, r, -, live, known, there, mine, parent, count, -⟩ :=
        adv.newborn flat origins permitted versions undivided creates
      rw [parent] at same
      subst same
      have kept : ((s.runtime.after e).task c).waited = (s.runtime.task c).waited := by
        rcases Runtime.waited_after (R := s.runtime) (e := e) old with kept | ⟨t, waited, -⟩
        · exact kept
        · cases creates.symm.trans waited
      rw [kept, count]
      constructor
      · intro later
        obtain ⟨n, waited⟩ := Option.ne_none_iff_exists'.mp (waits.passed c old kind r there mine later)
        exact ⟨n, waited, (waits.bounded c old n waited).2⟩
      · rintro ⟨n, waited, -⟩
        exact waits.behind c old kind (by rw [waited]; exact Option.some_ne_none n) live _ known r (by simp) mine
  · obtain ⟨init, r, -, -, -, -, -, parent, count, most⟩ :=
      adv.newborn flat origins permitted versions undivided creates
    have unwaited : ((s.runtime.after e).task s.runtime.tasks).waited = none := by
      obtain ⟨_, _, _, _, _, _, _, _, made⟩ := Runtime.new_task (lt_irrefl _) isTask
      rw [made]
      rfl
    rw [unwaited]
    refine iff_of_false ?_ (by simp)
    rw [count, Nat.not_lt]
    rcases Runtime.explicit_after adv.nested' adv.enabled isTask' kind' with old' | ⟨t', -, rfl⟩
    · rw [(fixed c' old').kind] at kind'
      rw [parent, (fixed c' old').parent] at same
      obtain ⟨-, z, -, isOld, own, count'⟩ := adv.lined.born adv.nested adv.lineage origins undivided old' kind'
      rw [← same] at own
      rw [adv.waits_after old' kind', count']
      exact most z isOld own
    · rw [count]

theorem behind_field : ∀ c < (s.runtime.after e).tasks, ((s.runtime.after e).task c).kind = .explicit →
    ((s.runtime.after e).task c).waited ≠ none →
    ((s.runtime.after e).task ((s.runtime.after e).task c).parent).ended = false →
    ∀ label, d'.label ((s.runtime.after e).task c).parent = some label → ∀ z ∈ label,
    owner' z = ⟨((s.runtime.after e).task c).parent, none⟩ → (s.runtime.after e).waits d' c < (d'.plain z).taskwait := by
  intro c isTask kind waited live label known z inside own
  obtain ⟨old, kind', cases⟩ := adv.waited_cases isTask kind waited
  have fixed := (Runtime.after_extends s.runtime e).fixed c old
  rw [fixed.parent] at live known own
  rw [adv.waits_after old kind']
  obtain ⟨-, y, -, isOld, mine, count⟩ := adv.lined.born adv.nested adv.lineage origins undivided old kind'
  have notRoot := (flat.explicit c old kind').2.2.1
  by_cases there : z < s.detector.heap.next
  · rw [adv.owners z there] at own
    obtain ⟨isActor, begun, live', label', known', inside'⟩ :=
      adv.own_before flat origins permitted notRoot live known inside there (congrArg Strand.task own)
    rw [adv.plain there]
    by_cases was : (s.runtime.task c).waited = none
    · -- the taskwait has made another version of the segment
      obtain ⟨t, rfl, child⟩ := cases.resolve_left fun h => h was
      have parent := ((s.runtime.mem_children t).mp child).2.2
      rw [parent] at known own
      have turn := adv.taskTurn flat permitted
      generalize same : Event.taskwaitEnd t = e at turn
      cases turn with
      | still _ _ _ plain => exact absurd same.symm (plain.2.2 t)
      | @wait _ init r _ _ running _ moves =>
        cases same
        obtain ⟨isActor, runs⟩ := Runtime.running_lt running
        obtain ⟨begun, live, -⟩ := Task.running_iff.mp runs
        rw [moves.new, Option.some.injEq] at known
        subst known
        rcases List.mem_append.mp inside with above | here
        · have mapped := (adv.lined.place_length isActor begun moves.old).1
          rw [Runtime.place_live live, List.map_append, List.map_singleton] at mapped
          refine absurd ?_ (adv.lineage.strands_last isActor mapped.symm)
          have last := (adv.lined.last_task isActor begun live moves.old).2
          have there' := adv.held isActor begun moves.old r (by simp)
          rw [show owner r = owner z by rw [own, ← last, ← origins.undivided undivided there']]
          exact List.mem_map_of_mem above
        · rw [List.mem_singleton.mp here] at there
          exact absurd there (lt_irrefl _)
      | _ => cases same
    · exact waits.behind c old kind' was live' label' known' z inside' own
  · obtain ⟨isParent, begun, -⟩ := origins.past y isOld
    rw [mine] at isParent begun
    have grown := Nat.lt_of_lt_of_le isParent (Runtime.after_extends s.runtime e).tasks
    have bound := (adv.lined'.place_length grown (Runtime.begun_lasts isParent begun) known).2 z inside
    cases adv.growth flat origins kids permitted bound there with
    | first _ _ fresh => exact absurd (mine.trans own.symm) (fresh y isOld)
    | bump _ _ root =>
      rw [root] at own
      exact absurd (congrArg Strand.task own).symm notRoot
    | @version t init x a b isActor running before now kept acts plain =>
      obtain ⟨isTask', runs⟩ := Runtime.running_lt running
      obtain ⟨begun, live', -⟩ := Task.running_iff.mp runs
      have there' := adv.held isTask' begun before x (by simp)
      have parent : (s.runtime.task c).parent = t := by
        rw [← (adv.lined.last_task isTask' begun live' before).2, ← kept, own]
      rw [kept] at own
      rw [plain]
      rcases acts with ⟨rfl, rfl, rfl⟩ | ⟨rfl, rfl, rfl⟩
      · have was : (s.runtime.task c).waited ≠ none := by
          rcases cases with was | ⟨t', waits, -⟩
          · exact was
          · cases waits
        exact waits.behind c old kind' was (parent ▸ live') _ (parent ▸ before) x (by simp) own
      · have within := versions.latest t isTask' isActor begun live' _ before x (by simp) (by rw [own, parent]) y isOld
          (mine.trans own.symm)
        have most := versions.taskwait_le within there' (mine.trans own.symm) (by rw [own]; exact notRoot)
        rw [count]
        exact Nat.lt_succ_of_le most

theorem waits' : Waits (s.runtime.after e) d' owner' where
  bounded := adv.bounded_field waits.bounded
  siblings := adv.siblings_field flat origins permitted versions undivided waits
  passed := adv.passed_field flat origins kids permitted versions undivided waits
  behind := adv.behind_field flat origins kids permitted versions undivided waits

end Advance

structure Treed (s : System) (owner : Nat → Strand) (fork : Nat → Contents) (below : Strand → Contents) :
    Prop extends Tasked s owner fork below where
  undivided : s.runtime.Undivided
  waits : Waits s.runtime s.detector owner

theorem Treed.step {s s' : System} {owner : Nat → Strand} {fork : Nat → Contents} {below : Strand → Contents}
    (treed : Treed s owner fork below) {e : Event} (permitted : TreeStep s e) (stepped : s.step e = some s') :
    ∃ owner' fork' below', Treed s' owner' fork' below' ∧ Advance s.runtime s.detector s'.detector owner owner' e := by
  obtain ⟨enabled, -, runtime, -⟩ := System.step_cases stepped
  obtain ⟨owner', fork', below', tasked', adv, -⟩ := treed.toTasked.step permitted.1 stepped
  have undivided' := treed.undivided.after treed.lineage enabled permitted.2
  have waits' := adv.waits' treed.flat treed.origins treed.kids permitted.1 treed.versions treed.undivided treed.waits
  rw [← runtime] at undivided' waits'
  exact ⟨owner', fork', below', ⟨tasked', undivided', waits'⟩, adv⟩

theorem System.Reachable.treed {s : System} (reached : System.Reachable TreeStep s) :
    ∃ owner fork below, Treed s owner fork below := by
  induction reached with
  | @start s begun =>
    refine ⟨_, _, _, System.tasked_initial begun, ?_, ?_⟩
    · cases begun
      intro t _
      rfl
    · cases begun
      refine ⟨fun c _ n waited => ?_, fun c isTask kind => ?_, fun c isTask kind => ?_, fun c isTask kind => ?_⟩
      · cases waited
      all_goals
        cases Nat.lt_one_iff.mp isTask
        cases kind
  | step _ permitted stepped ih =>
    obtain ⟨owner, fork, below, treed⟩ := ih
    obtain ⟨owner', fork', below', treed', -⟩ := treed.step permitted stepped
    exact ⟨owner', fork', below', treed'⟩

end Romp
