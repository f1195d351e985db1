import Romp.Tasking.Phases

namespace Romp

def Strand.UpTo (first second : Strand) : Prop :=
  first.task = second.task ∧ (first = second ∨
    ∃ k k', k < k' ∧ first.body = some (.single k true) ∧ second.body = some (.single k' true))

/-- What the segments say of the tasks that have been waited for. A segment that has counted more taskwaits than the one
    that a child of its task was created in shows that the task has waited for the child, and those who start below such
    a segment know what the child knows. -/
structure Learned (R : Runtime) (d : Detector) (owner : Nat → Strand) : Prop where
  latest : ∀ t < R.tasks, ∀ c ∈ (R.task t).units, ∀ k, c.number = some k → (R.task t).works = k + 1
  passed : ∀ c < R.tasks, (R.task c).kind = .explicit → ∀ strand, (R.task c).line.getLast? = some strand →
    ∀ v < d.heap.next, strand.UpTo (owner v) → R.waits d c < (d.plain v).taskwait → (R.task c).waited ≠ none
  below : ∀ c < R.tasks, (R.task c).kind = .explicit → ∀ strand, (R.task c).line.getLast? = some strand →
    ∀ t < R.tasks, (R.task t).kind = .explicit → ∀ v ∈ R.birth d t, strand.UpTo (owner v) →
    R.waits d c < (d.plain v).taskwait → ∀ a, (R.task c).known a = true → (R.task t).known a = true

theorem Runtime.latest_after {R : Runtime} {e : Event} (lineage : R.Lineage) (enabled : R.enabled e = true)
    (latest : ∀ t < R.tasks, ∀ c ∈ (R.task t).units, ∀ k, c.number = some k → (R.task t).works = k + 1) :
    ∀ t < (R.after e).tasks, ∀ c ∈ ((R.after e).task t).units, ∀ k, c.number = some k →
      ((R.after e).task t).works = k + 1 := by
  intro t isTask c inside k number
  by_cases old : t < R.tasks
  · have before := latest t old
    cases units_after lineage enabled old with
    | same units works =>
      rw [units] at inside
      rw [works]
      exact before c inside k number
    | work _ units number' works =>
      rw [units, List.mem_singleton] at inside
      rw [inside, number', Option.some.injEq] at number
      rw [works, number]
    | done _ units =>
      rw [units] at inside
      cases inside
    | next units units' number₀ number' _ works =>
      rw [units', List.mem_singleton] at inside
      rw [inside, number', Option.some.injEq] at number
      rw [works, ← number]
      exact before _ (by rw [units]; exact List.mem_singleton_self _) _ number₀
  · obtain ⟨_, _, _, _, _, _, _, _, made⟩ := new_task old isTask
    rw [made] at inside
    cases inside

@[simp] theorem Runtime.seed_taskwait (R : Runtime) (strand : Strand) (offset : Nat) :
    (R.seed strand offset).taskwait = 0 := by
  unfold Runtime.seed
  split
  · rename_i c _
    cases idle : !c.isIdle <;> decide
  · split <;> rfl

theorem Runtime.line_parent {R : Runtime} (nested : R.Nested) (lineage : R.Lineage) {c : Nat} (isTask : c < R.tasks)
    (kind : (R.task c).kind = .explicit) {strand : Strand} (last : (R.task c).line.getLast? = some strand) :
    strand.task = (R.task c).parent := by
  obtain ⟨upper, strand', line, parent⟩ := lineage.line_last isTask (Advance.explicit_ne_zero nested kind)
  rw [line, List.getLast?_concat, Option.some.injEq] at last
  rw [← last, parent]

theorem Lined.own_or_birth {R : Runtime} {d : Detector} {owner : Nat → Strand} (lined : Lined R d owner) {t v : Nat}
    {label : Label} (isTask : t < R.tasks) (begun : (R.task t).begun = true) (live : (R.task t).ended = false)
    (known : d.label t = some label) (inside : v ∈ label) :
    (owner v).task = t ∨ v ∈ R.birth d t ∧ owner v ∈ (R.task t).line := by
  have mapped := (lined.place_length isTask begun known).1
  rw [Runtime.place_live live, Task.strands] at mapped
  rw [Runtime.birth, known, Option.getD_some]
  rw [← List.take_append_drop (R.task t).line.length label] at inside
  rcases List.mem_append.mp inside with above | below
  · refine .inr ⟨above, ?_⟩
    have line : (label.take (R.task t).line.length).map owner = (R.task t).line := by
      rw [List.map_take, mapped]
      exact List.take_left' rfl
    rw [← line]
    exact List.mem_map_of_mem above
  · have own : owner v ∈ (label.drop (R.task t).line.length).map owner := List.mem_map_of_mem below
    rw [List.map_drop, mapped, List.drop_left' rfl] at own
    rcases List.mem_cons.mp own with same | inBody
    · exact .inl (by rw [same])
    · obtain ⟨c, -, same⟩ := List.mem_map.mp inBody
      exact .inl (by rw [← same])

namespace Advance

variable {s : System} {d' : Detector} {owner owner' : Nat → Strand} {e : Event}
  (adv : Advance s.runtime s.detector d' owner owner' e) {fork : Nat → Contents}
  {below : Strand → Contents} (tasked : Tasked s owner fork below) (permitted : TaskStep s e)

include adv tasked permitted

theorem created {t : Nat} (creates : e = .taskCreate t) : ∃ init r, s.runtime.running t = true ∧ t ≠ 0 ∧
    s.detector.label t = some (init ++ [r]) ∧ r < s.detector.heap.next ∧ (owner r).task = t ∧
    (s.runtime.after e).birth d' s.runtime.tasks = init ++ [r] ∧
    ((s.runtime.after e).task s.runtime.tasks).line.getLast? = some (owner r) ∧
    ((s.runtime.after e).task s.runtime.tasks).parent = t ∧
    (s.runtime.after e).waits d' s.runtime.tasks = (s.detector.plain r).taskwait := by
  have turn := adv.taskTurn tasked.flat permitted
  subst creates
  have notRoot : t ≠ 0 := permitted
  generalize same : Event.taskCreate t = e at turn
  cases turn with
  | still _ _ _ plain => exact absurd same.symm (plain.2.1 t)
  | @create _ init r _ _ running known _ _ _ made =>
    cases same
    obtain ⟨isTask, runs⟩ := Runtime.running_lt running
    obtain ⟨begun, live, -⟩ := Task.running_iff.mp runs
    have there := adv.held isTask begun known r (by simp)
    obtain ⟨birth, -, line, parent⟩ := adv.birth_new rfl isTask begun live known made
    refine ⟨init, r, running, notRoot, known, there, (adv.lined.last_task isTask begun live known).2, birth, line, parent, ?_⟩
    rw [Runtime.waits, birth, List.getLast?_concat, Option.map_some, Option.getD_some, adv.plain there]
  | _ => cases same

omit adv permitted in
/-- No segment of the strand of a running task, or of a later single of it, has counted more taskwaits than the last. -/
theorem most_waits (learned : Learned s.runtime s.detector owner) {t r v : Nat} {init : Label}
    (running : s.runtime.running t = true) (notRoot : t ≠ 0) (known : s.detector.label t = some (init ++ [r]))
    (there : r < s.detector.heap.next) (isOld : v < s.detector.heap.next) (later : (owner r).UpTo (owner v)) :
    (s.detector.plain v).taskwait ≤ (s.detector.plain r).taskwait := by
  obtain ⟨isTask, runs⟩ := Runtime.running_lt running
  obtain ⟨begun, live, -⟩ := Task.running_iff.mp runs
  obtain ⟨low, self⟩ := tasked.placed.lined.last_task isTask begun live known
  obtain ⟨task, same | ⟨k, k', less, body, body'⟩⟩ := later
  · have within := tasked.versions.latest t isTask notRoot begun live _ known r (by simp) self v isOld same.symm
    exact tasked.versions.taskwait_le within there same.symm (by rw [self]; exact notRoot)
  · obtain ⟨k₁, number, works, -⟩ := (tasked.origins.past v isOld).2.2 _ body'
    rw [← task, self] at works
    cases number
    have mapped := (tasked.placed.lined.place_length isTask begun known).1
    rw [Runtime.place_live live, List.map_append, List.map_singleton] at mapped
    have inside : ⟨t, some (.single k true)⟩ ∈ (s.runtime.task t).strands t := by
      rw [← mapped, ← body, ← self]
      simp
    rcases Runtime.mem_strands inside with above | ⟨-, inBody⟩
    · exact absurd (tasked.lineage.through isTask above).1 (lt_irrefl t)
    · have latest := learned.latest t isTask _ (by rw [tasked.lineage.body_units inBody]; exact List.mem_singleton_self _) k rfl
      omega

variable (learned : Learned s.runtime s.detector owner)

include learned

theorem passed_known : ∀ c < (s.runtime.after e).tasks, ((s.runtime.after e).task c).kind = .explicit → ∀ strand,
    ((s.runtime.after e).task c).line.getLast? = some strand → ∀ v < d'.heap.next, strand.UpTo (owner' v) →
    (s.runtime.after e).waits d' c < (d'.plain v).taskwait → ((s.runtime.after e).task c).waited ≠ none := by
  intro c isTask kind strand line v bound upTo later unwaited
  have parent := Runtime.line_parent adv.nested' adv.lineage' isTask kind line
  have notRoot : ((s.runtime.after e).task c).parent ≠ 0 :=
    ((tasked.flat.after tasked.nested tasked.lineage permitted adv.enabled).explicit c isTask kind).2.2.1
  rcases Runtime.explicit_after adv.nested' adv.enabled isTask kind with old | ⟨t, creates, rfl⟩
  · have fixed := (Runtime.after_extends s.runtime e).fixed c old
    rw [fixed.kind] at kind
    rw [fixed.parent] at parent notRoot
    rw [fixed.line] at line
    rw [adv.waits_after old kind] at later
    have was : (s.runtime.task c).waited = none := by
      rcases Runtime.waited_after (R := s.runtime) (e := e) old with same | ⟨t, rfl, child⟩
      · exact same ▸ unwaited
      · rw [Runtime.waited_children adv.nested child] at unwaited
        cases unwaited
    by_cases there : v < s.detector.heap.next
    · rw [adv.owners v there] at upTo
      rw [adv.plain there] at later
      exact learned.passed c old kind strand line v there upTo later was
    · cases adv.growth tasked.flat tasked.origins tasked.kids permitted bound there with
      | first _ _ _ plain =>
        rw [plain, Runtime.seed_taskwait] at later
        exact Nat.not_lt_zero _ later
      | bump _ _ root =>
        rw [root] at upTo
        exact notRoot (parent.symm.trans upTo.1)
      | @version t init y a b _ running known now kept acts plain =>
        obtain ⟨isActor, runs⟩ := Runtime.running_lt running
        obtain ⟨begun, live, -⟩ := Task.running_iff.mp runs
        rw [kept] at upTo
        rw [plain] at later
        rcases acts with ⟨rfl, rfl, rfl⟩ | ⟨rfl, rfl, rfl⟩
        · exact learned.passed c old kind strand line y (adv.held isActor begun known y (by simp)) upTo later was
        · have self : (s.runtime.task c).parent = t := by
            rw [← parent, upTo.1, (adv.lined.last_task isActor begun live known).2]
          rw [Runtime.waited_children adv.nested ((s.runtime.mem_children t).mpr ⟨old, kind, self⟩)] at unwaited
          cases unwaited
  · obtain ⟨init, r, running, notInitial, known, there, -, -, last, -, count⟩ := adv.created tasked permitted creates
    rw [last, Option.some.injEq] at line
    rw [count] at later
    by_cases isOld : v < s.detector.heap.next
    · rw [← line, adv.owners v isOld] at upTo
      rw [adv.plain isOld] at later
      exact absurd later (Nat.not_lt.mpr (most_waits tasked learned running notInitial known there isOld upTo))
    · cases adv.growth tasked.flat tasked.origins tasked.kids permitted bound isOld with
      | first _ _ _ plain =>
        rw [plain, Runtime.seed_taskwait] at later
        exact Nat.not_lt_zero _ later
      | bump _ _ root =>
        rw [root] at upTo
        exact notRoot (parent.symm.trans upTo.1)
      | @version t' init' y a b _ _ known' _ kept acts plain =>
        rcases acts with ⟨rfl, rfl, same⟩ | ⟨rfl, rfl, same⟩
        · cases creates.symm.trans same
          rw [known, Option.some.injEq] at known'
          rw [plain, List.singleton_inj.mp (List.append_inj' known' rfl).2] at later
          exact lt_irrefl _ later
        · cases creates.symm.trans same

theorem below_known (knowing : Knowing s) : ∀ c < (s.runtime.after e).tasks, ((s.runtime.after e).task c).kind = .explicit →
    ∀ strand, ((s.runtime.after e).task c).line.getLast? = some strand → ∀ t < (s.runtime.after e).tasks,
    ((s.runtime.after e).task t).kind = .explicit → ∀ v ∈ (s.runtime.after e).birth d' t, strand.UpTo (owner' v) →
    (s.runtime.after e).waits d' c < (d'.plain v).taskwait → ∀ a, ((s.runtime.after e).task c).known a = true →
    ((s.runtime.after e).task t).known a = true := by
  intro c isChild kind strand line t isTask kind' v inside upTo later a knows
  have fixed := (Runtime.after_extends s.runtime e).fixed
  have there : v < s.detector.heap.next := by
    rcases Runtime.explicit_after adv.nested' adv.enabled isTask kind' with old | ⟨u, creates, rfl⟩
    · rw [(fixed t old).kind] at kind'
      rw [adv.births t old kind'] at inside
      exact adv.birth_held old (adv.nested.explicit t old kind').2.1 v inside
    · obtain ⟨init, r, running, -, known, -, -, birth, -⟩ := adv.created tasked permitted creates
      rw [birth] at inside
      obtain ⟨isActor, runs⟩ := Runtime.running_lt running
      exact adv.held isActor (Task.running_iff.mp runs).1 known v inside
  rw [adv.owners v there] at upTo
  rw [adv.plain there] at later
  rcases Runtime.explicit_after adv.nested' adv.enabled isChild kind with old | ⟨u, creates, rfl⟩
  · rw [(fixed c old).kind] at kind
    rw [(fixed c old).line] at line
    rw [adv.waits_after old kind] at later
    have parent := Runtime.line_parent adv.nested adv.lineage old kind line
    have waited := learned.passed c old kind strand line v there upTo later
    obtain ⟨ended, known⟩ := knowing.waited c old kind waited
    rw [Runtime.known_ended adv.nested adv.lineage adv.enabled old kind ended] at knows
    rcases Runtime.explicit_after adv.nested' adv.enabled isTask kind' with old' | ⟨u, creates, rfl⟩
    · rw [(fixed t old').kind] at kind'
      rw [adv.births t old' kind'] at inside
      exact Runtime.known_lasts adv.enabled old' (learned.below c old kind strand line t old' kind' v inside upTo later a knows)
    · obtain ⟨init, r, running, notInitial, label, -, -, birth, -, self, -⟩ := adv.created tasked permitted creates
      obtain ⟨isActor, runs⟩ := Runtime.running_lt running
      obtain ⟨begun, live, -⟩ := Task.running_iff.mp runs
      obtain ⟨u', -, self', -, -, same⟩ := Runtime.new_origin adv.enabled (lt_irrefl _) isTask
      rw [same, ← self', self]
      rw [birth] at inside
      rcases adv.lined.own_or_birth isActor begun live label inside with own | ⟨above, inLine⟩
      · rw [← own, ← upTo.1, parent]
        exact known a knows
      · refine learned.below c old kind strand line u isActor ?_ v above upTo later a knows
        apply (tasked.member_or_explicit isActor notInitial).resolve_left
        rintro ⟨i, isMember, rfl⟩
        have one := tasked.has_region isActor notInitial
        have member := (tasked.nested.kind 0 (by omega) i isMember).1
        rw [(tasked.flat.implicit _ isActor 0 i member).1, List.mem_singleton] at inLine
        have root := upTo.1
        rw [inLine, parent] at root
        exact (tasked.flat.explicit c old kind).2.2.1 root
  · obtain ⟨init, r, running, notInitial, label, isOld, -, -, last, -, count⟩ := adv.created tasked permitted creates
    rw [last, Option.some.injEq] at line
    rw [count] at later
    rw [← line] at upTo
    exact absurd later (Nat.not_lt.mpr (most_waits tasked learned running notInitial label isOld there upTo))

theorem learned_after (knowing : Knowing s) : Learned (s.runtime.after e) d' owner' where
  latest := Runtime.latest_after adv.lineage adv.enabled learned.latest
  passed := adv.passed_known tasked permitted learned
  below := adv.below_known tasked permitted learned knowing

end Advance

theorem Runtime.Flat.running_body {R : Runtime} (flat : R.Flat) (nested : R.Nested) {t m : Nat} {c : Construct}
    (running : R.running t = true) (inside : ⟨m, some c⟩ ∈ (R.task t).strands t) :
    (∃ r i, (R.task m).kind = .implicit r i) ∧ ∃ k, c = .single k true := by
  obtain ⟨isTask, runs⟩ := Runtime.running_lt running
  rcases Runtime.mem_strands inside with above | ⟨rfl, body⟩
  · exact flat.bodies t isTask m c above
  · have held : c ∈ (R.task m).constructs := List.mem_of_find?_eq_some body
    have busy := (Task.running_iff.mp runs).2.2.2.2
    cases kind : (R.task m).kind with
    | initial =>
      obtain rfl := nested.initial m isTask kind
      rcases flat.root with empty | ⟨-, waits⟩
      · rw [empty] at held
        cases held
      · cases busy _ _ waits
    | explicit =>
      rw [(flat.explicit m isTask kind).2.2.2] at held
      cases held
    | implicit r i =>
      refine ⟨⟨r, i, rfl⟩, ?_⟩
      rcases (flat.implicit m isTask r i kind).2 with empty | ⟨k, executor, single⟩
      · rw [empty] at held
        cases held
      · have works := busy _ _ single
        rw [single, List.mem_singleton] at held
        cases executor with
        | false => cases works
        | true => exact ⟨k, held⟩

structure Informed (s : System) (owner : Nat → Strand) (fork : Nat → Contents) (below : Strand → Contents) :
    Prop extends Tasked s owner fork below where
  knowing : Knowing s
  phased : Phased s (fork 0)
  learned : Learned s.runtime s.detector owner
  unaware : Unaware s
  bodies : ∀ entry ∈ s.log, ∀ m c, ⟨m, some c⟩ ∈ entry.strands →
    (∃ r i, (s.runtime.task m).kind = .implicit r i) ∧ ∃ k, c = .single k true
  chains : ∀ entry ∈ s.log, entry.label.IsChain fun z q =>
    s.runtime.Above fork below (fun _ _ => True) (s.detector.plain z) (owner q)

theorem Informed.step {s s' : System} {owner : Nat → Strand} {fork : Nat → Contents} {below : Strand → Contents}
    (informed : Informed s owner fork below) {e : Event} (permitted : TaskStep s e) (stepped : s.step e = some s') :
    ∃ owner' fork' below', Informed s' owner' fork' below' := by
  obtain ⟨tasked, knowing, phased, learned, unaware, bodies, chains⟩ := informed
  obtain ⟨enabled, -, runtime, -⟩ := System.step_cases stepped
  obtain ⟨owner', fork', below', tasked', adv, keeps⟩ := tasked.step permitted stepped
  have logged := tasked.placed.logged
  have knowing' := knowing.step tasked.nested tasked.lineage logged stepped
  have phased' := phased.step tasked knowing permitted stepped adv fun one => keeps.forks 0 (by omega)
  have learned' := adv.learned_after tasked permitted learned knowing
  have unaware' := unaware.step knowing tasked.nested tasked.lineage tasked.flat logged permitted stepped
  rw [← runtime] at learned'
  refine ⟨owner', fork', below', tasked', knowing', phased', learned', unaware', fun entry inside m c body => ?_,
    fun entry inside => ?_⟩
  all_goals
    obtain ⟨a, found⟩ := List.getElem?_of_mem inside
    have cases := System.found_cases logged stepped found
  · have kinds : m < s.runtime.tasks → (∃ r i, (s.runtime.task m).kind = .implicit r i) →
        ∃ r i, (s'.runtime.task m).kind = .implicit r i := by
      rintro isTask ⟨r, i, kind⟩
      exact ⟨r, i, by rw [runtime, ((Runtime.after_extends s.runtime e).fixed m isTask).kind, kind]⟩
    have earlier : ∀ {t : Nat} {body : Option Construct}, t < s.runtime.tasks →
        (⟨m, some c⟩ : Strand) ∈ (s.runtime.task t).line ++ ⟨t, none⟩ :: (body.toList.map fun c => ⟨t, some c⟩) →
        m < s.runtime.tasks := by
      intro t body isTask inside
      rcases List.mem_append.mp inside with above | here
      · exact (tasked.lineage.through isTask above).1.trans isTask
      · rcases List.mem_cons.mp here with self | inBody
        · cases self
        · obtain ⟨_, -, same⟩ := List.mem_map.mp inBody
          cases same
          exact isTask
    rcases cases with old | ⟨rfl, running, -, -, strands⟩
    · have before := List.mem_of_getElem? old
      obtain ⟨member, single⟩ := bodies entry before m c body
      obtain ⟨isTask, own, strands⟩ := logged.task entry before
      exact ⟨kinds (earlier isTask (strands ▸ body)) member, single⟩
    · rw [strands] at body
      obtain ⟨member, single⟩ := tasked.flat.running_body tasked.nested running body
      exact ⟨kinds (earlier (Runtime.running_lt running).1 body) member, single⟩
  · have transport : s.detector.heap.Holds entry.label → (entry.label.IsChain fun z q =>
        s.runtime.Above fork below (fun _ _ => True) (s.detector.plain z) (owner q)) →
        entry.label.IsChain fun z q =>
          s'.runtime.Above fork' below' (fun _ _ => True) (s'.detector.plain z) (owner' q) := by
      intro holds chain
      refine chain.imp_of_mem_imp fun z q first second above => ?_
      rw [runtime]
      exact adv.above_after tasked.origins keeps.forks keeps.belows (fun _ _ _ _ => trivial) (holds z first)
        (holds q second) above
    rcases cases with old | ⟨rfl, running, -, known, -⟩
    · have before := List.mem_of_getElem? old
      exact transport (logged.entry entry before).1 (chains entry before)
    · obtain ⟨isTask, runs⟩ := Runtime.running_lt running
      have begun := (Task.running_iff.mp runs).1
      refine transport (adv.held isTask begun known)
        ((tasked.origins.chain _ isTask begun _ known).imp fun z q above => ?_)
      unfold Runtime.Above at above ⊢
      cases body : (owner q).body with
      | some b =>
        rw [body] at above
        exact above
      | none =>
        rw [body] at above
        intro r i kind
        obtain ⟨k, -, same⟩ := above r i kind
        exact ⟨k, trivial, same⟩

theorem System.Reachable.informed {s : System} (reached : System.Reachable TaskStep s) :
    ∃ owner fork below, Informed s owner fork below := by
  induction reached with
  | @start s begun =>
    refine ⟨_, _, _, System.tasked_initial begun, System.knowing_initial begun, ?_, ?_, ?_, ?_, ?_⟩
    all_goals cases begun
    · refine ⟨fun c isTask kind => ?_, fun a entry found => ?_, fun a entry found => ?_, fun _ a entry found => ?_⟩
      · cases Nat.lt_one_iff.mp isTask
        cases kind
      all_goals cases found
    · refine ⟨fun t isTask c inside => ?_, fun c isTask kind => ?_, fun c isTask kind => ?_⟩
      · cases Nat.lt_one_iff.mp isTask
        cases inside
      all_goals
        cases Nat.lt_one_iff.mp isTask
        cases kind
    · intro a entry found
      cases found
    all_goals
      intro entry logged
      cases logged
  | step before permitted stepped ih =>
    obtain ⟨owner, fork, below, informed⟩ := ih
    exact informed.step permitted stepped

end Romp
