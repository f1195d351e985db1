import Romp.Tasking.Awaited

namespace Romp

namespace Runtime

inductive Learns (R : Runtime) (x : Nat) : Event → (Nat → Bool) → Prop
  | access (running : R.running x = true) : Learns R x (.access x) fun a => a == R.accesses
  | taskwait (running : R.running x = true) : Learns R x (.taskwaitEnd x) (R.gather (R.children x))
  | taskgroup {g} (running : R.running x = true) : Learns R x (.taskgroupEnd x) (R.gather (R.inGroup g))
  | join {r} (isRegion : r < R.regions) (isOpen : R.IsOpen r) (forker : x = (R.region r).encountering) :
      Learns R x (.parallelEnd r) (R.gather (R.region r).members)
  | release {r} (isRegion : r < R.regions) (member : x ∈ (R.region r).members) :
      Learns R x (.release r) (R.gather (R.team r))

variable {R : Runtime} {e : Event} {x a : Nat}

theorem known_after (enabled : R.enabled e = true) (isTask : x < R.tasks) :
    ((R.after e).task x).known = (R.task x).known ∨
      ∃ news, R.Learns x e news ∧ ∀ a, ((R.after e).task x).known a = ((R.task x).known a || news a) := by
  have set : ∀ {S : Runtime} {t : Nat} {task : Task}, task.known = (S.task t).known →
      ((S.set t task).task x).known = (S.task x).known := by
    intro S t task same
    rw [set_task]
    by_cases self : x = t
    · rw [if_pos self, self, same]
    · rw [if_neg self]
  have learn : ∀ (S : Runtime) (t : Nat) (task : Task) (news : Nat → Bool), task.known = (S.task t).known →
      ((S.set t (task.learn news)).task x).known = (S.task x).known ∨
        x = t ∧ ∀ a, ((S.set t (task.learn news)).task x).known a = ((S.task x).known a || news a) := by
    intro S t task news same
    rw [set_task]
    by_cases self : x = t
    · refine .inr ⟨self, fun a => ?_⟩
      rw [if_pos self, self, Task.learn_known, same]
    · exact .inl (by rw [if_neg self])
  cases e with
  | parallelBegin t size =>
    left
    obtain ⟨constructs, same⟩ := fork_kept (R := R) t size isTask
    rw [same]
  | release r =>
    simp only [Runtime.enabled, Bool.and_eq_true, decide_eq_true_eq] at enabled
    rw [release_task]
    by_cases member : x ∈ (R.region r).members
    · refine .inr ⟨_, .release enabled.1.1 member, fun a => ?_⟩
      rw [if_pos member]
      cases known : (R.task x).known a with
      | true => exact R.gather_iff.mpr ⟨x, List.mem_append_left _ member, known⟩
      | false => exact (Bool.false_or _).symm
    · exact .inl (by rw [if_neg member])
  | parallelEnd r =>
    simp only [Runtime.enabled, Bool.and_eq_true, decide_eq_true_eq, beq_iff_eq] at enabled
    rcases learn R (R.region r).encountering (R.task (R.region r).encountering).leave (R.gather (R.region r).members) rfl with
      same | ⟨self, more⟩
    · exact .inl same
    · exact .inr ⟨_, .join enabled.1.1 enabled.2 self, more⟩
  | taskwaitEnd t =>
    simp only [Runtime.enabled, Bool.and_eq_true] at enabled
    simp only [after, waitTask]
    by_cases self : x = t
    · subst self
      exact .inr ⟨_, .taskwait enabled.1, fun a => by rw [if_pos rfl, Task.learn_known]⟩
    · left
      rw [if_neg self]
      split <;> rfl
  | taskgroupEnd t =>
    simp only [Runtime.enabled, Bool.and_eq_true] at enabled
    simp only [after]
    split
    · rcases learn _ t (R.task t).leave _ rfl with same | ⟨rfl, more⟩
      · exact .inl same
      · exact .inr ⟨_, .taskgroup enabled.1, more⟩
    · exact .inl rfl
  | access t =>
    rcases learn R t (R.task t) (fun a => a == R.accesses) rfl with same | ⟨rfl, more⟩
    · exact .inl same
    · exact .inr ⟨_, .access enabled, more⟩
  | taskCreate t => exact .inl (by simp [after, Nat.ne_of_lt isTask])
  | dependences => exact .inl rfl
  | implicitBegin | barrierBegin | barrierEnd | implicitEnd | taskComplete | orderedBegin => exact .inl (set rfl)
  | taskgroupBegin t =>
    have entered : ((R.set t ((R.task t).enter (.taskgroup R.groups))).task x).known = (R.task x).known := set rfl
    exact .inl entered
  | workBegin t work executor =>
    left
    simp only [after, beginWork]
    split <;> exact set rfl
  | workEnd t =>
    left
    have left : ∀ S : Runtime, ((S.set t (S.task t).leave).task x).known = (S.task x).known := fun S => set rfl
    exact (left _).trans (by rw [finishIteration_task])
  | dispatch t id =>
    left
    have moved : ∀ (S : Runtime) constructs, ((S.set t { S.task t with constructs }).task x).known = (S.task x).known :=
      fun S constructs => set rfl
    simp only [after, dispatchTo]
    split
    · rw [setRegion_task, moved, finishIteration_task]
    · rw [moved, finishIteration_task]
    · rw [finishIteration_task]
  | orderedEnd t =>
    left
    simp only [after, finishIteration_task]
    exact set rfl

theorem known_lasts (enabled : R.enabled e = true) (isTask : x < R.tasks) (known : (R.task x).known a = true) :
    ((R.after e).task x).known a = true := by
  rcases known_after enabled isTask with same | ⟨news, -, more⟩
  · rw [same, known]
  · rw [more, known, Bool.true_or]

theorem known_ended (nested : R.Nested) (lineage : R.Lineage) (enabled : R.enabled e = true) (isTask : x < R.tasks)
    (kind : (R.task x).kind = .explicit) (ended : (R.task x).ended = true) :
    ((R.after e).task x).known = (R.task x).known := by
  apply (known_after enabled isTask).resolve_right
  rintro ⟨news, learns, -⟩
  have stopped : R.running x = true → False := by
    intro running
    have live := (Task.running_iff.mp (running_lt running).2).2.1
    cases ended.symm.trans live
  cases learns with
  | access running | taskwait running | taskgroup running => exact stopped running
  | join _ isOpen forker =>
    obtain ⟨rest, waits⟩ := Nested.open_head isOpen
    rw [← forker, lineage.idle x ended] at waits
    cases waits
  | release isRegion member =>
    obtain ⟨i, isMember, rfl⟩ := Region.mem_members.mp member
    cases ((nested.kind _ isRegion i isMember).1).symm.trans kind

/-- What a task learns has happened, and is known to another task but for its own access. -/
theorem Learns.source (nested : R.Nested) {news : Nat → Bool} (learns : R.Learns x e news) (knows : news a = true) :
    e = .access x ∧ a = R.accesses ∨ ∃ y < R.tasks, (R.task y).known a = true := by
  have gathered : ∀ {ts : List Nat}, (∀ y ∈ ts, y < R.tasks) → R.gather ts a = true →
      ∃ y < R.tasks, (R.task y).known a = true := by
    intro ts within knows
    obtain ⟨y, inside, known⟩ := R.gather_iff.mp knows
    exact ⟨y, within y inside, known⟩
  have members : ∀ {r : Nat}, r < R.regions → ∀ y ∈ (R.region r).members, y < R.tasks := by
    intro r isRegion y inside
    obtain ⟨i, isMember, rfl⟩ := Region.mem_members.mp inside
    exact nested.member_lt isRegion isMember
  cases learns with
  | access => exact .inl ⟨rfl, by simpa using knows⟩
  | taskwait => exact .inr (gathered (fun y inside => ((R.mem_children x).mp inside).1) knows)
  | taskgroup => exact .inr (gathered (fun y inside => (R.mem_tasksWith.mp inside).1) knows)
  | join isRegion => exact .inr (gathered (members isRegion) knows)
  | release isRegion =>
    refine .inr (gathered (fun y inside => ?_) knows)
    rcases List.mem_append.mp inside with member | explicit
    · exact members isRegion y member
    · exact ((R.mem_explicitTasks _).mp explicit).1

theorem new_origin (enabled : R.enabled e = true) (new : ¬x < R.tasks) (isTask : x < (R.after e).tasks) :
    ∃ t, R.running t = true ∧ ((R.after e).task x).parent = t ∧ ((R.after e).task x).line = (R.task t).strands t ∧
      ((R.after e).task x).born = R.accesses ∧ ((R.after e).task x).known = (R.task t).known := by
  by_cases creates : e.Creates
  · cases e with
    | parallelBegin t size =>
      simp only [Runtime.enabled, Bool.and_eq_true] at enabled
      have made := fork_member (R := R) (t := t) (show x - R.tasks < size by
        change x < R.tasks + size at isTask
        omega)
      rw [show R.tasks + (x - R.tasks) = x by omega] at made
      exact ⟨t, enabled.1, by rw [made]; rfl, by rw [made]; rfl, by rw [made]; rfl, by rw [made]; rfl⟩
    | taskCreate t =>
      obtain rfl : x = R.tasks := by
        change x < R.tasks + 1 at isTask
        omega
      have made : (R.after (.taskCreate t)).task R.tasks = Task.new .explicit t ((R.task t).strands t) R.accesses
          (R.task t).region ((R.task t).groups ++ (R.task t).openGroups) true (R.task t).known := by simp [after]
      exact ⟨t, enabled, by rw [made]; rfl, by rw [made]; rfl, by rw [made]; rfl, by rw [made]; rfl⟩
    | implicitBegin | dependences => exact absurd isTask new
    | _ => cases creates
  · rw [(after_counts creates).1] at isTask
    exact absurd isTask new

theorem ancestor_iff {c : Nat} : R.Ancestor c x ↔ c = x ∨ ⟨c, none⟩ ∈ (R.task x).line := by
  rw [Ancestor, Task.strands, List.mem_append, List.mem_cons, or_comm]
  simp

theorem Lineage.ancestor_lt {c : Nat} (lineage : R.Lineage) (isTask : x < R.tasks) (ancestor : R.Ancestor c x) :
    c < R.tasks := by
  rcases ancestor_iff.mp ancestor with rfl | above
  · exact isTask
  · exact (lineage.through isTask above).1.trans isTask

theorem ancestor_after {c : Nat} (isTask : x < R.tasks) : (R.after e).Ancestor c x ↔ R.Ancestor c x := by
  rw [ancestor_iff, ancestor_iff, ((after_extends R e).fixed x isTask).line]

end Runtime

/-- What the tasks know of the accesses that have been made: each task of its own, of those that its parent made
    before it was created, and of those of the children that it has waited for. -/
structure Knowing (s : System) : Prop where
  bounded : ∀ t < s.runtime.tasks, ∀ a, (s.runtime.task t).known a = true → a < s.runtime.accesses
  born : ∀ c < s.runtime.tasks, (s.runtime.task c).born ≤ s.runtime.accesses
  own : ∀ a entry, s.log[a]? = some entry → (s.runtime.task entry.task).known a = true
  inherited : ∀ a entry, s.log[a]? = some entry → ∀ c < s.runtime.tasks, (s.runtime.task c).parent = entry.task → c ≠ 0 →
    a < (s.runtime.task c).born → ∀ t < s.runtime.tasks, s.runtime.Ancestor c t → (s.runtime.task t).known a = true
  waited : ∀ c < s.runtime.tasks, (s.runtime.task c).kind = .explicit → (s.runtime.task c).waited ≠ none →
    (s.runtime.task c).ended = true ∧
      ∀ a, (s.runtime.task c).known a = true → (s.runtime.task (s.runtime.task c).parent).known a = true

theorem System.found_cases {s s' : System} {owner : Nat → Strand} (logged : Logged s owner) {e : Event}
    (stepped : s.step e = some s') {a : Nat} {entry : Entry} (found : s'.log[a]? = some entry) :
    s.log[a]? = some entry ∨ e = .access entry.task ∧ s.runtime.running entry.task = true ∧ a = s.runtime.accesses ∧
      s.detector.label entry.task = some entry.label ∧
      entry.strands = (s.runtime.task entry.task).strands entry.task := by
  rcases System.logged_cases stepped with ⟨log, -⟩ | ⟨t, label, rfl, running, known, -, -, log⟩
  · exact .inl (log ▸ found)
  · rw [log] at found
    by_cases old : a < s.log.length
    · exact .inl (by rwa [List.getElem?_append_left old] at found)
    · have bound := (List.getElem?_eq_some_iff.mp found).1
      rw [List.length_append, List.length_singleton] at bound
      obtain rfl : a = s.log.length := by omega
      rw [List.getElem?_concat_length, Option.some.injEq] at found
      subst found
      exact .inr ⟨rfl, running, logged.length, known, rfl⟩

theorem Knowing.step {s s' : System} {owner : Nat → Strand} (knowing : Knowing s) (nested : s.runtime.Nested)
    (lineage : s.runtime.Lineage) (logged : Logged s owner) {e : Event} (stepped : s.step e = some s') : Knowing s' := by
  obtain ⟨enabled, -, runtime, -⟩ := System.step_cases stepped
  have nested' := nested.after enabled
  have fixed := (Runtime.after_extends s.runtime e).fixed
  have isTask : ∀ {a : Nat} {entry : Entry}, s.log[a]? = some entry → entry.task < s.runtime.tasks :=
    fun found => (logged.task _ (List.mem_of_getElem? found)).1
  have more : s.runtime.accesses ≤ (s.runtime.after e).accesses := by
    rw [after_accesses]
    cases e <;> simp
  refine ⟨fun t isNew a knows => ?_, fun c isNew => ?_, fun a entry found => ?_,
    fun a entry found c isChild parent notRoot early t isNew below => ?_, fun c isNew kind waited => ?_⟩
  · rw [runtime] at isNew knows ⊢
    by_cases old : t < s.runtime.tasks
    · rcases Runtime.known_after enabled old with same | ⟨news, learns, known⟩
      · rw [same] at knows
        exact (knowing.bounded t old a knows).trans_le more
      · rw [known, Bool.or_eq_true] at knows
        rcases knows with before | new
        · exact (knowing.bounded t old a before).trans_le more
        · rcases learns.source nested new with ⟨rfl, rfl⟩ | ⟨y, isTask, known⟩
          · exact Nat.lt_succ_self _
          · exact (knowing.bounded y isTask a known).trans_le more
    · obtain ⟨u, running, -, -, -, known⟩ := Runtime.new_origin enabled old isNew
      rw [known] at knows
      exact (knowing.bounded u (Runtime.running_lt running).1 a knows).trans_le more
  · rw [runtime] at isNew ⊢
    by_cases old : c < s.runtime.tasks
    · rw [(fixed c old).born]
      exact (knowing.born c old).trans more
    · obtain ⟨t, -, -, -, born, -⟩ := Runtime.new_origin enabled old isNew
      rw [born]
      exact more
  · rw [runtime]
    rcases System.found_cases logged stepped found with old | ⟨rfl, running, rfl, -⟩
    · exact Runtime.known_lasts enabled (isTask old) (knowing.own a entry old)
    · simp [Runtime.after, Task.learn]
  · rw [runtime] at isChild parent early isNew below ⊢
    rcases System.found_cases logged stepped found with old | ⟨rfl, running, rfl, -⟩
    · by_cases oldTask : t < s.runtime.tasks
      · rw [Runtime.ancestor_after oldTask] at below
        have oldChild := lineage.ancestor_lt oldTask below
        rw [(fixed c oldChild).parent] at parent
        rw [(fixed c oldChild).born] at early
        exact Runtime.known_lasts enabled oldTask
          (knowing.inherited a entry old c oldChild parent notRoot early t oldTask below)
      · obtain ⟨u, running, self, line, -, known⟩ := Runtime.new_origin enabled oldTask isNew
        have isActor := (Runtime.running_lt running).1
        rw [known]
        rcases Runtime.ancestor_iff.mp below with rfl | above
        · rw [self.symm.trans parent]
          exact knowing.own a entry old
        · rw [line] at above
          have oldChild := lineage.ancestor_lt isActor above
          rw [(fixed c oldChild).parent] at parent
          rw [(fixed c oldChild).born] at early
          exact knowing.inherited a entry old c oldChild parent notRoot early u isActor above
    · have before := knowing.born c isChild
      rw [(fixed c isChild).born] at early
      omega
  · rw [runtime] at isNew kind waited ⊢
    rcases Runtime.explicit_after nested' enabled isNew kind with old | ⟨t, rfl, rfl⟩
    · rw [(fixed c old).kind] at kind
      have created := nested.explicit c old kind
      rw [(fixed c old).parent]
      rcases Runtime.waited_after (R := s.runtime) (e := e) old with same | ⟨t, rfl, child⟩
      · rw [same] at waited
        obtain ⟨ended, known⟩ := knowing.waited c old kind waited
        refine ⟨Runtime.ended_lasts old ended, fun a knows => ?_⟩
        rw [Runtime.known_ended nested lineage enabled old kind ended] at knows
        exact Runtime.known_lasts enabled (created.1.trans old) (known a knows)
      · have parent := ((s.runtime.mem_children t).mp child).2.2
        have rules := enabled
        simp only [Runtime.enabled, Bool.and_eq_true, Runtime.allEnded_iff] at rules
        have ended := rules.2 c child
        refine ⟨Runtime.ended_lasts old ended, fun a knows => ?_⟩
        rw [Runtime.known_ended nested lineage enabled old kind ended] at knows
        simp only [parent, Runtime.after, Runtime.waitTask, if_true, Task.learn_known, Bool.or_eq_true]
        exact .inr (s.runtime.gather_iff.mpr ⟨c, child, knows⟩)
    · exact absurd (by simp [Runtime.after, Task.new]) waited

theorem System.knowing_initial {s : System} (begun : System.initial = .ok s) : Knowing s := by
  cases begun
  refine ⟨fun t _ a knows => ?_, fun c _ => le_refl _, fun a entry found => ?_, fun a entry found => ?_, fun c isTask kind => ?_⟩
  · cases knows
  · cases found
  · cases found
  · cases Nat.lt_one_iff.mp isTask
    cases kind

/-- The tasks below a child do not know what the parent of the child has done since it created the child. -/
def Unaware (s : System) : Prop :=
  ∀ a entry, s.log[a]? = some entry → ∀ c < s.runtime.tasks, (s.runtime.task c).kind = .explicit →
    (s.runtime.task c).parent = entry.task → (s.runtime.task c).born ≤ a →
    ∀ t < s.runtime.tasks, s.runtime.Ancestor c t → (s.runtime.task t).known a = false

theorem Unaware.step {s s' : System} {owner : Nat → Strand} (unaware : Unaware s) (knowing : Knowing s)
    (nested : s.runtime.Nested) (lineage : s.runtime.Lineage) (flat : s.runtime.Flat) (logged : Logged s owner) {e : Event}
    (permitted : TaskStep s e) (stepped : s.step e = some s') : Unaware s' := by
  obtain ⟨enabled, -, runtime, -⟩ := System.step_cases stepped
  have fixed := (Runtime.after_extends s.runtime e).fixed
  intro a entry found c isChild kind parent born t isNew below
  rw [runtime] at isChild kind parent born isNew below ⊢
  rw [← Bool.not_eq_true]
  intro knows
  by_cases old : t < s.runtime.tasks
  · rw [Runtime.ancestor_after old] at below
    have oldChild := lineage.ancestor_lt old below
    rw [(fixed c oldChild).kind] at kind
    rw [(fixed c oldChild).parent] at parent
    rw [(fixed c oldChild).born] at born
    have notRoot := Advance.explicit_ne_zero nested kind
    have before : ∀ x < s.runtime.tasks, s.runtime.Ancestor c x → (s.runtime.task x).known a = false := by
      intro x isTask below
      rcases System.found_cases logged stepped found with was | ⟨-, -, rfl, -⟩
      · exact unaware a entry was c oldChild kind parent born x isTask below
      · rw [← Bool.not_eq_true]
        intro known
        exact lt_irrefl _ (knowing.bounded x isTask _ known)
    rcases Runtime.known_after enabled old with same | ⟨news, learns, more⟩
    · rw [same, before t old below] at knows
      cases knows
    · rw [more, before t old below, Bool.false_or] at knows
      cases learns with
      | access running =>
        obtain rfl : a = s.runtime.accesses := by simpa using knows
        rcases System.found_cases logged stepped found with was | ⟨same, -⟩
        · have bound := (List.getElem?_eq_some_iff.mp was).1
          rw [logged.length] at bound
          exact lt_irrefl _ bound
        · cases same
          have less := (nested.explicit c oldChild kind).1
          rcases Runtime.ancestor_iff.mp below with self | above
          · omega
          · have earlier := (lineage.through old above).1
            change c < entry.task at earlier
            omega
      | taskwait =>
        obtain ⟨x, child, known⟩ := s.runtime.gather_iff.mp knows
        obtain ⟨isTask, kind', parent'⟩ := (s.runtime.mem_children t).mp child
        obtain ⟨-, body, line⟩ := lineage.line x isTask (Advance.explicit_ne_zero nested kind')
        rw [before x isTask] at known
        · cases known
        · rw [Runtime.ancestor_iff, line, parent']
          rcases Runtime.ancestor_iff.mp below with self | above
          · exact .inr (by simp [self])
          · exact .inr (List.mem_append_left _ above)
      | taskgroup => exact permitted.elim
      | join isRegion _ forker =>
        have one := flat.regions
        obtain rfl : _ = 0 := Nat.lt_one_iff.mp (Nat.lt_of_lt_of_le isRegion one)
        rw [(flat.forker (by omega)).1] at forker
        rw [forker] at below
        rcases Runtime.ancestor_iff.mp below with self | above
        · exact notRoot self
        · rw [lineage.root] at above
          cases above
      | release isRegion member =>
        obtain ⟨i, isMember, rfl⟩ := Region.mem_members.mp member
        have implicit := (nested.kind _ isRegion i isMember).1
        rcases Runtime.ancestor_iff.mp below with rfl | above
        · cases kind.symm.trans implicit
        · rw [(flat.implicit _ old _ i implicit).1, List.mem_singleton] at above
          exact notRoot (congrArg Strand.task above)
  · obtain ⟨u, running, -, line, accesses, known⟩ := Runtime.new_origin enabled old isNew
    have bound : a < s.runtime.accesses := knowing.bounded u (Runtime.running_lt running).1 a (known ▸ knows)
    rcases Runtime.ancestor_iff.mp below with rfl | above
    · rw [accesses] at born
      omega
    · rw [line] at above
      have isActor := (Runtime.running_lt running).1
      have oldChild := lineage.ancestor_lt isActor above
      rw [(fixed c oldChild).kind] at kind
      rw [(fixed c oldChild).parent] at parent
      rw [(fixed c oldChild).born] at born
      rcases System.found_cases logged stepped found with was | ⟨-, -, rfl, -⟩
      · rw [known, unaware a entry was c oldChild kind parent born u isActor above] at knows
        cases knows
      · exact lt_irrefl _ bound

end Romp
