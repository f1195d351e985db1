import Romp.ForkJoin.Nesting
import Romp.Order.ForkJoin

open ForkJoin

namespace Romp

namespace Runtime

def Active (R : Runtime) (t : Nat) : Prop :=
  t < R.tasks ∧ (R.task t).constructs = [] ∧
    ∀ r < R.regions, ∀ i < (R.region r).size, t = R.memberOf r i → R.Waits r

def Knows (R : Runtime) (t : Nat) (a : Nat) : Prop := (R.task t).known a = true

/-- The path of every task, as if the released barriers of its regions had ended already, tells
    what the task knows of the accesses made so far, whose paths are `W`. -/
structure Traced (R : Runtime) (V W : Nat → Path) : Prop where
  exact : Exact R.Active V (· < R.accesses) W R.Knows
  closed : ∀ r < R.regions, R.Waits r → ∀ i < (R.region r).size,
    (R.task (R.memberOf r i)).closing = true →
    (R.task (R.memberOf r i)).arrived = (R.region r).released →
    Sealed (· < R.accesses) W (V (R.region r).encountering)
  shape : ∀ r < R.regions, R.Waits r → ∀ i < (R.region r).size,
    ∃ o, V (R.memberOf r i) = V (R.region r).encountering ++ [(o, (R.region r).size)] ∧
      o % (R.region r).size = i
  inherit : ∀ r < R.regions, R.Waits r → ∀ i < (R.region r).size, ∀ a,
    R.Knows (R.region r).encountering a → R.Knows (R.memberOf r i) a
  past : ∀ t a, R.Knows t a → a < R.accesses
  start : ∀ t < R.tasks, V t ≠ [] ∧ ∀ x ∈ V t, 0 < x.2

theorem Forking.active {R : Runtime} (forking : R.Forking) {t : Nat} (isTask : t < R.tasks)
    (runs : (R.task t).running = true) : R.Active t := by
  refine ⟨isTask, forking.running_idle isTask runs, ?_⟩
  rintro r isRegion i isMember rfl
  by_contra closed
  have ended := forking.joined r isRegion closed i isMember
  rw [(Task.running_iff.mp runs).2.1] at ended
  cases ended

namespace Traced

variable {R : Runtime} {V W : Nat → Path} (forking : R.Forking) (traced : R.Traced V W)

include forking traced

theorem team {r : Nat} (isRegion : r < R.regions) (isOpen : R.Waits r)
    (idle : ∀ i < (R.region r).size, (R.task (R.memberOf r i)).constructs = []) :
    ∃ o, Team R.Active V (V (R.region r).encountering) (R.region r).size (R.memberOf r) o := by
  have shapes := traced.shape r isRegion isOpen
  refine ⟨fun i => if bound : i < (R.region r).size then (shapes i bound).choose else 0,
    (forking.bounds r isRegion).1, ?_, ?_, ?_⟩
  · intro i bound
    simp only [bound, dif_pos]
    exact (shapes i bound).choose_spec.2
  · intro i bound
    refine ⟨forking.nested.member_lt isRegion bound, idle i bound, ?_⟩
    intro r' isRegion' i' bound' same
    obtain ⟨rfl, -⟩ := forking.nested.member_inj isRegion bound isRegion' bound' same
    exact isOpen
  · intro i bound
    simp only [bound, dif_pos]
    exact (shapes i bound).choose_spec.1

omit forking in
theorem set {t : Nat} {task : Task} (constructs : task.constructs = (R.task t).constructs)
    (known : task.known = (R.task t).known)
    (together : ∀ r < R.regions, ∀ i < (R.region r).size, t = R.memberOf r i →
      (task.closing = (R.task t).closing ∧ task.arrived = (R.task t).arrived) ∨
        task.arrived ≠ (R.region r).released) : (R.set t task).Traced V W := by
  have member : ∀ r i, (R.set t task).memberOf r i = R.memberOf r i := fun _ _ => rfl
  have same : ∀ x, ((R.set t task).task x).constructs = (R.task x).constructs := by
    intro x
    rw [set_task]
    by_cases self : x = t
    · rw [if_pos self, constructs, self]
    · rw [if_neg self]
  have isOpen : ∀ r, (R.set t task).Waits r ↔ R.Waits r := by
    intro r
    simp only [Waits, same, set_region]
  have active : (R.set t task).Active = R.Active := by
    funext x
    simp only [Active, same, set_tasks, set_regions, set_region, member, isOpen]
  have knows : (R.set t task).Knows = R.Knows := by
    funext x a
    simp only [Knows, set_task]
    by_cases self : x = t
    · rw [if_pos self, known, self]
    · rw [if_neg self]
  refine ⟨?_, ?_, ?_, ?_, ?_, traced.start⟩
  · rw [active, knows]
    exact traced.exact
  · intro r isRegion opened i isMember
    have old := traced.closed r isRegion ((isOpen r).mp opened) i isMember
    simp only [member, set_task, set_region]
    by_cases self : R.memberOf r i = t
    · rw [if_pos self]
      rcases together r isRegion i isMember self.symm with ⟨sameClosing, sameArrived⟩ | away
      · rw [sameClosing, sameArrived]
        rw [self] at old
        exact old
      · intro _ arrived
        exact absurd arrived away
    · rw [if_neg self]
      exact old
  · intro r isRegion opened i isMember
    exact traced.shape r isRegion ((isOpen r).mp opened) i isMember
  · intro r isRegion opened i isMember a
    rw [knows]
    exact traced.inherit r isRegion ((isOpen r).mp opened) i isMember a
  · rw [knows]
    exact traced.past

end Traced

/-- The path of a task stays when a region is forked; the members start right below it. -/
def forkPaths (R : Runtime) (V : Nat → Path) (t size : Nat) (x : Nat) : Path :=
  if x < R.tasks then V x else V t ++ [(x - R.tasks, size)]

def releasePaths (R : Runtime) (V : Nat → Path) (r x : Nat) : Path :=
  if x = (R.region r).encountering then bump (V x)
  else if x ∈ (R.region r).members then
    bump (V (R.region r).encountering) ++ (V x).drop (V (R.region r).encountering).length
  else V x

namespace Traced

variable {R : Runtime} {V W : Nat → Path} (forking : R.Forking) (traced : R.Traced V W)

include forking traced

omit traced in
theorem fork_isOpen {t size r : Nat} (idle : (R.task t).constructs = [])
    (isRegion : r < R.regions) : (R.after (.parallelBegin t size)).Waits r ↔ R.Waits r := by
  rw [Waits, Waits, fork_region_old isRegion, fork_task (forking.nested.encountering_lt isRegion)]
  by_cases self : (R.region r).encountering = t
  · rw [if_pos self, self, idle, Task.enter, idle]
    simp only [List.cons.injEq, Construct.parallel.injEq, and_true, reduceCtorEq, iff_false]
    omega
  · rw [if_neg self]

theorem parallelBegin {t size : Nat} (isTask : t < R.tasks) (runs : (R.task t).running = true)
    (positive : 0 < size) :
    (R.after (.parallelBegin t size)).Traced (R.forkPaths V t size) W ∧
      ∀ i, R.forkPaths V t size (R.tasks + i) = V t ++ [(i, size)] := by
  have idle := forking.running_idle isTask runs
  have old : ∀ x < R.tasks, R.forkPaths V t size x = V x := fun x bound => if_pos bound
  have new : ∀ i, R.forkPaths V t size (R.tasks + i) = V t ++ [(i, size)] := by
    intro i
    rw [forkPaths, if_neg (by omega), Nat.add_sub_cancel_left]
  have now := forking.active isTask runs
  have cases : ∀ r < R.regions + 1, r < R.regions ∨ r = R.regions := by omega
  refine ⟨⟨?_, ?_, ?_, ?_, ?_, ?_⟩, new⟩
  · refine traced.exact.fork (u := t) (n := size) (m := fun i => R.tasks + i) now ?_ ?_
    · intro v active
      by_cases before : v < R.tasks
      · have other : v ≠ t := by
          intro self
          have none := active.2.1
          rw [fork_task before, if_pos self, Task.enter] at none
          cases none
        have same : (R.after (.parallelBegin t size)).task v = R.task v := by
          rw [fork_task before, if_neg other]
        refine .inr ⟨⟨before, by rw [← same]; exact active.2.1, ?_⟩, other, old v before, ?_⟩
        · intro r isRegion i isMember member
          rw [← fork_isOpen forking idle isRegion]
          refine active.2.2 r (Nat.lt_succ_of_lt isRegion) i ?_ ?_
          · rwa [fork_region_old isRegion]
          · rwa [fork_memberOf isRegion]
        · funext a
          rw [Knows, Knows, same]
      · have bound : v < R.tasks + size := active.1
        exact .inl ⟨v - R.tasks, by omega, by omega⟩
    · intro i bound
      refine ⟨new i, ?_⟩
      funext a
      rw [Knows, fork_member bound]
      rfl
  · intro r isRegion isOpen i isMember
    rcases cases r isRegion with before | rfl
    · rw [fork_isOpen forking idle before] at isOpen
      rw [fork_region_old before] at isMember ⊢
      rw [fork_memberOf before, old _ (forking.nested.encountering_lt before)]
      obtain ⟨_, same⟩ := fork_kept t size (forking.nested.member_lt before isMember)
      rw [same]
      exact traced.closed r before isOpen i isMember
    · simp only [fork_region, if_true] at isMember
      change i < size at isMember
      rw [fork_memberOf_new, fork_member isMember]
      intro closing
      cases closing
  · intro r isRegion isOpen i isMember
    rcases cases r isRegion with before | rfl
    · rw [fork_isOpen forking idle before] at isOpen
      rw [fork_region_old before] at isMember ⊢
      rw [fork_memberOf before, old _ (forking.nested.encountering_lt before),
        old _ (forking.nested.member_lt before isMember)]
      exact traced.shape r before isOpen i isMember
    · simp only [fork_region, if_true] at isMember ⊢
      rw [fork_memberOf_new, new]
      exact ⟨i, by rw [newRegion, old t isTask], Nat.mod_eq_of_lt isMember⟩
  · intro r isRegion isOpen i isMember a
    rcases cases r isRegion with before | rfl
    · rw [fork_isOpen forking idle before] at isOpen
      rw [fork_region_old before] at isMember ⊢
      obtain ⟨_, same⟩ := fork_kept t size (forking.nested.member_lt before isMember)
      obtain ⟨_, same'⟩ := fork_kept t size (forking.nested.encountering_lt before)
      rw [fork_memberOf before, Knows, Knows, same, same']
      exact traced.inherit r before isOpen i isMember a
    · simp only [fork_region, if_true] at isMember ⊢
      change i < size at isMember
      obtain ⟨_, same⟩ := fork_kept t size isTask
      rw [fork_memberOf_new, Knows, Knows, fork_member isMember]
      change ((R.after (.parallelBegin t size)).task t).known a = true → _
      rw [same]
      exact id
  · intro x a known
    have old : ∃ y, R.Knows y a := by
      simp only [Knows, after, Runtime.fork] at known
      split at known
      · exact ⟨t, known⟩
      · split at known
        · exact ⟨t, known⟩
        · exact ⟨x, known⟩
    exact traced.past _ a old.choose_spec
  · intro x bound
    by_cases before : x < R.tasks
    · rw [old x before]
      exact traced.start x before
    · rw [forkPaths, if_neg before]
      refine ⟨by simp, ?_⟩
      intro y member
      rcases List.mem_append.mp member with above | last
      · exact (traced.start t isTask).2 y above
      · rw [List.mem_singleton.mp last]
        exact positive

section Waiting

variable {r : Nat} (isRegion : r < R.regions)
  (all : ∀ i < (R.region r).size, (R.task (R.memberOf r i)).arrived = (R.region r).released + 1)

include isRegion all

omit traced in
theorem waiting {i : Nat} (bound : i < (R.region r).size) :
    (R.task (R.memberOf r i)).constructs = [] ∧ (R.task (R.memberOf r i)).ended = false := by
  have counters := forking.counters r isRegion i bound
  have arrived := all i bound
  have passed := counters.passed
  constructor
  · by_contra busy
    have equal := (counters.busy busy).1
    omega
  · rw [← Bool.not_eq_true]
    intro ended
    have equal := (counters.ended ended).2
    omega

omit traced in
theorem waiting_open : R.Waits r := by
  have size := (forking.bounds r isRegion).1
  by_contra closed
  have ended := forking.joined r isRegion closed 0 size
  rw [(waiting forking isRegion all size).2] at ended
  cases ended

omit traced in
theorem waiting_forker {x : Nat} (isOpen : R.Waits x) : (R.region x).encountering ∉ (R.region r).members := by
  intro inMembers
  obtain ⟨j, bound, same⟩ := Region.mem_members.mp inMembers
  have idle := (waiting forking isRegion all bound).1
  rw [Runtime.memberOf, same] at idle
  rw [Waits, idle] at isOpen
  cases isOpen

omit traced in
theorem releasePaths_member {i : Nat} (bound : i < (R.region r).size) {x : Node}
    (path : V (R.memberOf r i) = V (R.region r).encountering ++ [x]) :
    R.releasePaths V r (R.memberOf r i) = bump (V (R.region r).encountering) ++ [x] := by
  have inside : R.memberOf r i ∈ (R.region r).members := Region.mem_members.mpr ⟨i, bound, rfl⟩
  have encounters : R.memberOf r i ≠ (R.region r).encountering := fun same =>
    waiting_forker forking isRegion all (waiting_open forking isRegion all) (same ▸ inside)
  rw [releasePaths, if_neg encounters, if_pos inside, path, List.drop_left]

omit forking traced isRegion all in
theorem releasePaths_forker :
    R.releasePaths V r (R.region r).encountering = bump (V (R.region r).encountering) :=
  if_pos rfl

omit forking traced isRegion all in
theorem releasePaths_other {x : Nat} (notForker : x ≠ (R.region r).encountering)
    (notMember : x ∉ (R.region r).members) : R.releasePaths V r x = V x := by
  rw [releasePaths, if_neg notForker, if_neg notMember]

omit traced in
theorem releasePaths_elsewhere {x : Nat} (isOpen : R.Waits x) (differ : x ≠ r) :
    R.releasePaths V r (R.region x).encountering = V (R.region x).encountering := by
  refine releasePaths_other ?_ (waiting_forker forking isRegion all isOpen)
  intro same
  have here := waiting_open forking isRegion all
  rw [Waits, same, here] at isOpen
  cases isOpen
  exact differ rfl

end Waiting

theorem release {r : Nat} (isRegion : r < R.regions)
    (all : ∀ i < (R.region r).size, (R.task (R.memberOf r i)).arrived = (R.region r).released + 1) :
    (R.after (.release r)).Traced (R.releasePaths V r) W := by
  have size := (forking.bounds r isRegion).1
  have isOpen := waiting_open forking isRegion all
  obtain ⟨o, team⟩ := traced.team forking isRegion isOpen fun i bound => (waiting forking isRegion all bound).1
  have inside : ∀ i < (R.region r).size, R.memberOf r i ∈ (R.region r).members :=
    fun i bound => Region.mem_members.mpr ⟨i, bound, rfl⟩
  have forker : R.releasePaths V r (R.region r).encountering = bump (V (R.region r).encountering) :=
    releasePaths_forker
  have member : ∀ i < (R.region r).size, R.releasePaths V r (R.memberOf r i) =
      bump (V (R.region r).encountering) ++ [(o i, (R.region r).size)] :=
    fun i bound => releasePaths_member forking isRegion all bound (team.path i bound)
  have opened : ∀ x, (R.after (.release r)).Waits x ↔ R.Waits x := by
    intro x
    rw [Waits, Waits, (release_layout x).2.2]
    obtain ⟨_, same⟩ := release_kept (r := r) (R.region x).encountering
    rw [same]
  have active : (R.after (.release r)).Active = R.Active := by
    funext x
    obtain ⟨_, same⟩ := release_kept (R := R) (r := r) x
    simp only [Active, same, release_memberOf, (release_layout _).1, opened]
    rfl
  have nonempty := traced.start _ (forking.nested.encountering_lt isRegion)
  refine ⟨?_, ?_, ?_, ?_, ?_, ?_⟩
  · rw [active]
    refine traced.exact.release team nonempty.1 nonempty.2 member ?_ ?_
    · intro i bound a
      rw [Knows, release_task, if_pos (inside i bound), forking.team_eq, gather_iff]
      constructor
      · rintro ⟨x, isMember, known⟩
        obtain ⟨j, bound', rfl⟩ := Region.mem_members.mp isMember
        exact ⟨j, bound', known⟩
      · rintro ⟨j, bound', known⟩
        exact ⟨R.memberOf r j, inside j bound', known⟩
    · intro v isActive
      have notForker : v ≠ (R.region r).encountering := by
        rintro rfl
        rw [Waits, isActive.2.1] at isOpen
        cases isOpen
      by_cases isMember : v ∈ (R.region r).members
      · obtain ⟨i, bound, rfl⟩ := Region.mem_members.mp isMember
        exact .inl ⟨i, bound, rfl⟩
      · refine .inr ⟨fun i bound same => isMember (same ▸ inside i bound), releasePaths_other notForker isMember, ?_⟩
        funext a
        rw [Knows, Knows, release_task, if_neg isMember]
  · intro x isRegion' isOpen' i isMember
    rw [(release_layout x).1] at isMember
    rw [release_memberOf, (release_layout x).2.2]
    obtain ⟨_, same⟩ := release_kept (R := R) (r := r) (R.memberOf x i)
    rw [same]
    by_cases self : x = r
    · subst self
      rw [forker]
      intro _ _
      exact traced.exact.sealed team nonempty.1 nonempty.2
    · rw [release_region, if_neg self, releasePaths_elsewhere forking isRegion all ((opened x).mp isOpen') self]
      exact traced.closed x isRegion' ((opened x).mp isOpen') i isMember
  · intro x isRegion' isOpen' i isMember
    rw [(release_layout x).1] at isMember ⊢
    rw [release_memberOf, (release_layout x).2.2]
    by_cases self : x = r
    · subst self
      exact ⟨o i, by rw [member i isMember, forker], team.residue i isMember⟩
    · rw [releasePaths_elsewhere forking isRegion all ((opened x).mp isOpen') self]
      obtain ⟨o', path, residue⟩ := traced.shape x isRegion' ((opened x).mp isOpen') i isMember
      by_cases isForker : R.memberOf x i = (R.region r).encountering
      · refine ⟨o' + (R.region x).size, ?_, by rw [Nat.add_mod_right, residue]⟩
        rw [isForker, forker, ← isForker, path, bump_snoc]
      · refine ⟨o', ?_, residue⟩
        rw [releasePaths_other isForker, path]
        intro inMembers
        obtain ⟨j, bound, same⟩ := Region.mem_members.mp inMembers
        exact self (forking.nested.member_inj isRegion' isMember isRegion bound same.symm).1
  · intro x isRegion' isOpen' i isMember a
    rw [(release_layout x).1] at isMember
    rw [release_memberOf, (release_layout x).2.2]
    have old := traced.inherit x isRegion' ((opened x).mp isOpen') i isMember a
    rw [Knows, Knows, release_task, release_task]
    rw [if_neg (waiting_forker forking isRegion all ((opened x).mp isOpen'))]
    by_cases isMember' : R.memberOf x i ∈ (R.region r).members
    · rw [if_pos isMember']
      intro known
      rw [forking.team_eq]
      exact gather_iff R |>.mpr ⟨_, isMember', old known⟩
    · rw [if_neg isMember']
      exact old
  · intro x a known
    rw [Knows, release_task] at known
    split at known
    · obtain ⟨y, -, known'⟩ := (gather_iff R).mp known
      exact traced.past y a known'
    · exact traced.past x a known
  · intro x isTask
    have before := traced.start x isTask
    by_cases notForker : x = (R.region r).encountering
    · subst notForker
      rw [forker]
      refine ⟨bump_ne_nil before.1, fun y inside => ?_⟩
      obtain ⟨z, inOld, same⟩ := bump_span inside
      exact same ▸ before.2 z inOld
    · by_cases isMember : x ∈ (R.region r).members
      · obtain ⟨i, bound, rfl⟩ := Region.mem_members.mp isMember
        change R.releasePaths V r (R.memberOf r i) ≠ [] ∧ ∀ y ∈ R.releasePaths V r (R.memberOf r i), _
        rw [member i bound]
        refine ⟨by simp, fun y inside => ?_⟩
        rcases List.mem_append.mp inside with above | last
        · obtain ⟨z, inOld, same⟩ := bump_span above
          exact same ▸ nonempty.2 z inOld
        · rw [List.mem_singleton.mp last]
          exact size
      · rw [releasePaths_other notForker isMember]
        exact before

theorem parallelEnd {r : Nat} (isRegion : r < R.regions)
    (all : ∀ i < (R.region r).size, (R.task (R.memberOf r i)).ended = true) (isOpen : R.Waits r) :
    (R.after (.parallelEnd r)).Traced V W := by
  have size := (forking.bounds r isRegion).1
  -- A member that has ended has been past the closing barrier, and waits for no region.
  have finished : ∀ i < (R.region r).size, (R.task (R.memberOf r i)).closing = true ∧
      (R.task (R.memberOf r i)).arrived = (R.region r).released ∧
      (R.task (R.memberOf r i)).constructs = [] := by
    intro i bound
    have counters := forking.counters r isRegion i bound
    have ended := counters.ended (all i bound)
    have passed := counters.passed
    have arrived := counters.arrived
    refine ⟨ended.1, by omega, ?_⟩
    by_contra busy
    have opening := (counters.busy busy).2.2
    rw [ended.1] at opening
    cases opening
  obtain ⟨o, team⟩ := traced.team forking isRegion isOpen fun i bound => (finished i bound).2.2
  have sealed := traced.closed r isRegion isOpen 0 size (finished 0 size).1 (finished 0 size).2.1
  have opened : ∀ x < R.regions, (R.after (.parallelEnd r)).Waits x → R.Waits x ∧ x ≠ r := by
    intro x _ isOpen'
    change ((R.after (.parallelEnd r)).task (R.region x).encountering).constructs = _ at isOpen'
    rw [join_task] at isOpen'
    by_cases same : (R.region x).encountering = (R.region r).encountering
    · rw [if_pos same] at isOpen'
      change (R.task (R.region r).encountering).constructs.tail = _ at isOpen'
      rw [isOpen] at isOpen'
      cases isOpen'
    · rw [if_neg same] at isOpen'
      exact ⟨isOpen', fun equal => same (by rw [equal])⟩
  have member : ∀ x i, (R.after (.parallelEnd r)).memberOf x i = R.memberOf x i := fun _ _ => rfl
  refine ⟨?_, ?_, ?_, ?_, ?_, traced.start⟩
  · refine traced.exact.join team sealed (u := (R.region r).encountering) rfl ?_ ?_
    · intro a
      rw [Knows, join_task, if_pos rfl, Task.learn_known, Bool.or_eq_true, gather_iff]
      constructor
      · rintro (known | ⟨x, isMember, known⟩)
        · exact ⟨0, size, traced.inherit r isRegion isOpen 0 size a known⟩
        · obtain ⟨i, bound, rfl⟩ := Region.mem_members.mp isMember
          exact ⟨i, bound, known⟩
      · rintro ⟨i, bound, known⟩
        exact .inr ⟨_, Region.mem_members.mpr ⟨i, bound, rfl⟩, known⟩
    · intro v isActive
      by_cases self : v = (R.region r).encountering
      · exact .inl self
      · have same : (R.after (.parallelEnd r)).task v = R.task v := by rw [join_task, if_neg self]
        refine .inr ⟨⟨isActive.1, by rw [← same]; exact isActive.2.1, ?_⟩, ?_, rfl, ?_⟩
        · intro x isRegion' i isMember inside
          exact (opened x isRegion' (isActive.2.2 x isRegion' i isMember inside)).1
        · rintro i bound rfl
          exact (opened r isRegion (isActive.2.2 r isRegion i bound rfl)).2 rfl
        · funext a
          rw [Knows, Knows, same]
  · intro x isRegion' isOpen' i isMember
    obtain ⟨_, _, same, -⟩ := join_kept isOpen (R.memberOf x i)
    rw [member, same]
    exact traced.closed x isRegion' (opened x isRegion' isOpen').1 i isMember
  · intro x isRegion' isOpen' i isMember
    exact traced.shape x isRegion' (opened x isRegion' isOpen').1 i isMember
  · intro x isRegion' isOpen' i isMember a
    have old := traced.inherit x isRegion' (opened x isRegion' isOpen').1 i isMember a
    have other : (R.region x).encountering ≠ (R.region r).encountering := by
      intro equal
      obtain ⟨first, differ⟩ := opened x isRegion' isOpen'
      rw [Waits, equal, isOpen] at first
      cases first
      exact differ rfl
    change ((R.after (.parallelEnd r)).task (R.region x).encountering).known a = true →
      ((R.after (.parallelEnd r)).task (R.memberOf x i)).known a = true
    rw [join_task, join_task, if_neg other]
    by_cases isForker : R.memberOf x i = (R.region r).encountering
    · rw [if_pos isForker, Task.learn_known, ← isForker]
      intro known
      exact Bool.or_eq_true _ _ |>.mpr (.inl (old known))
    · rw [if_neg isForker]
      exact old
  · intro x a known
    rw [Knows, join_task] at known
    split at known
    · rw [Task.learn_known, Bool.or_eq_true, gather_iff] at known
      rcases known with known | ⟨y, -, known⟩
      · exact traced.past _ a known
      · exact traced.past y a known
    · exact traced.past x a known

theorem access {t : Nat} (isTask : t < R.tasks) (runs : (R.task t).running = true) :
    (R.after (.access t)).Traced V (Function.update W R.accesses (V t)) := by
  have idle := forking.running_idle isTask runs
  have task : ∀ x, (R.after (.access t)).task x =
      if x = t then (R.task t).learn (fun a => a == R.accesses) else R.task x := by
    intro x
    simp [after]
  have same : ∀ x, ((R.after (.access t)).task x).constructs = (R.task x).constructs := by
    intro x
    rw [task]
    by_cases self : x = t
    · rw [if_pos self, self]
      rfl
    · rw [if_neg self]
  have isOpen : ∀ r, (R.after (.access t)).Waits r ↔ R.Waits r := by
    intro r
    rw [Waits, same]
    rfl
  have active : (R.after (.access t)).Active = R.Active := by
    funext x
    simp only [Active, same, isOpen]
    rfl
  have member : ∀ r i, (R.after (.access t)).memberOf r i = R.memberOf r i := fun _ _ => rfl
  have now := forking.active isTask runs
  have grows : ∀ a, a < (R.after (.access t)).accesses ↔ a < R.accesses ∨ a = R.accesses :=
    fun a => Nat.lt_succ_iff_lt_or_eq
  have old : ∀ a, a < R.accesses → Function.update W R.accesses (V t) a = W a :=
    fun a bound => Function.update_of_ne (Nat.ne_of_lt bound) _ _
  have new : Function.update W R.accesses (V t) R.accesses = V t := Function.update_self ..
  have knows : ∀ x a, (R.after (.access t)).Knows x a ↔ R.Knows x a ∨ (x = t ∧ a = R.accesses) := by
    intro x a
    rw [Knows, task]
    by_cases self : x = t
    · rw [if_pos self, Task.learn_known, Bool.or_eq_true, beq_iff_eq, self]
      simp [Knows]
    · rw [if_neg self]
      simp [Knows, self]
  refine ⟨?_, ?_, ?_, ?_, ?_, traced.start⟩
  · rw [active]
    refine traced.exact.touch now (lt_irrefl _) grows old new ?_ ?_
    · intro a seen v
      rw [knows]
      simp [Nat.ne_of_lt seen]
    · intro v isActive
      rw [knows]
      have fresh : ¬ R.Knows v R.accesses := fun known => lt_irrefl _ (traced.past v _ known)
      simp [fresh]
  · intro r isRegion isOpen' i isMember
    have isOpen' := (isOpen r).mp isOpen'
    rw [member, task]
    -- The task of the access is running, so its region is not closing.
    by_cases self : R.memberOf r i = t
    · rw [if_pos self]
      intro closing
      have opening := (Task.running_iff.mp runs).2.2.2.1
      rw [show (R.task t).closing = true from closing] at opening
      cases opening
    · rw [if_neg self]
      intro closing arrived
      have together := forking.together r isRegion i isMember
      have finished : ∀ j < (R.region r).size, (R.task (R.memberOf r j)).constructs = [] := by
        intro j bound
        by_contra busy
        have opening := ((forking.counters r isRegion j bound).busy busy).2.2
        rw [(together j bound closing arrived).1] at opening
        cases opening
      obtain ⟨o, team⟩ := traced.team forking isRegion isOpen' finished
      refine (traced.closed r isRegion isOpen' i isMember closing arrived).touch traced.exact team now ?_
        grows old new
      rintro j bound rfl
      have opening := (Task.running_iff.mp runs).2.2.2.1
      rw [(together j bound closing arrived).1] at opening
      cases opening
  · intro r isRegion isOpen' i isMember
    exact traced.shape r isRegion ((isOpen r).mp isOpen') i isMember
  · intro r isRegion isOpen' i isMember a
    have isOpen' := (isOpen r).mp isOpen'
    have old := traced.inherit r isRegion isOpen' i isMember a
    change (R.after (.access t)).Knows (R.region r).encountering a →
      (R.after (.access t)).Knows (R.memberOf r i) a
    rw [knows, knows]
    rintro (known | ⟨self, -⟩)
    · exact .inl (old known)
    · rw [Waits, self, idle] at isOpen'
      cases isOpen'
  · intro x a known
    rcases (knows x a).mp known with before | ⟨-, rfl⟩
    · exact Nat.lt_succ_of_lt (traced.past x a before)
    · exact Nat.lt_succ_self _

end Traced

end Runtime

end Romp
