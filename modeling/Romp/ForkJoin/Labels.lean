import Romp.Core.Paths
import Romp.Label.Heap
import Romp.ForkJoin.Tracing

open ForkJoin

namespace Romp

def Detector.HasPath (d : Detector) (t : Nat) (p : Path) : Prop :=
  ∃ label, (d.data t).label = some label ∧ d.heap.Holds label ∧ Encodes (d.heap.read label) p

theorem Detector.HasPath.mono {d d' : Detector} {t : Nat} {p : Path} (hasPath : d.HasPath t p)
    (same : (d'.data t).label = (d.data t).label) (extend : d.heap.Extends d'.heap) :
    d'.HasPath t p := by
  obtain ⟨label, known, holds, encodes⟩ := hasPath
  exact ⟨label, same.trans known, holds.extend extend, by rwa [holds.read extend]⟩

/-- How many barriers of its region a waiting task has not heard of: it hears of all of them when
    the first member ends. -/
def Runtime.lag (R : Runtime) (t : Nat) : Nat :=
  match (R.task t).constructs with
  | .parallel r :: _ => if (R.task (R.region r).first).ended then 0 else (R.region r).released
  | _ => 0

/-- The labels lag behind the paths by the barriers whose ends have not been reported. -/
structure Labelled (R : Runtime) (d : Detector) (V : Nat → Path) : Prop where
  root : ∃ o, d.HasPath 0 [(o, 1)] ∧ V 0 = [(o + R.lag 0, 1)]
  unbegun : ∀ r < R.regions, ∀ i < (R.region r).size, (R.task (R.memberOf r i)).begun = false →
    V (R.memberOf r i) = V (R.region r).encountering ++ [(i, (R.region r).size)]
  label : ∀ r < R.regions, ∀ i < (R.region r).size, (R.task (R.memberOf r i)).begun = true →
    (R.task (R.memberOf r i)).ended = false →
    ∃ q o, d.HasPath (R.memberOf r i) (q ++ [(o, (R.region r).size)]) ∧
      V (R.region r).encountering =
        (if (R.task (R.memberOf r i)).passed < (R.region r).released then bump q else q) ∧
      V (R.memberOf r i) = V (R.region r).encountering ++
        [(o + R.lag (R.memberOf r i) * (R.region r).size, (R.region r).size)]

structure Recorded (s : System) (W : Nat → Path) : Prop where
  length : s.log.length = s.runtime.accesses
  path : ∀ a e, s.log[a]? = some e →
    s.detector.heap.Holds e.label ∧ Encodes (s.detector.heap.read e.label) (W a)

namespace Labelled

variable {R : Runtime} {d : Detector} {V W : Nat → Path} (forking : R.Forking) (labelled : Labelled R d V)

include forking labelled

theorem current {t : Nat} (isTask : t < R.tasks) (begun : (R.task t).begun = true)
    (live : (R.task t).ended = false) (settled : (R.task t).arrived = (R.task t).passed)
    (prompt : R.lag t = 0) : d.HasPath t (V t) := by
  by_cases start : t = 0
  · subst start
    obtain ⟨o, hasPath, path⟩ := labelled.root
    rw [path, prompt]
    exact hasPath
  · obtain ⟨r, isRegion, i, isMember, rfl⟩ := forking.member t isTask start
    obtain ⟨q, o, hasPath, forker, path⟩ := labelled.label r isRegion i isMember begun live
    have arrived := (forking.counters r isRegion i isMember).arrived
    have prompt' : ¬ (R.task (R.memberOf r i)).passed < (R.region r).released := by omega
    rw [if_neg prompt'] at forker
    rw [path, forker, prompt, Nat.zero_mul, Nat.add_zero]
    exact hasPath

omit forking labelled in
theorem lag_idle {t : Nat} (idle : (R.task t).constructs = []) : R.lag t = 0 := by
  simp [Runtime.lag, idle]

omit forking labelled in
theorem lag_waits {t r : Nat} {rest : List Construct} (busy : (R.task t).constructs = .parallel r :: rest) :
    R.lag t = if (R.task (R.region r).first).ended then 0 else (R.region r).released := by
  simp [Runtime.lag, busy]

theorem running {t : Nat} (isTask : t < R.tasks) (runs : (R.task t).running = true) :
    d.HasPath t (V t) := by
  obtain ⟨begun, live, settled, -⟩ := Task.running_iff.mp runs
  exact labelled.current forking isTask begun live settled (lag_idle (forking.running_idle isTask runs))

end Labelled

theorem Runtime.Forking.forker_waits {R : Runtime} (forking : R.Forking) {r : Nat} (isRegion : r < R.regions)
    (isOpen : R.Waits r) (start : (R.region r).encountering ≠ 0) :
    ∃ x < R.regions, ∃ j < (R.region x).size, (R.region r).encountering = R.memberOf x j ∧
      (R.task (R.memberOf x j)).begun = true ∧ (R.task (R.memberOf x j)).ended = false ∧
      (R.task (R.memberOf x j)).arrived = (R.task (R.memberOf x j)).passed := by
  obtain ⟨x, isRegion', j, isMember, same⟩ :=
    forking.member _ (forking.nested.encountering_lt isRegion) start
  have counters := forking.counters x isRegion' j isMember
  have busy : (R.task (R.memberOf x j)).constructs ≠ [] := by
    rw [← same, isOpen]
    simp
  obtain ⟨settled, begun, opening⟩ := counters.busy busy
  refine ⟨x, isRegion', j, isMember, same, begun, ?_, settled⟩
  rw [← Bool.not_eq_true]
  intro ended
  rw [(counters.ended ended).1] at opening
  cases opening

namespace Labelled

variable {R R' : Runtime} {d d' : Detector} {V V' : Nat → Path}

variable (R R') in
theorem lag_congr (tasks : ∀ x, (R'.task x).constructs = (R.task x).constructs ∧
      (R'.task x).ended = (R.task x).ended)
    (regions : ∀ r, (R'.region r).first = (R.region r).first ∧
      (R'.region r).released = (R.region r).released) (t : Nat) : R'.lag t = R.lag t := by
  simp only [Runtime.lag, (tasks _).1, (tasks _).2, (regions _).1, (regions _).2]

theorem keep (labelled : Labelled R d V) (count : R'.regions = R.regions) (regions : R'.region = R.region)
    (tasks : ∀ x, (R'.task x).constructs = (R.task x).constructs ∧ (R'.task x).ended = (R.task x).ended ∧
      (R'.task x).begun = (R.task x).begun ∧ (R'.task x).passed = (R.task x).passed) :
    Labelled R' d V := by
  have member : R'.memberOf = R.memberOf := by
    funext r i
    rw [Runtime.memberOf, regions, Runtime.memberOf]
  have lag := lag_congr R R' (fun x => ⟨(tasks x).1, (tasks x).2.1⟩)
    (fun r => by rw [regions]; exact ⟨rfl, rfl⟩)
  constructor
  · rw [lag]
    exact labelled.root
  · simp only [count, regions, member, (tasks _).2.2.1]
    exact labelled.unbegun
  · simp only [count, regions, member, lag, (tasks _).2.2.1, (tasks _).2.2.2, (tasks _).2.1]
    exact labelled.label

theorem parallelBegin (forking : R.Forking) (labelled : Labelled R d V) {t size : Nat} (isTask : t < R.tasks)
    (runs : (R.task t).running = true)
    (same : d'.heap = d.heap ∧ d'.data = d.data) :
    Labelled (R.after (.parallelBegin t size)) d' (R.forkPaths V t size) := by
  have idle := forking.running_idle isTask runs
  have old : ∀ x < R.tasks, R.forkPaths V t size x = V x := fun x bound => if_pos bound
  have hasPath : ∀ x p, d.HasPath x p → d'.HasPath x p := by
    intro x p hasPath
    exact hasPath.mono (by rw [same.2]) (by rw [same.1]; exact Heap.Extends.refl _)
  have lag : ∀ x < R.tasks, (R.after (.parallelBegin t size)).lag x = R.lag x := by
    intro x bound
    by_cases self : x = t
    · have before : R.lag x = 0 := lag_idle (self ▸ idle)
      rw [before, Runtime.lag, Runtime.fork_task bound, if_pos self]
      simp only [Task.enter, Runtime.fork_region, if_true, Runtime.newRegion, ite_self]
    · rcases forking.forked x bound with empty | ⟨r, isRegion, busy, -⟩
      · rw [lag_idle empty, lag_idle]
        rw [Runtime.fork_task bound, if_neg self, empty]
      · obtain ⟨constructs, kept⟩ := Runtime.fork_kept t size
          (forking.nested.member_lt isRegion (forking.bounds r isRegion).1)
        simp only [Runtime.memberOf, Nat.add_zero] at kept
        rw [Runtime.lag, Runtime.lag, Runtime.fork_task bound, if_neg self, busy]
        simp only [Runtime.fork_region_old isRegion, kept]
  have cases : ∀ r < R.regions + 1, r < R.regions ∨ r = R.regions := by omega
  constructor
  · rw [lag 0 forking.nested.positive, old 0 forking.nested.positive]
    obtain ⟨o, known, path⟩ := labelled.root
    exact ⟨o, hasPath 0 _ known, path⟩
  · intro r isRegion i isMember unbegun
    rcases cases r isRegion with before | rfl
    · rw [Runtime.fork_region_old before] at isMember ⊢
      rw [Runtime.fork_memberOf before] at unbegun ⊢
      obtain ⟨_, kept⟩ := Runtime.fork_kept t size (forking.nested.member_lt before isMember)
      rw [kept] at unbegun
      rw [old _ (forking.nested.member_lt before isMember), old _ (forking.nested.encountering_lt before)]
      exact labelled.unbegun r before i isMember unbegun
    · rw [Runtime.fork_memberOf_new, Runtime.fork_region, if_pos rfl, Runtime.newRegion, old t isTask,
        Runtime.forkPaths, if_neg (by omega), Nat.add_sub_cancel_left]
  · intro r isRegion i isMember begun live
    rcases cases r isRegion with before | rfl
    · rw [Runtime.fork_region_old before] at isMember ⊢
      have bound := forking.nested.member_lt before isMember
      rw [Runtime.fork_memberOf before] at begun live ⊢
      obtain ⟨_, kept⟩ := Runtime.fork_kept t size bound
      rw [kept] at begun live
      rw [old _ bound, old _ (forking.nested.encountering_lt before), lag _ bound, kept]
      obtain ⟨q, o, known, path⟩ := labelled.label r before i isMember begun live
      exact ⟨q, o, hasPath _ _ known, path⟩
    · simp only [Runtime.fork_region, if_true] at isMember
      change i < size at isMember
      rw [Runtime.fork_memberOf_new, Runtime.fork_member isMember] at begun
      cases begun

theorem release (forking : R.Forking) (labelled : Labelled R d V) {r : Nat}
    (isRegion : r < R.regions)
    (all : ∀ i < (R.region r).size, (R.task (R.memberOf r i)).arrived = (R.region r).released + 1) :
    Labelled (R.after (.release r)) d (R.releasePaths V r) := by
  have size := (forking.bounds r isRegion).1
  have isOpen := Runtime.Traced.waiting_open forking isRegion all
  have first : R.memberOf r 0 = (R.region r).first := Nat.add_zero _
  have firstLive := (Runtime.Traced.waiting forking isRegion all size).2
  rw [first] at firstLive
  have forkerLag : (R.after (.release r)).lag (R.region r).encountering =
      R.lag (R.region r).encountering + 1 := by
    obtain ⟨_, same⟩ := Runtime.release_kept (R := R) (r := r) (R.region r).encountering
    obtain ⟨_, same'⟩ := Runtime.release_kept (R := R) (r := r) (R.region r).first
    rw [Runtime.lag, Runtime.lag, same, isOpen]
    simp [Runtime.release_region, same', firstLive]
  have lag : ∀ x < R.tasks, x ≠ (R.region r).encountering → (R.after (.release r)).lag x = R.lag x := by
    intro x isTask differ
    obtain ⟨_, same⟩ := Runtime.release_kept (R := R) (r := r) x
    rcases forking.forked x isTask with empty | ⟨y, _, busy, forker⟩
    · rw [lag_idle empty, lag_idle (by rw [same]; exact empty)]
    · have other : y ≠ r := fun equal => differ (by rw [← forker, equal])
      obtain ⟨_, same'⟩ := Runtime.release_kept (R := R) (r := r) (R.region y).first
      simp only [Runtime.lag, same, busy, Runtime.release_region, if_neg other, same']
  -- A region that is not joined: it is the one released, or its forker stays where it was.
  have elsewhere : ∀ x < R.regions, ∀ i < (R.region x).size, (R.task (R.memberOf x i)).ended = false →
      x ≠ r → R.releasePaths V r (R.region x).encountering = V (R.region x).encountering := by
    intro x isRegion' i isMember live differ
    refine Runtime.Traced.releasePaths_elsewhere forking isRegion all ?_ differ
    by_contra closed
    rw [forking.joined x isRegion' closed i isMember] at live
    cases live
  constructor
  · obtain ⟨o, known, path⟩ := labelled.root
    refine ⟨o, known, ?_⟩
    by_cases forker : 0 = (R.region r).encountering
    · rw [forker, Runtime.Traced.releasePaths_forker, forkerLag, ← forker, path, bump, ← Nat.add_assoc]
    · rw [lag 0 forking.nested.positive forker, Runtime.Traced.releasePaths_other forker, path]
      intro isMember
      obtain ⟨i, _, same⟩ := Region.mem_members.mp isMember
      exact forking.nested.member_ne_zero isRegion i same
  · intro x isRegion' i isMember unbegun
    rw [(Runtime.release_layout x).1] at isMember ⊢
    rw [Runtime.release_memberOf] at unbegun ⊢
    rw [(Runtime.release_layout x).2.2]
    obtain ⟨_, same⟩ := Runtime.release_kept (R := R) (r := r) (R.memberOf x i)
    rw [same] at unbegun
    have still := (forking.counters x isRegion' i isMember).unbegun unbegun
    have other : x ≠ r := by
      rintro rfl
      have arrived := all i isMember
      omega
    have live : (R.task (R.memberOf x i)).ended = false := by
      rw [← Bool.not_eq_true]
      intro ended
      have closing := ((forking.counters x isRegion' i isMember).ended ended).1
      rw [still.2] at closing
      cases closing
    rw [elsewhere x isRegion' i isMember live other, Runtime.Traced.releasePaths_other]
    · exact labelled.unbegun x isRegion' i isMember unbegun
    · intro forker
      have busy := ((forking.counters x isRegion' i isMember).busy (by rw [forker, isOpen]; simp)).2.1
      rw [unbegun] at busy
      cases busy
    · intro inMembers
      obtain ⟨j, bound, equal⟩ := Region.mem_members.mp inMembers
      exact other (forking.nested.member_inj isRegion' isMember isRegion bound equal.symm).1
  · intro x isRegion' i isMember begun live
    rw [(Runtime.release_layout x).1] at isMember ⊢
    rw [Runtime.release_memberOf] at begun live ⊢
    rw [(Runtime.release_layout x).2.2]
    obtain ⟨_, same⟩ := Runtime.release_kept (R := R) (r := r) (R.memberOf x i)
    rw [same] at begun live ⊢
    obtain ⟨q, o, known, forker, path⟩ := labelled.label x isRegion' i isMember begun live
    by_cases self : x = r
    · subst self
      have counters := forking.counters x isRegion' i isMember
      have notForker : R.memberOf x i ≠ (R.region x).encountering := fun equal =>
        Runtime.Traced.waiting_forker forking isRegion all isOpen (equal ▸ Region.mem_members.mpr ⟨i, isMember, rfl⟩)
      have arrived := all i isMember
      have passed := counters.next
      have prompt : ¬ (R.task (R.memberOf x i)).passed < (R.region x).released := by omega
      have pending : (R.task (R.memberOf x i)).passed < (R.region x).released + 1 :=
        Nat.lt_succ_of_le counters.passed
      refine ⟨q, o, known, ?_, ?_⟩
      · rw [Runtime.release_region, if_pos rfl, if_pos pending, Runtime.Traced.releasePaths_forker, forker,
          if_neg prompt]
      · rw [lag _ (forking.nested.member_lt isRegion' isMember) notForker, Runtime.Traced.releasePaths_forker,
          Runtime.Traced.releasePaths_member forking isRegion all isMember path]
    · rw [Runtime.release_region, if_neg self, elsewhere x isRegion' i isMember live self]
      refine ⟨q, o, known, forker, ?_⟩
      by_cases isForker : R.memberOf x i = (R.region r).encountering
      · rw [isForker, Runtime.Traced.releasePaths_forker, forkerLag, ← isForker, path, bump_snoc, Nat.succ_mul,
          ← Nat.add_assoc]
      · rw [lag _ (forking.nested.member_lt isRegion' isMember) isForker,
          Runtime.Traced.releasePaths_other isForker, path]
        intro inMembers
        obtain ⟨j, bound, equal⟩ := Region.mem_members.mp inMembers
        exact self (forking.nested.member_inj isRegion' isMember isRegion bound equal.symm).1

end Labelled

end Romp
