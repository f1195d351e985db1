import Romp.ForkJoin.Reports

open ForkJoin

namespace Romp

/-- What holds in every state of a fork-join program: the tasks are forking, their paths tell what
    they know, and the labels of the tasks and of the logged accesses encode these paths. -/
structure Tracked (s : System) (V W : Nat → Path) : Prop where
  forking : s.runtime.Forking
  traced : s.runtime.Traced V W
  labelled : Labelled s.runtime s.detector V
  recorded : Recorded s W

theorem Runtime.traced_init (W : Nat → Path) : Runtime.init.Traced (fun _ => [(0, 1)]) W := by
  have only : ∀ t, Runtime.init.Active t → t = 0 := fun t active => Nat.lt_one_iff.mp active.1
  refine ⟨⟨?_, ?_, ?_⟩, ?_, ?_, ?_, ?_, ?_⟩
  · intro u v first second differ
    exact absurd ((only u first).trans (only v second).symm) differ
  · intro a u none
    exact absurd none (Nat.not_lt_zero _)
  · intro a u none
    exact absurd none (Nat.not_lt_zero _)
  · intro r none
    exact absurd none (Nat.not_lt_zero _)
  · intro r none
    exact absurd none (Nat.not_lt_zero _)
  · intro r none
    exact absurd none (Nat.not_lt_zero _)
  · intro t a none
    cases none
  · intro t _
    simp

theorem Recorded.extend {s s' : System} {W : Nat → Path} (recorded : Recorded s W) (log : s'.log = s.log)
    (accesses : s'.runtime.accesses = s.runtime.accesses)
    (extend : s.detector.heap.Extends s'.detector.heap) : Recorded s' W := by
  refine ⟨by rw [log, accesses]; exact recorded.length, ?_⟩
  intro a e logged
  obtain ⟨holds, encodes⟩ := recorded.path a e (log ▸ logged)
  exact ⟨holds.extend extend, by rwa [holds.read extend]⟩

namespace Tracked

variable {s s' : System} {V W : Nat → Path}

theorem initial (begun : System.initial = .ok s) : Tracked s (fun _ => [(0, 1)]) fun _ => [] := by
  obtain ⟨segment, made, node⟩ := base_isNode (show 0 < 2 ^ 16 by decide) (show 1 < 2 ^ 16 by decide)
  simp only [System.initial, on_initial_task, genInitTaskLabel, made, bind, Except.bind,
    Except.ok.injEq] at begun
  subst begun
  refine ⟨Runtime.forking_init, Runtime.traced_init _, ⟨?_, ?_, ?_⟩, ⟨rfl, ?_⟩⟩
  · refine ⟨0, ⟨[Heap.empty.next], by simp [Heap.alloc, Detector.empty], ?_, ?_⟩, rfl⟩
    · intro x member
      rw [List.mem_singleton.mp member]
      exact Nat.lt_succ_self _
    · simp only [Heap.read, List.map_cons, List.map_nil, Detector.empty, Detector.setData_heap, Heap.alloc_read]
      exact .cons node .nil
  · intro r none
    exact absurd none (Nat.not_lt_zero _)
  · intro r none
    exact absurd none (Nat.not_lt_zero _)
  · intro a e none
    simp at none

theorem access (tracked : Tracked s V W) {t : Nat} (stepped : s.step (.access t) = some s') :
    Tracked s' V (Function.update W s.runtime.accesses (V t)) := by
  obtain ⟨label, known, detector, log⟩ := System.step_access stepped
  obtain ⟨enabled, -, runtime, -⟩ := System.step_cases stepped
  have runs := Runtime.running_lt enabled
  obtain ⟨label', known', holds, encodes⟩ := tracked.labelled.running tracked.forking runs.1 runs.2
  rw [known] at known'
  cases known'
  have length := tracked.recorded.length
  refine ⟨?_, ?_, ?_, ⟨?_, ?_⟩⟩
  · rw [runtime]
    exact tracked.forking.after (e := .access t) trivial enabled
  · rw [runtime]
    exact tracked.traced.access tracked.forking runs.1 runs.2
  · rw [runtime, detector]
    refine tracked.labelled.keep rfl rfl fun x => ?_
    simp only [Runtime.after, Runtime.set_task]
    by_cases self : x = t <;> simp [self, Task.learn]
  · rw [log, runtime, List.length_append, length]
    rfl
  · intro a e logged
    rw [detector]
    by_cases last : a = s.runtime.accesses
    · rw [log, List.getElem?_append_right (by omega), last, length, Nat.sub_self] at logged
      cases logged
      rw [last, Function.update_self]
      exact ⟨holds, encodes⟩
    · have before : a < s.log.length := by
        have bound := (List.getElem?_eq_some_iff.mp logged).1
        rw [log, List.length_append, List.length_singleton] at bound
        omega
      rw [log, List.getElem?_append_left before] at logged
      rw [Function.update_of_ne last]
      exact tracked.recorded.path a e logged

theorem step (tracked : Tracked s V W) {e : Event} (permitted : ForkJoinStep s e)
    (stepped : s.step e = some s') : ∃ V' W', Tracked s' V' W' := by
  obtain ⟨enabled, handled, runtime, log⟩ := System.step_cases stepped
  have forking := tracked.forking
  have traced := tracked.traced
  have forking' := forking.after permitted enabled
  rw [← runtime] at forking'
  cases e with
  | parallelBegin t size =>
    simp only [Runtime.enabled, Bool.and_eq_true, decide_eq_true_eq] at enabled
    have runs := Runtime.running_lt enabled.1
    simp only [Detector.handle, Except.ok.injEq] at handled
    refine ⟨s.runtime.forkPaths V t size, W, forking', ?_, ?_,
      tracked.recorded.extend log (by rw [runtime]; rfl) ?_⟩
    · rw [runtime]
      exact (traced.parallelBegin forking runs.1 runs.2 enabled.2).1
    · rw [runtime]
      exact tracked.labelled.parallelBegin forking runs.1 runs.2 (by rw [← handled]; exact ⟨rfl, rfl⟩)
    · rw [← handled]
      exact Heap.Extends.refl _
  | implicitBegin t =>
    simp only [Runtime.enabled, Bool.and_eq_true, decide_eq_true_eq, Bool.not_eq_true'] at enabled
    have notRoot : t ≠ 0 := by
      rintro rfl
      rw [forking.nested.root.2.2.1] at enabled
      cases enabled.2
    obtain ⟨r, isRegion, i, isMember, rfl⟩ := forking.member t enabled.1 notRoot
    obtain ⟨labelled, extend⟩ :=
      tracked.labelled.implicitBegin forking isRegion isMember enabled.2 handled
    refine ⟨V, W, forking', ?_, by rw [runtime]; exact labelled,
      tracked.recorded.extend log (by rw [runtime]; rfl) extend⟩
    rw [runtime]
    exact traced.set rfl rfl fun _ _ _ _ _ => .inl ⟨rfl, rfl⟩
  | barrierBegin t closing =>
    simp only [Runtime.enabled, Bool.and_eq_true] at enabled
    have runs := Runtime.running_lt enabled.1.1.1
    simp only [Detector.handle, on_ompt_callback_sync_region, Except.ok.injEq] at handled
    refine ⟨V, W, forking', ?_, ?_, tracked.recorded.extend log (by rw [runtime]; rfl) ?_⟩
    · rw [runtime]
      refine traced.set rfl rfl ?_
      rintro r isRegion i isMember rfl
      have settled := forking.nested.running_settled isRegion isMember runs.2
      have equal := (Task.running_iff.mp runs.2).2.2.1
      refine .inr ?_
      simp only [ne_eq]
      omega
    · rw [runtime, ← handled]
      refine tracked.labelled.keep rfl rfl fun x => ?_
      simp only [Runtime.after, Runtime.set_task]
      by_cases self : x = t <;> simp [self]
    · rw [← handled]
      exact Heap.Extends.refl _
  | release r =>
    simp only [Runtime.enabled, Bool.and_eq_true, decide_eq_true_eq, List.all_eq_true,
      Region.mem_members, beq_iff_eq, forall_exists_index, and_imp] at enabled
    have all : ∀ i < (s.runtime.region r).size, (s.runtime.task (s.runtime.memberOf r i)).arrived =
        (s.runtime.region r).released + 1 := fun i bound => (enabled.1.2 _ i bound rfl).1
    simp only [Detector.handle, Except.ok.injEq] at handled
    refine ⟨s.runtime.releasePaths V r, W, forking', ?_, ?_,
      tracked.recorded.extend log (by rw [runtime]; rfl) ?_⟩
    · rw [runtime]
      exact traced.release forking enabled.1.1 all
    · rw [runtime, ← handled]
      exact tracked.labelled.release forking enabled.1.1 all
    · rw [← handled]
      exact Heap.Extends.refl _
  | barrierEnd t =>
    simp only [Runtime.enabled, Bool.and_eq_true, decide_eq_true_eq] at enabled
    have notRoot : t ≠ 0 := by
      rintro rfl
      rw [forking.nested.root.1] at enabled
      cases enabled.2
    obtain ⟨r, isRegion, i, isMember, rfl⟩ := forking.member t enabled.1 notRoot
    have pending := enabled.2
    rw [(forking.kind r isRegion i isMember).1] at pending
    obtain ⟨labelled, extend⟩ := tracked.labelled.barrierEnd forking isRegion isMember
      (traced.start _ (forking.nested.encountering_lt isRegion)).1 (by simpa using pending) permitted handled
    refine ⟨V, W, forking', ?_, by rw [runtime]; exact labelled,
      tracked.recorded.extend log (by rw [runtime]; rfl) extend⟩
    rw [runtime]
    exact traced.set rfl rfl fun _ _ _ _ _ => .inl ⟨rfl, rfl⟩
  | implicitEnd t =>
    simp only [Runtime.enabled, Bool.and_eq_true, decide_eq_true_eq, beq_iff_eq, Bool.not_eq_true']
      at enabled
    have notRoot : t ≠ 0 := by
      rintro rfl
      rw [forking.nested.root.1] at enabled
      cases enabled.2
    obtain ⟨r, isRegion, i, isMember, rfl⟩ := forking.member t enabled.1.1.1.1 notRoot
    obtain ⟨labelled, heap⟩ := tracked.labelled.implicitEnd forking traced isRegion isMember
      enabled.1.1.1.2 enabled.1.1.2 enabled.1.2 handled
    refine ⟨V, W, forking', ?_, by rw [runtime]; exact labelled,
      tracked.recorded.extend log (by rw [runtime]; rfl) ?_⟩
    · rw [runtime]
      exact traced.set rfl rfl fun _ _ _ _ _ => .inl ⟨rfl, rfl⟩
    · rw [heap]
      exact Heap.Extends.refl _
  | parallelEnd r =>
    simp only [Runtime.enabled, Bool.and_eq_true, decide_eq_true_eq, Runtime.allEnded_iff,
      Region.mem_members, beq_iff_eq, forall_exists_index, and_imp] at enabled
    have all : ∀ i < (s.runtime.region r).size, (s.runtime.task (s.runtime.memberOf r i)).ended = true :=
      fun i bound => enabled.1.2 _ i bound rfl
    have isOpen := (forking.waits_iff enabled.1.1).mpr enabled.2
    simp only [Detector.handle, Except.ok.injEq] at handled
    refine ⟨V, W, forking', ?_, ?_, tracked.recorded.extend log (by rw [runtime]; rfl) ?_⟩
    · rw [runtime]
      exact traced.parallelEnd forking enabled.1.1 all isOpen
    · rw [runtime, ← handled]
      exact tracked.labelled.parallelEnd forking enabled.1.1 all isOpen
    · rw [← handled]
      exact Heap.Extends.refl _
  | access t => exact ⟨V, _, tracked.access stepped⟩
  | _ => exact permitted.elim

end Tracked

theorem System.Reachable.tracked {s : System} (reached : System.Reachable ForkJoinStep s) : ∃ V W, Tracked s V W := by
  induction reached with
  | start begun => exact ⟨_, _, Tracked.initial begun⟩
  | step _ permitted stepped ih =>
    obtain ⟨V, W, tracked⟩ := ih
    exact tracked.step permitted stepped

/-- In a program made of parallel regions and team barriers, the verdict on an earlier access and the
    access being made is that of the fork-join order, and no check of `happensBefore` fails. -/
theorem forkJoin_exact {s s' : System} {t a : Nat} (reached : System.Reachable ForkJoinStep s)
    (stepped : s.step (.access t) = some s') (earlier : a < s.log.length) :
    s'.verdict a s.log.length = .ok ((s.runtime.task t).known a) := by
  obtain ⟨V, W, tracked⟩ := System.Reachable.tracked reached
  obtain ⟨label, known, detector, log⟩ := System.step_access stepped
  obtain ⟨enabled, -, -, -⟩ := System.step_cases stepped
  have runs := Runtime.running_lt enabled
  have idle := tracked.forking.running_idle runs.1 runs.2
  have active := tracked.forking.active runs.1 runs.2
  obtain ⟨label', known', -, encodes⟩ := tracked.labelled.running tracked.forking runs.1 runs.2
  rw [known] at known'
  cases known'
  obtain ⟨entry, logged⟩ : ∃ entry, s.log[a]? = some entry := ⟨_, List.getElem?_eq_getElem earlier⟩
  have encodes' := (tracked.recorded.path a entry logged).2
  have hist : s'.labelOf a = s.detector.heap.read entry.label := by
    simp only [System.labelOf, log, List.getElem?_append_left earlier, logged, detector]
  have cur : s'.labelOf s.log.length = s.detector.heap.read label := by
    simp [System.labelOf, log, detector]
  have seen : a < s.runtime.accesses := by
    rw [← tracked.recorded.length]
    exact earlier
  rw [System.verdict, hist, cur, happensBefore_paths encodes' encodes (tracked.traced.exact.decided a t seen active)]
  congr 1
  rw [Bool.eq_iff_iff, decide_eq_true_eq]
  exact (tracked.traced.exact.exact a t seen active).symm

/-- Two members make accesses on the two sides of a barrier; the second one forks a team, whose members make accesses
    before and after a barrier of their own. -/
def nestedTeams : List Event :=
  [.access 0, .parallelBegin 0 2, .implicitBegin 1, .implicitBegin 2, .access 1, .barrierBegin 1 false, .barrierBegin 2 false,
    .release 0, .barrierEnd 1, .barrierEnd 2, .access 2, .parallelBegin 2 2, .implicitBegin 3, .implicitBegin 4, .access 3,
    .barrierBegin 3 false, .barrierBegin 4 false, .release 1, .barrierEnd 4, .access 4, .barrierEnd 3, .barrierBegin 3 true,
    .barrierBegin 4 true, .release 1, .barrierEnd 3, .barrierEnd 4, .implicitEnd 4, .implicitEnd 3, .parallelEnd 1]

/-- After the join the forker's access comes after those of its team, and not after what the other member does now. -/
theorem forkJoin_exact_nested : ∃ s s' s'', System.runWhile (fun s e => decide (ForkJoinStep s e)) nestedTeams = some s ∧
    s.step (.access 1) = some s' ∧ s'.step (.access 2) = some s'' ∧
    s''.verdict 1 6 = .ok true ∧ s''.verdict 3 6 = .ok true ∧ s''.verdict 5 6 = .ok false := by
  obtain ⟨s, ran, s', stepped, s'', stepped', length, first, member, other⟩ :
      ∃ s, System.runWhile (fun s e => decide (ForkJoinStep s e)) nestedTeams = some s ∧
        ∃ s' ∈ s.step (.access 1), ∃ s'' ∈ s'.step (.access 2), s'.log.length = 6 ∧
          (s'.runtime.task 2).known 1 = true ∧ (s'.runtime.task 2).known 3 = true ∧ (s'.runtime.task 2).known 5 = false :=
    exists_of_any (by decide)
  have reached : System.Reachable ForkJoinStep s' :=
    .step (.of_checked (fun _ _ => of_decide_eq_true) ran) (e := .access 1) trivial stepped
  have exact_ := fun {a} (earlier : a < 6) => length ▸ forkJoin_exact reached stepped' (length ▸ earlier)
  exact ⟨s, s', s'', ran, stepped, stepped', first ▸ exact_ (by decide), member ▸ exact_ (by decide),
    other ▸ exact_ (by decide)⟩

end Romp
