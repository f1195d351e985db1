import Romp.ForkJoin.Labels

open ForkJoin

namespace Romp

section Operations

variable {h : Heap} {label : Label} {p : Path}

theorem genImpTaskLabel_path (holds : h.Holds label) (encodes : Encodes (h.read label) p) {i n : Nat}
    (small : i < 2 ^ 16) (small' : n < 2 ^ 16) :
    ∃ h' made, genImpTaskLabel h label i n = .ok (h', made) ∧ h.Extends h' ∧ h'.Holds made ∧
      Encodes (h'.read made) (p ++ [(i, n)]) := by
  obtain ⟨s, made, node⟩ := base_isNode small small'
  have extend := h.alloc_extends s
  refine ⟨(h.alloc s).1, label ++ [h.next], ?_, extend, ?_, ?_⟩
  · simp [genImpTaskLabel, made, bind, Except.bind, Heap.alloc]
  · intro x member
    rcases List.mem_append.mp member with old | new
    · exact holds.extend extend x old
    · rw [List.mem_singleton.mp new]
      exact Nat.lt_succ_self _
  · rw [Heap.read_append, holds.read extend]
    apply encodes.append
    simp only [Heap.read, List.map_cons, List.map_nil, Heap.alloc_read]
    exact .cons node .nil

theorem Encodes.references {q r : Path} (encodes : Encodes (h.read label) (q ++ r)) :
    ∃ above below, label = above ++ below ∧ Encodes (h.read above) q ∧ Encodes (h.read below) r := by
  obtain ⟨first, second, same, left, right⟩ := encodes.split
  obtain ⟨above, below, rfl, rfl, rfl⟩ := List.map_eq_append_iff.mp same
  exact ⟨above, below, rfl, left, right⟩

theorem Encodes.reference {x : Node} (encodes : Encodes (h.read label) [x]) :
    ∃ r, label = [r] ∧ IsNode (h.objects r) x := by
  match label, encodes with
  | [r], .cons node .nil => exact ⟨r, rfl, node⟩

theorem mutateParentImpEnd_path {q : Path} {x : Node} (holds : h.Holds label)
    (encodes : Encodes (h.read label) (q ++ [x])) :
    ∃ rest, mutateParentImpEnd label = .ok rest ∧ h.Holds rest ∧ Encodes (h.read rest) q := by
  obtain ⟨above, below, rfl, left, right⟩ := encodes.references
  obtain ⟨r, rfl, -⟩ := right.reference
  refine ⟨above, ?_, fun y member => holds y (List.mem_append_left _ member), left⟩
  simp [mutateParentImpEnd, Label.popSegment, bind, Except.bind]

theorem mutateBarrierEnd_path {q : Path} {x : Node} (start : q ≠ []) (holds : h.Holds label)
    (encodes : Encodes (h.read label) (q ++ [x]))
    (fits : ∀ r, label.getLastKthSegment 2 = .ok r →
      (h.objects r).getOffset + (h.objects r).getSpan < 2 ^ 16) :
    ∃ h' made, mutateBarrierEnd h label = .ok (h', made) ∧ h.Extends h' ∧ h'.Holds made ∧
      Encodes (h'.read made) (bump q ++ [x]) := by
  obtain ⟨pre, y, rfl⟩ := (List.eq_nil_or_concat' q).resolve_left start
  obtain ⟨upper, last, rfl, encodes', right⟩ := encodes.references
  obtain ⟨r, rfl, node⟩ := right.reference
  obtain ⟨above, middle, rfl, left, center⟩ := encodes'.references
  obtain ⟨r', rfl, node'⟩ := center.reference
  have second : (above ++ [r'] ++ [r]).getLastKthSegment 2 = .ok r' := by
    simp [Label.getLastKthSegment]
  have bound := fits r' second
  rw [node'.getOffset, node'.getSpan] at bound
  have moved : IsNode _ (y.1 + y.2, y.2) := node'.setOffsetSpan bound (by omega)
  have extend := h.alloc_extends ((h.objects r').setOffsetSpan (y.1 + y.2) y.2)
  refine ⟨_, above ++ [h.next] ++ [r], ?_, extend, ?_, ?_⟩
  · have replaced : (above ++ [r'] ++ [r]).setLastKthSegment 2 h.next = .ok (above ++ [h.next] ++ [r]) := by
      simp [Label.setLastKthSegment]
    rw [mutateBarrierEnd, second]
    simp only [bind, Except.bind, Heap.alloc, node'.getOffset, node'.getSpan, replaced]
  · intro z member
    simp only [List.mem_append, List.mem_singleton] at member
    rcases member with (old | rfl) | rfl
    · exact holds.extend extend z (by simp [old])
    · exact Nat.lt_succ_self _
    · exact holds.extend extend z (by simp)
  · have upper : h.Holds above := fun z member => holds z (by simp [member])
    have lower : h.Holds [r] := fun z member => holds z (List.mem_append_right _ member)
    rw [bump_snoc, Heap.read_append, Heap.read_append, upper.read extend, lower.read extend]
    refine (left.append ?_).append right
    simp only [Heap.read, List.map_cons, List.map_nil, Heap.alloc_read]
    exact .cons moved .nil

end Operations

namespace Labelled

variable {R : Runtime} {d d' : Detector} {V W : Nat → Path} (forking : R.Forking) (labelled : Labelled R d V)

theorem change (labelled : Labelled R d V) {m : Nat} {task : Task} (notRoot : m ≠ 0)
    (constructs : task.constructs = (R.task m).constructs) (ended : task.ended = (R.task m).ended)
    (begun : task.begun = true) (extend : d.heap.Extends d'.heap)
    (labels : ∀ x, x ≠ m → (d'.data x).label = (d.data x).label)
    (here : ∀ r < R.regions, ∀ i < (R.region r).size, R.memberOf r i = m →
      ∃ q o, d'.HasPath m (q ++ [(o, (R.region r).size)]) ∧
        V (R.region r).encountering = (if task.passed < (R.region r).released then bump q else q) ∧
        V m = V (R.region r).encountering ++ [(o + R.lag m * (R.region r).size, (R.region r).size)]) :
    Labelled (R.set m task) d' V := by
  have member : ∀ x j, (R.set m task).memberOf x j = R.memberOf x j := fun _ _ => rfl
  have lag := lag_congr R (R.set m task)
    (fun x => by rw [Runtime.set_task]; by_cases self : x = m <;> simp [self, constructs, ended])
    (fun _ => ⟨rfl, rfl⟩)
  refine ⟨?_, ?_, ?_⟩
  · rw [lag]
    obtain ⟨o, known, path⟩ := labelled.root
    exact ⟨o, known.mono (labels 0 notRoot.symm) extend, path⟩
  · intro r isRegion i isMember unbegun
    rw [member, Runtime.set_task] at unbegun
    by_cases self : R.memberOf r i = m
    · rw [if_pos self, begun] at unbegun
      cases unbegun
    · rw [if_neg self] at unbegun
      exact labelled.unbegun r isRegion i isMember unbegun
  · intro r isRegion i isMember begun' live
    rw [member, Runtime.set_task] at begun' live
    rw [member, lag, Runtime.set_task]
    by_cases self : R.memberOf r i = m
    · rw [if_pos self, self]
      exact here r isRegion i isMember self
    · rw [if_neg self] at begun' live ⊢
      obtain ⟨q, o, known, path⟩ := labelled.label r isRegion i isMember begun' live
      exact ⟨q, o, known.mono (labels _ self) extend, path⟩

include forking

theorem forker_current (labelled : Labelled R d V) {r i : Nat} (isRegion : r < R.regions)
    (isMember : i < (R.region r).size) (live : (R.task (R.memberOf r i)).ended = false)
    (prompt : R.lag (R.region r).encountering = 0) :
    d.HasPath (R.region r).encountering (V (R.region r).encountering) := by
  have isOpen : R.Waits r := by
    by_contra closed
    rw [forking.joined r isRegion closed i isMember] at live
    cases live
  by_cases start : (R.region r).encountering = 0
  · obtain ⟨o, hasPath, path⟩ := labelled.root
    rw [start] at prompt ⊢
    rw [path, prompt]
    exact hasPath
  · obtain ⟨x, isRegion', j, isMember', same, begun, live', settled⟩ :=
      forking.forker_waits isRegion isOpen start
    rw [same] at prompt ⊢
    exact labelled.current forking (forking.nested.member_lt isRegion' isMember') begun live' settled prompt

include labelled

theorem implicitBegin {r i : Nat} (isRegion : r < R.regions) (isMember : i < (R.region r).size)
    (unbegun : (R.task (R.memberOf r i)).begun = false)
    (handled : d.handle R (.implicitBegin (R.memberOf r i)) = .ok d') :
    Labelled (R.after (.implicitBegin (R.memberOf r i))) d' V ∧ d.heap.Extends d'.heap := by
  have counters := forking.counters r isRegion i isMember
  have still := counters.unbegun unbegun
  have bounds := forking.bounds r isRegion
  have live : (R.task (R.memberOf r i)).ended = false := by
    rw [← Bool.not_eq_true]
    intro ended
    have closing := (counters.ended ended).1
    rw [still.2] at closing
    cases closing
  have idle : (R.task (R.memberOf r i)).constructs = [] := by
    by_contra busy
    rw [(counters.busy busy).2.1] at unbegun
    cases unbegun
  have released : (R.region r).released = 0 := by
    have arrived := counters.arrived
    omega
  have isOpen : R.Waits r := by
    by_contra closed
    rw [forking.joined r isRegion closed i isMember] at live
    cases live
  have prompt : R.lag (R.region r).encountering = 0 := by
    rw [Runtime.lag, isOpen]
    simp [released]
  obtain ⟨label, known, holds, encodes⟩ := forker_current forking labelled isRegion isMember live prompt
  obtain ⟨heap, made, generated, extend, holds', encodes'⟩ :=
    genImpTaskLabel_path holds encodes (i := i) (by omega) bounds.2.1
  have kind := forking.kind r isRegion i isMember
  have notOther : ¬ ((R.region r).size = 0 ∧ i ≠ 0) := by omega
  simp only [Detector.handle, kind.1, kind.2, on_ompt_callback_implicit_task, if_neg notOther,
    Detector.getLabel, known, generated, bind, Except.bind, Except.ok.injEq] at handled
  subst handled
  refine ⟨labelled.change (forking.nested.member_ne_zero isRegion i) rfl rfl rfl extend (fun x other => ?_) ?_, extend⟩
  · simp [other]
  · intro x isRegion' j isMember' self
    obtain ⟨rfl, rfl⟩ := forking.nested.member_inj isRegion' isMember' isRegion isMember self
    refine ⟨V (R.region x).encountering, j, ⟨made, by simp, holds', encodes'⟩, ?_, ?_⟩
    · rw [released, if_neg (Nat.not_lt_zero _)]
    · rw [lag_idle idle, Nat.zero_mul, Nat.add_zero]
      exact labelled.unbegun x isRegion j isMember unbegun

theorem barrierEnd {r i : Nat} (isRegion : r < R.regions) (isMember : i < (R.region r).size)
    (start : V (R.region r).encountering ≠ [])
    (pending : (R.task (R.memberOf r i)).passed < (R.region r).released)
    (fits : ∀ label x, (d.data (R.memberOf r i)).label = some label → label.getLastKthSegment 2 = .ok x →
      (d.heap.objects x).getOffset + (d.heap.objects x).getSpan < 2 ^ 16)
    (handled : d.handle R (.barrierEnd (R.memberOf r i)) = .ok d') :
    Labelled (R.after (.barrierEnd (R.memberOf r i))) d' V ∧ d.heap.Extends d'.heap := by
  have counters := forking.counters r isRegion i isMember
  have arrived := counters.arrived
  have next := counters.next
  have reached : (R.task (R.memberOf r i)).arrived = (R.task (R.memberOf r i)).passed + 1 := by omega
  have begun : (R.task (R.memberOf r i)).begun = true := by
    by_contra unbegun
    have still := (counters.unbegun (by simpa using unbegun)).1
    omega
  have live : (R.task (R.memberOf r i)).ended = false := by
    rw [← Bool.not_eq_true]
    intro ended
    have equal := (counters.ended ended).2
    omega
  obtain ⟨q, o, ⟨label, known, holds, encodes⟩, forker, path⟩ :=
    labelled.label r isRegion i isMember begun live
  rw [if_pos pending] at forker
  have nonempty : q ≠ [] := by
    rintro rfl
    exact start forker
  obtain ⟨heap, made, mutated, extend, holds', encodes'⟩ :=
    mutateBarrierEnd_path nonempty holds encodes fun x => fits label x known
  simp only [Detector.handle, on_ompt_callback_sync_region, Detector.mutateLabel, Detector.getLabel, known,
    mutated, bind, Except.bind, Except.ok.injEq] at handled
  subst handled
  refine ⟨labelled.change (forking.nested.member_ne_zero isRegion i) rfl rfl begun extend (fun x other => ?_) ?_, extend⟩
  · simp [other]
  · intro x isRegion' j isMember' self
    obtain ⟨rfl, rfl⟩ := forking.nested.member_inj isRegion' isMember' isRegion isMember self
    refine ⟨bump q, o, ⟨made, by simp, holds', encodes'⟩, ?_, path⟩
    change _ = if (R.task (R.memberOf x j)).passed + 1 < (R.region x).released then _ else _
    rw [if_neg (by omega)]
    exact forker

omit labelled in
/-- The end of a task changes the lag of one task, when it is the first member of its region. -/
theorem lag_implicitEnd {r i : Nat} (isRegion : r < R.regions) (isMember : i < (R.region r).size) :
    (i = 0 → R.Waits r → (R.after (.implicitEnd (R.memberOf r i))).lag (R.region r).encountering = 0) ∧
      ∀ x < R.tasks, ¬ (x = (R.region r).encountering ∧ i = 0) →
        (R.after (.implicitEnd (R.memberOf r i))).lag x = R.lag x := by
  have task : ∀ x, (R.after (.implicitEnd (R.memberOf r i))).task x =
      if x = R.memberOf r i then { R.task (R.memberOf r i) with ended := true } else R.task x :=
    fun x => Runtime.set_task ..
  have region : (R.after (.implicitEnd (R.memberOf r i))).region = R.region := rfl
  have kept : ∀ x, ((R.after (.implicitEnd (R.memberOf r i))).task x).constructs = (R.task x).constructs := by
    intro x
    rw [task]
    by_cases self : x = R.memberOf r i <;> simp [self]
  constructor
  · rintro rfl isOpen
    have first : (R.region r).first = R.memberOf r 0 := rfl
    rw [lag_waits ((kept _).trans isOpen), region, task, if_pos first]
    rfl
  · intro x isTask other
    rcases forking.forked x isTask with empty | ⟨y, isRegion', busy, self⟩
    · rw [lag_idle empty, lag_idle (by rw [kept, empty])]
    · have first : (R.region y).first ≠ R.memberOf r i := by
        intro same
        obtain ⟨rfl, rfl⟩ := forking.nested.member_inj isRegion' (forking.bounds y isRegion').1 isRegion isMember same
        exact other ⟨self.symm, rfl⟩
      rw [lag_waits ((kept x).trans busy), lag_waits busy, region, task, if_neg first]

omit labelled in
theorem handle_implicitEnd {r i : Nat} (isRegion : r < R.regions) (isMember : i < (R.region r).size)
    {q : Path} {x : Node} (hasPath : d.HasPath (R.memberOf r i) (q ++ [x]))
    (handled : d.handle R (.implicitEnd (R.memberOf r i)) = .ok d') :
    d'.heap = d.heap ∧ (i = 0 → d'.HasPath (R.region r).encountering q) ∧
      ∀ y, ¬ (y = (R.region r).encountering ∧ i = 0) → (d'.data y).label = (d.data y).label := by
  have kind := forking.kind r isRegion i isMember
  obtain ⟨label, known, holds, encodes⟩ := hasPath
  obtain ⟨rest, popped, holds', encodes'⟩ := mutateParentImpEnd_path holds encodes
  by_cases first : i = 0
  · subst first
    simp only [Detector.handle, kind.1, kind.2, on_ompt_callback_implicit_task, Detector.getLabel, known,
      popped, bind, Except.bind, ne_eq, not_true, and_false, if_false, Except.ok.injEq] at handled
    subst handled
    refine ⟨rfl, fun _ => ⟨rest, by simp, holds', encodes'⟩, ?_⟩
    intro y other
    simp only [and_true] at other
    simp [other]
  · simp only [Detector.handle, kind.1, on_ompt_callback_implicit_task, ne_eq, first, not_false_eq_true,
      and_self, if_true, Except.ok.injEq] at handled
    subst handled
    exact ⟨rfl, fun zero => absurd zero first, fun _ _ => rfl⟩

theorem implicitEnd (traced : R.Traced V W) {r i : Nat} (isRegion : r < R.regions)
    (isMember : i < (R.region r).size) (closing : (R.task (R.memberOf r i)).closing = true)
    (equal : (R.task (R.memberOf r i)).arrived = (R.task (R.memberOf r i)).passed)
    (live : (R.task (R.memberOf r i)).ended = false)
    (handled : d.handle R (.implicitEnd (R.memberOf r i)) = .ok d') :
    Labelled (R.after (.implicitEnd (R.memberOf r i))) d' V ∧ d'.heap = d.heap := by
  have counters := forking.counters r isRegion i isMember
  have begun : (R.task (R.memberOf r i)).begun = true := by
    by_contra unbegun
    rw [(counters.unbegun (by simpa using unbegun)).2] at closing
    cases closing
  have isOpen : R.Waits r := by
    by_contra closed
    rw [forking.joined r isRegion closed i isMember] at live
    cases live
  have arrived := counters.arrived
  obtain ⟨q, o, hasPath, forker, path⟩ := labelled.label r isRegion i isMember begun live
  rw [if_neg (by omega)] at forker
  rw [← forker] at hasPath
  obtain ⟨heap, reported, others⟩ := handle_implicitEnd forking isRegion isMember hasPath handled
  obtain ⟨prompt, lag⟩ := lag_implicitEnd forking isRegion isMember
  have extend : d.heap.Extends d'.heap := by
    rw [heap]
    exact Heap.Extends.refl _
  have member : ∀ x j, (R.after (.implicitEnd (R.memberOf r i))).memberOf x j = R.memberOf x j := fun _ _ => rfl
  have task : ∀ x, (R.after (.implicitEnd (R.memberOf r i))).task x =
      if x = R.memberOf r i then { R.task (R.memberOf r i) with ended := true } else R.task x :=
    fun x => Runtime.set_task ..
  refine ⟨⟨?_, ?_, ?_⟩, heap⟩
  · obtain ⟨o', known, path'⟩ := labelled.root
    by_cases moved : 0 = (R.region r).encountering ∧ i = 0
    · refine ⟨o' + R.lag 0, ?_, ?_⟩
      · rw [← path', moved.1]
        exact reported moved.2
      · rw [moved.1, prompt moved.2 isOpen, ← moved.1]
        exact path'
    · exact ⟨o', known.mono (others 0 moved) extend, by rw [lag 0 forking.nested.positive moved, path']⟩
  · intro x isRegion' j isMember' unbegun
    rw [member, task] at unbegun
    apply labelled.unbegun x isRegion' j isMember'
    by_cases self : R.memberOf x j = R.memberOf r i
    · rw [if_pos self] at unbegun
      rw [self]
      exact unbegun
    · rwa [if_neg self] at unbegun
  · intro x isRegion' j isMember' begun' live'
    rw [member, task] at begun' live'
    rw [member, task]
    by_cases self : R.memberOf x j = R.memberOf r i
    · rw [if_pos self] at live'
      cases live'
    · rw [if_neg self] at begun' live' ⊢
      by_cases moved : R.memberOf x j = (R.region r).encountering ∧ i = 0
      · have isOpen' : R.Waits x := by
          by_contra closed
          rw [forking.joined x isRegion' closed j isMember'] at live'
          cases live'
        have counters' := forking.counters x isRegion' j isMember'
        have settled := (counters'.busy (by rw [moved.1, isOpen]; simp)).1
        have arrived' := counters'.arrived
        obtain ⟨o', path', -⟩ := traced.shape x isRegion' isOpen' j isMember'
        change ∃ q o, _ ∧ V (R.region x).encountering = _ ∧ _ = V (R.region x).encountering ++ [(_, (R.region x).size)]
        refine ⟨V (R.region x).encountering, o', ?_, ?_, ?_⟩
        · change d'.HasPath _ (V (R.region x).encountering ++ [(o', (R.region x).size)])
          rw [← path', moved.1]
          exact reported moved.2
        · change _ = if (R.task (R.memberOf x j)).passed < (R.region x).released then _ else _
          rw [if_neg (by omega)]
        · rw [moved.1, prompt moved.2 isOpen, ← moved.1, Nat.zero_mul, Nat.add_zero, path']
      · obtain ⟨q', o', known, path'⟩ := labelled.label x isRegion' j isMember' begun' live'
        rw [lag _ (forking.nested.member_lt isRegion' isMember') moved]
        exact ⟨q', o', known.mono (others _ moved) extend, path'⟩

theorem parallelEnd {r : Nat} (isRegion : r < R.regions)
    (all : ∀ i < (R.region r).size, (R.task (R.memberOf r i)).ended = true) (isOpen : R.Waits r) :
    Labelled (R.after (.parallelEnd r)) d V := by
  have first : (R.task (R.region r).first).ended = true := all 0 (forking.bounds r isRegion).1
  have fields : ∀ x, ((R.after (.parallelEnd r)).task x).ended = (R.task x).ended ∧
      ((R.after (.parallelEnd r)).task x).begun = (R.task x).begun ∧
      ((R.after (.parallelEnd r)).task x).passed = (R.task x).passed := by
    intro x
    obtain ⟨_, _, same, -⟩ := Runtime.join_kept isOpen x
    rw [same]
    exact ⟨rfl, rfl, rfl⟩
  have lag : ∀ x, (R.after (.parallelEnd r)).lag x = R.lag x := by
    intro x
    by_cases forker : x = (R.region r).encountering
    · have before : R.lag x = 0 := by
        rw [forker, Runtime.lag, isOpen]
        simp [first]
      rw [before, lag_idle]
      rw [Runtime.join_task, if_pos forker]
      change (R.task (R.region r).encountering).constructs.tail = []
      rw [isOpen]
      rfl
    · have same : ((R.after (.parallelEnd r)).task x).constructs = (R.task x).constructs := by
        rw [Runtime.join_task, if_neg forker]
      have region : (R.after (.parallelEnd r)).region = R.region := rfl
      simp only [Runtime.lag, same, region, (fields _).1]
  have member : ∀ x j, (R.after (.parallelEnd r)).memberOf x j = R.memberOf x j := fun _ _ => rfl
  have region : (R.after (.parallelEnd r)).region = R.region := rfl
  have regions : (R.after (.parallelEnd r)).regions = R.regions := rfl
  constructor
  · rw [lag]
    exact labelled.root
  · simp only [member, region, regions, (fields _).2.1]
    exact labelled.unbegun
  · simp only [member, region, regions, lag, (fields _).1, (fields _).2.1, (fields _).2.2]
    exact labelled.label

end Labelled

end Romp
