import Romp.Callbacks.Shape

namespace Romp

/-- The label of a task of a kind: it begins with the segment of the initial task, has no two segments of
    worksharing constructs next to each other, and ends with the task's own segment or a unit below it. -/
structure WellFormedLabel (type : SegmentType) (segments : List Segment) : Prop where
  initial : ∃ s rest, segments = s :: rest ∧ s.getType = .ok .eImplicit ∧ s.getSpan = 1
  apart : segments.IsChain fun x y => ¬(x.getType = .ok .eWorkShare ∧ y.getType = .ok .eWorkShare)
  own : ∃ front s unit, segments = front ++ s :: unit ∧ s.getType = .ok type ∧
    (unit = [] ∨ ∃ u, unit = [u] ∧ u.getType = .ok .eWorkShare)

theorem wellFormed_of_shapes {o : Origin} {base : List Shape} {q : Standing} {segments : List Segment}
    (well : WellShaped o.segmentType base) (shapes : segments.map Segment.shape = base ++ q.unit) :
    WellFormedLabel o.segmentType segments := by
  constructor
  · have first : (segments.map Segment.shape).head? = some (.ok .eImplicit, 1) := by
      rw [shapes, List.head?_append, well.first]
      rfl
    cases segments with
    | nil => cases first
    | cons s rest =>
      have shape : s.shape = (.ok .eImplicit, 1) := Option.some.inj first
      exact ⟨s, rest, rfl, congrArg Prod.fst shape, congrArg Prod.snd shape⟩
  · have chain := well.unit q
    rw [← shapes, List.isChain_map] at chain
    exact chain
  · obtain ⟨front, span, rfl⟩ := well.own
    rw [List.append_assoc, List.map_eq_append_iff] at shapes
    obtain ⟨before, rest, rfl, -, shapes⟩ := shapes
    rw [List.singleton_append, List.map_eq_cons_iff] at shapes
    obtain ⟨s, unit, rfl, shape, units⟩ := shapes
    refine ⟨before, s, unit, rfl, congrArg Prod.fst shape, ?_⟩
    rw [Standing.unit] at units
    split at units
    · rw [List.map_eq_singleton_iff] at units
      obtain ⟨u, rfl, shape⟩ := units
      exact .inr ⟨u, rfl, congrArg Prod.fst shape⟩
    · exact .inl (List.map_eq_nil_iff.mp units)

namespace Delivery

def Labelled (s : Delivery) : Prop :=
  ∀ t q, s.program t = some q → q.live → ∃ label, s.detector.label t = some label ∧
    WellFormedLabel q.origin.segmentType (s.detector.heap.read label)

variable {s s' : Delivery} {e : Callback}

theorem not_labelled (stepped : s.step e = some s') (unlabels : e.Unlabels) : ¬s'.Labelled := by
  obtain ⟨p, d⟩ := s
  obtain ⟨p', d'⟩ := s'
  obtain ⟨allowed, delivered, rfl⟩ := step_ok stepped
  change d.deliver e = .ok d' at delivered
  intro labelled
  have lost : ∃ t q, p.after e t = some q ∧ q.live = true ∧ d'.label t = none := by
    cases e with
    | work wsType endPoint t =>
      have nullptr : d'.label t = none := by
        cases wsType with
        | taskloop | other =>
          cases delivered
          simp [Detector.label]
        | _ => exact unlabels.elim
      cases endPoint with
      | scope_begin =>
        obtain ⟨q, known, holds⟩ := Program.holds_iff.mp allowed
        rw [Bool.and_eq_true, running_iff] at holds
        exact ⟨t, { q with work := wsType :: q.work }, Program.change_self known, holds.1.1, nullptr⟩
      | scope_end =>
        obtain ⟨q, known, holds⟩ := Program.holds_iff.mp allowed
        rw [Bool.and_eq_true, running_iff] at holds
        exact ⟨t, { q with work := q.work.tail }, Program.change_self known, holds.1.1, nullptr⟩
    | dispatch t kind value =>
      obtain ⟨q, known, holds⟩ := Program.holds_iff.mp allowed
      rw [Bool.and_eq_true, running_iff] at holds
      refine ⟨t, q, known, holds.1.1, ?_⟩
      cases kind with
      | other =>
        cases delivered
        simp [Detector.label]
      | _ => exact unlabels.elim
    | taskCreate t new flags region =>
      obtain ⟨notInitial, notExplicit⟩ := unlabels
      rw [Detector.deliver, on_ompt_callback_task_create, if_neg notInitial, if_neg notExplicit] at delivered
      split at delivered
      · cases delivered
      · cases delivered
        refine ⟨new, .begun (.created flags), ?_, rfl, ?_⟩
        · rw [Program.after, Program.set_apply, if_pos rfl]
        · simp [Detector.label, TaskData.new]
    | _ => exact unlabels.elim
  obtain ⟨t, q, known, alive, nullptr⟩ := lost
  obtain ⟨label, found, -⟩ := labelled t q known alive
  rw [nullptr] at found
  cases found

/-- In a well-formed sequence of events all live tasks have well-formed labels all the time exactly when no
    event has a callback that sets the label to a null pointer. -/
theorem labelled_iff {es : List Callback} (ran : run es = some s) :
    (∀ before s', before <+: es → run before = some s' → s'.Labelled) ↔ ∀ e ∈ es, ¬e.Unlabels := by
  constructor
  · intro labelled e inside unlabels
    obtain ⟨earlier, later, rfl⟩ := List.append_of_mem inside
    rw [run, List.foldlM_append] at ran
    obtain ⟨before, reached, ran⟩ := Option.bind_eq_some_iff.mp ran
    rw [List.foldlM_cons] at ran
    obtain ⟨after, stepped, -⟩ := Option.bind_eq_some_iff.mp ran
    have there : run (earlier ++ [e]) = some after := by
      rw [run, List.foldlM_append, reached]
      simpa using stepped
    refine not_labelled stepped unlabels (labelled (earlier ++ [e]) after ⟨later, ?_⟩ there)
    rw [List.append_assoc]
    rfl
  · intro plain before s' start there t q known alive
    obtain ⟨base, shaped⟩ := shaped_run there fun e inside => plain e (start.subset inside)
    obtain ⟨label, labelled, -, shapes⟩ := shaped.live t q known alive
    exact ⟨label, labelled, wellFormed_of_shapes (shaped.wellShaped t q known alive) shapes⟩

def singleCalls : List Callback :=
  [.initialBegin 0, .parallelBegin 0 0 1 0, .implicitBegin 1 0 1 0, .work .single_executor .scope_begin 1,
    .taskCreate 1 2 ompt_task_explicit (some 0), .taskSchedule 2 .complete, .work .single_executor .scope_end 1,
    .syncRegion .barrier_implicit .scope_end 1, .implicitEnd 1 0 0, .parallelEnd 0]

theorem labelled_iff_single : ∃ s, run singleCalls = some s ∧ s.Labelled := by
  have ran : (run singleCalls).isSome := by decide
  obtain ⟨s, ran⟩ := Option.isSome_iff_exists.mp ran
  refine ⟨s, ran, (labelled_iff ran).mpr (fun e inside unlabels => ?_) singleCalls s (List.prefix_refl _) ran⟩
  simp only [singleCalls, List.mem_cons, List.not_mem_nil, or_false] at inside
  rcases inside with rfl | rfl | rfl | rfl | rfl | rfl | rfl | rfl | rfl | rfl
  case inr.inr.inr.inr.inl => exact unlabels.2 rfl
  all_goals exact unlabels

/-- The begin of a taskloop in a single leaves the task that meets it without a label. -/
theorem taskloop_unlabels : ¬ ∀ es s, run es = some s → s.Labelled := by
  intro labelled
  have ran : (run [.initialBegin 0, .parallelBegin 0 0 1 0, .implicitBegin 1 0 1 0,
      .work .single_executor .scope_begin 1, .work .taskloop .scope_begin 1]).any (fun s =>
        (s.program 1).any Standing.live && (s.detector.label 1).isNone) = true := by
    decide
  obtain ⟨s, ran, lost⟩ := (Option.any_eq_true _ _).mp ran
  rw [Bool.and_eq_true, Option.any_eq_true] at lost
  obtain ⟨⟨q, known, alive⟩, nullptr⟩ := lost
  obtain ⟨label, found, -⟩ := labelled _ s ran 1 q known alive
  rw [found] at nullptr
  cases nullptr

end Delivery

end Romp
