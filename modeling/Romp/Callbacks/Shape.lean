import Mathlib.Data.List.Chain
import Romp.Callbacks.Delivery
import Romp.Callbacks.Effects
import Romp.Label.Version

namespace Romp

abbrev Shape := Except Abort SegmentType × Nat

/-- What all the versions of a segment have in common. -/
def Segment.shape (s : Segment) : Shape := (s.getType, s.getSpan)

theorem shape_of_plain {s s' : Segment} (same : s'.plain = s.plain) : s'.shape = s.shape := by
  have type : s'.plain.type = s.plain.type := by rw [same]
  have span : s'.plain.span = s.plain.span := by rw [same]
  exact Prod.ext (getType_of_plain type) span

theorem Version.shape {base s : Segment} {k : Nat} (version : Version base k s) : s.shape = base.shape :=
  Prod.ext version.getType version.getSpan

theorem shape_workShareUnit (id : BitVec 64) (isSection : Bool) :
    (Segment.workShareUnit id isSection).shape = (.ok .eWorkShare, 1) := by
  have value : (Segment.workShareUnit id isSection).value = (Segment.workShareUnit 0 isSection).value := rfl
  rw [Segment.shape, Segment.getType, Segment.getSpan, value]
  cases isSection <;> rfl

theorem shape_base {type : SegmentType} {offset span : Nat} {s : Segment}
    (based : Segment.base type offset span = .ok s) :
    s.shape = (.ok type, span) := by
  have small : span < 2 ^ 16 := by
    by_contra large
    rw [Segment.base, if_neg large] at based
    cases based
  obtain ⟨s', made, contents⟩ := Segment.base_contents type offset small
  rw [based, Except.ok.injEq] at made
  subst made
  refine Prod.ext ?_ (congrArg Contents.span contents)
  change s.getType = _
  rw [s.getType_contents, contents]
  cases type <;> rfl

def Heap.shapes (h : Heap) (label : Label) : List Shape := (h.read label).map Segment.shape

section Shapes

variable {h h' : Heap} {label front : Label}

@[simp] theorem shapes_append (label label' : Label) : h.shapes (label ++ label') =
    h.shapes label ++ h.shapes label' := by
  simp [Heap.shapes, Heap.read]

@[simp] theorem shapes_singleton (r : Nat) : h.shapes [r] = [(h.objects r).shape] := rfl

theorem Heap.Grows.shapes (grows : h.Grows h') (holds : h.Holds label) : h'.shapes label = h.shapes label := by
  simp only [Heap.shapes, Heap.read, List.map_map]
  exact List.map_congr_left fun x member => shape_of_plain (grows.plain x (holds x member))

theorem Heap.Holds.left {label' : Label} (holds : h.Holds (label ++ label')) : h.Holds label :=
  fun x member => holds x (List.mem_append_left _ member)

theorem Heap.Holds.alloc (holds : h.Holds front) (s : Segment) : (h.alloc s).1.Holds (front ++ [h.next]) := by
  intro x member
  rcases List.mem_append.mp member with old | last
  · exact Nat.lt_succ_of_lt (holds x old)
  · rw [List.mem_singleton.mp last]
    exact Nat.lt_succ_self _

theorem shapes_alloc (holds : h.Holds front) (s : Segment) :
    (h.alloc s).1.shapes (front ++ [h.next]) = h.shapes front ++ [s.shape] := by
  rw [shapes_append, (h.alloc_extends s).grows.shapes holds, shapes_singleton, h.alloc_read]

end Shapes

namespace Detector

structure Reshapes (d d' : Detector) (t : Nat) (change : List Shape → List Shape → Prop) : Prop where
  grows : d.heap.Grows d'.heap
  others : ∀ x, x ≠ t → d'.label x = d.label x
  own : ∀ label, d.label t = some label → d.heap.Holds label →
    ∃ label', d'.label t = some label' ∧ d'.heap.Holds label' ∧ change (d.heap.shapes label) (d'.heap.shapes label')

variable {d d' : Detector} {t : Nat}

theorem Quiet.reshapes (quiet : d.Quiet d') (t : Nat) : d.Reshapes d' t Eq := by
  refine ⟨quiet.heap ▸ .refl d.heap, fun x _ => quiet.labels x, fun label known holds => ?_⟩
  rw [quiet.heap]
  exact ⟨label, (quiet.labels t).trans known, holds, rfl⟩

theorem Moves.reshapes {init : Label} {r : Nat} {s : Segment} (moves : d.Moves d' t (init ++ [r]) (init ++ [d.heap.next]))
    (same : s.shape = (d.heap.objects r).shape) (grows : (d.heap.alloc s).1.Grows d'.heap) : d.Reshapes d' t Eq := by
  refine ⟨(d.heap.alloc_extends s).grows.trans grows, moves.others, fun label known holds => ?_⟩
  rw [moves.old, Option.some.injEq] at known
  subst known
  have there := holds.left.alloc s
  refine ⟨_, moves.new, there.grow grows, ?_⟩
  rw [grows.shapes there, shapes_alloc holds.left, shapes_append, shapes_singleton, same]

theorem mutateLast_reshapes {f : Segment → Except Abort Segment} (done : d.mutateLabel t (mutateLast f) = .ok d')
    (version : ∀ s s', f s = .ok s' → Version s 0 s') : d.Reshapes d' t Eq := by
  obtain ⟨old, heap, new, mutated, relabels, same⟩ := mutateLabel_ok done
  obtain ⟨init, r, s, rfl, made, rfl, rfl⟩ := mutateLast_ok mutated
  exact relabels.toMoves.reshapes (version _ _ made).shape (same ▸ .refl _)

theorem barrier_reshapes (done : d.mutateLabel t mutateBarrierEnd = .ok d') : d.Reshapes d' t Eq := by
  obtain ⟨old, heap, new, mutated, relabels, rfl⟩ := mutateLabel_ok done
  obtain ⟨init, r, m, rfl, heap, rfl⟩ := mutateBarrierEnd_ok mutated
  have extend := d.heap.alloc_extends ((d.heap.objects r).setOffsetSpan
    ((d.heap.objects r).getOffset + (d.heap.objects r).getSpan) (d.heap.objects r).getSpan)
  rw [← heap] at extend
  refine ⟨extend.grows, relabels.others, fun label known holds => ?_⟩
  rw [relabels.old, Option.some.injEq] at known
  subst known
  have there : d'.heap.Holds (init ++ [d.heap.next]) := by
    rw [heap]
    exact holds.left.alloc _
  have last : d'.heap.Holds [m] := fun x member => holds.extend extend x (by simp_all)
  rw [List.append_cons init r [m]] at holds ⊢
  refine ⟨_, relabels.new, ?_, ?_⟩
  · rw [List.append_cons]
    exact fun x member => (List.mem_append.mp member).elim (there x) (last x)
  · rw [List.append_cons init d.heap.next [m], shapes_append, shapes_append (init ++ [d.heap.next])]
    have kept : d'.heap.shapes [m] = d.heap.shapes [m] :=
      extend.grows.shapes fun x member => holds x (List.mem_append_right _ member)
    rw [kept, heap, shapes_alloc holds.left.left, (version_bump _).shape, shapes_append, shapes_singleton r]

theorem push_reshapes (s : Segment)
    (done : d.mutateLabel t (fun h label => .ok ((h.alloc s).1, label ++ [h.next])) = .ok d') :
    d.Reshapes d' t fun old new => new = old ++ [s.shape] := by
  obtain ⟨old, heap, new, mutated, relabels, same⟩ := mutateLabel_ok done
  cases mutated
  refine ⟨same ▸ (d.heap.alloc_extends s).grows, relabels.others, fun label known holds => ?_⟩
  rw [relabels.old, Option.some.injEq] at known
  subst known
  rw [same]
  exact ⟨_, relabels.new, holds.alloc s, shapes_alloc holds s⟩

theorem single_reshapes (done : d.mutateLabel t (fun h label => do .ok (h, ← mutateSingleEnd label)) = .ok d') :
    d.Reshapes d' t fun old new => ∃ unit, old = new ++ [unit] := by
  obtain ⟨old, heap, new, mutated, relabels, same⟩ := mutateLabel_ok done
  obtain ⟨init, popped, mutated⟩ := ok_of_bind mutated
  cases mutated
  obtain ⟨unit, rfl⟩ := mutateSingleEnd_ok popped
  refine ⟨same ▸ .refl _, relabels.others, fun label known holds => ?_⟩
  rw [relabels.old, Option.some.injEq] at known
  subst known
  rw [same]
  exact ⟨_, relabels.new, holds.left, _, shapes_append ..⟩

theorem loop_reshapes (done : d.mutateLabel t mutateLoopEnd = .ok d') :
    d.Reshapes d' t fun old new => ∃ unit, old = new ++ [unit] := by
  obtain ⟨old, heap, new, mutated, relabels, same⟩ := mutateLabel_ok done
  obtain ⟨init, r, unit, s, rfl, counted, rfl, rfl⟩ := mutateLoopEnd_ok mutated
  refine ⟨same ▸ (d.heap.alloc_extends s).grows, relabels.others, fun label known holds => ?_⟩
  rw [relabels.old, Option.some.injEq] at known
  subst known
  rw [same]
  refine ⟨_, relabels.new, holds.left.alloc s, (d.heap.objects unit).shape, ?_⟩
  rw [shapes_alloc holds.left, (version_loopCount counted).shape, List.append_cons init r [unit], shapes_append,
    shapes_append]
  rfl

theorem dispatch_reshapes {id : BitVec 64} {isSection : Bool}
    (done : d.mutateLabel t (fun h label => mutateWorkShareDispatch h label id isSection) = .ok d') :
    d.Reshapes d' t fun old new => ∃ init unit, old = init ++ [unit] ∧ new = init ++ [(.ok .eWorkShare, 1)] := by
  obtain ⟨old, heap, new, mutated, relabels, same⟩ := mutateLabel_ok done
  obtain ⟨init, unit, rfl, rfl, rfl⟩ := mutateWorkShareDispatch_ok mutated
  refine ⟨same ▸ (d.heap.alloc_extends _).grows, relabels.others, fun label known holds => ?_⟩
  rw [relabels.old, Option.some.injEq] at known
  subst known
  rw [same]
  refine ⟨_, relabels.new, holds.left.alloc _, d.heap.shapes init, (d.heap.objects unit).shape, shapes_append .., ?_⟩
  rw [shapes_alloc holds.left, shape_workShareUnit]

theorem quiet_setData {data : TaskData} (label : data.label = (d.data t).label)
    (children : data.childExpTaskData = (d.data t).childExpTaskData) : d.Quiet (d.setData t data) := by
  refine ⟨rfl, fun x => ?_, fun x => ?_⟩
  · rw [Detector.label, Detector.label, setData_data]
    by_cases self : x = t
    · rw [if_pos self, self, label]
    · rw [if_neg self]
  · rw [Detector.children, Detector.children, setData_data]
    by_cases self : x = t
    · rw [if_pos self, self, children]
    · rw [if_neg self]

theorem setData_reshapes {data : TaskData} (label : data.label = (d.data t).label)
    (children : data.childExpTaskData = (d.data t).childExpTaskData) : d.Reshapes (d.setData t data) t Eq :=
  (quiet_setData label children).reshapes t

theorem sync_region_reshapes {kind : SyncRegion} {endPoint : ScopeEndpoint}
    (done : on_ompt_callback_sync_region d kind endPoint t = .ok d') : d.Reshapes d' t Eq := by
  cases endPoint with
  | scope_begin =>
    cases kind with
    | reduction =>
      cases done
      exact setData_reshapes rfl rfl
    | taskgroup =>
      refine mutateLast_reshapes done fun s s' made => ?_
      cases made
      exact version_taskGroup ..
    | _ =>
      cases done
      exact (Quiet.refl d).reshapes t
  | scope_end =>
    cases kind with
    | taskwait =>
      obtain ⟨init, r, s, refs, moves, waited, heap, -⟩ := handle_taskwaitEnd (R := Runtime.init) done
      apply moves.reshapes (version_taskwait waited).shape
      rw [heap]
      exact Heap.mark_grows _ refs (Segment.plain_markTaskwaited _)
    | taskgroup =>
      obtain ⟨init, r, s, refs, moves, made, heap, -⟩ := handle_taskgroupEnd (R := Runtime.init) done
      apply moves.reshapes (made ▸ (version_taskGroup ..).shape)
      rw [heap]
      exact Heap.mark_grows _ refs Segment.plain_setTaskGroupSync
    | reduction =>
      cases done
      exact setData_reshapes rfl rfl
    | other =>
      cases done
      exact (Quiet.refl d).reshapes t
    | _ => exact barrier_reshapes done

theorem mutex_acquired_reshapes {kind : MutexKind} {waitId : BitVec 64}
    (done : on_ompt_callback_mutex_acquired d kind waitId t = .ok d') : d.Reshapes d' t Eq := by
  cases kind with
  | ordered => exact mutateLast_reshapes done fun s s' => version_phase
  | other =>
    obtain ⟨locks, added, done⟩ := ok_of_bind done
    cases done
    exact setData_reshapes rfl rfl

theorem mutex_released_reshapes {kind : MutexKind} {waitId : BitVec 64}
    (done : on_ompt_callback_mutex_released d kind waitId t = .ok d') : d.Reshapes d' t Eq := by
  cases kind with
  | ordered => exact mutateLast_reshapes done fun s s' => version_phase
  | other =>
    simp only [on_ompt_callback_mutex_released] at done
    split at done
    · cases done
    · obtain ⟨locks, removed, done⟩ := ok_of_bind done
      cases done
      exact setData_reshapes rfl rfl

theorem work_begin_reshapes {wsType : WorkType} (shared : wsType.isShared = true)
    (done : on_ompt_callback_work d wsType .scope_begin t = .ok d') :
    d.Reshapes d' t fun old new => new = old ++ [(.ok .eWorkShare, 1)] := by
  cases wsType with
  | loop | sections => exact push_reshapes (Segment.workShare.setPlaceHolderFlag true) done
  | single_executor => exact push_reshapes (Segment.workShare.setSingleFlag true) done
  | single_other => exact push_reshapes (Segment.workShare.setSingleFlag false) done
  | _ => cases shared

theorem work_end_reshapes {wsType : WorkType} (shared : wsType.isShared = true)
    (done : on_ompt_callback_work d wsType .scope_end t = .ok d') :
    d.Reshapes d' t fun old new => ∃ unit, old = new ++ [unit] := by
  cases wsType with
  | loop | sections => exact loop_reshapes done
  | single_executor | single_other => exact single_reshapes done
  | _ => cases shared

end Detector

def Apart (x y : Shape) : Prop := ¬(x.1 = .ok .eWorkShare ∧ y.1 = .ok .eWorkShare)

def Origin.segmentType : Origin → SegmentType
  | .initial | .implicit _ => .eImplicit
  | .explicit => .eExplicit

structure WellShaped (type : SegmentType) (base : List Shape) : Prop where
  first : base.head? = some (.ok .eImplicit, 1)
  apart : base.IsChain Apart
  own : ∃ front span, base = front ++ [(.ok type, span)]

def unitShape : Shape := (.ok .eWorkShare, 1)

def Standing.unit (s : Standing) : List Shape := if s.sharing then [unitShape] else []

theorem Origin.segmentType_ne (o : Origin) : o.segmentType ≠ .eWorkShare := by
  cases o <;> simp [segmentType]

theorem WellShaped.unit {o : Origin} {base : List Shape} (well : WellShaped o.segmentType base) (s : Standing) :
    (base ++ s.unit).IsChain Apart := by
  unfold Standing.unit
  split
  · obtain ⟨front, span, rfl⟩ := well.own
    refine List.isChain_append.mpr ⟨well.apart, List.isChain_singleton _, fun x last y first both => ?_⟩
    rw [List.getLast?_concat] at last
    cases last
    exact o.segmentType_ne (Except.ok.inj both.1)
  · rw [List.append_nil]
    exact well.apart

theorem WellShaped.child {o o' : Origin} {base : List Shape} (well : WellShaped o.segmentType base) (s : Standing)
    (span : Nat) : WellShaped o'.segmentType (base ++ s.unit ++ [(.ok o'.segmentType, span)]) := by
  refine ⟨?_, ?_, _, span, rfl⟩
  · rw [List.append_assoc, List.head?_append, well.first]
    rfl
  · refine List.isChain_append.mpr ⟨well.unit s, List.isChain_singleton _, fun x _ y first both => ?_⟩
    cases first
    exact o'.segmentType_ne (Except.ok.inj both.2)

/-- The labels of the live tasks have the shapes that the events so far give them. -/
structure Shaped (base : Nat → List Shape) (p : Program) (d : Detector) : Prop where
  live : ∀ t s, p t = some s → s.live → ∃ label, d.label t = some label ∧ d.heap.Holds label ∧
    d.heap.shapes label = base t ++ s.unit
  wellShaped : ∀ t s, p t = some s → s.live → WellShaped s.origin.segmentType (base t)
  started : ∀ t s first, p t = some s → s.fork = .started first → (p first).isSome ∧
    ∃ own, base first = base t ++ s.unit ++ [own]
  once : ∀ t s, p t = some s → (s.work.filter WorkType.isShared).length ≤ 1

namespace Program

theorem change_apply (p : Program) (t : Nat) (f : Standing → Standing) (x : Nat) :
    p.change t f x = if x = t then (p t).map f else p x := by
  unfold Program.change
  cases known : p t with
  | none =>
    by_cases self : x = t
    · simp [self, known]
    · simp [self]
  | some s => simp [set_apply]

theorem change_self {p : Program} {t : Nat} {s : Standing} (known : p t = some s) {f : Standing → Standing} :
    p.change t f t = some (f s) := by
  rw [change_apply, if_pos rfl, known]
  rfl

theorem holds_iff {p : Program} {t : Nat} {condition : Standing → Bool} :
    p.holds t condition = true ↔ ∃ s, p t = some s ∧ condition s = true := by
  simp [holds, Option.any_eq_true]

end Program

namespace Shaped

variable {base : Nat → List Shape} {p : Program} {d d' : Detector} {t : Nat} {s : Standing}

theorem change (shaped : Shaped base p d) (known : p t = some s) (f : Standing → Standing)
    (grows : d.heap.Grows d'.heap) (others : ∀ x, x ≠ t → d'.label x = d.label x)
    (origin : (f s).origin = s.origin) (live : (f s).live → s.live)
    (started : ∀ first, (f s).fork = .started first → (p first).isSome ∧
      ∃ own, base first = base t ++ (f s).unit ++ [own])
    (once : ((f s).work.filter WorkType.isShared).length ≤ 1)
    (own : (f s).live → ∃ label, d'.label t = some label ∧ d'.heap.Holds label ∧
      d'.heap.shapes label = base t ++ (f s).unit) : Shaped base (p.change t f) d' := by
  have before : ∀ x s', p.change t f x = some s' → (x = t ∧ s' = f s) ∨ (x ≠ t ∧ p x = some s') := by
    intro x s' found
    rw [Program.change_apply] at found
    split at found
    · rename_i self
      rw [known, Option.map_some, Option.some.injEq] at found
      exact .inl ⟨self, found.symm⟩
    · rename_i other
      exact .inr ⟨other, found⟩
  have still : ∀ x, (p x).isSome → (p.change t f x).isSome := by
    intro x is
    rw [Program.change_apply]
    split
    · rw [known]
      rfl
    · exact is
  refine ⟨fun x s' found alive => ?_, fun x s' found alive => ?_, fun x s' first found fork => ?_, fun x s' found => ?_⟩
  · rcases before x s' found with ⟨rfl, rfl⟩ | ⟨other, found⟩
    · exact own alive
    · obtain ⟨label, labelled, holds, same⟩ := shaped.live x s' found alive
      exact ⟨label, (others x other).trans labelled, holds.grow grows, (grows.shapes holds).trans same⟩
  · rcases before x s' found with ⟨rfl, rfl⟩ | ⟨other, found⟩
    · rw [origin]
      exact shaped.wellShaped x s known (live alive)
    · exact shaped.wellShaped x s' found alive
  · rcases before x s' found with ⟨rfl, rfl⟩ | ⟨other, found⟩
    · obtain ⟨is, own, same⟩ := started first fork
      exact ⟨still first is, own, same⟩
    · obtain ⟨is, own, same⟩ := shaped.started x s' first found fork
      exact ⟨still first is, own, same⟩
  · rcases before x s' found with ⟨rfl, rfl⟩ | ⟨other, found⟩
    · exact once
    · exact shaped.once x s' found

theorem keep {change : List Shape → List Shape → Prop} (shaped : Shaped base p d) (reshapes : d.Reshapes d' t change)
    (known : p t = some s) (same : ∀ new, change (base t ++ s.unit) new → new = base t ++ s.unit) : Shaped base p d' := by
  have unchanged : p.change t id = p := by
    funext x
    rw [Program.change_apply]
    split
    · rename_i self
      rw [self, Option.map_id_fun, id]
    · rfl
  rw [← unchanged]
  refine shaped.change known id reshapes.grows reshapes.others rfl id (shaped.started t s · known)
    (shaped.once t s known) fun alive => ?_
  obtain ⟨label, labelled, holds, shapes⟩ := shaped.live t s known alive
  obtain ⟨label', labelled', holds', changed⟩ := reshapes.own label labelled holds
  exact ⟨label', labelled', holds', same _ (shapes ▸ changed)⟩

theorem quiet (shaped : Shaped base p d) (quiet : d.Quiet d') : Shaped base p d' := by
  refine ⟨fun x s known alive => ?_, shaped.wellShaped, shaped.started, shaped.once⟩
  rw [quiet.heap, quiet.labels]
  exact shaped.live x s known alive

theorem begins (shaped : Shaped base p d) (fresh : p t = none) (grows : d.heap.Grows d'.heap)
    (others : ∀ x, x ≠ t → d'.label x = d.label x) {o : Origin} {shapes : List Shape}
    (well : WellShaped o.segmentType shapes) {label : Label} (labelled : d'.label t = some label)
    (holds : d'.heap.Holds label) (same : d'.heap.shapes label = shapes) :
    Shaped (Function.update base t shapes) (p.set t (.begun o)) d' := by
  have before : ∀ x s', p.set t (.begun o) x = some s' →
      (x = t ∧ s' = .begun o) ∨ (x ≠ t ∧ p x = some s' ∧ Function.update base t shapes x = base x) := by
    intro x s' found
    rw [Program.set_apply] at found
    split at found
    · rename_i self
      exact .inl ⟨self, (Option.some.inj found).symm⟩
    · rename_i other
      exact .inr ⟨other, found, Function.update_of_ne other ..⟩
  refine ⟨fun x s' found alive => ?_, fun x s' found alive => ?_, fun x s' first found fork => ?_, fun x s' found => ?_⟩
  · rcases before x s' found with ⟨rfl, rfl⟩ | ⟨other, found, old⟩
    · rw [Function.update_self]
      exact ⟨label, labelled, holds, same.trans (List.append_nil _).symm⟩
    · obtain ⟨label, labelled, holds, same⟩ := shaped.live x s' found alive
      rw [old]
      exact ⟨label, (others x other).trans labelled, holds.grow grows, (grows.shapes holds).trans same⟩
  · rcases before x s' found with ⟨rfl, rfl⟩ | ⟨other, found, old⟩
    · rw [Function.update_self]
      exact well
    · rw [old]
      exact shaped.wellShaped x s' found alive
  · rcases before x s' found with ⟨rfl, rfl⟩ | ⟨other, found, old⟩
    · cases fork
    · obtain ⟨is, own, same⟩ := shaped.started x s' first found fork
      have apart : first ≠ t := by
        rintro rfl
        rw [fresh] at is
        cases is
      rw [old, Function.update_of_ne apart, Program.set_apply, if_neg apart]
      exact ⟨is, own, same⟩
  · rcases before x s' found with ⟨rfl, rfl⟩ | ⟨other, found, old⟩
    · exact Nat.zero_le 1
    · exact shaped.once x s' found

end Shaped

open Detector

/-- The events whose callback leaves a task without a label: that of the callback, or the new one. -/
def Callback.Unlabels : Callback → Prop
  | .work .taskloop .. | .work .other .. | .dispatch _ .other _ => True
  | .taskCreate _ _ flags _ => flags ≠ ompt_task_initial ∧ flags ≠ ompt_task_explicit
  | _ => False

section Steps

variable {base : Nat → List Shape} {p : Program} {d d' : Detector} {t : Nat}

theorem initial_task_ok (done : on_initial_task d t = .ok d') :
    ∃ s, Segment.base .eImplicit 0 1 = .ok s ∧ d'.heap = (d.heap.alloc s).1 ∧ d'.label t = some [d.heap.next] ∧
      ∀ x, x ≠ t → d'.label x = d.label x := by
  unfold on_initial_task at done
  obtain ⟨⟨heap, label⟩, generated, done⟩ := ok_of_bind done
  unfold genInitTaskLabel at generated
  obtain ⟨s, based, generated⟩ := ok_of_bind generated
  cases generated
  cases done
  refine ⟨s, based, rfl, ?_, fun x other => ?_⟩
  · simp [Detector.label]
  · simp [Detector.label, other]

theorem shaped_initialBegin (shaped : Shaped base p d) (fresh : p t = none) (done : on_initial_task d t = .ok d') :
    ∃ base', Shaped base' (p.set t (.begun .initial)) d' := by
  obtain ⟨s, based, heap, labelled, others⟩ := initial_task_ok done
  have none : d.heap.Holds [] := fun x inside => by cases inside
  have shapes : d'.heap.shapes [d.heap.next] = [(.ok .eImplicit, 1)] := by
    rw [heap, shapes_singleton, d.heap.alloc_read, shape_base based]
  exact ⟨_, shaped.begins fresh (heap ▸ (d.heap.alloc_extends s).grows) others
    ⟨rfl, List.isChain_singleton _, [], 1, rfl⟩ labelled (heap ▸ none.alloc s) shapes⟩

theorem shaped_implicitBegin {parent size index : Nat} {q : Standing} (shaped : Shaped base p d) (fresh : p t = none)
    (inside : index < size) (known : p parent = some q) (alive : q.live)
    (done : on_ompt_callback_implicit_task d .scope_begin t parent size index = .ok d') :
    ∃ base', Shaped base' (p.after (.implicitBegin t parent size index)) d' := by
  have apart : parent ≠ t := by
    rintro rfl
    rw [fresh] at known
    cases known
  obtain ⟨above, s, labelled, based, heap, labelled', others, -⟩ :=
    implicit_begin_ok (Nat.lt_of_le_of_lt (Nat.zero_le _) inside) done
  obtain ⟨label, sameLabel, holds, shapes⟩ := shaped.live parent q known alive
  rw [labelled, Option.some.injEq] at sameLabel
  subst sameLabel
  have made : d'.heap.shapes (above ++ [d.heap.next]) = base parent ++ q.unit ++ [(.ok .eImplicit, size)] := by
    rw [heap, shapes_alloc holds, shapes, shape_base based]
  have begun := shaped.begins (o := .implicit index) fresh (heap ▸ (d.heap.alloc_extends s).grows) others
    ((shaped.wellShaped parent q known alive).child q size) labelled' (heap ▸ holds.alloc s) made
  refine ⟨Function.update base t (base parent ++ q.unit ++ [(.ok .eImplicit, size)]), ?_⟩
  rw [Program.after]
  split
  · have same : (p.change parent fun s => { s with fork := .started t }).set t (.begun (.implicit index)) =
        (p.set t (.begun (.implicit index))).change parent fun s => { s with fork := .started t } := by
      funext x
      simp only [Program.change_apply, Program.set_apply]
      by_cases self : x = t
      · simp [self, apart.symm]
      · simp [self, apart]
    rw [same]
    have known' : p.set t (.begun (.implicit index)) parent = some q := by
      rw [Program.set_apply, if_neg apart, known]
    refine begun.change known' _ (.refl _) (fun _ _ => rfl) rfl id (fun first fork => ?_) (begun.once parent q known')
      fun alive => begun.live parent q known' alive
    cases fork
    rw [Program.set_apply, if_pos rfl, Function.update_self, Function.update_of_ne apart]
    exact ⟨rfl, _, rfl⟩
  · exact begun

theorem shaped_taskCreate {new : Nat} {region : Option Nat} {s : Standing} (shaped : Shaped base p d)
    (fresh : p new = none) (known : p t = some s) (alive : s.live)
    (done : on_ompt_callback_task_create d t new ompt_task_explicit region = .ok d') :
    ∃ base', Shaped base' (p.set new (.begun .explicit)) d' := by
  have apart : t ≠ new := by
    rintro rfl
    rw [fresh] at known
    cases known
  obtain ⟨init, r, x, y, labelled, based, created, heap, labelledNew, labelled', others, -⟩ := task_create_ok apart done
  obtain ⟨label, sameLabel, holds, shapes⟩ := shaped.live t s known alive
  rw [labelled, Option.some.injEq] at sameLabel
  subst sameLabel
  have extend := d.heap.alloc_extends x
  have extend' := (d.heap.alloc x).1.alloc_extends y
  have old : (d.heap.alloc x).1.Holds init := holds.left.extend extend
  have grows : d.heap.Grows d'.heap := heap ▸ (extend.trans extend').grows
  have reshapes : d.Reshapes ({ d with heap := d'.heap }.setLabel t (some (init ++ [d.heap.next + 1]))) t Eq := by
    refine ⟨grows, fun z other => ?_, fun label known holds => ?_⟩
    · simp [Detector.label, other]
    · rw [labelled, Option.some.injEq] at known
      subst known
      refine ⟨init ++ [d.heap.next + 1], by simp [Detector.label], ?_, ?_⟩
      · rw [setLabel_heap, heap]
        exact old.alloc y
      · have last : y.shape = (d.heap.objects r).shape := by
          rw [(version_taskcreate created).shape, extend.2 r (holds r (by simp))]
        rw [setLabel_heap, heap]
        have made := shapes_alloc old y
        rw [extend.grows.shapes holds.left, last] at made
        exact ((shapes_append ..).trans made.symm)
  have mutated := shaped.keep reshapes known fun new same => same.symm
  have then_ : Heap.Grows ({ d with heap := d'.heap }.setLabel t (some (init ++ [d.heap.next + 1]))).heap d'.heap := .refl _
  refine ⟨_, mutated.begins (o := .explicit) fresh then_ (fun z other => ?_)
    ((shaped.wellShaped t s known alive).child s 1) labelledNew ?_ ?_⟩
  · by_cases self : z = t
    · rw [self, labelled']
      simp [Detector.label]
    · rw [others z self other]
      simp [Detector.label, self]
  · rw [heap]
    exact (holds.alloc x).extend extend'
  · rw [heap, extend'.grows.shapes (holds.alloc x), shapes_alloc holds, shapes, shape_base based]
    rfl

theorem Shaped.ends {s : Standing} (shaped : Shaped base p d) (known : p t = some s) (idle : s.fork = .none)
    (grows : d.heap.Grows d'.heap) (others : ∀ x, x ≠ t → d'.label x = d.label x) :
    Shaped base (p.change t fun s => { s with live := false }) d' := by
  refine shaped.change known _ grows others rfl (fun dead => by cases dead) (fun first fork => ?_)
    (shaped.once t s known) (fun dead => by cases dead)
  rw [idle] at fork
  cases fork

theorem shaped_implicitEnd {parent index : Nat} {s : Standing} (shaped : Shaped base p d) (known : p t = some s)
    (idle : s.fork = .none) (alive : s.live) (outside : s.work = [])
    (first : index = 0 → ∃ q, p parent = some q ∧ q.fork = .started t)
    (done : on_ompt_callback_implicit_task d .scope_end t parent 0 index = .ok d') :
    Shaped base (p.after (.implicitEnd t parent index)) d' := by
  rw [Program.after]
  split
  · rename_i zero
    subst zero
    obtain ⟨q, forker, fork⟩ := first rfl
    have apart : t ≠ parent := by
      rintro rfl
      rw [known, Option.some.injEq] at forker
      rw [forker, fork] at idle
      cases idle
    obtain ⟨above, m, -, labelled, heap, labelledParent, others, -⟩ := implicit_end_ok done
    obtain ⟨label, same, holds, shapes⟩ := shaped.live t s known alive
    rw [labelled, Option.some.injEq] at same
    subst same
    -- the label without its last segment is the one that the parent had when it forked the region
    obtain ⟨-, own, below⟩ := shaped.started parent q t forker fork
    have above_shapes : d.heap.shapes above = base parent ++ q.unit := by
      rw [Standing.unit, Standing.sharing, outside, shapes_append, below] at shapes
      exact (List.append_inj' (shapes.trans (List.append_nil _)) rfl).1
    have handed := shaped.change forker (fun s => { s with fork := .joined }) (heap ▸ .refl _) others rfl id
      (fun first fork => by cases fork) (shaped.once parent q forker) fun _ =>
        ⟨above, labelledParent, heap ▸ holds.left, heap ▸ above_shapes⟩
    have known' : p.change parent (fun s => { s with fork := .joined }) t = some s := by
      rw [Program.change_apply, if_neg apart, known]
    exact handed.ends known' idle (.refl _) fun _ _ => rfl
  · rename_i notFirst
    rw [on_ompt_callback_implicit_task, if_pos ⟨rfl, notFirst⟩] at done
    cases done
    exact shaped.ends known idle (.refl _) fun _ _ => rfl

theorem shaped_taskComplete {s : Standing} (shaped : Shaped base p d) (known : p t = some s) (idle : s.fork = .none)
    (done : handleTaskComplete d t = .ok d') : Shaped base (p.change t fun s => { s with live := false }) d' := by
  obtain ⟨label, mutated, done⟩ := ok_of_bind done
  cases done
  refine shaped.ends known idle (.refl _) fun x other => ?_
  simp [Detector.label, other]

theorem sharing_of_shared {s : Standing} {wsType : WorkType} {rest : List WorkType} (work : s.work = wsType :: rest)
    (shared : wsType.isShared = true) : s.unit = [unitShape] := by
  rw [Standing.unit, Standing.sharing, work, List.any_cons, shared, Bool.true_or, if_pos rfl]

theorem shaped_workBegin {wsType : WorkType} {s : Standing} (shaped : Shaped base p d) (known : p t = some s)
    (idle : s.fork = .none) (shared : wsType.isShared = true) (outside : s.sharing = false)
    (done : on_ompt_callback_work d wsType .scope_begin t = .ok d') :
    Shaped base (p.change t fun s => { s with work := wsType :: s.work }) d' := by
  have reshapes := work_begin_reshapes shared done
  refine shaped.change known _ reshapes.grows reshapes.others rfl id (fun first fork => ?_) ?_ fun alive => ?_
  · rw [idle] at fork
    cases fork
  · have none : s.work.filter WorkType.isShared = [] := by
      rw [List.filter_eq_nil_iff]
      intro shares inside
      rw [Standing.sharing, List.any_eq_false] at outside
      exact outside shares inside
    simp [shared, none]
  · obtain ⟨label, labelled, holds, shapes⟩ := shaped.live t s known alive
    obtain ⟨label', labelled', holds', pushed⟩ := reshapes.own label labelled holds
    refine ⟨label', labelled', holds', ?_⟩
    rw [sharing_of_shared (s := { s with work := wsType :: s.work }) rfl shared, pushed, shapes, Standing.unit, outside]
    simp [unitShape]

theorem shaped_workEnd {wsType : WorkType} {rest : List WorkType} {s : Standing} (shaped : Shaped base p d)
    (known : p t = some s) (idle : s.fork = .none) (shared : wsType.isShared = true) (work : s.work = wsType :: rest)
    (done : on_ompt_callback_work d wsType .scope_end t = .ok d') :
    Shaped base (p.change t fun s => { s with work := s.work.tail }) d' := by
  have reshapes := work_end_reshapes shared done
  have once := shaped.once t s known
  rw [work, List.filter_cons_of_pos shared, List.length_cons] at once
  have none : rest.filter WorkType.isShared = [] := List.length_eq_zero_iff.mp (by omega)
  refine shaped.change known _ reshapes.grows reshapes.others rfl id (fun first fork => ?_) ?_ fun alive => ?_
  · rw [idle] at fork
    cases fork
  · simp [work, none]
  · obtain ⟨label, labelled, holds, shapes⟩ := shaped.live t s known alive
    obtain ⟨label', labelled', holds', unit, popped⟩ := reshapes.own label labelled holds
    refine ⟨label', labelled', holds', ?_⟩
    have after : Standing.unit { s with work := s.work.tail } = [] := by
      have outside : rest.any WorkType.isShared = false := by
        rw [List.any_eq_false]
        exact List.filter_eq_nil_iff.mp none
      simp [Standing.unit, Standing.sharing, work, outside]
    rw [shapes, sharing_of_shared work shared] at popped
    rw [after, List.append_nil]
    exact (List.append_inj' popped rfl).1.symm

theorem shaped_dispatch {kind : DispatchKind} {value : BitVec 64} {s : Standing} (shaped : Shaped base p d)
    (known : p t = some s) (inside : Program.dispatches kind s = true) (plain : kind ≠ .other)
    (done : on_ompt_callback_dispatch d t kind value = .ok d') : Shaped base p d' := by
  have unit : s.unit = [unitShape] := by
    unfold Program.dispatches at inside
    split at inside
    · rename_i rest work
      exact sharing_of_shared work rfl
    · rename_i rest work
      exact sharing_of_shared work rfl
    · exact absurd rfl plain
    · cases inside
  have dispatched : ∃ isSection, d.mutateLabel t (fun h label => mutateWorkShareDispatch h label value isSection) =
      .ok d' := by
    cases kind with
    | iteration => exact ⟨false, done⟩
    | section_ => exact ⟨true, done⟩
    | other => exact absurd rfl plain
  obtain ⟨isSection, dispatched⟩ := dispatched
  refine shaped.keep (dispatch_reshapes dispatched) known fun new changed => ?_
  obtain ⟨init, last, old, rfl⟩ := changed
  rw [unit] at old ⊢
  rw [(List.append_inj' old rfl).1]
  rfl

end Steps

namespace Delivery

variable {base : Nat → List Shape} {s s' : Delivery} {e : Callback}

theorem step_ok (stepped : s.step e = some s') : s.program.allows e = true ∧ s.detector.deliver e = .ok s'.detector ∧
    s'.program = s.program.after e := by
  unfold step at stepped
  split at stepped
  · rename_i allowed
    split at stepped
    · cases stepped
    · rename_i detector delivered
      cases stepped
      exact ⟨allowed, delivered, rfl⟩
  · cases stepped

theorem running_iff {q : Standing} : q.running = true ↔ q.live = true ∧ q.fork = .none := by
  simp [Standing.running]

theorem shaped_step (shaped : Shaped base s.program s.detector) (stepped : s.step e = some s') (plain : ¬e.Unlabels) :
    ∃ base', Shaped base' s'.program s'.detector := by
  obtain ⟨p, d⟩ := s
  obtain ⟨p', d'⟩ := s'
  obtain ⟨allowed, delivered, rfl⟩ := step_ok stepped
  change d.deliver e = .ok d' at delivered
  cases e with
  | initialBegin t =>
    exact shaped_initialBegin shaped (Option.isNone_iff_eq_none.mp allowed) delivered
  | initialEnd t =>
    obtain ⟨q, known, holds⟩ := Program.holds_iff.mp allowed
    simp only [Bool.and_eq_true, running_iff] at holds
    obtain ⟨segment, -, heap, -, others⟩ := initial_task_ok delivered
    exact ⟨base, shaped.ends known holds.1.1.2 (heap ▸ (d.heap.alloc_extends segment).grows) others⟩
  | implicitBegin t parent size index =>
    simp only [Program.allows, Bool.and_eq_true, decide_eq_true_eq] at allowed
    obtain ⟨⟨fresh, inside⟩, allowed⟩ := allowed
    obtain ⟨q, known, holds⟩ := Program.holds_iff.mp allowed
    rw [Bool.and_eq_true] at holds
    exact shaped_implicitBegin shaped (Option.isNone_iff_eq_none.mp fresh) inside known holds.1 delivered
  | implicitEnd t parent index =>
    simp only [Program.allows, Bool.and_eq_true, Bool.or_eq_true, decide_eq_true_eq] at allowed
    obtain ⟨q, known, holds⟩ := Program.holds_iff.mp allowed.1
    simp only [Bool.and_eq_true, running_iff, List.isEmpty_iff] at holds
    refine ⟨base, shaped_implicitEnd shaped known holds.1.1.2 holds.1.1.1 holds.2 (fun zero => ?_) delivered⟩
    obtain ⟨q', forker, fork⟩ := Program.holds_iff.mp (allowed.2.resolve_left (fun not => not zero))
    exact ⟨q', forker, by simpa using fork⟩
  | parallelBegin t region requested flags =>
    obtain ⟨q, known, holds⟩ := Program.holds_iff.mp allowed
    cases delivered
    exact ⟨base, shaped.change known _ (.refl _) (fun _ _ => rfl) rfl id (fun first fork => by cases fork)
      (shaped.once t q known) (shaped.live t q known)⟩
  | parallelEnd t =>
    obtain ⟨q, known, holds⟩ := Program.holds_iff.mp allowed
    cases delivered
    exact ⟨base, shaped.change known _ (.refl _) (fun _ _ => rfl) rfl id (fun first fork => by cases fork)
      (shaped.once t q known) (shaped.live t q known)⟩
  | taskCreate t new flags region =>
    simp only [Program.allows, Bool.and_eq_true, Bool.or_eq_true, decide_eq_true_eq] at allowed
    have fresh := Option.isNone_iff_eq_none.mp allowed.2
    by_cases initial : flags = ompt_task_initial
    · subst initial
      exact shaped_initialBegin shaped fresh delivered
    · have explicit : flags = ompt_task_explicit := by
        by_contra other
        exact plain ⟨initial, other⟩
      subst explicit
      obtain ⟨q, known, holds⟩ := Program.holds_iff.mp (allowed.1.resolve_left initial)
      exact shaped_taskCreate shaped fresh known (running_iff.mp holds).1 delivered
  | taskSchedule prior status =>
    by_cases complete : status = .complete
    · subst complete
      obtain ⟨q, known, holds⟩ := Program.holds_iff.mp allowed
      simp only [Bool.and_eq_true, running_iff] at holds
      exact ⟨base, shaped_taskComplete shaped known holds.1.1.2 delivered⟩
    · cases status
      case complete => exact absurd rfl complete
      all_goals
        cases delivered
        exact ⟨base, shaped⟩
  | syncRegion kind endPoint t =>
    obtain ⟨q, known, -⟩ := Program.holds_iff.mp allowed
    exact ⟨base, shaped.keep (sync_region_reshapes delivered) known fun _ same => same.symm⟩
  | work wsType endPoint t =>
    have shared : wsType.isShared = true := by
      cases wsType with
      | taskloop | other => exact absurd trivial plain
      | workshare | distribute => cases delivered
      | _ => rfl
    cases endPoint with
    | scope_begin =>
      obtain ⟨q, known, holds⟩ := Program.holds_iff.mp allowed
      simp only [Bool.and_eq_true, running_iff, shared, Bool.true_and, Bool.not_eq_true'] at holds
      exact ⟨base, shaped_workBegin shaped known holds.1.2 shared holds.2 delivered⟩
    | scope_end =>
      obtain ⟨q, known, holds⟩ := Program.holds_iff.mp allowed
      simp only [Bool.and_eq_true, running_iff, decide_eq_true_eq] at holds
      obtain ⟨rest, work⟩ := List.head?_eq_some_iff.mp holds.2
      exact ⟨base, shaped_workEnd shaped known holds.1.2 shared work delivered⟩
  | dispatch t kind value =>
    obtain ⟨q, known, holds⟩ := Program.holds_iff.mp allowed
    rw [Bool.and_eq_true] at holds
    refine ⟨base, shaped_dispatch shaped known holds.2 (fun other => plain ?_) delivered⟩
    subst other
    trivial
  | mutexAcquired kind waitId t =>
    obtain ⟨q, known, -⟩ := Program.holds_iff.mp allowed
    exact ⟨base, shaped.keep (mutex_acquired_reshapes delivered) known fun _ same => same.symm⟩
  | mutexReleased kind waitId t =>
    obtain ⟨q, known, -⟩ := Program.holds_iff.mp allowed
    exact ⟨base, shaped.keep (mutex_released_reshapes delivered) known fun _ same => same.symm⟩
  | dependences t region deps =>
    cases delivered
    exact ⟨base, shaped.quiet (dependences_quiet d region t deps)⟩
  | reduction endPoint t =>
    obtain ⟨q, known, -⟩ := Program.holds_iff.mp allowed
    cases endPoint
    all_goals
      cases delivered
      exact ⟨base, shaped.keep (t := t) (setData_reshapes rfl rfl) known fun _ same => same.symm⟩

theorem shaped_run {es : List Callback} {s : Delivery} (ran : run es = some s) (plain : ∀ e ∈ es, ¬e.Unlabels) :
    ∃ base, Shaped base s.program s.detector := by
  induction es using List.reverseRecOn generalizing s with
  | nil =>
    cases ran
    refine ⟨fun _ => [], ⟨fun t s known => ?_, fun t s known => ?_, fun t s first known => ?_, fun t s known => ?_⟩⟩
    all_goals cases known
  | append_singleton es e ih =>
    rw [run, List.foldlM_append] at ran
    obtain ⟨before, earlier, stepped⟩ := Option.bind_eq_some_iff.mp ran
    obtain ⟨base, shaped⟩ := ih earlier fun e inside => plain e (List.mem_append_left _ inside)
    have stepped : before.step e = some s := by simpa using stepped
    exact shaped_step shaped stepped (plain e (by simp))

end Delivery

end Romp
