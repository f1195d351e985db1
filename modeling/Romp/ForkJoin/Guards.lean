import Romp.ForkJoin.Detection

open ForkJoin

namespace Romp

theorem Runtime.begun_after {s : System} {e : Event} {t : Nat} (permitted : ForkJoinStep s e) (isTask : t < s.runtime.tasks)
    (begun : (s.runtime.task t).begun = true) : ((s.runtime.after e).task t).begun = true := by
  cases e with
  | parallelBegin x size =>
    rw [fork_task isTask]
    split
    · rename_i self
      exact self ▸ begun
    · exact begun
  | release r =>
    obtain ⟨known, same⟩ := release_kept (R := s.runtime) (r := r) t
    rw [same]
    exact begun
  | implicitBegin x | barrierBegin x | barrierEnd x | implicitEnd x | parallelEnd x | access x =>
    change ((s.runtime.set _ _).task t).begun = true
    rw [set_task]
    split
    · rename_i self
      first
        | rfl
        | exact self ▸ begun
    · exact begun
  | _ => exact permitted.elim

structure Detector.Reguards (d d' : Detector) (t : Nat) (guard : Guard) : Prop where
  heap : d'.heap = d.heap
  label : ∀ x, d'.label x = d.label x
  others : ∀ x, x ≠ t → d'.data x = d.data x
  guarded : (d'.data t).Guarded guard

section Guards

variable {d d' : Detector} {t : Nat} {guard : Guard} (guarded : (d.data t).Guarded guard)

theorem Detector.reguards {data : TaskData} {guard' : Guard} (label : data.label = (d.data t).label)
    (guarded : data.Guarded guard') : d.Reguards (d.setData t data) t guard' := by
  refine ⟨rfl, fun x => ?_, fun x other => ?_, ?_⟩
  · rw [Detector.label, setData_data]
    split
    · rename_i self
      rw [label, self, Detector.label]
    · rfl
  · rw [setData_data, if_neg other]
  · rw [setData_data, if_pos rfl]
    exact guarded

include guarded

theorem reguards_acquired {lock : BitVec 64} (done : on_ompt_callback_mutex_acquired d .other lock t = .ok d') :
    d.Reguards d' t (guard.acquire lock) := by
  obtain ⟨locks, added, done⟩ := ok_of_bind done
  cases done
  refine Detector.reguards rfl ⟨?_, guarded.inReduction, guarded.isExplicitTask⟩
  unfold SmallLockSet.addLock at added
  split at added
  · cases added
    rw [Guard.acquire, ← guarded.lockSet]
    refine congrArg some ((Multiset.coe_eq_coe.mpr (List.perm_append_singleton ..)).trans ?_)
    cases (d.data t).lockSet <;> rfl
  · cases added

theorem reguards_released {lock : BitVec 64} (done : on_ompt_callback_mutex_released d .other lock t = .ok d') :
    d.Reguards d' t (guard.release lock) := by
  unfold on_ompt_callback_mutex_released at done
  simp only at done
  split at done
  · cases done
  · rename_i held some
    obtain ⟨locks, removed, done⟩ := ok_of_bind done
    cases done
    refine Detector.reguards rfl ⟨?_, guarded.inReduction, guarded.isExplicitTask⟩
    unfold SmallLockSet.removeLock at removed
    split at removed
    · cases removed
      rw [Guard.release, ← guarded.lockSet, some]
      rfl
    · cases removed

theorem reguards_reduction (endPoint : ScopeEndpoint) :
    d.Reguards (on_ompt_callback_reduction d endPoint t) t { guard with reduces := endPoint = .scope_begin } := by
  cases endPoint <;> exact Detector.reguards rfl ⟨guarded.lockSet, rfl, guarded.isExplicitTask⟩

end Guards

structure Subject.Makes (p p' : Subject) (t : Nat) (u : Touch) : Prop where
  made : p'.made = p.made ++ [u]
  guards : p'.guards = p.guards
  held : p'.held p.made.length = p.guards t
  runs : p.system.runtime.running t = true
  running : ∀ x, p'.system.runtime.running x = p.system.runtime.running x
  kind : ∀ x, (p'.system.runtime.task x).kind = (p.system.runtime.task x).kind

namespace Subject.Ordered

variable {p p' : Subject} {s' : System} {V W : Nat → Path} {e : Event} {t : Nat} {u : Touch} (ordered : p.Ordered V W)

include ordered

theorem event (permitted : ForkJoinStep p.system e) (stepped : p.system.step e = some s') (quiet : ∀ t, e ≠ .access t) :
    ∃ V', { p with system := s' : Subject }.Ordered V' W ∧ p.Onward { p with system := s' } W W ∧
      ∀ x, p.system.runtime.running x = true → e.actor ≠ some x →
        s'.runtime.running x = true ∧ (s'.runtime.task x).kind = (p.system.runtime.task x).kind ∧ V' x = V x := by
  obtain ⟨enabled, handled, runtime, log⟩ := System.step_cases stepped
  have steady := Detector.handle_steady permitted handled
  have forking := ordered.tracked.forking
  have same : s'.log = p.system.log := by
    rw [log]
    cases e with
    | access t => exact absurd rfl (quiet t)
    | _ => rfl
  obtain ⟨V', tracked⟩ := ordered.tracked.onward permitted stepped quiet
  refine ⟨V', ⟨tracked, fun x => ?_, fun x new => ?_, ?_, ordered.decided, ordered.headed⟩,
    ⟨⟨[], (List.append_nil _).symm⟩, steady.heap, fun _ _ => rfl, fun _ _ => rfl, fun _ _ => rfl⟩, fun x runs other => ?_⟩
  · refine steady.kept x _ (fun begins => ordered.fresh x fun _ => ?_) (ordered.guarded x)
    subst begins
    simp only [Runtime.enabled, Bool.and_eq_true, Bool.not_eq_true'] at enabled
    exact enabled.2
  · refine ordered.fresh x fun isTask => Bool.eq_false_iff.mpr fun begun => ?_
    have grown := (Runtime.after_extends p.system.runtime e).tasks
    have still := Runtime.begun_after permitted isTask begun
    rw [← runtime] at grown still
    exact absurd ((new (Nat.lt_of_lt_of_le isTask grown)).symm.trans still) Bool.false_ne_true
  · rw [ordered.count, ← tracked.recorded.length, same, ordered.tracked.recorded.length]
  · have runs' := forking.running_after permitted enabled runs other
    rw [← runtime] at runs'
    refine ⟨runs', ?_, ?_⟩
    · rw [runtime]
      exact ((Runtime.after_extends p.system.runtime e).fixed x (Runtime.running_lt runs).1).kind
    · obtain ⟨label, known, holds, encodes⟩ := ordered.tracked.labelled.running forking (Runtime.running_lt runs).1
        (Runtime.running_lt runs).2
      obtain ⟨label', known', -, encodes'⟩ := tracked.labelled.running tracked.forking (Runtime.running_lt runs').1
        (Runtime.running_lt runs').2
      have kept := forking.label_after permitted enabled runs other handled
      obtain rfl : label' = label := Option.some.inj (known'.symm.trans (kept.trans known))
      rw [holds.read steady.heap] at encodes'
      exact encodes'.unique encodes

theorem access (made : p.access t u = some p') :
    p'.Ordered V (Function.update W p.made.length (V t)) ∧ p.Onward p' W (Function.update W p.made.length (V t)) ∧
      p.Makes p' t u := by
  obtain ⟨s', stepped, rfl⟩ := Option.map_eq_some_iff.mp made
  obtain ⟨label, known, detector, log⟩ := System.step_access stepped
  obtain ⟨enabled, -, runtime, -⟩ := System.step_cases stepped
  obtain ⟨tracked, guarded, fresh, count, decided, headed⟩ := ordered
  have runs := Runtime.running_lt enabled
  have active := tracked.forking.active runs.1 runs.2
  have tracked' := tracked.access stepped
  rw [← count] at tracked'
  have old : ∀ a < p.made.length, Function.update W p.made.length (V t) a = W a :=
    fun a bound => Function.update_of_ne (Nat.ne_of_lt bound) _ _
  have length : (p.made ++ [u]).length = p.made.length + 1 := by simp
  have tasks : s'.runtime.tasks = p.system.runtime.tasks := by
    rw [runtime]
    rfl
  have same : ∀ x, ∃ known, s'.runtime.task x = { p.system.runtime.task x with known } := by
    intro x
    rw [runtime]
    change ∃ known, (p.system.runtime.set t _).task x = _
    rw [Runtime.set_task]
    split
    · rename_i self
      rw [self]
      exact ⟨_, rfl⟩
    · exact ⟨_, rfl⟩
  refine ⟨⟨tracked', ?_, fun x new => ?_, ?_, fun i j before bound => ?_, fun a bound => ?_⟩,
    ⟨⟨[u], rfl⟩, ?_, fun j bound => ?_, fun j bound => ?_, old⟩,
    rfl, rfl, Function.update_self .., enabled, fun x => ?_, fun x => ?_⟩
  · rw [detector]
    exact guarded
  · obtain ⟨known, equal⟩ := same x
    refine fresh x fun isTask => ?_
    have unbegun := new (tasks.symm ▸ isTask)
    rwa [equal] at unbegun
  · rw [length, runtime, count]
    rfl
  · simp only [length] at bound
    rw [old i (by omega)]
    by_cases last : j = p.made.length
    · simp only [last, Function.update_self]
      have seen : i < p.system.runtime.accesses := by omega
      exact ⟨tracked.traced.exact.decided i t seen active, tracked.traced.exact.exact i t seen active⟩
    · simp only [Function.update_of_ne last]
      exact decided i j before (by omega)
  · simp only [length] at bound
    by_cases last : a = p.made.length
    · rw [last, Function.update_self]
      exact (tracked.headed enabled).1
    · rw [old a (by omega)]
      exact headed a (by omega)
  · rw [detector]
    exact .refl _
  · exact Function.update_of_ne (Nat.ne_of_lt bound) _ _
  · exact Function.update_of_ne (Nat.ne_of_lt bound) _ _
  · obtain ⟨known, equal⟩ := same x
    rw [Runtime.running, Runtime.running, tasks, equal]
    rfl
  · obtain ⟨known, equal⟩ := same x
    rw [equal]

theorem protect {d : Detector} {guard : Guard} (runs : p.system.runtime.running t = true)
    (reguards : p.system.detector.Reguards d t guard) :
    { p with system := { p.system with detector := d }, guards := Function.update p.guards t guard : Subject }.Ordered V W ∧
      p.Onward { p with system := { p.system with detector := d }, guards := Function.update p.guards t guard } W W := by
  have extend : p.system.detector.heap.Extends d.heap := reguards.heap ▸ .refl _
  have hasPath : ∀ x q, p.system.detector.HasPath x q → d.HasPath x q :=
    fun x q hasPath => hasPath.mono (reguards.label x) extend
  obtain ⟨forking, traced, labelled, recorded⟩ := ordered.tracked
  refine ⟨⟨⟨forking, traced, ⟨?_, labelled.unbegun, ?_⟩, recorded.extend rfl rfl extend⟩, fun x => ?_, fun x new => ?_,
    ordered.count, ordered.decided, ordered.headed⟩, ⟨⟨[], (List.append_nil _).symm⟩, extend, fun _ _ => rfl,
      fun _ _ => rfl, fun _ _ => rfl⟩⟩
  · obtain ⟨o, path, rest⟩ := labelled.root
    exact ⟨o, hasPath _ _ path, rest⟩
  · intro r isRegion i isMember begun live
    obtain ⟨q, o, path, rest⟩ := labelled.label r isRegion i isMember begun live
    exact ⟨q, o, hasPath _ _ path, rest⟩
  · by_cases self : x = t
    · subst self
      simp only [Function.update_self]
      exact reguards.guarded
    · simp only [Function.update_of_ne self, reguards.others x self]
      exact ordered.guarded x
  · by_cases self : x = t
    · obtain ⟨isTask, running⟩ := Runtime.running_lt runs
      have begun := (Task.running_iff.mp running).1
      rw [← self] at begun isTask
      exact absurd ((new isTask).symm.trans begun) Bool.false_ne_true
    · simp only [Function.update_of_ne self]
      exact ordered.fresh x new

end Subject.Ordered

end Romp
