import Romp.Callbacks.Effects
import Romp.Checks.Threads
import Romp.ForkJoin.Exactness

open ForkJoin

namespace Romp

structure TaskData.Guarded (data : TaskData) (guard : Guard) : Prop where
  lockSet : lockBag data.lockSet = guard.locks
  inReduction : data.inReduction = guard.reduces
  isExplicitTask : data.isExplicitTask = false

namespace Runtime.Forking

variable {s : System} {e : Event} {t : Nat} (forking : s.runtime.Forking) (permitted : ForkJoinStep s e)
  (enabled : s.runtime.enabled e = true) (runs : s.runtime.running t = true)

include forking permitted enabled runs

theorem after_other (other : e.actor ≠ some t) :
    ∃ known, (s.runtime.after e).task t = { s.runtime.task t with known } := by
  obtain ⟨isTask, running⟩ := running_lt runs
  have elsewhere : ∀ x, e.actor = some x → ¬t = x := fun x actor same => other (same ▸ actor)
  cases e with
  | parallelBegin x size =>
    rw [fork_task isTask, if_neg (elsewhere x rfl)]
    exact ⟨_, rfl⟩
  | implicitBegin x | barrierBegin x | barrierEnd x | implicitEnd x =>
    rw [Runtime.after, set_task, if_neg (elsewhere x rfl)]
    exact ⟨_, rfl⟩
  | release r =>
    exact release_kept t
  | parallelEnd r =>
    rw [join_task]
    split
    · rename_i same
      simp only [Runtime.enabled, Bool.and_eq_true, beq_iff_eq] at enabled
      have waits := enabled.2
      rw [← same, forking.running_idle isTask running] at waits
      cases waits
    · exact ⟨_, rfl⟩
  | access x =>
    change ∃ known, (s.runtime.set x _).task t = _
    rw [set_task, if_neg (elsewhere x rfl)]
    exact ⟨_, rfl⟩
  | _ => exact permitted.elim

theorem running_after (other : e.actor ≠ some t) : (s.runtime.after e).running t = true := by
  obtain ⟨isTask, running⟩ := running_lt runs
  obtain ⟨known, same⟩ := forking.after_other permitted enabled runs other
  have bound := (after_extends s.runtime e).tasks
  rw [Runtime.running, same, Bool.and_eq_true, decide_eq_true_eq]
  exact ⟨Nat.lt_of_lt_of_le isTask bound, running⟩

theorem label_after {d : Detector} (other : e.actor ≠ some t) (handled : s.detector.handle s.runtime e = .ok d) :
    d.label t = s.detector.label t := by
  have elsewhere : ∀ x, e.actor = some x → ¬t = x := fun x actor same => other (same ▸ actor)
  cases e with
  | parallelBegin | release | parallelEnd | access | barrierBegin =>
    cases handled
    rfl
  | implicitBegin x =>
    simp only [Detector.handle] at handled
    split at handled
    · unfold on_ompt_callback_implicit_task at handled
      split at handled
      · cases handled
        rfl
      · obtain ⟨above, -, handled⟩ := ok_of_bind handled
        obtain ⟨⟨heap, label⟩, -, handled⟩ := ok_of_bind handled
        cases handled
        rw [Detector.label, Detector.setData_data, if_neg (elsewhere x rfl)]
        rfl
    · cases handled
      rfl
  | barrierEnd x =>
    obtain ⟨old, heap, new, -, relabels, -⟩ := Detector.mutateLabel_ok handled
    exact relabels.others t (elsewhere x rfl)
  | implicitEnd x =>
    simp only [Runtime.enabled, Bool.and_eq_true, decide_eq_true_eq, Bool.not_eq_true'] at enabled
    simp only [Detector.handle] at handled
    split at handled
    · rename_i r i kind
      obtain ⟨isRegion, isMember, same⟩ := forking.nested.member x enabled.1.1.1.1 r i kind
      have isOpen := forking.nested.live_open isRegion isMember (same ▸ enabled.1.2)
      have apart : ¬t = (s.runtime.task x).parent := by
        intro equal
        rw [same, (forking.kind r isRegion i isMember).2] at equal
        exact Runtime.Nested.running_not_open (running_lt runs).2 equal.symm isOpen
      unfold on_ompt_callback_implicit_task at handled
      split at handled
      · cases handled
        rfl
      · obtain ⟨label, -, handled⟩ := ok_of_bind handled
        obtain ⟨above, -, handled⟩ := ok_of_bind handled
        cases handled
        rw [Detector.label, Detector.setLabel_label, if_neg apart]
        rfl
    · cases handled
      rfl
  | _ => exact permitted.elim

end Runtime.Forking

namespace Detector

/-- What the callbacks of a fork-join program leave alone: the segments that are there, and what protects a task that
    has begun. -/
structure Steady (d d' : Detector) (e : Event) : Prop where
  heap : d.heap.Extends d'.heap
  kept : ∀ t guard, (e = .implicitBegin t → guard = .bare) → (d.data t).Guarded guard → (d'.data t).Guarded guard

variable {d d' : Detector} {e : Event}

theorem Steady.refl (d : Detector) (e : Event) : d.Steady d e := ⟨.refl _, fun _ _ _ => id⟩

theorem steady_setData {heap : Heap} (extend : d.heap.Extends heap) (t : Nat) {data : TaskData}
    (kept : ∀ guard, (e = .implicitBegin t → guard = .bare) → (d.data t).Guarded guard → data.Guarded guard) :
    d.Steady ({ d with heap }.setData t data) e := by
  refine ⟨extend, fun x guard new => ?_⟩
  rw [setData_data]
  by_cases self : x = t
  · rw [if_pos self]
    exact self ▸ kept guard (self ▸ new)
  · rw [if_neg self]
    exact id

theorem steady_setLabel {heap : Heap} (extend : d.heap.Extends heap) (t : Nat) (label : Option Label) :
    d.Steady ({ d with heap }.setLabel t label) e :=
  steady_setData extend t fun _ _ guarded => ⟨guarded.lockSet, guarded.inReduction, guarded.isExplicitTask⟩

theorem steady_barrier {t : Nat} (done : d.mutateLabel t mutateBarrierEnd = .ok d') : d.Steady d' e := by
  obtain ⟨label, -, done⟩ := ok_of_bind done
  obtain ⟨⟨heap, new⟩, mutated, done⟩ := ok_of_bind done
  obtain ⟨init, r, m, -, extended, -⟩ := mutateBarrierEnd_ok mutated
  cases done
  refine steady_setLabel ?_ t _
  rw [extended]
  apply Heap.alloc_extends

theorem steady_implicit {endPoint : ScopeEndpoint} {t parent size i : Nat}
    (done : on_ompt_callback_implicit_task d endPoint t parent size i = .ok d')
    (begins : endPoint = .scope_begin → e = .implicitBegin t) : d.Steady d' e := by
  unfold on_ompt_callback_implicit_task at done
  split at done
  · cases done
    exact .refl d e
  · cases endPoint with
    | scope_begin =>
      obtain ⟨above, -, done⟩ := ok_of_bind done
      obtain ⟨⟨heap, made⟩, generated, done⟩ := ok_of_bind done
      obtain ⟨s, -, generated⟩ := ok_of_bind generated
      cases generated
      cases done
      refine steady_setData (d.heap.alloc_extends s) t fun guard new _ => ?_
      rw [new (begins rfl)]
      exact ⟨rfl, rfl, rfl⟩
    | scope_end =>
      obtain ⟨label, -, done⟩ := ok_of_bind done
      obtain ⟨above, -, done⟩ := ok_of_bind done
      cases done
      exact steady_setLabel (.refl _) parent _

theorem handle_steady {s : System} (permitted : ForkJoinStep s e) (handled : s.detector.handle s.runtime e = .ok d') :
    s.detector.Steady d' e := by
  cases e with
  | parallelBegin | release | parallelEnd | access =>
    cases handled
    exact ⟨.refl _, fun _ _ _ => id⟩
  | barrierBegin =>
    cases handled
    exact .refl ..
  | implicitBegin =>
    simp only [handle] at handled
    split at handled
    · exact steady_implicit handled fun _ => rfl
    · cases handled
      exact .refl ..
  | implicitEnd =>
    simp only [handle] at handled
    split at handled
    · exact steady_implicit handled fun same => by cases same
    · cases handled
      exact .refl ..
  | barrierEnd => exact steady_barrier handled
  | _ => exact permitted.elim

theorem initial_guarded {s : System} (begun : System.initial = .ok s) (t : Nat) :
    (s.detector.data t).Guarded .bare := by
  unfold System.initial at begun
  obtain ⟨d, first, begun⟩ := ok_of_bind begun
  unfold on_initial_task at first
  obtain ⟨⟨heap, label⟩, -, first⟩ := ok_of_bind first
  cases begun
  cases first
  rw [setData_data]
  split <;> exact ⟨rfl, rfl, rfl⟩

end Detector

theorem Encodes.unique {label : List Segment} {p q : Path} (left : Encodes label p) (right : Encodes label q) :
    p = q := by
  unfold Encodes at left
  induction left generalizing q with
  | nil =>
    cases right
    rfl
  | cons head _ ih =>
    cases right with
    | cons head' rest =>
      have equal := (head.equals_iff head').mp (Segment.equals_refl _)
      rw [equal, ih rest]

def Headed (p : Path) : Prop := ∃ o q, p = (o, 1) :: q

theorem Headed.append {p : Path} (headed : Headed p) (q : Path) : Headed (p ++ q) := by
  obtain ⟨o, rest, rfl⟩ := headed
  exact ⟨o, rest ++ q, rfl⟩

theorem Headed.concurrent {p q : Path} (headed : Headed p) (headed' : Headed q)
    (apart : comparePaths p q = .concurrent) : 2 ≤ p.length ∧ 2 ≤ q.length := by
  obtain ⟨o, rest, rfl⟩ := headed
  obtain ⟨o', rest', rfl⟩ := headed'
  by_cases same : o = o'
  · subst same
    cases rest with
    | nil => simp [comparePaths] at apart
    | cons x rest =>
      cases rest' with
      | nil => simp [comparePaths] at apart
      | cons y rest' => simp
  · have nodes : compareNodes (o, 1) (o', 1) = .concurrent := by simpa [comparePaths, same] using apart
    simpa [Nat.mod_one] using (compareNodes_concurrent.mp nodes).2

namespace Tracked

variable {s s' : System} {V W W' : Nat → Path}

theorem congr (tracked : Tracked s V W) (same : ∀ a < s.runtime.accesses, W' a = W a) : Tracked s V W' := by
  obtain ⟨forking, traced, labelled, recorded⟩ := tracked
  refine ⟨forking, ⟨⟨traced.exact.apart, ?_, ?_⟩, ?_, traced.shape, traced.inherit, traced.past, traced.start⟩, labelled,
    ⟨recorded.length, fun a e logged => ?_⟩⟩
  · intro a t seen active
    rw [same a seen]
    exact traced.exact.decided a t seen active
  · intro a t seen active
    rw [same a seen]
    exact traced.exact.exact a t seen active
  · intro r isRegion waits i isMember closing arrived a seen
    rw [same a seen]
    exact traced.closed r isRegion waits i isMember closing arrived a seen
  · rw [same a (recorded.length ▸ (List.getElem?_eq_some_iff.mp logged).1)]
    exact recorded.path a e logged

theorem onward (tracked : Tracked s V W) {e : Event} (permitted : ForkJoinStep s e) (stepped : s.step e = some s')
    (quiet : ∀ t, e ≠ .access t) : ∃ V', Tracked s' V' W := by
  obtain ⟨V', W', tracked'⟩ := tracked.step permitted stepped
  obtain ⟨-, handled, -, log⟩ := System.step_cases stepped
  have steady := Detector.handle_steady permitted handled
  have same : s'.log = s.log := by
    rw [log]
    cases e with
    | access t => exact absurd rfl (quiet t)
    | _ => rfl
  refine ⟨V', tracked'.congr fun a seen => ?_⟩
  obtain ⟨entry, logged⟩ : ∃ entry, s.log[a]? = some entry := by
    rw [← tracked'.recorded.length, same] at seen
    exact ⟨_, List.getElem?_eq_getElem seen⟩
  obtain ⟨holds, encodes⟩ := tracked.recorded.path a entry logged
  obtain ⟨-, encodes'⟩ := tracked'.recorded.path a entry (same ▸ logged)
  rw [holds.read steady.heap] at encodes'
  exact encodes.unique encodes'

theorem headed_members (tracked : Tracked s V W) {r : Nat} (isRegion : r < s.runtime.regions)
    (waits : s.runtime.Waits r) : ∀ i < (s.runtime.region r).size,
    Headed (V (s.runtime.memberOf r i)) ∧ 2 ≤ (V (s.runtime.memberOf r i)).length := by
  obtain ⟨forking, traced, labelled, -⟩ := tracked
  obtain ⟨x, bound⟩ : ∃ x, (s.runtime.region r).encountering < x := ⟨_, Nat.lt_succ_self _⟩
  induction x generalizing r with
  | zero => exact absurd bound (Nat.not_lt_zero _)
  | succ x ih =>
    have headed : Headed (V (s.runtime.region r).encountering) ∧ V (s.runtime.region r).encountering ≠ [] := by
      refine ⟨?_, (traced.start _ (forking.nested.encountering_lt isRegion)).1⟩
      by_cases root : (s.runtime.region r).encountering = 0
      · obtain ⟨o, -, path⟩ := labelled.root
        rw [root, path]
        exact ⟨_, [], rfl⟩
      · obtain ⟨y, isRegion', j, isMember', same, -, live, -⟩ := forking.forker_waits isRegion waits root
        have isOpen := (forking.waits_iff isRegion').mpr (forking.nested.live_open isRegion' isMember' live)
        have bounds := forking.bounds y isRegion'
        rw [same] at bound ⊢
        refine (ih isRegion' isOpen ?_ j isMember').1
        rw [Runtime.memberOf] at bound
        omega
    intro i isMember
    obtain ⟨o, path, -⟩ := traced.shape r isRegion waits i isMember
    rw [path]
    refine ⟨headed.1.append _, ?_⟩
    have some := List.length_pos_iff.mpr headed.2
    rw [List.length_append, List.length_singleton]
    omega

theorem headed (tracked : Tracked s V W) {t : Nat} (runs : s.runtime.running t = true) :
    Headed (V t) ∧ ((s.runtime.task t).kind ≠ .initial ↔ 2 ≤ (V t).length) := by
  obtain ⟨isTask, running⟩ := Runtime.running_lt runs
  by_cases root : t = 0
  · obtain ⟨o, -, path⟩ := tracked.labelled.root
    rw [root, path, tracked.forking.nested.root.1]
    exact ⟨⟨_, [], rfl⟩, by simp⟩
  · obtain ⟨r, isRegion, i, isMember, rfl⟩ := tracked.forking.member t isTask root
    have live := (Task.running_iff.mp running).2.1
    have waits := (tracked.forking.waits_iff isRegion).mpr (tracked.forking.nested.live_open isRegion isMember live)
    obtain ⟨headed, long⟩ := tracked.headed_members isRegion waits i isMember
    refine ⟨headed, fun _ => long, fun _ => ?_⟩
    rw [(tracked.forking.kind r isRegion i isMember).1]
    exact fun same => by cases same

end Tracked

end Romp
