import Romp.Access.Storage
import Romp.Callbacks.Frame
import Romp.Runtime.Lives

namespace Romp

namespace Runtime

variable {R R' R'' : Runtime} {e : Event} {t x : Nat}

def EndedImplicit (R : Runtime) (t : Nat) : Prop :=
  (∃ r i, (R.task t).kind = .implicit r i) ∧ (R.task t).ended = true

theorem ended_after (enabled : R.enabled e = true) (created : R.Created x) : (R.after e).EndedImplicit x ↔
    R.EndedImplicit x ∨ e = .implicitEnd x := by
  have kind := ((after_extends R e).fixed x created.1).kind
  rw [EndedImplicit, EndedImplicit, kind]
  by_cases plain : e.Bounds
  · cases e with
    | implicitBegin t =>
      by_cases self : x = t <;> simp [after, self]
    | implicitEnd t =>
      by_cases self : x = t
      · subst self
        simp only [Runtime.enabled, Bool.and_eq_true] at enabled
        have implicit : ∃ r i, (R.task x).kind = .implicit r i := by
          cases known : (R.task x).kind with
          | implicit r i => exact ⟨r, i, rfl⟩
          | _ => simp [known] at enabled
        simp [after, implicit]
      · simp [after, self, Ne.symm self]
    | taskComplete t =>
      by_cases self : x = t
      · subst self
        simp only [Runtime.enabled, Bool.and_eq_true, decide_eq_true_eq] at enabled
        simp [enabled.1.2]
      · simp [after, self]
    | _ => exact absurd plain (by simp [Event.Bounds])
  · rw [(lives_after plain).ended x created.1]
    have other : e ≠ .implicitEnd x := by
      rintro rfl
      exact plain trivial
    simp [other]

theorem fresh_after (nested : R.Nested) (enabled : R.enabled e = true) (fresh : ¬R.Created x)
    (created : (R.after e).Created x) : ¬(R.after e).EndedImplicit x := by
  rcases (created_after enabled).mp created with old | rfl | ⟨t, rfl, rfl⟩
  · exact absurd old fresh
  · simp only [Runtime.enabled, Bool.and_eq_true, decide_eq_true_eq, Bool.not_eq_true'] at enabled
    obtain ⟨isTask, unbegun⟩ := enabled
    rintro ⟨⟨r, i, kind⟩, ended⟩
    have kind' : (R.task x).kind = .implicit r i := by simpa [after] using kind
    have ended' : (R.task x).ended = true := by simpa [after] using ended
    obtain ⟨isRegion, isMember, rfl⟩ := nested.member x isTask r i kind'
    have counters := nested.counters r isRegion i isMember
    cases (counters.unbegun unbegun).2.1.symm.trans (counters.ended ended').1
  · rintro ⟨⟨r, i, kind⟩, -⟩
    simp [after, Task.new] at kind

end Runtime

theorem scanRecords_subset {ctx : Context} {flags : ReportFlags} {checkInfo : CheckInfo} {cur : Record}
    {records left : List Record} {scan scan' : Scan}
    (scanned : scanRecords ctx flags checkInfo cur records scan = .ok (scan', left)) : left ⊆ records := by
  induction records generalizing scan left with
  | nil =>
    cases scanned
    exact List.Subset.refl []
  | cons hist rest ih =>
    obtain ⟨⟨middle, kept⟩, first, scanned⟩ := ok_of_bind scanned
    obtain ⟨⟨final, others⟩, later, scanned⟩ := ok_of_bind scanned
    cases scanned
    have inside := List.subset_cons_of_subset hist (ih later)
    cases kept with
    | true => exact List.cons_subset.mpr ⟨List.mem_cons_self, inside⟩
    | false => exact inside

theorem checkDataRace_records {flags : ReportFlags} {h : AccessHistory} {a : Access} {reports : RaceReports}
    {done : Checked} (ran : checkDataRace flags h a reports = .ok done) {r : Record} (inside : r ∈ done.history.records) :
    r ∈ h.records ∨ r = a.record := by
  by_cases unchecked : a.Unchecked
  · rw [checkDataRace_unchecked unchecked] at ran
    cases ran
    exact .inl inside
  cases found : h.dataRaceFound with
  | true =>
    rw [checkDataRace_found unchecked found] at ran
    cases ran
    cases inside
  | false =>
    cases recycled : h.memIsRecycled with
    | true =>
      rw [checkDataRace_recycled unchecked found recycled] at ran
      cases ran
      cases inside
    | false =>
      by_cases empty : h.records = []
      · rw [checkDataRace_first unchecked found recycled empty] at ran
        cases ran
        exact .inr (List.mem_singleton.mp inside)
      · rw [checkDataRace_scan unchecked found recycled empty] at ran
        obtain ⟨⟨scan, left⟩, scanned, ran⟩ := ok_of_bind ran
        cases ran
        have old := scanRecords_subset scanned
        change r ∈ (if scan.skipAddCur then left else left ++ [a.record]) at inside
        split at inside
        · exact .inl (old inside)
        · rcases List.mem_append.mp inside with kept | new
          · exact .inl (old kept)
          · exact .inr (List.mem_singleton.mp new)

theorem unorderedRecords_subset (heap : Heap) (cur : Record) (records : List Record) :
    unorderedRecords heap cur records ⊆ records := by
  induction records with
  | nil => exact List.Subset.refl []
  | cons hist rest ih =>
    have inside := List.subset_cons_of_subset hist ih
    rw [unorderedRecords]
    split
    · exact inside
    · split
      · exact List.nil_subset _
      · exact inside
      · exact List.cons_subset.mpr ⟨List.mem_cons_self, inside⟩

theorem Access.dereferences_subset (a : Access) (h : AccessHistory) : a.dereferences h ⊆ h.records := by
  have consulted : a.consults h ⊆ h.records := by
    rw [Access.consults]
    split
    · exact List.nil_subset _
    · exact List.Subset.refl _
  rw [Access.dereferences]
  split
  · exact List.Subset.trans (unorderedRecords_subset ..) consulted
  · exact List.nil_subset _

namespace Machine

/-- Where the data of the tasks is: an implicit task's has been there until the task ended. -/
structure Stored (m : Machine) : Prop where
  nested : m.system.runtime.Nested
  kept : ∀ t, m.system.runtime.Created t → ¬m.system.runtime.EndedImplicit t → m.owner (m.address t) = some t
  owned : ∀ place t, m.owner place = some t →
    m.system.runtime.Created t ∧ ¬m.system.runtime.EndedImplicit t ∧ m.address t = place
  records : ∀ byte, ∀ r ∈ (m.shadow byte).records, m.system.runtime.Created r.taskPtr

/-- A pointer that was made for a task is good as long as the task is no implicit task that has ended. -/
theorem Stored.refers_iff {m : Machine} (stored : m.Stored) {t : Nat} (created : m.system.runtime.Created t) :
    m.Refers t ↔ ¬m.system.runtime.EndedImplicit t :=
  ⟨fun refers => (stored.owned _ t refers).2.1, stored.kept t created⟩

namespace Stored

variable {m m' : Machine} {system : System} {e : Event} {t place : Nat}

open Romp.Runtime

theorem keep (stored : m.Stored) (nested : system.runtime.Nested)
    (created : ∀ x, system.runtime.Created x ↔ m.system.runtime.Created x)
    (ended : ∀ x, m.system.runtime.Created x → (system.runtime.EndedImplicit x ↔ m.system.runtime.EndedImplicit x)) :
    ({ m with system } : Machine).Stored := by
  refine ⟨nested, fun x is notEnded => ?_, fun place x there => ?_, fun byte r inside => ?_⟩
  · have was := (created x).mp is
    exact stored.kept x was (mt (ended x was).mpr notEnded)
  · obtain ⟨is, notEnded, address⟩ := stored.owned place x there
    exact ⟨(created x).mpr is, mt (ended x is).mp notEnded, address⟩
  · exact (created _).mpr (stored.records byte r inside)

theorem new (stored : m.Stored) (nested : system.runtime.Nested) (fresh : ¬m.system.runtime.Created t)
    (created : ∀ x, system.runtime.Created x ↔ m.system.runtime.Created x ∨ x = t)
    (ended : ∀ x, m.system.runtime.Created x → (system.runtime.EndedImplicit x ↔ m.system.runtime.EndedImplicit x))
    (alive : ¬system.runtime.EndedImplicit t) (made : m.new t place = some m') :
    ({ m' with system } : Machine).Stored := by
  unfold Machine.new at made
  split at made
  · rename_i free
    cases made
    refine ⟨nested, fun x is notEnded => ?_, fun place' x there => ?_, fun byte r inside => ?_⟩
    · change Function.update m.owner place (some t) (Function.update m.address t place x) = some x
      rcases (created x).mp is with was | rfl
      · have apart : x ≠ t := fun same => fresh (same ▸ was)
        have there := stored.kept x was (mt (ended x was).mpr notEnded)
        have elsewhere : m.address x ≠ place := by
          rintro rfl
          rw [there] at free
          cases free
        rw [Function.update_of_ne apart, Function.update_of_ne elsewhere, there]
      · rw [Function.update_self, Function.update_self]
    · change Function.update m.owner place (some t) place' = some x at there
      change system.runtime.Created x ∧ ¬system.runtime.EndedImplicit x ∧ Function.update m.address t place x = place'
      by_cases self : place' = place
      · rw [self, Function.update_self, Option.some.injEq] at there
        subst there
        rw [Function.update_self]
        exact ⟨(created t).mpr (.inr rfl), alive, self.symm⟩
      · rw [Function.update_of_ne self] at there
        obtain ⟨was, notEnded, address⟩ := stored.owned place' x there
        have apart : x ≠ t := fun same => fresh (same ▸ was)
        rw [Function.update_of_ne apart]
        exact ⟨(created x).mpr (.inl was), mt (ended x was).mp notEnded, address⟩
    · exact (created _).mpr (.inl (stored.records byte r inside))
  · cases made

theorem delete (stored : m.Stored) (nested : system.runtime.Nested) (is : m.system.runtime.Created t)
    (alive : ¬m.system.runtime.EndedImplicit t)
    (created : ∀ x, system.runtime.Created x ↔ m.system.runtime.Created x)
    (ended : ∀ x, m.system.runtime.Created x →
      (system.runtime.EndedImplicit x ↔ m.system.runtime.EndedImplicit x ∨ x = t)) :
    ({ m.delete t with system } : Machine).Stored := by
  have mine := stored.kept t is alive
  refine ⟨nested, fun x is notEnded => ?_, fun place x there => ?_, fun byte r inside => ?_⟩
  · have was := (created x).mp is
    obtain ⟨notEnded, apart⟩ := not_or.mp (mt (ended x was).mpr notEnded)
    have there := stored.kept x was notEnded
    have elsewhere : m.address x ≠ m.address t := by
      intro same
      rw [same, mine, Option.some.injEq] at there
      exact apart there.symm
    change Function.update m.owner (m.address t) none (m.address x) = some x
    rw [Function.update_of_ne elsewhere, there]
  · change Function.update m.owner (m.address t) none place = some x at there
    by_cases self : place = m.address t
    · rw [self, Function.update_self] at there
      cases there
    · rw [Function.update_of_ne self] at there
      obtain ⟨was, notEnded, address⟩ := stored.owned place x there
      have apart : x ≠ t := by
        rintro rfl
        exact self address.symm
      exact ⟨(created x).mpr was, mt (ended x was).mp (not_or.mpr ⟨notEnded, apart⟩), address⟩
  · exact (created _).mpr (stored.records byte r inside)

theorem ending (nested : m.system.runtime.Nested) (enabled : m.system.runtime.enabled (.implicitEnd t) = true) :
    m.system.runtime.Created t ∧ ¬m.system.runtime.EndedImplicit t := by
  simp only [Runtime.enabled, Bool.and_eq_true, decide_eq_true_eq, Bool.not_eq_true'] at enabled
  obtain ⟨⟨⟨⟨isTask, closing⟩, -⟩, live⟩, kind⟩ := enabled
  refine ⟨⟨isTask, ?_⟩, fun ended => by cases live.symm.trans ended.2⟩
  cases known : (m.system.runtime.task t).kind with
  | implicit r i =>
    obtain ⟨isRegion, isMember, rfl⟩ := nested.member t isTask r i known
    by_contra unbegun
    have none := (nested.counters r isRegion i isMember).unbegun (by simpa using unbegun)
    cases closing.symm.trans none.2.1
  | _ => simp [known] at kind

theorem event (stored : m.Stored) (place : Nat) (stepped : m.system.step e = some system)
    (made : m.allocate place e = some m') :
    ({ m' with system } : Machine).Stored := by
  obtain ⟨enabled, -, runtime, -⟩ := System.step_cases stepped
  have nested : system.runtime.Nested := runtime ▸ stored.nested.after enabled
  have created : ∀ x, system.runtime.Created x ↔ m.system.runtime.Created x ∨ e = .implicitBegin x ∨
      ∃ t, e = .taskCreate t ∧ x = m.system.runtime.tasks := fun x => by
    rw [runtime]
    exact created_after enabled
  have ended : ∀ x, m.system.runtime.Created x →
      (system.runtime.EndedImplicit x ↔ m.system.runtime.EndedImplicit x ∨ e = .implicitEnd x) := fun x is => by
    rw [runtime]
    exact ended_after enabled is
  have alive : ∀ x, ¬m.system.runtime.Created x → system.runtime.Created x → ¬system.runtime.EndedImplicit x := by
    intro x fresh is
    rw [runtime] at is ⊢
    exact fresh_after stored.nested enabled fresh is
  cases e with
  | implicitBegin t =>
    have fresh : ¬m.system.runtime.Created t := by
      simp only [Runtime.enabled, Bool.and_eq_true, Bool.not_eq_true'] at enabled
      exact fun is => by cases enabled.2.symm.trans is.2
    have is : system.runtime.Created t := (created t).mpr (.inr (.inl rfl))
    refine stored.new nested fresh (fun x => ?_) (fun x is => ?_) (alive t fresh is) made
    · simp [created, eq_comm]
    · simp [ended x is]
  | taskCreate t =>
    have fresh : ¬m.system.runtime.Created m.system.runtime.tasks := fun is => Nat.lt_irrefl _ is.1
    have is : system.runtime.Created m.system.runtime.tasks := (created _).mpr (.inr (.inr ⟨t, rfl, rfl⟩))
    refine stored.new nested fresh (fun x => ?_) (fun x is => ?_) (alive _ fresh is) made
    · simp [created]
    · simp [ended x is]
  | implicitEnd t =>
    cases made
    obtain ⟨is, notEnded⟩ := ending stored.nested enabled
    refine stored.delete nested is notEnded (fun x => ?_) (fun x is => ?_)
    · simp [created]
    · simp [ended x is, eq_comm]
  | _ =>
    cases made
    exact stored.keep nested (fun x => by simp [created]) (fun x is => by simp [ended x is])

theorem access {flags : ReportFlags} {a : ByteAccess} (stored : m.Stored) (checked : m.checkAccess flags a = some m') :
    m'.Stored := by
  obtain ⟨system, stepped, checked⟩ := Option.bind_eq_some_iff.mp checked
  obtain ⟨access, made, checked⟩ := Option.bind_eq_some_iff.mp checked
  split at checked
  · split at checked
    · cases checked
    · rename_i done ran
      cases checked
      have before : ({ m with system } : Machine).Stored := stored.event 0 stepped rfl
      obtain ⟨enabled, -⟩ := System.step_cases stepped
      refine ⟨before.nested, before.kept, before.owned, fun byte r inside => ?_⟩
      change r ∈ (Function.update m.shadow a.byte done.history byte).records at inside
      by_cases self : byte = a.byte
      · rw [self, Function.update_self] at inside
        rcases checkDataRace_records ran inside with old | new
        · exact before.records a.byte r old
        · obtain ⟨isTask, runs⟩ := running_lt enabled
          have is : m.system.runtime.Created a.task := ⟨isTask, (Task.running_iff.mp runs).1⟩
          have task : r.taskPtr = a.task := by
            obtain ⟨label, -, rfl⟩ := Option.map_eq_some_iff.mp made
            rw [new]
            rfl
          rw [task]
          exact ((System.step_cases stepped).2.2.1 ▸ (created_after enabled).mpr (.inl is))
      · rw [Function.update_of_ne self] at inside
        exact before.records byte r inside
  · cases checked

theorem recycle (stored : m.Stored) (byte : BitVec 64) : ({ m with
    shadow := Function.update m.shadow byte ((m.shadow byte).setFlag .eMemoryRecycled) } : Machine).Stored := by
  refine ⟨stored.nested, stored.kept, stored.owned, fun byte' r inside => ?_⟩
  change r ∈ (Function.update m.shadow byte _ byte').records at inside
  by_cases self : byte' = byte
  · rw [self, Function.update_self] at inside
    exact stored.records byte r inside
  · rw [Function.update_of_ne self] at inside
    exact stored.records byte' r inside

theorem step {flags : ReportFlags} {action : Action} (stored : m.Stored) (stepped : m.step flags action = some m') :
    m'.Stored := by
  cases action with
  | event e place =>
    have event : (do
        let system ← m.system.step e
        let m ← m.allocate place e
        some { m with system }) = some m' := by
      cases e with
      | access => cases stepped
      | _ => exact stepped
    obtain ⟨system, handled, event⟩ := Option.bind_eq_some_iff.mp event
    obtain ⟨m₁, made, event⟩ := Option.bind_eq_some_iff.mp event
    cases event
    exact stored.event place handled made
  | access a => exact stored.access stepped
  | recycle byte =>
    cases stepped
    exact stored.recycle byte

theorem start {place : Nat} (started : Machine.start place = some m) : m.Stored := by
  unfold Machine.start at started
  split at started
  · cases started
  · rename_i system begun
    cases started
    have runtime : system.runtime = Runtime.init := by
      unfold System.initial at begun
      obtain ⟨detector, -, begun⟩ := ok_of_bind begun
      cases begun
      rfl
    refine ⟨runtime ▸ nested_init, fun x is notEnded => ?_, fun place' x there => ?_, fun byte r inside => by cases inside⟩
    · have zero : x = 0 := by
        have bound := is.1
        rw [runtime] at bound
        exact Nat.lt_one_iff.mp bound
      rw [zero]
      change Function.update (fun _ => none) place (some 0) place = some 0
      rw [Function.update_self]
    · change Function.update (fun _ => none) place (some 0) place' = some x at there
      by_cases self : place' = place
      · rw [self, Function.update_self, Option.some.injEq] at there
        subst there
        rw [runtime]
        refine ⟨⟨Nat.zero_lt_one, rfl⟩, ?_, self.symm⟩
        rintro ⟨⟨r, i, kind⟩, -⟩
        cases kind
      · rw [Function.update_of_ne self] at there
        cases there

theorem runFrom {flags : ReportFlags} {actions : List Action} (stored : m.Stored)
    (ran : m.runFrom flags actions = some m') : m'.Stored := by
  induction actions generalizing m with
  | nil =>
    cases ran
    exact stored
  | cons action actions ih =>
    rw [Machine.runFrom, List.foldlM_cons] at ran
    obtain ⟨middle, stepped, rest⟩ := Option.bind_eq_some_iff.mp ran
    exact ih (stored.step stepped) rest

end Stored

theorem dereferences_subset (m : Machine) (a : ByteAccess) : m.dereferences a ⊆ (m.shadow a.byte).records := by
  rw [dereferences]
  split
  · exact List.nil_subset _
  · exact Access.dereferences_subset ..

/-- In every state of every run and for every access: the task pointers that its check dereferences all
    refer to the data of the tasks that made the records exactly when none of these is an implicit task
    that has ended. -/
theorem records_refer_iff {flags : ReportFlags} {place : Nat} {actions : List Action} {m : Machine}
    (ran : run flags place actions = some m) (a : ByteAccess) :
    (∀ r ∈ m.dereferences a, m.Refers r.taskPtr) ↔
      ∀ r ∈ m.dereferences a, ¬m.system.runtime.EndedImplicit r.taskPtr := by
  unfold run at ran
  obtain ⟨first, started, ran⟩ := Option.bind_eq_some_iff.mp ran
  have stored := (Stored.start started).runFrom ran
  exact forall₂_congr fun r inside => stored.refers_iff (stored.records a.byte r (m.dereferences_subset a inside))

def writes (t : Nat) : ByteAccess := ⟨t, 0, 0, true, false, .eNonThreadPrivate, ⟨0, 0⟩⟩

def innerWrite : List Action :=
  [.event (.parallelBegin 0 2) 0, .event (.implicitBegin 1) 1, .event (.implicitBegin 2) 2,
    .event (.taskCreate 2) 3, .event (.parallelBegin 1 2) 0, .event (.implicitBegin 4) 4,
    .event (.implicitBegin 5) 5, .access (writes 5)]

/-- The inner team is over, and a new task's data has the place of its second member's. -/
def innerEnd : List Action :=
  [.event (.barrierBegin 4 true) 0, .event (.barrierBegin 5 true) 0, .event (.release 1) 0,
    .event (.barrierEnd 4) 0, .event (.barrierEnd 5) 0, .event (.implicitEnd 5) 0, .event (.taskCreate 2) 5]

theorem records_refer_iff_inner : ∃ m, run ⟨false, false⟩ 0 innerWrite = some m ∧
    (m.dereferences (writes 3)).map Record.taskPtr = [5] ∧ ∀ r ∈ m.dereferences (writes 3), m.Refers r.taskPtr := by
  have evaluated : (run ⟨false, false⟩ 0 innerWrite).any (fun m =>
      (m.dereferences (writes 3)).map Record.taskPtr = [5] ∧ (m.system.runtime.task 5).ended = false) = true := by
    decide
  obtain ⟨m, ran, pointers, running⟩ := exists_of_any evaluated
  refine ⟨m, ran, pointers, (records_refer_iff ran (writes 3)).mpr fun r inside ended => ?_⟩
  have five : r.taskPtr = 5 := by
    have member := List.mem_map_of_mem (f := Record.taskPtr) inside
    rw [pointers] at member
    exact List.mem_singleton.mp member
  rw [five] at ended
  cases running.symm.trans ended.2

theorem dangling_read : ¬ ∀ flags place actions m, run flags place actions = some m →
    ∀ a, ∀ r ∈ m.dereferences a, m.Refers r.taskPtr := by
  intro refers
  have evaluated : (run ⟨false, false⟩ 0 (innerWrite ++ innerEnd)).any (fun m =>
      ∃ r ∈ m.dereferences (writes 3), ¬m.Refers r.taskPtr) = true := by
    decide
  obtain ⟨m, ran, r, inside, gone⟩ := exists_of_any evaluated
  exact gone (refers _ _ _ m ran (writes 3) r inside)

end Machine

end Romp
