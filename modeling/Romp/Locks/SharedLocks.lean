import Mathlib.Data.Multiset.AddSub
import Romp.Callbacks.Detector
import Romp.Locks.LockArray

namespace Romp

structure LockRecord where
  taskPtr : Nat
  lockSet : Option Nat

/-- The lock sets behind their `shared_ptr`s, each pointer given as the number of its object, with
    the pointers of the tasks and those of the records made so far, the oldest first. -/
structure LockState where
  objects : Nat → LockArray
  next : Nat
  lockSet : Nat → Option Nat
  records : List LockRecord

namespace LockState

def initial : LockState := ⟨fun _ => LockArray.new, 0, fun _ => none, []⟩

def make_shared (s : LockState) (object : LockArray) : LockState × Nat :=
  ({ s with objects := Function.update s.objects s.next object, next := s.next + 1 }, s.next)

def call (s : LockState) (r : Nat) (method : LockArray → Except Abort LockArray) : Except Abort LockState := do
  let object ← method (s.objects r)
  .ok { s with objects := Function.update s.objects r object }

def setLockSet (s : LockState) (t : Nat) (r : Nat) : LockState :=
  { s with lockSet := Function.update s.lockSet t (some r) }

/-- `on_ompt_callback_mutex_acquired` for a kind other than ordered; `memory` is what the storage
    of a copy held before. -/
def mutex_acquired (memory : Nat → BitVec 64) (s : LockState) (waitId : BitVec 64) (taskData : Nat) :
    Except Abort LockState :=
  match s.lockSet taskData with
  | none =>
    let (s, lockSet) := s.make_shared LockArray.new
    (s.setLockSet taskData lockSet).call lockSet (·.addLock waitId)
  | some old => do
    let (s, clonedLockSet) := s.make_shared ((s.objects old).copy memory)
    let s ← s.call clonedLockSet (·.addLock waitId)
    .ok (s.setLockSet taskData clonedLockSet)

def mutex_released (memory : Nat → BitVec 64) (s : LockState) (waitId : BitVec 64) (taskData : Nat) :
    Except Abort LockState :=
  match s.lockSet taskData with
  | none => .error "lock set is nullptr"
  | some old => do
    let (s, clonedLockSet) := s.make_shared ((s.objects old).copy memory)
    let s ← s.call clonedLockSet (·.removeLock waitId)
    .ok (s.setLockSet taskData clonedLockSet)

/-- The record that `checkDataRace` makes for an access copies the pointer of its task. -/
def checkAccess (s : LockState) (taskData : Nat) : LockState :=
  { s with records := s.records ++ [⟨taskData, s.lockSet taskData⟩] }

def deref (s : LockState) (lockSet : Option Nat) : Option SmallLockSet :=
  lockSet.map fun r => (s.objects r).value

def locks (s : LockState) (lockSet : Option Nat) : Multiset (BitVec 64) :=
  heldLocks (s.deref lockSet)

end LockState

inductive LockEvent where
  | acquired (task : Nat) (lock : BitVec 64)
  | released (task : Nat) (lock : BitVec 64)
  | access (task : Nat)
  deriving DecidableEq

namespace LockEvent

def isAccess : LockEvent → Bool
  | access _ => true
  | _ => false

def handle (memory : Nat → BitVec 64) (s : LockState) : LockEvent → Except Abort LockState
  | acquired t lock => s.mutex_acquired memory lock t
  | released t lock => s.mutex_released memory lock t
  | access t => .ok (s.checkAccess t)

def hold (t : Nat) (locks : Multiset (BitVec 64)) : LockEvent → Multiset (BitVec 64)
  | acquired t' lock => if t' = t then lock ::ₘ locks else locks
  | released t' lock => if t' = t then locks.erase lock else locks
  | access _ => locks

end LockEvent

def held (t : Nat) (events : List LockEvent) : Multiset (BitVec 64) := events.foldl (LockEvent.hold t) 0

/-- The event may come after the others: at most four locks are held at once, and a released one was held. -/
def LockEvent.Allowed (before : List LockEvent) : LockEvent → Prop
  | acquired t _ => (held t before).card < 4
  | released t lock => lock ∈ held t before
  | access _ => True

instance (before : List LockEvent) : (e : LockEvent) → Decidable (e.Allowed before)
  | .acquired t _ => inferInstanceAs (Decidable ((held t before).card < 4))
  | .released t lock => inferInstanceAs (Decidable (lock ∈ held t before))
  | .access _ => inferInstanceAs (Decidable True)

def DisciplinedFrom (before : List LockEvent) : List LockEvent → Prop
  | [] => True
  | e :: events => e.Allowed before ∧ DisciplinedFrom (before ++ [e]) events

def Disciplined (events : List LockEvent) : Prop := DisciplinedFrom [] events

instance decidableDisciplinedFrom : (before events : List LockEvent) → Decidable (DisciplinedFrom before events)
  | _, [] => inferInstanceAs (Decidable True)
  | before, e :: events =>
    have := decidableDisciplinedFrom (before ++ [e]) events
    inferInstanceAs (Decidable (e.Allowed before ∧ DisciplinedFrom (before ++ [e]) events))

instance (events : List LockEvent) : Decidable (Disciplined events) := decidableDisciplinedFrom [] events

def runLocks (memory : Nat → Nat → BitVec 64) (s : LockState) : List LockEvent → Except Abort LockState
  | [] => .ok s
  | e :: events => do
    let s ← e.handle (memory s.next) s
    runLocks memory s events

theorem held_append (t : Nat) (events : List LockEvent) (e : LockEvent) :
    held t (events ++ [e]) = e.hold t (held t events) := by
  rw [held, List.foldl_append]
  rfl

namespace LockState

structure Keeps (s s' : LockState) : Prop where
  next : s.next ≤ s'.next
  objects : ∀ r < s.next, s'.objects r = s.objects r
  records : s'.records = s.records

theorem Keeps.locks {s s' : LockState} (keeps : s.Keeps s') {lockSet : Option Nat}
    (made : ∀ r, lockSet = some r → r < s.next) : s'.locks lockSet = s.locks lockSet := by
  match lockSet with
  | none => rfl
  | some r => simp only [LockState.locks, deref, Option.map_some, keeps.objects r (made r rfl)]

theorem locks_some (s : LockState) (r : Nat) : s.locks (some r) = ((s.objects r).contents : Multiset (BitVec 64)) :=
  rfl

theorem make_call (s : LockState) (method : LockArray → Except Abort LockArray) {object object' : LockArray}
    (changed : method object = .ok object') : ∃ objects,
      (s.make_shared object).1.call (s.make_shared object).2 method = .ok { s with objects, next := s.next + 1 } ∧
      objects s.next = object' ∧ ∀ r < s.next, objects r = s.objects r := by
  have fresh : (s.make_shared object).1.objects s.next = object := Function.update_self ..
  refine ⟨Function.update (s.make_shared object).1.objects s.next object', ?_, Function.update_self .., ?_⟩
  · rw [call, show (s.make_shared object).2 = s.next from rfl, fresh, changed]
    rfl
  · intro r bound
    have old : r ≠ s.next := by omega
    exact (Function.update_of_ne old ..).trans (Function.update_of_ne old ..)

structure Renews (s s' : LockState) (t : Nat) (locks : List (BitVec 64)) : Prop where
  keeps : s.Keeps s'
  next : s'.next = s.next + 1
  lockSet : s'.lockSet = Function.update s.lockSet t (some s.next)
  contents : (s'.objects s.next).contents = locks

theorem mutex_acquired_ok (memory : Nat → BitVec 64) {s : LockState} {t : Nat} (lock : BitVec 64)
    (room : (heldLocks (s.deref (s.lockSet t))).length < 4) :
    ∃ s', s.mutex_acquired memory lock t = .ok s' ∧
      s.Renews s' t (heldLocks (s.deref (s.lockSet t)) ++ [lock]) := by
  unfold mutex_acquired
  match pointer : s.lockSet t with
  | none =>
    obtain ⟨object, added, contents⟩ := LockArray.new.addLock_ok lock (by decide)
    obtain ⟨objects, called, here, old⟩ := make_call (s.setLockSet t s.next) (·.addLock lock) added
    exact ⟨_, called, ⟨Nat.le_succ _, old, rfl⟩, rfl, rfl, (congrArg _ here).trans contents⟩
  | some r =>
    rw [pointer] at room
    have small : ((s.objects r).copy memory).numLocks < 4 := by
      rw [← LockArray.contents_length, LockArray.contents_copy]
      exact room
    obtain ⟨object, added, contents⟩ := LockArray.addLock_ok _ lock small
    obtain ⟨objects, called, here, old⟩ := make_call s (·.addLock lock) added
    rw [LockArray.contents_copy] at contents
    refine ⟨(⟨objects, s.next + 1, s.lockSet, s.records⟩ : LockState).setLockSet t s.next, ?_,
      ⟨Nat.le_succ _, old, rfl⟩, rfl, rfl, (congrArg _ here).trans contents⟩
    simp only [called]
    rfl

theorem mutex_released_ok (memory : Nat → BitVec 64) {s : LockState} {t : Nat} {lock : BitVec 64}
    (holds : lock ∈ heldLocks (s.deref (s.lockSet t))) :
    ∃ s', s.mutex_released memory lock t = .ok s' ∧
      s.Renews s' t ((heldLocks (s.deref (s.lockSet t))).erase lock) := by
  unfold mutex_released
  match pointer : s.lockSet t with
  | none =>
    rw [pointer] at holds
    cases holds
  | some r =>
    rw [pointer] at holds
    have member : lock ∈ ((s.objects r).copy memory).contents := by
      rw [LockArray.contents_copy]
      exact holds
    obtain ⟨object, removed, contents⟩ := LockArray.removeLock_ok _ lock member
    obtain ⟨objects, called, here, old⟩ := make_call s (·.removeLock lock) removed
    rw [LockArray.contents_copy] at contents
    refine ⟨(⟨objects, s.next + 1, s.lockSet, s.records⟩ : LockState).setLockSet t s.next, ?_,
      ⟨Nat.le_succ _, old, rfl⟩, rfl, rfl, (congrArg _ here).trans contents⟩
    simp only [called]
    rfl

/-- The shared sets, read as values, are those that the callbacks of `Detector` keep. -/
def Shows (s : LockState) (d : Detector) : Prop := ∀ t, (d.data t).lockSet = s.deref (s.lockSet t)

theorem Shows.renew {s s' : LockState} {d : Detector} {t : Nat} {locks : List (BitVec 64)} (shows_ : s.Shows d)
    (pointers : ∀ t r, s.lockSet t = some r → r < s.next) (renews : s.Renews s' t locks) {set : SmallLockSet}
    (same : set.locks = locks) : s'.Shows (d.setData t { d.data t with lockSet := some set }) := by
  intro x
  rw [Detector.setData_data, renews.lockSet]
  by_cases self : x = t
  · subst self
    rw [if_pos rfl, Function.update_self, deref, Option.map_some,
      LockArray.value_eq (renews.contents.trans same.symm)]
  · rw [if_neg self, Function.update_of_ne self, shows_ x]
    match pointer : s.lockSet x with
    | none => rfl
    | some r => simp only [deref, Option.map_some, renews.keeps.objects r (pointers x r pointer)]

/-- The callbacks on shared objects do what `Detector` says that they do to the values. -/
theorem Shows.acquired {s : LockState} {d : Detector} {t : Nat} (shows_ : s.Shows d)
    (pointers : ∀ t r, s.lockSet t = some r → r < s.next) (memory : Nat → BitVec 64) (lock : BitVec 64)
    (room : (heldLocks (s.deref (s.lockSet t))).length < 4) :
    ∃ s' d', s.mutex_acquired memory lock t = .ok s' ∧
      on_ompt_callback_mutex_acquired d .other lock t = .ok d' ∧ s'.Shows d' := by
  obtain ⟨s', called, renews⟩ := mutex_acquired_ok memory lock room
  have value : ((d.data t).lockSet.getD SmallLockSet.empty).locks = heldLocks (s.deref (s.lockSet t)) := by
    rw [shows_ t]
    cases s.deref (s.lockSet t) <;> rfl
  obtain ⟨set, added, locks⟩ := SmallLockSet.addLock_ok _ lock (value ▸ room)
  refine ⟨s', _, called, ?_, shows_.renew pointers renews (locks.trans (congrArg (· ++ [lock]) value))⟩
  simp only [on_ompt_callback_mutex_acquired, added]
  rfl

theorem Shows.released {s : LockState} {d : Detector} {t : Nat} (shows_ : s.Shows d)
    (pointers : ∀ t r, s.lockSet t = some r → r < s.next) (memory : Nat → BitVec 64) {lock : BitVec 64}
    (holds : lock ∈ heldLocks (s.deref (s.lockSet t))) :
    ∃ s' d', s.mutex_released memory lock t = .ok s' ∧
      on_ompt_callback_mutex_released d .other lock t = .ok d' ∧ s'.Shows d' := by
  obtain ⟨s', called, renews⟩ := mutex_released_ok memory holds
  have value := shows_ t
  match pointer : s.lockSet t with
  | none =>
    rw [pointer] at holds
    cases holds
  | some r =>
    rw [pointer] at holds value renews
    obtain ⟨set, removed, locks⟩ := (s.objects r).value.removeLock_ok lock holds
    refine ⟨s', _, called, ?_, shows_.renew pointers renews locks⟩
    simp only [on_ompt_callback_mutex_released, value, deref, Option.map_some, removed]
    rfl

/-- After the events, every pointer leads to what its owner held when it took the pointer. -/
structure Exact (s : LockState) (events : List LockEvent) : Prop where
  tasks : ∀ t r, s.lockSet t = some r → r < s.next
  made : ∀ record ∈ s.records, ∀ r, record.lockSet = some r → r < s.next
  held : ∀ t, s.locks (s.lockSet t) = held t events
  count : s.records.length = events.countP LockEvent.isAccess
  recorded : ∀ before t after, events = before ++ .access t :: after →
    ∃ record, s.records[before.countP LockEvent.isAccess]? = some record ∧ record.taskPtr = t ∧
      s.locks record.lockSet = Romp.held t before

theorem exact_initial : initial.Exact [] where
  tasks := by intro t r pointer; cases pointer
  made := by intro record member; cases member
  held t := rfl
  count := rfl
  recorded := by
    intro before t after split
    cases before <;> cases split

theorem Exact.earlier {s s' : LockState} {events : List LockEvent} (holds : s.Exact events)
    (keeps : s.Keeps s') {e : LockEvent} (silent : e.isAccess = false) :
    ∀ before t after, events ++ [e] = before ++ .access t :: after →
      ∃ record, s'.records[before.countP LockEvent.isAccess]? = some record ∧ record.taskPtr = t ∧
        s'.locks record.lockSet = Romp.held t before := by
  intro before t after split
  obtain rfl | ⟨last, rest, rfl⟩ := List.eq_nil_or_concat' after
  · obtain ⟨-, same⟩ := List.append_inj' split rfl
    cases same
    cases silent
  · rw [← List.cons_append, ← List.append_assoc] at split
    obtain ⟨same, -⟩ := List.append_inj' split rfl
    obtain ⟨record, there, task, locks⟩ := holds.recorded before t last same
    refine ⟨record, by rw [keeps.records, there], task, ?_⟩
    rw [keeps.locks (holds.made record (List.mem_of_getElem? there)), locks]

theorem Exact.renew {s s' : LockState} {events : List LockEvent} (holds : s.Exact events) {t : Nat}
    {locks : List (BitVec 64)} (renews : s.Renews s' t locks) {e : LockEvent} (silent : e.isAccess = false)
    (own : Romp.held t (events ++ [e]) = locks)
    (others : ∀ x ≠ t, Romp.held x (events ++ [e]) = Romp.held x events) : s'.Exact (events ++ [e]) where
  tasks x r pointer := by
    rw [renews.lockSet] at pointer
    rw [renews.next]
    by_cases self : x = t
    · subst self
      rw [Function.update_self] at pointer
      cases pointer
      exact Nat.lt_succ_self _
    · rw [Function.update_of_ne self] at pointer
      exact Nat.lt_succ_of_lt (holds.tasks x r pointer)
  made record member r pointer := by
    rw [renews.keeps.records] at member
    rw [renews.next]
    exact Nat.lt_succ_of_lt (holds.made record member r pointer)
  held x := by
    rw [renews.lockSet]
    by_cases self : x = t
    · subst self
      rw [Function.update_self, locks_some, renews.contents, own]
    · rw [Function.update_of_ne self, renews.keeps.locks (holds.tasks x), holds.held, others x self]
  count := by
    rw [renews.keeps.records, holds.count, List.countP_append, List.countP_singleton, silent]
    rfl
  recorded := holds.earlier renews.keeps silent

theorem Exact.handle {s : LockState} {events : List LockEvent} (holds : s.Exact events)
    (memory : Nat → BitVec 64) {e : LockEvent} (allowed : e.Allowed events) :
    ∃ s', e.handle memory s = .ok s' ∧ s'.Exact (events ++ [e]) := by
  cases e with
  | acquired t lock =>
    have now := holds.held t
    have room : (heldLocks (s.deref (s.lockSet t))).length < 4 := by
      rw [← Multiset.coe_card]
      exact lt_of_eq_of_lt (congrArg _ now) allowed
    obtain ⟨s', called, renews⟩ := mutex_acquired_ok memory lock room
    refine ⟨s', called, holds.renew renews rfl ?_ ?_⟩
    · rw [held_append, LockEvent.hold, if_pos rfl, ← now]
      exact (Multiset.coe_eq_coe.mpr (List.perm_append_singleton ..)).symm
    · intro x other
      rw [held_append, LockEvent.hold, if_neg (Ne.symm other)]
  | released t lock =>
    have now := holds.held t
    have member : lock ∈ heldLocks (s.deref (s.lockSet t)) := by
      rw [← Multiset.mem_coe]
      exact Multiset.mem_of_le (le_of_eq now.symm) allowed
    obtain ⟨s', called, renews⟩ := mutex_released_ok memory member
    refine ⟨s', called, holds.renew renews rfl ?_ ?_⟩
    · rw [held_append, LockEvent.hold, if_pos rfl, ← now]
      exact Multiset.coe_erase ..
    · intro x other
      rw [held_append, LockEvent.hold, if_neg (Ne.symm other)]
  | access t =>
    refine ⟨s.checkAccess t, rfl, holds.tasks, ?_, ?_, ?_, ?_⟩
    · intro record member r pointer
      rcases List.mem_append.mp member with old | new
      · exact holds.made record old r pointer
      · cases List.mem_singleton.mp new
        exact holds.tasks t r pointer
    · intro x
      rw [held_append]
      exact holds.held x
    · rw [checkAccess, List.length_append, holds.count, List.countP_append]
      rfl
    · intro before x after split
      obtain rfl | ⟨rest, last, rfl⟩ := List.eq_nil_or_concat' after
      · obtain ⟨rfl, same⟩ := List.append_inj' split rfl
        cases same
        refine ⟨⟨t, s.lockSet t⟩, ?_, rfl, holds.held t⟩
        rw [checkAccess, ← holds.count, List.getElem?_concat_length]
      · rw [← List.cons_append, ← List.append_assoc] at split
        obtain ⟨same, -⟩ := List.append_inj' split rfl
        obtain ⟨record, there, task, locks⟩ := holds.recorded before x rest same
        refine ⟨record, ?_, task, locks⟩
        exact (List.getElem?_append_left (List.getElem?_eq_some_iff.mp there).1).trans there

end LockState

/-- Every step keeps the exactness, and so does the run. -/
theorem runLocks_exact (memory : Nat → Nat → BitVec 64) {s : LockState} {before events : List LockEvent}
    (holds : s.Exact before) (disciplined : DisciplinedFrom before events) :
    ∃ s', runLocks memory s events = .ok s' ∧ s'.Exact (before ++ events) := by
  induction events generalizing s before with
  | nil => exact ⟨s, rfl, by rwa [List.append_nil]⟩
  | cons e events ih =>
    obtain ⟨allowed, rest⟩ := disciplined
    obtain ⟨next, handled, now⟩ := holds.handle (memory s.next) allowed
    obtain ⟨s', ran, done⟩ := ih now rest
    refine ⟨s', ?_, by rwa [List.append_assoc] at done⟩
    rw [runLocks, handled]
    exact ran

/-- At every moment the lock set of a task is what the task holds, and the lock set behind each
    record is what its task held at the access. -/
theorem lockSets_exact (memory : Nat → Nat → BitVec 64) (events : List LockEvent)
    (disciplined : Disciplined events) :
    ∃ s, runLocks memory LockState.initial events = .ok s ∧
      (∀ t, s.locks (s.lockSet t) = held t events) ∧
      ∀ before t after, events = before ++ .access t :: after →
        ∃ record, s.records[before.countP LockEvent.isAccess]? = some record ∧ record.taskPtr = t ∧
          s.locks record.lockSet = held t before := by
  obtain ⟨s, ran, holds⟩ := runLocks_exact memory LockState.exact_initial disciplined
  exact ⟨s, ran, holds.held, holds.recorded⟩

theorem lockSets_exact_nested :
    Disciplined [.acquired 1 7, .acquired 1 9, .acquired 1 7, .access 1, .released 1 7] ∧
      ∃ s, runLocks (fun _ _ => 0) LockState.initial
          [.acquired 1 7, .acquired 1 9, .acquired 1 7, .access 1, .released 1 7] = .ok s ∧
        s.locks (s.lockSet 1) = {9, 7} := by
  have disciplined : Disciplined [.acquired 1 7, .acquired 1 9, .acquired 1 7, .access 1, .released 1 7] := by
    decide
  obtain ⟨s, ran, now, -⟩ := lockSets_exact (fun _ _ => 0) _ disciplined
  exact ⟨disciplined, s, ran, (now 1).trans (by decide)⟩

end Romp
