import Mathlib.Data.Multiset.AddSub
import Romp.Locks.LockArray

namespace Romp

def someEntry (test : Nat → Bool) (i : Nat) : Nat → Bool
  | 0 => false
  | count + 1 => if test i then true else someEntry test (i + 1) count

def everyEntry (test : Nat → Bool) (i : Nat) : Nat → Bool
  | 0 => true
  | count + 1 => if test i then everyEntry test (i + 1) count else false

theorem someEntry_eq (test : Nat → Bool) (i count : Nat) :
    someEntry test i count = (List.range' i count).any test := by
  induction count generalizing i with
  | zero => rfl
  | succ count ih =>
    rw [someEntry, ih, List.range'_succ, List.any_cons]
    cases test i <;> rfl

theorem everyEntry_eq (test : Nat → Bool) (i count : Nat) :
    everyEntry test i count = (List.range' i count).all test := by
  induction count generalizing i with
  | zero => rfl
  | succ count ih =>
    rw [everyEntry, ih, List.range'_succ, List.all_cons]
    cases test i <;> rfl

namespace LockArray

/-- The other set is copied first, on memory that nobody has initialised. -/
def hasCommonLock (memory : Nat → BitVec 64) (s other : LockArray) : Bool :=
  let otherLockSet := other.copy memory
  let otherNumLocks := otherLockSet.numLocks
  someEntry (fun i => someEntry (fun j => otherLockSet.locks j == s.locks i) 0 otherNumLocks) 0 s.numLocks

/-- `isSubset` on the objects behind two pointers: the inner loop leaves when `otherLock != lock`. -/
def isSubset (me other : Option LockArray) : Bool :=
  match me, other with
  | none, _ => true
  | some _, none => false
  | some me, some other =>
    if other.numLocks < me.numLocks then false
    else everyEntry (fun i => everyEntry (fun j => !(other.locks j != me.locks i)) 0 other.numLocks) 0 me.numLocks

theorem hasCommonLock_value (memory : Nat → BitVec 64) (s other : LockArray) :
    s.hasCommonLock memory other = s.value.hasCommonLock other.value := by
  have copied : (other.value).locks = (other.copy memory).contents := (other.contents_copy memory).symm
  rw [SmallLockSet.hasCommonLock, copied]
  simp only [hasCommonLock, someEntry_eq, ← List.range_eq_range', value_locks, contents, List.any_map]
  rfl

theorem isSubset_value (me other : Option LockArray) :
    isSubset me other = Romp.isSubset (me.map value) (other.map value) := by
  match me, other with
  | none, _ => rfl
  | some _, none => rfl
  | some me, some other =>
    simp only [isSubset, Romp.isSubset, Option.map_some, SmallLockSet.getNumLocks, value_locks, contents_length]
    congr 1
    simp only [everyEntry_eq, ← List.range_eq_range', contents, List.all_map]
    simp [Function.comp_def, bne]

end LockArray

inductive LockCall where
  | addLock (lock : BitVec 64)
  | removeLock (lock : BitVec 64)
  deriving DecidableEq, Repr

namespace LockCall

def apply (s : LockArray) : LockCall → Except Abort LockArray
  | addLock lock => s.addLock lock
  | removeLock lock => s.removeLock lock

def hold (locks : Multiset (BitVec 64)) : LockCall → Multiset (BitVec 64)
  | addLock lock => lock ::ₘ locks
  | removeLock lock => locks.erase lock

end LockCall

namespace LockArray

def runCalls (s : LockArray) : List LockCall → Except Abort LockArray
  | [] => .ok s
  | call :: calls => do
    let s ← call.apply s
    s.runCalls calls

/-- A lock set pointer: null, or a new set after the calls. -/
def build : Option (List LockCall) → Except Abort (Option LockArray)
  | none => .ok none
  | some calls => do
    let s ← new.runCalls calls
    .ok (some s)

end LockArray

def contained (calls : Option (List LockCall)) : Multiset (BitVec 64) := (calls.getD []).foldl LockCall.hold 0

namespace LockArray

theorem contents_apply {s s' : LockArray} {call : LockCall} (applied : call.apply s = .ok s') :
    (s'.contents : Multiset (BitVec 64)) = call.hold s.contents := by
  cases call with
  | addLock lock =>
    have room : s.numLocks < 4 := by
      by_contra full
      have bound := s.bound
      rw [LockCall.apply, addLock, dif_pos (by omega)] at applied
      cases applied
    obtain ⟨next, added, contents⟩ := s.addLock_ok lock room
    cases added.symm.trans applied
    rw [contents]
    exact Multiset.coe_eq_coe.mpr (List.perm_append_singleton ..)
  | removeLock lock =>
    have held : lock ∈ s.contents := by
      have value := s.removeLock_value lock
      rw [show s.removeLock lock = .ok s' from applied, SmallLockSet.removeLock] at value
      by_contra absent
      rw [if_neg (s.value_locks ▸ absent)] at value
      cases value
    obtain ⟨next, removed, contents⟩ := s.removeLock_ok lock held
    cases removed.symm.trans applied
    rw [contents]
    exact (Multiset.coe_erase ..).symm

theorem contents_runCalls {s s' : LockArray} {calls : List LockCall} (ran : s.runCalls calls = .ok s') :
    (s'.contents : Multiset (BitVec 64)) = calls.foldl LockCall.hold s.contents := by
  induction calls generalizing s with
  | nil =>
    cases ran
    rfl
  | cons call calls ih =>
    obtain ⟨next, applied, rest⟩ := ok_of_bind ran
    rw [ih rest, contents_apply applied]
    rfl

theorem contained_build {calls : Option (List LockCall)} {s : Option LockArray} (made : build calls = .ok s) :
    contained calls = heldLocks (s.map value) := by
  match calls with
  | none =>
    cases made
    rfl
  | some calls =>
    obtain ⟨set, ran, same⟩ := ok_of_bind made
    cases same
    exact (contents_runCalls ran).symm

end LockArray

/-- On these arguments the loops of `isSubset` answer like the inclusion: where it holds, the other set
    is there, is not shorter, and repeats one single lock. -/
def Decided (me other : Option (List LockCall)) : Prop :=
  (∀ lock ∈ contained me, lock ∈ contained other) → me = none ∨ other ≠ none ∧
    (contained me).card ≤ (contained other).card ∧
    (contained me ≠ 0 → ∀ left ∈ contained other, ∀ right ∈ contained other, left = right)

section Built

variable {me other : Option (List LockCall)} {a b : Option LockArray}

theorem build_none (made : LockArray.build me = .ok a) : me = none ↔ a.map LockArray.value = none := by
  match me with
  | none =>
    cases made
    simp
  | some calls =>
    obtain ⟨set, -, same⟩ := ok_of_bind made
    cases same
    simp

theorem build_isSubset (madeMe : LockArray.build me = .ok a) (madeOther : LockArray.build other = .ok b) :
    LockArray.isSubset a b = true ↔ me = none ∨ other ≠ none ∧ (contained me).card ≤ (contained other).card ∧
      ∀ lock ∈ contained me, ∀ otherLock ∈ contained other, otherLock = lock := by
  rw [LockArray.isSubset_value, isSubset_iff, LockArray.contained_build madeMe, LockArray.contained_build madeOther,
    build_none madeMe, Ne, Ne, build_none madeOther]
  rfl

theorem build_isSubset_sound (madeMe : LockArray.build me = .ok a) (madeOther : LockArray.build other = .ok b)
    (yes : LockArray.isSubset a b = true) : ∀ lock ∈ contained me, lock ∈ contained other := by
  rw [LockArray.isSubset_value] at yes
  rw [LockArray.contained_build madeMe, LockArray.contained_build madeOther]
  exact fun lock member => isSubset_sound yes member

theorem build_decided (madeMe : LockArray.build me = .ok a) (madeOther : LockArray.build other = .ok b) :
    (LockArray.isSubset a b = true ↔ ∀ lock ∈ contained me, lock ∈ contained other) ↔ Decided me other := by
  have answer := build_isSubset madeMe madeOther
  constructor
  · intro decides included
    rcases answer.mp (decides.mpr included) with absent | ⟨present, short, same⟩
    · exact .inl absent
    · refine .inr ⟨present, short, fun nonempty left inLeft right inRight => ?_⟩
      obtain ⟨lock, member⟩ := Multiset.exists_mem_of_ne_zero nonempty
      exact (same lock member left inLeft).trans (same lock member right inRight).symm
  · intro decided
    refine ⟨build_isSubset_sound madeMe madeOther, fun included => answer.mpr ?_⟩
    rcases decided included with absent | ⟨present, short, alike⟩
    · exact .inl absent
    · refine .inr ⟨present, short, fun lock member otherLock inOther => ?_⟩
      have nonempty : contained me ≠ 0 := fun empty => absurd (empty ▸ member) (Multiset.notMem_zero lock)
      exact alike nonempty otherLock inOther lock (included lock member)

theorem build_refl (madeMe : LockArray.build me = .ok a) :
    LockArray.isSubset a a = true ↔ ∀ left ∈ contained me, ∀ right ∈ contained me, left = right := by
  rw [build_isSubset madeMe madeMe]
  constructor
  · rintro (rfl | ⟨-, -, same⟩)
    · intro left member
      exact absurd member (Multiset.notMem_zero left)
    · intro left inLeft right inRight
      exact same right inRight left inLeft
  · intro alike
    by_cases absent : me = none
    · exact .inl absent
    · exact .inr ⟨absent, le_refl _, fun lock member otherLock inOther => alike otherLock inOther lock member⟩

theorem build_shares (memory : Nat → BitVec 64) (madeMe : LockArray.build me = .ok a)
    (madeOther : LockArray.build other = .ok b) (included : ∀ lock ∈ contained me, lock ∈ contained other)
    (nonempty : contained me ≠ 0) :
    ∃ x y, a = some x ∧ b = some y ∧ x.hasCommonLock memory y = true := by
  obtain ⟨lock, member⟩ := Multiset.exists_mem_of_ne_zero nonempty
  have inOther := included lock member
  rw [LockArray.contained_build madeMe] at member
  rw [LockArray.contained_build madeOther] at inOther
  match a, b with
  | none, _ => cases member
  | _, none => cases inOther
  | some x, some y =>
    refine ⟨x, y, rfl, rfl, ?_⟩
    rw [LockArray.hasCommonLock_value, SmallLockSet.hasCommonLock, List.any_eq_true]
    refine ⟨lock, member, ?_⟩
    rw [List.any_eq_true]
    exact ⟨lock, inOther, beq_self_eq_true lock⟩

/-- `isSubset` decides the inclusion on exactly these arguments. It is reflexive on the sets that repeat
    one lock; it is transitive, and it never contradicts `hasCommonLock`. -/
theorem isSubset_decides_iff (memory : Nat → BitVec 64) (madeMe : LockArray.build me = .ok a)
    (madeOther : LockArray.build other = .ok b) :
    ((LockArray.isSubset a b = true ↔ ∀ lock ∈ contained me, lock ∈ contained other) ↔ Decided me other) ∧
    (LockArray.isSubset a a = true ↔ ∀ left ∈ contained me, ∀ right ∈ contained me, left = right) ∧
    (∀ c, LockArray.isSubset a b = true → LockArray.isSubset b c = true → LockArray.isSubset a c = true) ∧
    (LockArray.isSubset a b = true ∨ (∀ lock ∈ contained me, lock ∈ contained other) → contained me ≠ 0 →
      ∃ x y, a = some x ∧ b = some y ∧ x.hasCommonLock memory y = true) := by
  refine ⟨build_decided madeMe madeOther, build_refl madeMe, ?_, ?_⟩
  · intro c
    simp only [LockArray.isSubset_value]
    exact isSubset_trans
  · rintro (yes | included) nonempty
    · exact build_shares memory madeMe madeOther (build_isSubset_sound madeMe madeOther yes) nonempty
    · exact build_shares memory madeMe madeOther included nonempty

end Built

theorem isSubset_decides_iff_seven : ∃ a b, LockArray.build (some [.addLock 7]) = .ok a ∧
    LockArray.build (some [.addLock 8, .addLock 7, .removeLock 8]) = .ok b ∧
    ((LockArray.isSubset a b = true ↔ ∀ lock ∈ contained (some [.addLock 7]),
      lock ∈ contained (some [.addLock 8, .addLock 7, .removeLock 8])) ↔
      Decided (some [.addLock 7]) (some [.addLock 8, .addLock 7, .removeLock 8])) ∧
    (LockArray.isSubset a a = true ↔ ∀ left ∈ contained (some [.addLock 7]),
      ∀ right ∈ contained (some [.addLock 7]), left = right) ∧
    (∀ c, LockArray.isSubset a b = true → LockArray.isSubset b c = true → LockArray.isSubset a c = true) ∧
    (LockArray.isSubset a b = true ∨ (∀ lock ∈ contained (some [.addLock 7]),
      lock ∈ contained (some [.addLock 8, .addLock 7, .removeLock 8])) → contained (some [.addLock 7]) ≠ 0 →
      ∃ x y, a = some x ∧ b = some y ∧ x.hasCommonLock (fun _ => 0) y = true) :=
  ⟨_, _, rfl, rfl, isSubset_decides_iff (fun _ => 0) rfl rfl⟩

/-- A lock set is not found to be a subset of itself, or of a larger one, once two locks differ. -/
theorem isSubset_misses : ∃ a b, LockArray.build (some [.addLock 1]) = .ok a ∧
    LockArray.build (some [.addLock 1, .addLock 2]) = .ok b ∧
    ¬(LockArray.isSubset a b = true ↔
      ∀ lock ∈ contained (some [.addLock 1]), lock ∈ contained (some [.addLock 1, .addLock 2])) ∧
    ¬LockArray.isSubset b b = true := by
  refine ⟨_, _, rfl, rfl, ?_, by decide⟩
  intro decides
  have included : ∀ lock ∈ contained (some [.addLock 1]), lock ∈ contained (some [.addLock 1, .addLock 2]) := by
    simp [contained, LockCall.hold]
  exact absurd (decides.mpr included) (by decide)

end Romp
