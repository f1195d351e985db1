import Mathlib.Data.List.Basic
import Mathlib.Logic.Function.Basic
import Romp.Access.LockSet

namespace Romp

/-- A `SmallLockSet` as the source lays it out. The entries from `numLocks` on are never read. -/
structure LockArray where
  locks : Nat → BitVec 64
  numLocks : Nat
  bound : numLocks ≤ 4

namespace LockArray

def new : LockArray := ⟨fun _ => 0, 0, by decide⟩

def copyLocks (locks memory : Nat → BitVec 64) : Nat → Nat → BitVec 64
  | 0 => memory
  | count + 1 => Function.update (copyLocks locks memory count) count (locks count)

/-- The copy constructor. It runs on memory that nobody has initialised. -/
def copy (memory : Nat → BitVec 64) (s : LockArray) : LockArray :=
  ⟨copyLocks s.locks memory s.numLocks, s.numLocks, s.bound⟩

def addLock (s : LockArray) (lock : BitVec 64) : Except Abort LockArray :=
  if full : s.numLocks = 4 then .error "number of nesting locks exceeds limit of 4"
  else .ok ⟨Function.update s.locks s.numLocks lock, s.numLocks + 1, by have := s.bound; omega⟩

def findLock (locks : Nat → BitVec 64) (lock : BitVec 64) (i : Nat) : Nat → Option Nat
  | 0 => none
  | count + 1 => if locks i = lock then some i else findLock locks lock (i + 1) count

def moveLocks (locks : Nat → BitVec 64) (i : Nat) : Nat → Nat → BitVec 64
  | 0 => locks
  | count + 1 => moveLocks (Function.update locks (i - 1) (locks i)) (i + 1) count

theorem bound_pred (s : LockArray) : s.numLocks - 1 ≤ 4 := (Nat.sub_le ..).trans s.bound

def removeLock (s : LockArray) (lock : BitVec 64) : Except Abort LockArray :=
  match findLock s.locks lock 0 s.numLocks with
  | none => .error "cannot find lock to delete"
  | some index => .ok ⟨moveLocks s.locks (index + 1) (s.numLocks - (index + 1)), s.numLocks - 1, s.bound_pred⟩

def contents (s : LockArray) : List (BitVec 64) := (List.range s.numLocks).map s.locks

def value (s : LockArray) : SmallLockSet := ⟨s.contents, by simp [contents, s.bound]⟩

theorem contents_length (s : LockArray) : s.contents.length = s.numLocks := by
  simp [contents]

theorem copyLocks_apply (locks memory : Nat → BitVec 64) (count i : Nat) :
    copyLocks locks memory count i = if i < count then locks i else memory i := by
  induction count with
  | zero => rfl
  | succ count ih =>
    by_cases last : i = count
    · subst last
      simp [copyLocks]
    · rw [copyLocks, Function.update_of_ne last, ih]
      have same : i < count + 1 ↔ i < count := by omega
      simp only [same]

theorem contents_copy (memory : Nat → BitVec 64) (s : LockArray) : (s.copy memory).contents = s.contents := by
  apply List.map_congr_left
  intro i member
  have bound : i < s.numLocks := List.mem_range.mp member
  exact (copyLocks_apply ..).trans (if_pos bound)

theorem addLock_ok (s : LockArray) (lock : BitVec 64) (room : s.numLocks < 4) :
    ∃ s', s.addLock lock = .ok s' ∧ s'.contents = s.contents ++ [lock] := by
  have notFull : s.numLocks ≠ 4 := by omega
  refine ⟨_, dif_neg notFull, ?_⟩
  unfold contents
  rw [List.range_succ, List.map_append]
  congr 1
  · apply List.map_congr_left
    intro i member
    have bound : i < s.numLocks := List.mem_range.mp member
    exact Function.update_of_ne (by omega) ..
  · simp

theorem findLock_some {locks : Nat → BitVec 64} {lock : BitVec 64} {i count index : Nat}
    (found : findLock locks lock i count = some index) :
    i ≤ index ∧ index < i + count ∧ locks index = lock ∧ ∀ j, i ≤ j → j < index → locks j ≠ lock := by
  induction count generalizing i with
  | zero => cases found
  | succ count ih =>
    by_cases here : locks i = lock
    · rw [findLock, if_pos here] at found
      cases found
      exact ⟨le_refl _, by omega, here, fun j low high => absurd high (by omega)⟩
    · rw [findLock, if_neg here] at found
      obtain ⟨low, high, there, first⟩ := ih found
      refine ⟨by omega, by omega, there, fun j from_ below => ?_⟩
      by_cases start : j = i
      · exact start ▸ here
      · exact first j (by omega) below

theorem findLock_none {locks : Nat → BitVec 64} {lock : BitVec 64} {i count : Nat}
    (missing : findLock locks lock i count = none) : ∀ j, i ≤ j → j < i + count → locks j ≠ lock := by
  induction count generalizing i with
  | zero => intro j low high; omega
  | succ count ih =>
    by_cases here : locks i = lock
    · rw [findLock, if_pos here] at missing
      cases missing
    · rw [findLock, if_neg here] at missing
      intro j low high
      by_cases start : j = i
      · exact start ▸ here
      · exact ih missing j (by omega) (by omega)

theorem moveLocks_apply (locks : Nat → BitVec 64) (i count j : Nat) :
    moveLocks locks (i + 1) count j = if i ≤ j ∧ j < i + count then locks (j + 1) else locks j := by
  induction count generalizing locks i with
  | zero =>
    have outside : ¬(i ≤ j ∧ j < i + 0) := by omega
    rw [if_neg outside]
    rfl
  | succ count ih =>
    rw [moveLocks, ih, Nat.add_sub_cancel]
    by_cases first : j = i
    · subst first
      have outside : ¬(j + 1 ≤ j ∧ j < j + 1 + count) := by omega
      have inside : j ≤ j ∧ j < j + (count + 1) := by omega
      rw [if_neg outside, if_pos inside, Function.update_self]
    · have same : (i + 1 ≤ j ∧ j < i + 1 + count) ↔ (i ≤ j ∧ j < i + (count + 1)) := by omega
      simp only [same, Function.update_of_ne first]
      split
      · have next : j + 1 ≠ i := by omega
        rw [Function.update_of_ne next]
      · rfl

/-- The two loops take the first occurrence out and close the gap. -/
theorem removeLock_ok (s : LockArray) (lock : BitVec 64) (held : lock ∈ s.contents) :
    ∃ s', s.removeLock lock = .ok s' ∧ s'.contents = s.contents.erase lock := by
  unfold removeLock
  match found : findLock s.locks lock 0 s.numLocks with
  | none =>
    obtain ⟨i, member, same⟩ := List.mem_map.mp held
    have bound : i < s.numLocks := List.mem_range.mp member
    exact absurd same (findLock_none found i (by omega) (by omega))
  | some index =>
    obtain ⟨-, bound, here, first⟩ := findLock_some found
    refine ⟨_, rfl, ?_⟩
    have length : index < s.contents.length := by rw [contents_length]; omega
    have place : s.contents.idxOf lock = index := by
      refine (List.findIdx_eq length).mpr ⟨by simp [contents, here], fun j below => ?_⟩
      have other := first j (by omega) below
      simpa [contents] using other
    rw [List.erase_eq_eraseIdx_of_idxOf place]
    apply List.ext_getElem
    · rw [List.length_eraseIdx_of_lt length, contents_length, contents_length]
    · intro j low high
      rw [contents_length] at low
      simp only [contents, List.getElem_map, List.getElem_range, List.getElem_eraseIdx, moveLocks_apply]
      by_cases before : j < index
      · rw [if_neg (by omega), dif_pos before]
      · rw [if_pos (by dsimp only at low; omega), dif_neg before]

theorem value_locks (s : LockArray) : s.value.locks = s.contents := rfl

theorem value_eq {s : LockArray} {v : SmallLockSet} (same : s.contents = v.locks) : s.value = v := by
  cases v
  simp only [value, SmallLockSet.mk.injEq]
  exact same

theorem removeLock_value (s : LockArray) (lock : BitVec 64) :
    (s.removeLock lock).map value = s.value.removeLock lock := by
  by_cases held : lock ∈ s.contents
  · obtain ⟨s', removed, contents⟩ := s.removeLock_ok lock held
    rw [removed, SmallLockSet.removeLock, if_pos (s.value_locks ▸ held)]
    exact congrArg _ (value_eq contents)
  · have missing : findLock s.locks lock 0 s.numLocks = none := by
      match found : findLock s.locks lock 0 s.numLocks with
      | none => rfl
      | some index =>
        obtain ⟨-, bound, here, -⟩ := findLock_some found
        have member : index ∈ List.range s.numLocks := List.mem_range.mpr (by omega)
        exact absurd (List.mem_map.mpr ⟨index, member, here⟩) held
    rw [removeLock, missing, SmallLockSet.removeLock, if_neg (s.value_locks ▸ held)]
    rfl

end LockArray

end Romp
