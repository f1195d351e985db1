import Mathlib.Data.List.Basic
import Romp.Label.Segment

namespace Romp

/-- The array of at most four locks of a `SmallLockSet`, with its first `_numLocks` entries. -/
structure SmallLockSet where
  locks : List (BitVec 64)
  bound : locks.length ≤ 4
  deriving DecidableEq, Repr

namespace SmallLockSet

def empty : SmallLockSet := ⟨[], by decide⟩

def getNumLocks (s : SmallLockSet) : Nat := s.locks.length

def addLock (s : SmallLockSet) (lock : BitVec 64) : Except Abort SmallLockSet :=
  if room : s.locks.length < 4 then
    .ok ⟨s.locks ++ [lock], by simp only [List.length_append, List.length_singleton]; omega⟩
  else .error "number of nesting locks exceeds limit of 4"

def hasCommonLock (s other : SmallLockSet) : Bool :=
  s.locks.any fun lock => other.locks.any fun otherLock => otherLock == lock

def removeLock (s : SmallLockSet) (lock : BitVec 64) : Except Abort SmallLockSet :=
  if lock ∈ s.locks then
    .ok ⟨s.locks.erase lock, (List.erase_sublist.length_le).trans s.bound⟩
  else .error "cannot find lock to delete"

theorem addLock_ok (s : SmallLockSet) (lock : BitVec 64) (room : s.locks.length < 4) :
    ∃ s', s.addLock lock = .ok s' ∧ s'.locks = s.locks ++ [lock] :=
  ⟨_, dif_pos room, rfl⟩

theorem removeLock_ok (s : SmallLockSet) (lock : BitVec 64) (held : lock ∈ s.locks) :
    ∃ s', s.removeLock lock = .ok s' ∧ s'.locks = s.locks.erase lock :=
  ⟨_, if_pos held, rfl⟩

end SmallLockSet

/-- Both arguments are pointers. The inner loop leaves at the first pair of locks that differ. -/
def isSubset (me other : Option SmallLockSet) : Bool :=
  match me, other with
  | none, _ => true
  | some _, none => false
  | some me, some other =>
    if other.getNumLocks < me.getNumLocks then false
    else me.locks.all fun lock => other.locks.all fun otherLock => otherLock == lock

/-- The locks behind a lock set pointer: a null pointer stands for no lock. -/
def heldLocks (s : Option SmallLockSet) : List (BitVec 64) := (s.map (·.locks)).getD []

theorem isSubset_iff (me other : Option SmallLockSet) : isSubset me other = true ↔
    me = none ∨ other ≠ none ∧ (heldLocks me).length ≤ (heldLocks other).length ∧
      ∀ lock ∈ heldLocks me, ∀ otherLock ∈ heldLocks other, otherLock = lock := by
  match me, other with
  | none, _ => simp [isSubset]
  | some me, none => simp [isSubset]
  | some me, some other =>
    by_cases large : other.locks.length < me.locks.length
    · simp [isSubset, SmallLockSet.getNumLocks, heldLocks, large]
    · have short : me.locks.length ≤ other.locks.length := by omega
      simp [isSubset, SmallLockSet.getNumLocks, heldLocks, large, short]

theorem nonempty_of_length_le {lock : BitVec 64} {locks otherLocks : List (BitVec 64)} (member : lock ∈ locks)
    (short : locks.length ≤ otherLocks.length) : ∃ otherLock, otherLock ∈ otherLocks := by
  have positive := List.length_pos_of_mem member
  have nonempty : otherLocks ≠ [] := by
    intro empty
    rw [empty, List.length_nil] at short
    omega
  exact List.exists_mem_of_ne_nil _ nonempty

theorem isSubset_sound {me other : Option SmallLockSet} (yes : isSubset me other = true) :
    heldLocks me ⊆ heldLocks other := by
  rcases (isSubset_iff me other).mp yes with rfl | ⟨-, short, same⟩
  · exact List.nil_subset _
  · intro lock member
    obtain ⟨otherLock, inOther⟩ := nonempty_of_length_le member short
    exact same lock member otherLock inOther ▸ inOther

theorem isSubset_trans {a b c : Option SmallLockSet} (first : isSubset a b = true) (second : isSubset b c = true) :
    isSubset a c = true := by
  rw [isSubset_iff] at first second ⊢
  rcases first with absent | ⟨present, short, same⟩
  · exact .inl absent
  · rcases second with absent | ⟨there, short', same'⟩
    · exact absurd absent present
    · refine .inr ⟨there, short.trans short', fun lock inA otherLock inC => ?_⟩
      obtain ⟨between, inB⟩ := nonempty_of_length_le inA short
      exact (same' between inB otherLock inC).trans (same lock inA between inB)

end Romp
