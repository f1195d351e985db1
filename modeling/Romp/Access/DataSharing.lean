import Mathlib.Data.Nat.ModEq
import Romp.Access.Calls
import Romp.Shadow.RecycleRange
import Romp.Shadow.Slots

namespace Romp

structure ThreadData where
  stackBaseAddr : BitVec 64
  stackTopAddr : BitVec 64

def STATIC_THREAD_PRIVATE_LOWER_BOUND : BitVec 64 := 0xfff8000000000000

def analyzeDataSharing (threadData : Option ThreadData) (address exitFrame : BitVec 64) : DataSharingType :=
  match threadData with
  | none => .eUndefined
  | some threadData =>
    if exitFrame = 0 then .eUndefined
    else if threadData.stackTopAddr = 0 ∨ threadData.stackBaseAddr = 0 then .eUndefined
    else if STATIC_THREAD_PRIVATE_LOWER_BOUND ≤ address then .eStaticThreadPrivate
    else if address < threadData.stackBaseAddr ∨ threadData.stackTopAddr < address then .eNonThreadPrivate
    else if address < exitFrame then .eThreadPrivateBelowExit
    else .eThreadPrivateAboveExit

/-- An access to a byte as `checkDataRace` is told of it, with what the stack holds where the source reads a variable
    that it has not set. -/
structure Touch where
  isWrite : Bool
  hwLock : Bool
  instnAddr : BitVec 64
  byteAddress : BitVec 64
  dataSharingType : DataSharingType
  uninitialised : Uninitialised

def Touch.Unchecked (u : Touch) : Prop :=
  u.hwLock = true ∨ u.dataSharingType = .eThreadPrivateBelowExit ∨ u.dataSharingType = .eStaticThreadPrivate

instance (u : Touch) : Decidable u.Unchecked := inferInstanceAs (Decidable (_ ∨ _))

def Touch.info (u : Touch) (taskPtr : Nat) : CheckInfo :=
  ⟨taskPtr, u.instnAddr, u.isWrite, u.hwLock, u.byteAddress, u.dataSharingType⟩

/-- A call of `checkAccess`: its arguments, and what it finds out about the thread and the frame of the task. -/
structure Reference where
  address : BitVec 64
  bytesAccessed : BitVec 32
  instnAddr : BitVec 64
  hwLock : Bool
  isWrite : Bool
  threadData : Option ThreadData
  exitFrame : BitVec 64
  uninitialised : Nat → Uninitialised

namespace Reference

/-- The type of the first byte is taken for all of them. -/
def touch (r : Reference) (i : Nat) : Touch where
  isWrite := r.isWrite
  hwLock := r.hwLock
  instnAddr := r.instnAddr
  byteAddress := r.address + BitVec.ofNat 64 i
  dataSharingType := analyzeDataSharing r.threadData r.address r.exitFrame
  uninitialised := r.uninitialised i

def touches (r : Reference) : List Touch := (List.range r.bytesAccessed.toNat).map r.touch

end Reference

abbrev Slot := BitVec 64 × BitVec 64 × BitVec 64

def Touch.slot (u : Touch) : Slot := ShadowMemory.default.slot u.byteAddress

theorem slot_default_iff (a b : BitVec 64) : ShadowMemory.default.slot a = ShadowMemory.default.slot b ↔
    a.toNat % 2 ^ 48 = b.toNat % 2 ^ 48 := by
  have split := Split.indices_eq_iff ⟨20, 12, 16, .eByteLevel, rfl, by decide, by decide, by decide, by decide⟩ a b
  rw [← agree_iff_mod, ← show _ ↔ ∀ i, 0 ≤ i → i < 48 → a.getLsbD i = b.getLsbD i from split]
  simp only [ShadowMemory.slot, Prod.mk.injEq]
  rfl

end Romp
