import Romp.Access.Recycling
import Romp.Shadow.Histories

namespace Romp

abbrev Histories := BitVec 64 × BitVec 64 × BitVec 64 → AccessHistory

namespace Histories

def new : Histories := fun _ => AccessHistory.new

def setFlag (g : Histories) (address : BitVec 64) (flag : AccessHistoryFlag) : Histories :=
  Function.update g (ShadowMemory.default.slot address) ((g (ShadowMemory.default.slot address)).setFlag flag)

def recycleFrom (stop : BitVec 64) : Nat → Histories → BitVec 64 → Option Histories
  | 0, _, _ => none
  | fuel + 1, shadowMemory, addr =>
    if addr ≤ stop then recycleFrom stop fuel (shadowMemory.setFlag addr .eMemoryRecycled) (addr + 1)
    else some shadowMemory

/-- The global `shadowMemory` after `recycleMemRange`, whose loop runs over a local variable of the same name. -/
def recycleMemRange (shadowMemory : Histories) (lowerBound upperBound : BitVec 64) (fuel : Nat) : Option Histories :=
  if upperBound < lowerBound then some shadowMemory
  else (recycleFrom upperBound fuel new lowerBound).map fun _ => shadowMemory

/-- What `checkAccess` and `recycleMemRange` make of the global shadow memory, in any order. -/
inductive Reachable (flags : ReportFlags) : Histories → Prop
  | start : Reachable flags new
  | checkDataRace {g byte access reports done} : Reachable flags g →
      checkDataRace flags (g (ShadowMemory.default.slot byte)) access reports = .ok done →
      Reachable flags (Function.update g (ShadowMemory.default.slot byte) done.history)
  | recycleMemRange {g g' lowerBound upperBound fuel} : Reachable flags g →
      g.recycleMemRange lowerBound upperBound fuel = some g' → Reachable flags g'

structure Recycled (g g' : Histories) (lowerBound upperBound : BitVec 64) : Prop where
  inside : ∀ a, lowerBound ≤ a → a ≤ upperBound → (g' (ShadowMemory.default.slot a)).memIsRecycled = true
  outside : ∀ slot, (∀ a, lowerBound ≤ a → a ≤ upperBound → ShadowMemory.default.slot a ≠ slot) → g' slot = g slot

variable {g g' : Histories} {lowerBound upperBound addr stop : BitVec 64} {fuel : Nat} {flags : ReportFlags}

theorem recycleFrom_ends (below : stop ≠ BitVec.allOnes 64) (n : Nat) (g : Histories) (addr : BitVec 64)
    (left : stop.toNat + 1 ≤ addr.toNat + n) : ∃ fuel, (recycleFrom stop fuel g addr).isSome = true := by
  have last := stop.isLt
  have bound : stop.toNat ≠ 2 ^ 64 - 1 := by
    intro equal
    apply below
    apply BitVec.eq_of_toNat_eq
    rw [equal]
    rfl
  induction n generalizing g addr with
  | zero =>
    refine ⟨1, ?_⟩
    have above : ¬addr ≤ stop := by
      rw [BitVec.le_def]
      omega
    rw [recycleFrom, if_neg above]
    rfl
  | succ n ih =>
    by_cases inside : addr ≤ stop
    · rw [BitVec.le_def] at inside
      have next : (addr + 1).toNat = addr.toNat + 1 := by
        rw [BitVec.toNat_add, show (1 : BitVec 64).toNat = 1 from rfl]
        omega
      obtain ⟨fuel, ends⟩ := ih (g.setFlag addr .eMemoryRecycled) (addr + 1) (by omega)
      refine ⟨fuel + 1, ?_⟩
      rw [recycleFrom, if_pos (BitVec.le_def.mpr inside)]
      exact ends
    · refine ⟨1, ?_⟩
      rw [recycleFrom, if_neg inside]
      rfl

theorem recycleFrom_last (fuel : Nat) (g : Histories) (addr : BitVec 64) :
    recycleFrom (BitVec.allOnes 64) fuel g addr = none := by
  induction fuel generalizing g addr with
  | zero => rfl
  | succ fuel ih =>
    have inside : addr ≤ BitVec.allOnes 64 := by
      have bound := addr.isLt
      rw [BitVec.le_def, BitVec.toNat_allOnes]
      omega
    rw [recycleFrom, if_pos inside]
    exact ih _ _

theorem recycleMemRange_ends_iff (range : lowerBound ≤ upperBound) :
    (∃ fuel, (g.recycleMemRange lowerBound upperBound fuel).isSome = true) ↔ upperBound ≠ BitVec.allOnes 64 := by
  have ordered : ¬upperBound < lowerBound := by
    rw [BitVec.le_def] at range
    rw [BitVec.lt_def]
    omega
  simp only [recycleMemRange, if_neg ordered, Option.isSome_map]
  constructor
  · rintro ⟨fuel, ends⟩ rfl
    rw [recycleFrom_last] at ends
    cases ends
  · intro below
    exact recycleFrom_ends below (upperBound.toNat + 1) new lowerBound (Nat.le_add_left ..)

/-- The flag is set in the local shadow memory only. -/
theorem recycleMemRange_keeps (ran : g.recycleMemRange lowerBound upperBound fuel = some g') : g' = g := by
  unfold recycleMemRange at ran
  split at ran
  · cases ran
    rfl
  · obtain ⟨-, -, same⟩ := Option.map_eq_some_iff.mp ran
    exact same.symm

/-- No access finds that its location has been recycled. -/
theorem Reachable.unmarked (reached : Reachable flags g) (slot : BitVec 64 × BitVec 64 × BitVec 64) :
    (g slot).memIsRecycled = false := by
  induction reached with
  | start =>
    show AccessHistory.new.memIsRecycled = false
    decide
  | @checkDataRace g byte access reports done _ checked ih =>
    by_cases here : slot = ShadowMemory.default.slot byte
    · subst here
      rw [Function.update_self]
      exact (checkDataRace_effect checked).2.2 ih
    · rw [Function.update_of_ne here]
      exact ih
  | recycleMemRange _ ran ih =>
    rw [recycleMemRange_keeps ran]
    exact ih

/-- `recycleMemRange` recycles no range, whatever has been accessed before; it returns unless the range ends with the
    address space, and leaves the shadow memory of the accesses as it was. -/
theorem recycleMemRange_never (reached : Reachable flags g) (range : lowerBound ≤ upperBound) :
    (¬∃ fuel g', g.recycleMemRange lowerBound upperBound fuel = some g' ∧ g.Recycled g' lowerBound upperBound) ∧
      ((∃ fuel, (g.recycleMemRange lowerBound upperBound fuel).isSome = true) ↔ upperBound ≠ BitVec.allOnes 64) ∧
      ∀ fuel g', g.recycleMemRange lowerBound upperBound fuel = some g' → g' = g := by
  refine ⟨?_, recycleMemRange_ends_iff range, fun _ _ ran => recycleMemRange_keeps ran⟩
  rintro ⟨fuel, g', ran, recycled⟩
  have marked := recycled.inside lowerBound (BitVec.le_def.mpr (Nat.le_refl _)) range
  rw [recycleMemRange_keeps ran, reached.unmarked] at marked
  cases marked

def written : Histories :=
  Function.update new (ShadowMemory.default.slot 0x7fff5a10) ⟨0, [(foundRace 0).record]⟩

theorem reachable_written : Reachable ⟨true, false⟩ written := by
  have first : checkDataRace ⟨true, false⟩ AccessHistory.new (foundRace 0) RaceReports.none =
      .ok ⟨⟨0, [(foundRace 0).record]⟩, RaceReports.none, siblings.taskDepGraph⟩ := rfl
  exact .checkDataRace .start first

theorem recycleMemRange_never_byte : ¬∃ fuel g', written.recycleMemRange 0x7fff5a10 0x7fff5a10 fuel = some g' ∧
    written.Recycled g' 0x7fff5a10 0x7fff5a10 := by
  have range : (0x7fff5a10 : BitVec 64) ≤ 0x7fff5a10 := by decide
  exact (recycleMemRange_never reachable_written range).1

/-- The byte that the child has written to is recycled, and the record of the child is still compared against. -/
theorem recycled_byte_unmarked : ¬∀ (flags : ReportFlags) (g : Histories) (lowerBound upperBound : BitVec 64),
    Reachable flags g → lowerBound ≤ upperBound →
      ∃ fuel g', g.recycleMemRange lowerBound upperBound fuel = some g' ∧ g.Recycled g' lowerBound upperBound := by
  intro recycles
  obtain ⟨fuel, g', ran, recycled⟩ := recycles _ _ 0x7fff5a10 0x7fff5a10 reachable_written (by decide)
  have marked := recycled.inside 0x7fff5a10 (by decide) (by decide)
  rw [recycleMemRange_keeps ran, written, Function.update_self] at marked
  cases marked

end Histories

end Romp
