import Mathlib.Logic.Basic
import Mathlib.Order.Defs.Unbundled

namespace Covering

variable {α : Type*}

/-- Everything seen so far has a kept element that stands for it. -/
def Covered (covers : α → α → Prop) (kept : List α) (seen : α → Prop) : Prop :=
  ∀ i, seen i → ∃ k ∈ kept, covers k i

theorem Covered.mono {covers covers' : α → α → Prop} {kept : List α} {seen : α → Prop}
    (covered : Covered covers kept seen) (weaker : ∀ k i, covers k i → covers' k i) :
    Covered covers' kept seen := by
  intro i member
  obtain ⟨k, inKept, stands⟩ := covered i member
  exact ⟨k, inKept, weaker k i stands⟩

theorem Covered.trans {covers : α → α → Prop} (chain : ∀ a b c, covers a b → covers b c → covers a c)
    {kept kept' : List α} {seen : α → Prop} (covered : Covered covers kept seen)
    (again : Covered covers kept' fun k => k ∈ kept) : Covered covers kept' seen := by
  intro i member
  obtain ⟨k, inKept, first⟩ := covered i member
  obtain ⟨k', inKept', second⟩ := again k inKept
  exact ⟨k', inKept', chain k' k i second first⟩

/-- A pruning step may drop what the new element covers, and may leave the new element out when
    something that it keeps covers it. -/
theorem Covered.step {covers : α → α → Prop} (chain : ∀ a b c, covers a b → covers b c → covers a c)
    {kept kept' : List α} {seen : α → Prop} {new : α} (covered : Covered covers kept seen)
    (dropped : ∀ k ∈ kept, (∃ k' ∈ kept', covers k' k) ∨ covers new k)
    (stands : ∃ k ∈ kept', covers k new) : Covered covers kept' fun i => seen i ∨ i = new := by
  rintro i (member | rfl)
  · apply covered.trans chain _ i member
    intro k inKept
    rcases dropped k inKept with still | gone
    · exact still
    · obtain ⟨other, inKept', second⟩ := stands
      exact ⟨other, inKept', chain other new k second gone⟩
  · exact stands

end Covering
