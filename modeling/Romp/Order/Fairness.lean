import Mathlib.Order.Basic

namespace Fairness

variable {Thread : Type}

/-- A thread that is ready from some time on takes a step at some time after. -/
def Weak (ready : ℕ → Thread → Prop) (actor : ℕ → Option Thread) (t : Thread) : Prop :=
  ∀ i, (∀ j ≥ i, ready j t) → ∃ j ≥ i, actor j = some t

/-- While an invariant holds, every step makes what is left to do less, or leaves it with the thread that has to do
    something, and that thread is ready: then the goal is reached. -/
theorem response {ready : ℕ → Thread → Prop} {actor : ℕ → Option Thread} (fair : ∀ t, Weak ready actor t)
    {goal : ℕ → Prop} (holds : ℕ → Prop) (left : ℕ → ℕ) (helper : ℕ → Thread) (able : ∀ i, holds i → ready i (helper i))
    (step : ∀ i, holds i → goal (i + 1) ∨ holds (i + 1) ∧ (left (i + 1) < left i ∨
      left (i + 1) = left i ∧ helper (i + 1) = helper i ∧ actor i ≠ some (helper i)))
    {i : ℕ} (start : holds i) : ∃ j ≥ i, goal j := by
  induction size : left i using Nat.strongRecOn generalizing i with
  | ind n ih =>
    by_contra none
    have never : ∀ j ≥ i, ¬goal j := fun j later reached => none ⟨j, later, reached⟩
    -- nothing gets less from here on, and the thread that has to do something does nothing
    have still : ∀ k, holds (i + k) ∧ left (i + k) = left i ∧ helper (i + k) = helper i := by
      intro k
      induction k with
      | zero => exact ⟨start, rfl, rfl⟩
      | succ k before =>
        obtain ⟨inside, same, who⟩ := before
        rcases step (i + k) inside with reached | ⟨inside', less | ⟨same', who', -⟩⟩
        · exact absurd reached (never (i + k + 1) (by omega))
        · obtain ⟨j, later, reached⟩ := ih (left (i + k + 1)) (by omega) inside' rfl
          exact absurd reached (never j (by omega))
        · exact ⟨inside', same'.trans same, who'.trans who⟩
    obtain ⟨j, later, acts⟩ := fair (helper i) i fun j later => by
      obtain ⟨k, rfl⟩ := Nat.exists_eq_add_of_le later
      rw [← (still k).2.2]
      exact able (i + k) (still k).1
    obtain ⟨k, rfl⟩ := Nat.exists_eq_add_of_le later
    obtain ⟨inside, same, who⟩ := still k
    rcases step (i + k) inside with reached | ⟨-, less | ⟨-, -, idle⟩⟩
    · exact never (i + k + 1) (by omega) reached
    · have after := (still (k + 1)).2.1
      rw [show i + (k + 1) = i + k + 1 from rfl] at after
      omega
    · exact idle (by rw [acts, who])

end Fairness
