import Mathlib.Tactic.Linarith
import Mathlib.Order.Basic

namespace Bits

/-- A counter that is stored modulo `modulus` grows with every step as long as it does not wrap. -/
theorem counter_grows {start step modulus i j : Nat} (positive : 0 < step) (less : i < j)
    (room : start + j * step < modulus) : (start + i * step) % modulus < (start + j * step) % modulus := by
  have product : i * step < j * step := Nat.mul_lt_mul_of_pos_right less positive
  rw [Nat.mod_eq_of_lt room, Nat.mod_eq_of_lt (by omega)]
  omega

theorem counter_wraps {start step modulus : Nat} (small : start < modulus) (narrow : step ≤ modulus) {n : Nat}
    (wraps : modulus ≤ start + n * step) :
    ∃ k < n, (start + (k + 1) * step) % modulus ≤ (start + k * step) % modulus := by
  induction n with
  | zero => omega
  | succ n ih =>
    by_cases earlier : modulus ≤ start + n * step
    · obtain ⟨k, bound, down⟩ := ih earlier
      exact ⟨k, by omega, down⟩
    · have next : (n + 1) * step = n * step + step := Nat.succ_mul ..
      have wrapped : (start + (n + 1) * step) % modulus = start + (n + 1) * step - modulus := by
        rw [Nat.mod_eq_sub_mod wraps]
        exact Nat.mod_eq_of_lt (by omega)
      refine ⟨n, by omega, ?_⟩
      rw [wrapped, Nat.mod_eq_of_lt (by omega)]
      omega

theorem counter_increasing_iff {start step modulus : Nat} (small : start < modulus) (positive : 0 < step)
    (narrow : step ≤ modulus) (n : Nat) :
    (∀ i j, i < j → j ≤ n → (start + i * step) % modulus < (start + j * step) % modulus) ↔
      start + n * step < modulus := by
  constructor
  · intro increasing
    by_contra wraps
    obtain ⟨k, bound, down⟩ := counter_wraps small narrow (Nat.le_of_not_lt wraps)
    have up := increasing k (k + 1) (Nat.lt_succ_self k) bound
    omega
  · intro room i j less bound
    have product : j * step ≤ n * step := Nat.mul_le_mul_right step bound
    exact counter_grows positive less (by omega)

/-- The remainder of a counter by its step never changes before it wraps. -/
theorem counter_residue (start step i : Nat) : (start + i * step) % step = start % step :=
  Nat.add_mul_mod_self_right ..

end Bits
