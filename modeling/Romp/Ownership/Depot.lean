import Mathlib.Logic.Function.Basic

namespace Ownership

/-- Objects, numbered as they are made, that threads put into the entries of a table. A thread has at most one of
    them in its hand, and one put aside. -/
@[ext] structure Depot (E T : Type) where
  entry : E → Option Nat
  cache : T → Option Nat
  hand : T → Option Nat
  made : Nat

inductive Holder (E T : Type) where
  | entry (e : E)
  | cache (t : T)
  | hand (t : T)

namespace Depot

variable {E T : Type} {d d' : Depot E T}

def held (d : Depot E T) : Holder E T → Option Nat
  | .entry e => d.entry e
  | .cache t => d.cache t
  | .hand t => d.hand t

/-- Nothing is held twice or has not been made, and a thread with an object in its hand has put none aside. -/
structure Sound (d : Depot E T) : Prop where
  once : ∀ h h' p, d.held h = some p → d.held h' = some p → h = h'
  bound : ∀ h p, d.held h = some p → p < d.made
  free : ∀ t, d.hand t ≠ none → d.cache t = none

variable [DecidableEq E] [DecidableEq T]

inductive Move (d : Depot E T) (t : T) : Depot E T → Prop
  | still : Move d t d
  | take {p} : d.hand t = none → d.cache t = some p →
      Move d t { d with cache := Function.update d.cache t none, hand := Function.update d.hand t (some p) }
  | make : d.hand t = none → d.cache t = none →
      Move d t { d with hand := Function.update d.hand t (some d.made), made := d.made + 1 }
  | install {p e} : d.hand t = some p → d.entry e = none →
      Move d t { d with entry := Function.update d.entry e (some p), hand := Function.update d.hand t none }
  | save {p} : d.hand t = some p → d.cache t = none →
      Move d t { d with cache := Function.update d.cache t (some p), hand := Function.update d.hand t none }

omit [DecidableEq E] [DecidableEq T] in
theorem Sound.passed (sound : d.Sound) (p : Nat) (source target : Holder E T) (made : d.made ≤ d'.made)
    (less : p < d'.made)
    (old : d.held source = some p ∨ p = d.made) (empty : d'.held source ≠ some p ∨ source = target)
    (others : ∀ h q, d'.held h = some q → h = target ∧ q = p ∨ h ≠ target ∧ d.held h = some q)
    (free : ∀ t, d'.hand t ≠ none → d'.cache t = none) : d'.Sound := by
  have alone : ∀ h, d'.held h = some p → h = target := by
    intro h holds
    rcases others h p holds with ⟨same, -⟩ | ⟨-, before⟩
    · exact same
    · rcases old with held | new
      · have same := sound.once h source p before held
        rw [same] at holds
        rcases empty with none | self
        · exact absurd holds none
        · exact same.trans self
      · have bound := sound.bound h p before
        omega
  refine ⟨fun h h' q holds holds' => ?_, fun h q holds => ?_, free⟩
  · by_cases self : q = p
    · rw [self] at holds holds'
      exact (alone h holds).trans (alone h' holds').symm
    · rcases others h q holds with ⟨-, same⟩ | ⟨-, before⟩
      · exact absurd same self
      · rcases others h' q holds' with ⟨-, same⟩ | ⟨-, before'⟩
        · exact absurd same self
        · exact sound.once h h' q before before'
  · rcases others h q holds with ⟨-, same⟩ | ⟨-, before⟩
    · rw [same]
      exact less
    · exact Nat.lt_of_lt_of_le (sound.bound h q before) made

theorem Sound.move {t : T} (sound : d.Sound) (moves : d.Move t d') : d'.Sound := by
  cases moves with
  | still => exact sound
  | @take p empty cached =>
    refine sound.passed p (.cache t) (.hand t) (Nat.le_refl _) (sound.bound (.cache t) p cached)
      (.inl cached) (.inl ?_) (fun h q holds => ?_) fun x holds => ?_
    · simp [held]
    · cases h with
      | entry e => exact .inr ⟨by simp, holds⟩
      | cache x =>
        by_cases self : x = t
        · simp [held, self] at holds
        · exact .inr ⟨by simp, by simpa [held, self] using holds⟩
      | hand x =>
        by_cases self : x = t
        · simp only [held, self, Function.update_self, Option.some.injEq] at holds
          exact .inl ⟨by rw [self], holds.symm⟩
        · exact .inr ⟨by simp [self], by simpa [held, self] using holds⟩
    · by_cases self : x = t
      · simp [self]
      · simp only [Function.update_of_ne self] at holds ⊢
        exact sound.free x holds
  | make empty none =>
    refine sound.passed d.made (.hand t) (.hand t) (Nat.le_succ _) (Nat.lt_succ_self _)
      (.inr rfl) (.inr rfl) (fun h q holds => ?_) fun x holds => ?_
    · cases h with
      | entry e => exact .inr ⟨by simp, holds⟩
      | cache x => exact .inr ⟨by simp, holds⟩
      | hand x =>
        by_cases self : x = t
        · simp only [held, self, Function.update_self, Option.some.injEq] at holds
          exact .inl ⟨by rw [self], holds.symm⟩
        · exact .inr ⟨by simp [self], by simpa [held, self] using holds⟩
    · by_cases self : x = t
      · simpa [self] using none
      · simp only [Function.update_of_ne self] at holds
        exact sound.free x holds
  | @install p e busy none =>
    refine sound.passed p (.hand t) (.entry e) (Nat.le_refl _) (sound.bound (.hand t) p busy)
      (.inl busy) (.inl (by simp [held])) (fun h q holds => ?_) fun x holds => ?_
    · cases h with
      | entry i =>
        by_cases self : i = e
        · simp only [held, self, Function.update_self, Option.some.injEq] at holds
          exact .inl ⟨by rw [self], holds.symm⟩
        · exact .inr ⟨by simp [self], by simpa [held, self] using holds⟩
      | cache x => exact .inr ⟨by simp, holds⟩
      | hand x =>
        by_cases self : x = t
        · simp [held, self] at holds
        · exact .inr ⟨by simp, by simpa [held, self] using holds⟩
    · by_cases self : x = t
      · simp [self] at holds
      · simp only [Function.update_of_ne self] at holds
        exact sound.free x holds
  | @save p busy none =>
    refine sound.passed p (.hand t) (.cache t) (Nat.le_refl _) (sound.bound (.hand t) p busy)
      (.inl busy) (.inl (by simp [held])) (fun h q holds => ?_) fun x holds => ?_
    · cases h with
      | entry i => exact .inr ⟨by simp, holds⟩
      | cache x =>
        by_cases self : x = t
        · simp only [held, self, Function.update_self, Option.some.injEq] at holds
          exact .inl ⟨by rw [self], holds.symm⟩
        · exact .inr ⟨by simp [self], by simpa [held, self] using holds⟩
      | hand x =>
        by_cases self : x = t
        · simp [held, self] at holds
        · exact .inr ⟨by simp, by simpa [held, self] using holds⟩
    · by_cases self : x = t
      · simp [self] at holds
      · simp only [Function.update_of_ne self] at holds ⊢
        exact sound.free x holds

theorem Move.entry_kept {t : T} (moves : d.Move t d') {e : E} {p : Nat} (filled : d.entry e = some p) :
    d'.entry e = some p := by
  cases moves with
  | @install q i busy none =>
    have other : e ≠ i := by
      rintro rfl
      cases filled.symm.trans none
    exact (Function.update_of_ne other _ _).trans filled
  | _ => exact filled

theorem Move.entry_new {t : T} (moves : d.Move t d') {e : E} {p : Nat} (empty : d.entry e = none)
    (filled : d'.entry e = some p) : d.hand t = some p := by
  cases moves with
  | @install q i busy none =>
    by_cases self : e = i
    · simp only [self, Function.update_self, Option.some.injEq] at filled
      rw [← filled]
      exact busy
    · simp only [Function.update_of_ne self] at filled
      cases empty.symm.trans filled
  | _ => cases empty.symm.trans filled

end Depot

end Ownership
