import Mathlib.Data.List.Induction
import Mathlib.Order.Basic

namespace Romp

namespace Trails

variable {α : Type*} {A B C cm cm' A' B' A'' B'' : List α} {x y x' y' : α}

/-- Two lists have a common beginning, and different elements right after it. -/
structure Parts (A B cm : List α) (x : α) (A' : List α) (y : α) (B' : List α) : Prop where
  left : A = cm ++ x :: A'
  right : B = cm ++ y :: B'
  differ : x ≠ y

theorem Parts.symm (parts : Parts A B cm x A' y B') : Parts B A cm y B' x A' :=
  ⟨parts.right, parts.left, parts.differ.symm⟩

theorem Parts.cons (z : α) (parts : Parts A B cm x A' y B') : Parts (z :: A) (z :: B) (z :: cm) x A' y B' :=
  ⟨by rw [parts.left]; rfl, by rw [parts.right]; rfl, parts.differ⟩

theorem cases (A B : List α) : A <+: B ∨ (∃ z rest, A = B ++ z :: rest) ∨ ∃ cm x A' y B', Parts A B cm x A' y B' := by
  induction A generalizing B with
  | nil => exact .inl (List.nil_prefix)
  | cons x A ih =>
    cases B with
    | nil => exact .inr (.inl ⟨x, A, rfl⟩)
    | cons y B =>
      by_cases same : x = y
      · subst same
        rcases ih B with begins | ⟨z, rest, longer⟩ | ⟨cm, x', A', y', B', parts⟩
        · exact .inl (List.cons_prefix_cons.mpr ⟨rfl, begins⟩)
        · exact .inr (.inl ⟨z, rest, by rw [longer]; rfl⟩)
        · exact .inr (.inr ⟨_, _, _, _, _, parts.cons x⟩)
      · exact .inr (.inr ⟨[], x, A, y, B, rfl, rfl, same⟩)

theorem Parts.unique (parts : Parts A B cm x A' y B') (parts' : Parts A B cm' x' A'' y' B'') :
    cm = cm' ∧ x = x' ∧ A' = A'' ∧ y = y' ∧ B' = B'' := by
  obtain ⟨left, right, differ⟩ := parts
  obtain ⟨left', right', differ'⟩ := parts'
  subst left right
  have first := List.append_eq_append_iff.mp left'
  rcases first with ⟨more, longer, rest⟩ | ⟨more, longer, rest⟩
  · cases more with
    | nil =>
      rw [List.append_nil] at longer
      subst longer
      obtain ⟨rfl, rfl⟩ := List.cons.inj rest
      obtain ⟨rfl, rfl⟩ := List.cons.inj (List.append_cancel_left right')
      exact ⟨rfl, rfl, rfl, rfl, rfl⟩
    | cons z more =>
      obtain ⟨rfl, -⟩ := List.cons.inj rest
      subst longer
      rw [List.append_assoc, List.append_cancel_left_eq, List.cons_append, List.cons.injEq] at right'
      exact absurd right'.1.symm differ
  · cases more with
    | nil =>
      rw [List.append_nil] at longer
      subst longer
      obtain ⟨rfl, rfl⟩ := List.cons.inj rest
      obtain ⟨rfl, rfl⟩ := List.cons.inj (List.append_cancel_left right')
      exact ⟨rfl, rfl, rfl, rfl, rfl⟩
    | cons z more =>
      obtain ⟨rfl, -⟩ := List.cons.inj rest
      subst longer
      rw [List.append_assoc, List.append_cancel_left_eq, List.cons_append, List.cons.injEq] at right'
      exact absurd right'.1 differ'

theorem Parts.not_prefix (parts : Parts A B cm x A' y B') : ¬A <+: B := by
  rintro ⟨rest, same⟩
  rw [parts.left, parts.right, List.append_assoc, List.append_cancel_left_eq, List.cons_append, List.cons.injEq] at same
  exact parts.differ same.1

theorem mem_dropLast {l : List α} {z : α} (inside : z ∈ l.dropLast) : ∃ p w q, l = p ++ z :: w :: q := by
  obtain ⟨p, q, split⟩ := List.append_of_mem inside
  have notEmpty : l ≠ [] := by
    rintro rfl
    cases inside
  rw [← List.dropLast_concat_getLast notEmpty, split, List.append_assoc]
  cases q with
  | nil => exact ⟨p, _, [], rfl⟩
  | cons w q => exact ⟨p, w, _, rfl⟩

/-- If a property holds of all elements but the last, it holds of all of them as soon as it does of the last one. -/
theorem all_iff_last {p : α → Prop} {l : List α} {last : α} (ends : l.getLast? = some last)
    (all : ∀ z ∈ l.dropLast, p z) : (∀ z ∈ l, p z) ↔ p last := by
  obtain ⟨upper, rfl⟩ := List.getLast?_eq_some_iff.mp ends
  rw [List.dropLast_concat] at all
  simp only [List.mem_append, List.mem_singleton, or_imp, forall_and, forall_eq]
  exact and_iff_right all

section Leads

variable (same : α → α → Prop) (w : α → Nat) (marked : α → Prop)

/-- The list `A` ends where the two lists part, or it goes on below an element that the other list has a heavier
    one in the place of, with one element or with marked ones only. -/
def Leads (A B : List α) : Prop :=
  A <+: B ∨ ∃ cm x A' y B', Parts A B cm x A' y B' ∧ same x y ∧
    (A' = [] ∨ w x < w y ∧ (A'.length = 1 ∨ ∀ z ∈ A', marked z))

variable {same w marked}

theorem leads_parts (parts : Parts A B cm x A' y B') : Leads same w marked A B ↔
    same x y ∧ (A' = [] ∨ w x < w y ∧ (A'.length = 1 ∨ ∀ z ∈ A', marked z)) := by
  constructor
  · rintro (begins | ⟨cm', x', A'', y', B'', parts', leads⟩)
    · exact absurd begins parts.not_prefix
    · obtain ⟨-, rfl, rfl, rfl, -⟩ := parts.unique parts'
      exact leads
  · intro leads
    exact .inr ⟨cm, x, A', y, B', parts, leads⟩

theorem not_leads_longer {z : α} {rest : List α} (longer : A = B ++ z :: rest) : ¬Leads same w marked A B := by
  rintro (begins | ⟨cm, x, A', y, B', parts, -⟩)
  · have length := begins.length_le
    rw [longer, List.length_append, List.length_cons] at length
    omega
  · exact parts.symm.not_prefix ⟨z :: rest, longer.symm⟩

/-- Where `A` leads to `B` and `B` to `C`, all of `A` but its last element is marked below the place where it parts
    from `C`. -/
theorem Leads.chain (first : Leads same w marked A B) (second : Leads same w marked B C)
    (parts : Parts A C cm x A' y C') (long : A'.length ≠ 1)
    (waited : ∀ u ∈ A.dropLast, ∀ v ∈ B, same u v → w u < w v → marked u) : ∀ z ∈ A'.dropLast, marked z := by
  intro z inside
  have notEmpty : A' ≠ [] := by
    rintro rfl
    cases inside
  -- what follows from the second relation if `B` parts from `C` where `A` does
  have below : ∀ B', B = cm ++ x :: B' → B'.length ≠ 1 → ∀ z ∈ B', marked z := by
    intro B' right notOne z inside
    have leads := (leads_parts ⟨right, parts.right, parts.differ⟩).mp second
    rcases leads.2 with rfl | ⟨-, one | all⟩
    · cases inside
    · exact absurd one notOne
    · exact all z inside
  rcases first with ⟨rest, begins⟩ | ⟨cm₂, x₂, A₂, y₂, B₂, parts₂, alike, leads⟩
  · have right : B = cm ++ x :: (A' ++ rest) := by
      rw [← begins, parts.left, List.append_assoc]
      rfl
    refine below _ right ?_ z (List.mem_append_left _ (List.dropLast_subset _ inside))
    rw [List.length_append]
    have := List.length_pos_iff.mpr notEmpty
    omega
  · have split := parts.left.symm.trans parts₂.left
    rcases List.append_eq_append_iff.mp split with ⟨more, longer, rest⟩ | ⟨more, longer, rest⟩
    · cases more with
      | nil =>
        -- they part at one place
        obtain ⟨rfl, rfl⟩ := List.cons.inj rest
        rcases leads with rfl | ⟨-, one | all⟩
        · cases inside
        · exact absurd one long
        · exact all z (List.dropLast_subset _ inside)
      | cons u more =>
        -- `A` parts from `B` further down
        rw [List.cons_append, List.cons.injEq] at rest
        obtain ⟨rfl, rest⟩ := rest
        have right : B = cm ++ x :: (more ++ y₂ :: B₂) := by
          rw [parts₂.right, longer, List.append_assoc]
          rfl
        have between : ∀ z ∈ more, marked z := by
          intro z inside
          refine below _ right ?_ z (List.mem_append_left _ inside)
          have := List.length_pos_iff.mpr (List.ne_nil_of_mem inside)
          rw [List.length_append, List.length_cons]
          omega
        rcases leads with rfl | ⟨later, shape⟩
        · rw [rest, List.dropLast_concat] at inside
          exact between z inside
        · by_cases last : A₂ = []
          · rw [rest, last, List.dropLast_concat] at inside
            exact between z inside
          · rw [rest, List.append_cons, List.dropLast_append_of_ne_nil last] at inside
            rcases List.mem_append.mp inside with above | lower
            · rcases List.mem_append.mp above with above | here
              · exact between z above
              · rw [List.mem_singleton.mp here]
                refine waited x₂ ?_ y₂ (by rw [parts₂.right]; simp) alike later
                rw [parts₂.left, List.append_cons, List.dropLast_append_of_ne_nil last]
                simp
            · rcases shape with one | all
              · obtain ⟨only, rfl⟩ := List.length_eq_one_iff.mp one
                cases lower
              · exact all z (List.dropLast_subset _ lower)
    · cases more with
      | nil =>
        obtain ⟨rfl, rfl⟩ := List.cons.inj rest
        rcases leads with rfl | ⟨-, one | all⟩
        · cases inside
        · exact absurd one long
        · exact all z (List.dropLast_subset _ inside)
      | cons u more =>
        -- `A` parts from `B` further up
        rw [List.cons_append, List.cons.injEq] at rest
        obtain ⟨rfl, rest⟩ := rest
        rcases leads with empty | ⟨-, one | all⟩
        · rw [rest] at empty
          cases List.append_ne_nil_of_right_ne_nil more (List.cons_ne_nil x A') empty
        · have := List.length_pos_iff.mpr notEmpty
          rw [rest, List.length_append, List.length_cons] at one
          omega
        · apply all z
          rw [rest]
          exact List.mem_append_right _ (List.mem_cons_of_mem _ (List.dropLast_subset _ inside))

end Leads

end Trails

end Romp
