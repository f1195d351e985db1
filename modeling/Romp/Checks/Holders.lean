import Romp.Checks.Locked

namespace Romp

theorem Call.slot_of_touch {call : Call} {u : Touch} (touch : call.touch = some u) (locked : call.slot ≠ none) :
    call.slot = some u.slot := by
  cases call with
  | idle | locking => exact absurd rfl locked
  | holding | scanning =>
    cases touch
    rfl

namespace Crew

variable {flags : ReportFlags} {c : Crew} {t : Nat} {u : Touch}

theorem check_holder (flags : ReportFlags) (touch : (c.calls t).touch = some u) (free : c.holder u.slot = none)
    {holder : Slot → Option Nat} (fits : holder u.slot = if (c.calls t).slot = none then none else some t) :
    ({ c with holder }).check flags t = (c.check flags t).map fun c' =>
      { c' with holder := Function.update holder u.slot (if (c'.calls t).slot = none then none else some t) } := by
  unfold check
  cases place : c.calls t with
  | idle =>
    rw [place] at touch
    cases touch
  | locking u' left =>
    rw [place] at touch fits
    cases touch
    have fits : holder u.slot = none := fits
    simp only [lock, free, fits, Option.isSome_none, Bool.false_eq_true, if_false]
    cases c.subject.access t u with
    | none => rfl
    | some p => simp [setHolder, setCall, Call.slot]
  | holding number u' left =>
    rw [place] at touch fits
    cases touch
    have fits : Function.update holder u.slot (some t) = holder := Function.update_eq_self_iff.mpr fits.symm
    simp only [look]
    split
    · simp [leave, setHistory, setHolder, setCall, Call.next_slot]
    · split
      · simp [leave, setHistory, setHolder, setCall, Call.next_slot]
      · split
        · simp [leave, setHistory, setHolder, setCall, Call.next_slot]
        · cases (c.subject.system.detector.data t).label with
          | none => rfl
          | some label =>
            simp only [Option.map_some]
            split
            · simp [leave, setHistory, setHolder, setCall, Call.next_slot]
            · simp [setCall, Call.slot, fits]
  | scanning number u' left cur locals kept records =>
    rw [place] at touch fits
    cases touch
    have fits : Function.update holder u.slot (some t) = holder := Function.update_eq_self_iff.mpr fits.symm
    cases records with
    | nil => simp [leave, setHistory, setHolder, setCall, Call.next_slot]
    | cons r records =>
      simp only [scan, scanOf]
      cases (scanRecord (c.subject.system.context t) flags (u.info t) cur r _).toOption with
      | none => rfl
      | some next => simp [setHistory, setCall, Call.slot, fits]

/-- A check changes the history of its slot, and no history before it has the lock. -/
theorem check_memory {c' : Crew} (checked : c.check flags t = some c') {slot : Slot}
    (changed : c'.shadowMemory slot ≠ c.shadowMemory slot) : (c.calls t).slot = some slot := by
  cases place : c.calls t with
  | idle =>
    unfold check at checked
    rw [place] at checked
    cases checked
  | locking u left =>
    unfold check at checked
    simp only [place, lock] at checked
    split at checked
    · cases checked
    · obtain ⟨p, -, rfl⟩ := Option.map_eq_some_iff.mp checked
      exact absurd rfl changed
  | holding number u left | scanning number u left =>
    have touch : (c.calls t).touch = some u := by rw [place]; rfl
    rw [check_local touch] at checked
    obtain ⟨next, -, rfl⟩ := Option.map_eq_some_iff.mp checked
    have here : slot = u.slot := by
      by_contra apart
      exact changed (Function.update_of_ne apart _ _)
    rw [here]
    rfl

end Crew

namespace Paged

variable {flags : ReportFlags} {s s' : Paged} {t : Nat} {u : Touch}

theorem check_holder (flags : ReportFlags) (touch : (s.calls t).touch = some u) (free : s.holder u.slot = none)
    {holder : Slot → Option Nat} (fits : holder u.slot = if (s.calls t).slot = none then none else some t) :
    ({ s with holder }).check flags t = (s.check flags t).map fun s' =>
      { s' with holder := Function.update holder u.slot (if (s'.calls t).slot = none then none else some t) } := by
  unfold check
  simp only [touch]
  cases s.accessHistory t with
  | none => rfl
  | some page =>
    simp only
    generalize s.pages.shadowPage page (ShadowMemory.default.getPageIndex u.byteAddress) = h
    rw [show Crew.check flags (crew { s with holder } fun _ => h) t = _ from
      Crew.check_holder flags (c := s.crew fun _ => h) touch free fits]
    cases (s.crew fun _ => h).check flags t with
    | none => rfl
    | some c =>
      simp only [Option.map_some, Option.bind_eq_bind, Option.bind_some]
      cases s.pages.step .default .new t
        (.write page (ShadowMemory.default.getPageIndex u.byteAddress) (c.shadowMemory u.slot)) <;> rfl

theorem get_holder (holder : Slot → Option Nat) :
    ({ s with holder }).get t = (s.get t).map fun s' => { s' with holder } := by
  unfold get
  simp only
  split
  · split <;> (rw [Option.map_map]; rfl)
  · rfl

theorem step_holder {a : Crew.Move} (other : ∀ t, a ≠ .check t) (holder : Slot → Option Nat) :
    ({ s with holder }).step flags (.act a) = (s.step flags (.act a)).map fun s' => { s' with holder } := by
  have same := Crew.step_local flags (c := s.crew fun _ => .new) other holder fun _ => .new
  rw [step_of_other other, step_of_other other, Option.map_map]
  rw [show (crew { s with holder } fun _ => .new).step flags a = _ from same, Option.map_map]
  rfl

end Paged

end Romp
