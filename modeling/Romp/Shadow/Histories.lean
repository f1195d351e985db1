import Romp.Shadow.Safety

namespace Romp

def ShadowMemory.slot (m : ShadowMemory) (address : BitVec 64) : BitVec 64 × BitVec 64 × BitVec 64 :=
  (m.getL1PageIndex address, m.getL2PageIndex address, m.getPageIndex address)

namespace Pages

variable {Thread α : Type} {m : ShadowMemory} {zero : α} {s s' : Pages Thread α} {t : Thread}

/-- What the slots hold; a slot whose page has not been installed holds what its page will be allocated with. -/
def contents (zero : α) (s : Pages Thread α) (slot : BitVec 64 × BitVec 64 × BitVec 64) : α :=
  match s.entry slot.1 slot.2.1 with
  | some page => s.shadowPage page slot.2.2
  | none => zero

variable [DecidableEq Thread]

/-- A step of a call writes to no page that has been allocated before. -/
theorem shadowPage_go (stepped : s.go m zero t = some s') {page : Nat} (made : page < s.shadowPages) :
    s'.shadowPage page = s.shadowPage page := by
  unfold go at stepped
  cases call : s.call t with
  | idle =>
    rw [call] at stepped
    cases stepped
  | testL1 | getL1Page | casL1 | saveL1Page | testL2 | casL2 | saveShadowPage =>
    rw [call] at stepped
    simp only at stepped
    split at stepped <;> cases stepped <;> rfl
  | readL1 | locate | reread =>
    rw [call] at stepped
    obtain ⟨table, -, rfl⟩ := Option.map_eq_some_iff.mp stepped
    rfl
  | getShadowPage a =>
    rw [call] at stepped
    simp only at stepped
    split at stepped
    · cases stepped
      rfl
    · cases stepped
      exact Function.update_of_ne (Nat.ne_of_lt made) _ _
  | result =>
    rw [call] at stepped
    cases stepped
    rfl

theorem Installed.contents_go (installed : s.Installed m zero) (stepped : s.go m zero t = some s') :
    s'.contents zero = s.contents zero := by
  have fresh : Fresh zero s s' := installed.fresh (show s.step m zero t .go = some s' from stepped)
  obtain ⟨l1, shadow⟩ := installed.go_moves stepped
  have grows : s.Grows s' := .of_moves l1 shadow
  funext ⟨i, j, k⟩
  unfold contents
  cases before : s.entry i j with
  | some page =>
    obtain ⟨table, known, filled⟩ := Option.bind_eq_some_iff.mp before
    have made : page < s.shadowPages := installed.shadow.bound (.entry (table, j)) page filled
    simp only [grows.entry before, shadowPage_go stepped made]
  | none =>
    cases after : s'.entry i j with
    | none => rfl
    | some page =>
      obtain ⟨table, known', filled'⟩ := Option.bind_eq_some_iff.mp after
      cases known : s.pageTable i with
      | none =>
        rw [fresh.l1Page i table known known' j] at filled'
        cases filled'
      | some table' =>
        have same := grows.tables i table' known
        rw [known', Option.some.injEq] at same
        subst same
        have empty : s.l1Page table j = none := by
          rw [entry, known] at before
          exact before
        exact fresh.shadowPage table j page empty filled' k

/-- A thread that has got the slot of an address writes to this slot and to no other. -/
theorem Installed.contents_write (installed : s.Installed m zero) {a : BitVec 64} {page : Nat} {value : α}
    (got : (a, some page) ∈ s.returned t) (stepped : s.step m zero t (.write page (m.getPageIndex a) value) = some s') :
    s'.contents zero = Function.update (s.contents zero) (m.slot a) value := by
  have filled := (installed.returned t a _ got).2
  simp only [Pages.step] at stepped
  split at stepped
  · cases stepped
    funext place
    obtain ⟨i, j, k⟩ := place
    by_cases here : (i, j, k) = m.slot a
    · simp only [ShadowMemory.slot, Prod.mk.injEq] at here
      obtain ⟨rfl, rfl, rfl⟩ := here
      rw [show (m.getL1PageIndex a, m.getL2PageIndex a, m.getPageIndex a) = m.slot a from rfl, Function.update_self]
      simp only [contents, ShadowMemory.slot, entry] at filled ⊢
      rw [filled]
      simp
    · rw [Function.update_of_ne here]
      simp only [contents, entry]
      cases found : (s.pageTable i).bind fun table => s.l1Page table j with
      | none => rfl
      | some other =>
        by_cases self : other = page
        · subst self
          obtain ⟨rfl, rfl⟩ := installed.entries found filled
          have index : k ≠ m.getPageIndex a := fun same => here (by rw [same]; rfl)
          simp [index]
        · simp [self]
  · cases stepped

end Pages

end Romp
