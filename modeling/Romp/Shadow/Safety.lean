import Romp.Runtime.Steps
import Romp.Shadow.Installation

open Ownership

namespace Romp

namespace PageCall

def left : PageCall → Nat
  | idle => 0
  | result .. => 1
  | reread _ => 2
  | saveShadowPage .. => 3
  | casL2 .. => 4
  | locate .. => 5
  | getShadowPage _ => 6
  | testL2 .. => 7
  | readL1 _ => 8
  | saveL1Page .. => 9
  | casL1 .. => 10
  | getL1Page _ => 11
  | testL1 _ => 12

end PageCall

namespace Pages

variable {Thread α : Type} [DecidableEq Thread] {m : ShadowMemory} {zero : α} {s s' : Pages Thread α} {t : Thread}

/-- What holds between the steps: each page has one holder, the calls have returned what is in the tables, a page is
    saved to an empty cache only, and a call comes to its end whatever the other threads do. -/
structure Safe (m : ShadowMemory) (zero : α) (s : Pages Thread α) : Prop where
  l1Pages : ∀ h h' page, s.l1Depot.held h = some page → s.l1Depot.held h' = some page → h = h'
  shadowPages : ∀ h h' page, s.shadowDepot.held h = some page → s.shadowDepot.held h' = some page → h = h'
  entries : ∀ i j i' j' page, s.entry i j = some page → s.entry i' j' = some page → i = i' ∧ j = j'
  returned : ∀ t a r, (a, r) ∈ s.returned t →
    ∃ page, r = some page ∧ s.entry (m.getL1PageIndex a) (m.getL2PageIndex a) = some page
  savesL1Page : ∀ t a page, s.call t = .saveL1Page a page → s.cachedL1Page t = none
  savesShadowPage : ∀ t a page, s.call t = .saveShadowPage a page → s.cachedShadowPage t = none
  returns : ∀ t, s.call t ≠ .idle → ∃ s', s.go m zero t = some s' ∧ (s'.call t).left < (s.call t).left

/-- What holds of a step: a page that it installs is as it was allocated. -/
structure Fresh (zero : α) (s s' : Pages Thread α) : Prop where
  l1Page : ∀ i page, s.pageTable i = none → s'.pageTable i = some page → ∀ j, s'.l1Page page j = none
  shadowPage : ∀ q j page, s.l1Page q j = none → s'.l1Page q j = some page → ∀ k, s'.shadowPage page k = zero

omit [DecidableEq Thread] in
theorem Installed.entries (installed : s.Installed m zero) {i j i' j' : BitVec 64} {page : Nat}
    (filled : s.entry i j = some page) (filled' : s.entry i' j' = some page) : i = i' ∧ j = j' := by
  obtain ⟨table, known, filled⟩ := Option.bind_eq_some_iff.mp filled
  obtain ⟨table', known', filled'⟩ := Option.bind_eq_some_iff.mp filled'
  have same := installed.shadow.once (.entry (table, j)) (.entry (table', j')) page filled filled'
  simp only [Holder.entry.injEq, Prod.mk.injEq] at same
  obtain ⟨rfl, rfl⟩ := same
  have place := installed.l1.once (.entry i) (.entry i') table known known'
  simp only [Holder.entry.injEq] at place
  exact ⟨place, rfl⟩

/-- A call that is not at its end has a next step, and is nearer to its end after it. -/
theorem Installed.returns (installed : s.Installed m zero) (busy : s.call t ≠ .idle) :
    ∃ s', s.go m zero t = some s' ∧ (s'.call t).left < (s.call t).left := by
  have at_ := installed.calls t
  have goes : ∀ (s₁ : Pages Thread α) (c : PageCall), c.left < (s.call t).left →
      ((s₁.goto t c).call t).left < (s.call t).left := by
    intro s₁ c less
    rw [show (s₁.goto t c).call t = c from Function.update_self ..]
    exact less
  have read : ∀ {a : BitVec 64} {c : Nat → PageCall}, s.pageTable (m.getL1PageIndex a) ≠ none →
      (∀ table, (c table).left < (s.call t).left) →
      ∃ s', (s.pageTable (m.getL1PageIndex a)).map (fun table => s.goto t (c table)) = some s' ∧
        (s'.call t).left < (s.call t).left := by
    intro a c known less
    obtain ⟨table, found⟩ := Option.ne_none_iff_exists'.mp known
    exact ⟨s.goto t (c table), by rw [found]; rfl, goes s (c table) (less table)⟩
  unfold go
  cases call : s.call t with
  | idle => exact absurd call busy
  | testL1 a | getL1Page a | casL1 a page | saveL1Page a page | testL2 a table | getShadowPage a | casL2 a table page
  | saveShadowPage a page =>
    rw [call] at goes
    simp only
    split <;> exact ⟨_, rfl, goes _ _ (by simp [PageCall.left])⟩
  | readL1 a | locate a page =>
    rw [call] at at_ read
    exact read at_ fun table => by simp [PageCall.left]
  | reread a =>
    rw [call] at at_ read
    refine read (a := a) ?_ fun table => by simp [PageCall.left]
    intro none
    exact at_ (by rw [entry, none]; rfl)
  | result a table =>
    rw [call] at goes
    exact ⟨_, rfl, goes _ _ (by simp [PageCall.left])⟩

theorem Installed.safe (installed : s.Installed m zero) : Safe m zero s where
  l1Pages := installed.l1.once
  shadowPages := installed.shadow.once
  entries := fun _ _ _ _ _ filled filled' => installed.entries filled filled'
  returned := fun t a r member => by
    obtain ⟨some, filled⟩ := installed.returned t a r member
    obtain ⟨page, rfl⟩ := Option.ne_none_iff_exists'.mp some
    exact ⟨page, rfl, filled⟩
  savesL1Page := fun t a page call => installed.l1.free t (by simp [l1Depot, call, PageCall.freshL1Page])
  savesShadowPage := fun t a page call => installed.shadow.free t (by simp [shadowDepot, call, PageCall.freshShadowPage])
  returns := fun _ busy => installed.returns busy

/-- A page in the hand of a thread is in no entry, so the step that installs it finds it as it was made. -/
theorem Installed.fresh (installed : s.Installed m zero) {action : PageAction α}
    (stepped : s.step m zero t action = some s') :
    Fresh zero s s' := by
  obtain ⟨-, l1, shadow⟩ := installed.step stepped
  have writes : Writes zero s s' t ∨ s'.pageTable = s.pageTable ∧ s'.l1Page = s.l1Page := by
    cases action with
    | go => exact .inl (installed.go_lands stepped).1
    | call a =>
      simp only [Pages.step] at stepped
      split at stepped
      · cases stepped
        exact .inr ⟨rfl, rfl⟩
      · cases stepped
    | write page index value =>
      simp only [Pages.step] at stepped
      split at stepped
      · cases stepped
        exact .inr ⟨rfl, rfl⟩
      · cases stepped
  rcases writes with writes | ⟨tables, pages⟩
  · refine ⟨fun i q empty filled j => ?_, fun q j p empty filled k => ?_⟩
    · have hand := l1.entry_new empty filled
      have unused : ∀ i, s.pageTable i ≠ some q := by
        intro i used
        cases installed.l1.once (.entry i) (.hand t) q used hand
      rcases writes.entries q j with same | none | ⟨i, used⟩
      · rw [same]
        exact installed.blank q unused j
      · exact none
      · exact absurd used (unused i)
    · have hand := shadow.entry_new (e := (q, j)) empty filled
      have unused : ∀ q j, s.l1Page q j ≠ some p := by
        intro q j used
        cases installed.shadow.once (.entry (q, j)) (.hand t) p used hand
      rcases writes.slots p k with same | clean
      · rw [same]
        exact installed.zero p unused k
      · exact clean
  · refine ⟨fun i q empty filled => ?_, fun q j p empty filled => ?_⟩
    · rw [tables, empty] at filled
      cases filled
    · rw [pages, empty] at filled
      cases filled

/-- Any number of threads that ask for the pages of any addresses, their steps interleaved in any way. -/
theorem installation_safe (reached : Reachable m zero s) : Safe m zero s ∧
    (∀ s', s.Leads m zero s' → (∀ i table, s.pageTable i = some table → s'.pageTable i = some table) ∧
      ∀ i j page, s.entry i j = some page → s'.entry i j = some page) ∧
    ∀ t action s', s.step m zero t action = some s' → Fresh zero s s' := by
  have installed := reached.installed
  refine ⟨installed.safe, fun s' leads => ?_, fun t action s' stepped => installed.fresh stepped⟩
  have grows := (Leads.grows installed leads).1
  exact ⟨grows.tables, fun _ _ _ filled => grows.entry filled⟩

def run (m : ShadowMemory) (zero : α) (s : Pages Thread α) (schedule : List (Thread × PageAction α)) :
    Option (Pages Thread α) :=
  schedule.foldlM (fun s x => s.step m zero x.1 x.2) s

theorem Reachable.run {schedule : List (Thread × PageAction α)} (reached : Reachable m zero s)
    (ran : s.run m zero schedule = some s') : Reachable m zero s' := by
  induction schedule generalizing s with
  | nil =>
    cases ran
    exact reached
  | cons x rest ih =>
    rw [Pages.run, List.foldlM_cons] at ran
    obtain ⟨next, stepped, ran⟩ := Option.bind_eq_some_iff.mp ran
    exact ih (.step reached stepped) ran

/-- Two threads ask for the page of one address and go on in turn. The second loses both races, and keeps the two pages
    that it has allocated for later. -/
theorem installation_safe_pair : ∃ s : Pages Bool Nat, Reachable .default 0 s ∧
    (s.returned false = [(0x7fff5a10, some 0)] ∧ s.returned true = [(0x7fff5a10, some 0)] ∧
      s.cachedL1Page true = some 1 ∧ s.cachedShadowPage true = some 1) ∧ Safe .default 0 s := by
  have evaluated : ((new 0).run .default 0 ([(false, .call 0x7fff5a10), (true, .call 0x7fff5a10)] ++
      (List.replicate 10 [(false, .go), (true, .go)]).flatten ++ [(true, .go), (true, .go)]) |>.any
        fun s : Pages Bool Nat => decide (s.returned false = [(0x7fff5a10, some 0)] ∧
          s.returned true = [(0x7fff5a10, some 0)] ∧ s.cachedL1Page true = some 1 ∧
            s.cachedShadowPage true = some 1)) = true := by decide
  obtain ⟨s, ran, facts⟩ := exists_of_any evaluated
  have reached := Reachable.run .start ran
  exact ⟨s, reached, facts, (installation_safe reached).1⟩

end Pages

end Romp
