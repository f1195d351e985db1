import Mathlib.Logic.Relation
import Mathlib.Order.WithBot
import Romp.Checks.Threads
import Romp.Shadow.Histories

namespace Romp

namespace Call

def touch : Call → Option Touch
  | idle => none
  | locking u _ | holding _ u _ | scanning _ u .. => some u

def left : Call → List Touch
  | idle => []
  | locking _ left | holding _ _ left | scanning _ _ left .. => left

def ahead : Call → WithTop ℕ
  | scanning _ _ _ _ _ _ records => records.length
  | _ => ⊤

def Goes (call call' : Call) : Prop :=
  call.slot ≠ none ∧ call' = next call.left ∨
    call'.slot ≠ none ∧ call'.touch = call.touch ∧ call'.left = call.left ∧
      (call.slot ≠ none → call'.ahead < call.ahead)

theorem next_slot (left : List Touch) : (next left).slot = none := by
  cases left <;> rfl

section Goes

variable {call call' : Call} (goes : call.Goes call')

include goes

theorem Goes.touch (locked : call'.slot ≠ none) : call'.touch = call.touch := by
  rcases goes with ⟨-, ended⟩ | ⟨-, same, -⟩
  · rw [ended] at locked
    exact absurd (next_slot _) locked
  · exact same

theorem Goes.locks (waits : call.slot = none) : call'.slot ≠ none := by
  rcases goes with ⟨locked, -⟩ | ⟨locked, -⟩
  · exact absurd waits locked
  · exact locked

end Goes

end Call

/-- The threads that check accesses, where `getShadowMemorySlot` finds the history of a byte for them: `accessHistory`
    is the page that it has returned. -/
structure Paged where
  subject : Subject
  calls : Nat → Call
  holder : Slot → Option Nat
  reports : RaceReports
  pages : Pages Nat AccessHistory
  accessHistory : Nat → Option Nat

namespace Paged

inductive Move where
  | act (a : Crew.Move)
  | getShadowMemorySlot (t : Nat)

def crew (s : Paged) (shadowMemory : Histories) : Crew := ⟨s.subject, s.calls, s.holder, shadowMemory, s.reports⟩

def follow (s : Paged) (c : Crew) : Paged :=
  { s with subject := c.subject, calls := c.calls, holder := c.holder, reports := c.reports }

def get (s : Paged) (t : Nat) : Option Paged :=
  match s.calls t, s.accessHistory t with
  | .locking u _, none =>
    match s.pages.call t with
    | .idle => (s.pages.step .default .new t (.call u.byteAddress)).map fun pages => { s with pages }
    | .result .. =>
      (s.pages.step .default .new t .go).map fun pages =>
        { s with
          pages
          accessHistory := Function.update s.accessHistory t ((pages.returned t).getLast?.bind Prod.snd) }
    | _ => (s.pages.step .default .new t .go).map fun pages => { s with pages }
  | _, _ => none

def check (flags : ReportFlags) (s : Paged) (t : Nat) : Option Paged :=
  match (s.calls t).touch, s.accessHistory t with
  | some u, some page => do
    let index := ShadowMemory.default.getPageIndex u.byteAddress
    let c ← (s.crew fun _ => s.pages.shadowPage page index).check flags t
    let pages ← s.pages.step .default .new t (.write page index (c.shadowMemory u.slot))
    some
      { s.follow c with
        pages
        accessHistory :=
          if (c.calls t).slot = none then Function.update s.accessHistory t none else s.accessHistory }
  | _, _ => none

/-- What is neither a check nor a call of `getShadowMemorySlot` reads no history. -/
def step (flags : ReportFlags) (s : Paged) : Move → Option Paged
  | .getShadowMemorySlot t => s.get t
  | .act (.check t) => s.check flags t
  | .act a => ((s.crew fun _ => .new).step flags a).map s.follow

def start (system : System) : Paged :=
  let c := Crew.start system
  ⟨c.subject, c.calls, c.holder, c.reports, .new .new, fun _ => none⟩

inductive Reached (flags : ReportFlags) (permits : System → Event → Prop) : Paged → Prop
  | start {s} : System.initial = .ok s → Reached flags permits (start s)
  | step {s s' a} : Reached flags permits s → (∀ e, a = .act (.event e) → permits s.subject.system e) →
      s.step flags a = some s' → Reached flags permits s'

def run (flags : ReportFlags) (as : List Move) : Option Paged :=
  System.initial.toOption.bind fun s => as.foldlM (step flags) (start s)

theorem Reached.of_run {flags : ReportFlags} {permits : System → Event → Prop} {as : List Move} {s : Paged}
    (permitted : ∀ e, .act (.event e) ∈ as → ∀ s, permits s e) (ran : run flags as = some s) :
    Reached flags permits s :=
  run_induction (fun _ made => .start made)
    (fun _ _ _ member reached stepped => .step reached (fun e same => permitted e (same ▸ member) _) stepped) ran

abbrev Gets : Paged → Paged → Prop := Relation.ReflTransGen fun s s' => ∃ t, s.get t = some s'

/-- The threads as they would be on a memory of one slot after the other. -/
def view (s : Paged) : Crew := s.crew (s.pages.contents .new)

def left (s : Paged) (t : Nat) : Nat :=
  match s.accessHistory t, s.pages.call t with
  | some _, _ => 0
  | none, .idle => 13
  | none, call => call.left

end Paged

namespace Crew

variable {flags : ReportFlags} {c c' : Crew} {t : Nat} {u : Touch}

theorem check_local (touch : (c.calls t).touch = some u) : c.check flags t =
    (({ c with shadowMemory := fun _ => c.shadowMemory u.slot : Crew }).check flags t).map fun c' =>
      { c' with shadowMemory := Function.update c.shadowMemory u.slot (c'.shadowMemory u.slot) } := by
  unfold check
  cases place : c.calls t with
  | idle =>
    rw [place] at touch
    cases touch
  | locking u' left =>
    rw [place] at touch
    cases touch
    simp only [lock]
    split
    · rfl
    · cases c.subject.access t u with
      | none => rfl
      | some p => simp only [Option.map_some, setHolder, setCall, Function.update_eq_self]
  | holding number u' left =>
    rw [place] at touch
    cases touch
    simp only [look]
    split
    · simp [leave, setHistory, setHolder, setCall]
    · split
      · simp [leave, setHistory, setHolder, setCall]
      · split
        · simp [leave, setHistory, setHolder, setCall]
        · cases (c.subject.system.detector.data t).label with
          | none => rfl
          | some label =>
            simp only [Option.map_some]
            split <;> simp [leave, setHistory, setHolder, setCall]
  | scanning number u' left cur locals kept records =>
    rw [place] at touch
    cases touch
    cases records with
    | nil => simp [leave, setHistory, setHolder, setCall]
    | cons r records =>
      simp only [scan, scanOf]
      cases (scanRecord (c.subject.system.context t) flags (u.info t) cur r _).toOption with
      | none => rfl
      | some next => simp [setHistory, setCall]

theorem check_calls (stepped : c.check flags t = some c') :
    ∃ call, c'.calls = Function.update c.calls t call ∧ (c.calls t).Goes call := by
  have behind : ∀ {u : Touch}, some u.slot ≠ none := Option.some_ne_none _
  unfold check at stepped
  cases place : c.calls t with
  | idle =>
    rw [place] at stepped
    cases stepped
  | locking u left =>
    rw [place] at stepped
    simp only [lock] at stepped
    split at stepped
    · cases stepped
    · obtain ⟨p, -, rfl⟩ := Option.map_eq_some_iff.mp stepped
      exact ⟨_, rfl, .inr ⟨behind, rfl, rfl, fun locked => absurd rfl locked⟩⟩
  | holding number u left =>
    rw [place] at stepped
    simp only [look] at stepped
    split at stepped
    · cases stepped
      exact ⟨_, rfl, .inl ⟨behind, rfl⟩⟩
    · split at stepped
      · cases stepped
        exact ⟨_, rfl, .inl ⟨behind, rfl⟩⟩
      · split at stepped
        · cases stepped
          exact ⟨_, rfl, .inl ⟨behind, rfl⟩⟩
        · obtain ⟨label, -, same⟩ := Option.map_eq_some_iff.mp stepped
          split at same
          · subst same
            exact ⟨_, rfl, .inl ⟨behind, rfl⟩⟩
          · subst same
            exact ⟨_, rfl, .inr ⟨behind, rfl, rfl, fun _ => WithTop.coe_lt_top _⟩⟩
  | scanning number u left cur locals kept records =>
    rw [place] at stepped
    cases records with
    | nil =>
      cases stepped
      exact ⟨_, rfl, .inl ⟨behind, rfl⟩⟩
    | cons r records =>
      obtain ⟨next, -, same⟩ := Option.bind_eq_some_iff.mp stepped
      cases same
      exact ⟨_, rfl, .inr ⟨behind, rfl, rfl, fun _ => WithTop.coe_lt_coe.mpr (Nat.lt_succ_self _)⟩⟩

theorem step_calls {a : Move} (other : ∀ t, a ≠ .check t) (stepped : c.step flags a = some c') :
    c'.calls = c.calls ∨ ∃ t r, a = .enter t r ∧ c.calls t = .idle ∧
      c'.calls = Function.update c.calls t (.next r.touches) := by
  cases a with
  | check t => exact absurd rfl (other t)
  | event e =>
    simp only [step, event] at stepped
    split at stepped
    · cases stepped
    · split at stepped
      · obtain ⟨system, -, rfl⟩ := Option.map_eq_some_iff.mp stepped
        exact .inl rfl
      · cases stepped
  | acquire t lock | release t lock | reduce t endPoint =>
    simp only [step, protect] at stepped
    split at stepped
    · obtain ⟨detector, -, rfl⟩ := Option.map_eq_some_iff.mp stepped
      exact .inl rfl
    · cases stepped
  | pass t u =>
    simp only [step, pass] at stepped
    split at stepped
    · obtain ⟨subject, -, rfl⟩ := Option.map_eq_some_iff.mp stepped
      exact .inl rfl
    · cases stepped
  | enter t r =>
    simp only [step, enter] at stepped
    split at stepped
    · rename_i free
      cases stepped
      refine .inr ⟨t, r, rfl, ?_, rfl⟩
      cases place : c.calls t with
      | idle => rfl
      | _ => simp [place, Call.isIdle] at free
    · cases stepped

theorem step_local (flags : ReportFlags) {a : Move} (other : ∀ t, a ≠ .check t) (holder : Slot → Option Nat)
    (shadowMemory : Histories) :
    ({ c with holder, shadowMemory }).step flags a =
      (c.step flags a).map fun c' => { c' with holder, shadowMemory } := by
  cases a with
  | check t => exact absurd rfl (other t)
  | event e =>
    simp only [step, event]
    split
    · rfl
    · split
      · cases c.subject.system.step e <;> rfl
      · rfl
  | acquire t lock | release t lock | reduce t endPoint =>
    simp only [step, protect]
    split
    · rw [Option.map_map]
      rfl
    · rfl
  | pass t u =>
    simp only [step, pass]
    split
    · rw [Option.map_map]
      rfl
    · rfl
  | enter t r =>
    simp only [step, enter]
    split <;> rfl

theorem step_holder {a : Move} (other : ∀ t, a ≠ .check t) (stepped : c.step flags a = some c') :
    c'.holder = c.holder := by
  have same : c.step flags a = _ := step_local flags other c.holder c.shadowMemory
  rw [stepped] at same
  have held := congrArg holder (Option.some.inj same)
  exact held

end Crew

end Romp
