import Romp.Checks.Refinement
import Romp.Mcs.Exclusion

namespace Romp

def Crew.Move.actor : Crew.Move → Option Nat
  | .event e => e.actor
  | .acquire t _ | .release t _ | .reduce t _ | .pass t _ | .enter t _ | .check t => some t

abbrev Place := Nat × BitVec 64

/-- The threads that check accesses, where the guard of `checkDataRace` is one of the queue lock in the slot. A thread
    has one node, that of the guard that it is making, has, or is destroying; `unlocking` is the slot of the last. -/
structure Locked where
  subject : Subject
  calls : Nat → Call
  reports : RaceReports
  pages : Pages Nat AccessHistory
  accessHistory : Nat → Option Nat
  lock : Place → McsLock Nat Nat
  unlocking : Nat → Option Place

namespace Locked

inductive Move where
  | act (a : Crew.Move)
  | getShadowMemorySlot (t : Nat)
  | mcsLock (t : Nat) (storage : McsNode Nat)
  | mcsUnlock (t : Nat)

def paged (s : Locked) (holder : Slot → Option Nat) : Paged :=
  ⟨s.subject, s.calls, holder, s.reports, s.pages, s.accessHistory⟩

def unheld (s : Locked) : Paged := s.paged fun _ => none

def follow (s : Locked) (p : Paged) : Locked :=
  { s with
    subject := p.subject
    calls := p.calls
    reports := p.reports
    pages := p.pages
    accessHistory := p.accessHistory }

def setLock (s : Locked) (p : Place) (lock : McsLock Nat Nat) : Locked :=
  { s with lock := Function.update s.lock p lock }

def place (s : Locked) (t : Nat) : Option Place :=
  (s.calls t).touch.bind fun u =>
    (s.accessHistory t).map fun page => (page, ShadowMemory.default.getPageIndex u.byteAddress)

def acquiring (s : Locked) (t : Nat) (p : Place) (storage : McsNode Nat) : McsAction Nat :=
  if (s.lock p).call t = .outside then .mcsLock t storage else .go

def acquire (s : Locked) (t : Nat) (p : Place) (storage : McsNode Nat) : McsLock Nat Nat :=
  (s.lock p).after t (s.acquiring t p storage)

def releasing (s : Locked) (t : Nat) (p : Place) : McsAction Nat :=
  if (s.lock p).call t = .holding t then .mcsUnlock else .go

def release (s : Locked) (t : Nat) (p : Place) : McsLock Nat Nat := (s.lock p).after t (s.releasing t p)

def mcsLock (flags : ReportFlags) (s : Locked) (t : Nat) (storage : McsNode Nat) : Option Locked :=
  match s.unlocking t, s.place t with
  | none, some p =>
    if (s.calls t).slot = none then
      let lock := s.acquire t p storage
      if lock.call t = .holding t then (s.unheld.check flags t).map (s.setLock p lock).follow
      else some (s.setLock p lock)
    else none
  | _, _ => none

def mcsUnlock (s : Locked) (t : Nat) : Option Locked :=
  (s.unlocking t).map fun p =>
    let lock := s.release t p
    { s.setLock p lock with
      unlocking := if lock.call t = .outside then Function.update s.unlocking t none else s.unlocking }

def check (flags : ReportFlags) (s : Locked) (t : Nat) : Option Locked :=
  if (s.calls t).slot = none then none
  else
    (s.unheld.check flags t).map fun p =>
      { s.follow p with
        unlocking := if (p.calls t).slot = none then Function.update s.unlocking t (s.place t) else s.unlocking }

def step (flags : ReportFlags) (s : Locked) : Move → Option Locked
  | .act (.check t) => s.check flags t
  | .act a =>
    if a.actor.all fun t => (s.unlocking t).isNone then (s.unheld.step flags (.act a)).map s.follow else none
  | .getShadowMemorySlot t => if (s.unlocking t).isNone then (s.unheld.get t).map s.follow else none
  | .mcsLock t storage => s.mcsLock flags t storage
  | .mcsUnlock t => s.mcsUnlock t

def start (system : System) : Locked :=
  let p := Paged.start system
  ⟨p.subject, p.calls, p.reports, p.pages, p.accessHistory, fun _ => .mcsInit fun _ => ⟨none, false⟩, fun _ => none⟩

inductive Reached (flags : ReportFlags) (permits : System → Event → Prop) : Locked → Prop
  | start {s} : System.initial = .ok s → Reached flags permits (start s)
  | step {s s' a} : Reached flags permits s → (∀ e, a = .act (.event e) → permits s.subject.system e) →
      s.step flags a = some s' → Reached flags permits s'

def run (flags : ReportFlags) (as : List Move) : Option Locked :=
  System.initial.toOption.bind fun s => as.foldlM (step flags) (start s)

theorem Reached.of_run {flags : ReportFlags} {permits : System → Event → Prop} {as : List Move} {s : Locked}
    (permitted : ∀ e, .act (.event e) ∈ as → ∀ s, permits s e) (ran : run flags as = some s) :
    Reached flags permits s :=
  run_induction (fun _ made => .start made)
    (fun _ _ _ member reached stepped => .step reached (fun e same => permitted e (same ▸ member) _) stepped) ran

end Locked

namespace McsLock

variable {Node Thread : Type} [DecidableEq Node] [DecidableEq Thread] (s : McsLock Node Thread) (t : Thread)

theorem go_me : ((s.go t).call t).me = (s.call t).me ∨ (s.go t).call t = .outside := by
  unfold go
  cases call : s.call t with
  | outside | holding => exact .inl (by rw [call])
  | initNext | initBlocked | link | storeNext => exact .inl (by rw [goto_self]; rfl)
  | exchange | loadNext =>
    simp only
    split <;> exact .inl (by rw [goto_self]; rfl)
  | wait | awaitNext =>
    simp only
    split
    · exact .inl (by rw [call])
    · exact .inl (by rw [goto_self]; rfl)
  | compareExchange =>
    simp only
    split
    · exact .inl (by rw [goto_self]; rfl)
    · exact .inr (by rw [goto_self])
  | removeSelf =>
    simp only
    split
    · exact .inr (by rw [goto_self])
    · exact .inl (by rw [goto_self]; rfl)
  | signal => exact .inr (by rw [goto_self])

theorem go_locking (locking : (s.call t).locking = true) :
    ((s.go t).call t).locking = true ∨ ∃ me, (s.go t).call t = .holding me := by
  unfold go
  cases call : s.call t with
  | initNext | initBlocked | link => exact .inl (by rw [goto_self]; rfl)
  | exchange me =>
    simp only
    split
    · exact .inr ⟨me, by rw [goto_self]⟩
    · exact .inl (by rw [goto_self]; rfl)
  | wait me =>
    simp only
    split
    · exact .inl (call ▸ locking)
    · exact .inr ⟨me, by rw [goto_self]⟩
  | _ =>
    rw [call] at locking
    cases locking

theorem go_owns (owns : (s.call t).owns = true) : ((s.go t).call t).owns = true ∨ (s.go t).call t = .outside := by
  unfold go
  cases call : s.call t with
  | holding => exact .inl owns
  | loadNext =>
    simp only
    split <;> exact .inl (by rw [goto_self]; rfl)
  | removeSelf =>
    simp only
    split
    · exact .inr (by rw [goto_self])
    · exact .inl (by rw [goto_self]; rfl)
  | awaitNext =>
    simp only
    split
    · exact .inl (call ▸ owns)
    · exact .inl (by rw [goto_self]; rfl)
  | signal => exact .inr (by rw [goto_self])
  | _ =>
    rw [call] at owns
    cases owns

end McsLock

end Romp
