import Mathlib.Data.Multiset.AddSub
import Romp.Access.DataSharing
import Romp.Callbacks.Delivery
import Romp.Runtime.Turns

namespace Romp

theorem foldlM_induction {σ α : Type} {step : σ → α → Option σ} {holds : σ → Prop} {as : List α} {s s' : σ}
    (kept : ∀ s s' a, a ∈ as → holds s → step s a = some s' → holds s') (start : holds s)
    (ran : as.foldlM step s = some s') : holds s' := by
  induction as generalizing s with
  | nil =>
    cases ran
    exact start
  | cons a as ih =>
    obtain ⟨next, stepped, ran⟩ := Option.bind_eq_some_iff.mp ran
    refine ih (fun s s' b member => kept s s' b (List.mem_cons_of_mem a member)) ?_ ran
    exact kept s next a List.mem_cons_self start stepped

theorem run_induction {σ α : Type} {start : System → σ} {step : σ → α → Option σ} {holds : σ → Prop} {as : List α}
    {s : σ} (begun : ∀ system, System.initial = .ok system → holds (start system))
    (kept : ∀ s s' a, a ∈ as → holds s → step s a = some s' → holds s')
    (ran : (System.initial.toOption.bind fun system => as.foldlM step (start system)) = some s) : holds s := by
  obtain ⟨system, made, ran⟩ := Option.bind_eq_some_iff.mp ran
  refine foldlM_induction kept (begun system ?_) ran
  cases initial : System.initial with
  | error text =>
    rw [initial] at made
    cases made
  | ok system' =>
    rw [initial] at made
    cases made
    rfl

namespace System

def taskDepGraph (s : System) (t : Nat) : Option TaskDepGraph :=
  (s.runtime.task t).region.map fun r => (s.detector.regions r).taskDepGraph

def setGraph (s : System) (t : Nat) (graph : Option TaskDepGraph) : System :=
  match (s.runtime.task t).region, graph with
  | some r, some taskDepGraph =>
    let regions := Function.update s.detector.regions r { s.detector.regions r with taskDepGraph }
    { s with detector := { s.detector with regions } }
  | _, _ => s

theorem setGraph_self (s : System) (t : Nat) : s.setGraph t (s.taskDepGraph t) = s := by
  simp only [setGraph, System.taskDepGraph]
  cases (s.runtime.task t).region with
  | none => rfl
  | some r => simp only [Option.map_some, Function.update_eq_self]

def context (s : System) (t : Nat) : Context := ⟨s.detector.heap, s.detector.data, s.taskDepGraph t⟩

def call (s : System) (t : Nat) (label : Label) (u : Touch) : Access where
  context := s.context t
  label
  lockSet := (s.detector.data t).lockSet
  info := u.info t
  uninitialised := u.uninitialised

end System

structure Locals where
  isHistBeforeCurrent : Bool
  diffIndex : Int
  skipAddCur : Bool

/-- Where a task is in `checkAccess`: before the lock of the slot of its next byte, behind it, or in the loop over the
    records, of which it has `kept` some and has `records` before it. Its access has a `number` among all of them. -/
inductive Call where
  | idle
  | locking (u : Touch) (left : List Touch)
  | holding (number : Nat) (u : Touch) (left : List Touch)
  | scanning (number : Nat) (u : Touch) (left : List Touch) (cur : Record) (locals : Locals)
      (kept records : List Record)

namespace Call

def isIdle : Call → Bool
  | idle => true
  | _ => false

def next : List Touch → Call
  | [] => idle
  | u :: left => locking u left

def slot : Call → Option Slot
  | holding _ u _ | scanning _ u .. => some u.slot
  | _ => none

end Call

def lockBag (lockSet : Option SmallLockSet) : Option (Multiset (BitVec 64)) :=
  lockSet.map fun held => (held.locks : Multiset (BitVec 64))

/-- What keeps a task from racing: the locks that it holds, if it has ever held one, and the reduction that it is in.
    Nothing is assumed of how many tasks a lock admits. -/
structure Guard where
  locks : Option (Multiset (BitVec 64))
  reduces : Bool

namespace Guard

def bare : Guard := ⟨none, false⟩

def acquire (g : Guard) (lock : BitVec 64) : Guard := { g with locks := some (lock ::ₘ g.locks.getD 0) }
def release (g : Guard) (lock : BitVec 64) : Guard := { g with locks := g.locks.map fun held => held.erase lock }

end Guard

/-- The program under test, with the accesses to bytes that it has made, what each was `held` under, and those that the
    task graph orders before each. -/
structure Subject where
  system : System
  guards : Nat → Guard
  made : List Touch
  held : Nat → Guard
  past : Nat → Nat → Bool

namespace Subject

def access (p : Subject) (t : Nat) (u : Touch) : Option Subject :=
  (p.system.step (.access t)).map fun system =>
    { p with
      system
      made := p.made ++ [u]
      held := Function.update p.held p.made.length (p.guards t)
      past := Function.update p.past p.made.length (p.system.runtime.task t).known }

/-- Two checked accesses to one byte, one of them a write, of which the first is not ordered before the second, without
    a lock in common, and the second not in a reduction. -/
structure Race (p : Subject) (i j : Nat) (u v : Touch) : Prop where
  order : i < j
  first : p.made[i]? = some u
  second : p.made[j]? = some v
  unordered : p.past j i = false
  sameByte : u.byteAddress.toNat % 2 ^ 48 = v.byteAddress.toNat % 2 ^ 48
  checked : ¬u.Unchecked ∧ ¬v.Unchecked
  write : u.isWrite = true ∨ v.isWrite = true
  exposed : ∀ lock ∈ (p.held i).locks.getD 0, lock ∉ (p.held j).locks.getD 0
  calm : (p.held j).reduces = false

end Subject

structure Crew where
  subject : Subject
  calls : Nat → Call
  holder : Slot → Option Nat
  shadowMemory : Histories
  reports : RaceReports

namespace Crew

inductive Move where
  | event (e : Event)
  | acquire (t : Nat) (lock : BitVec 64)
  | release (t : Nat) (lock : BitVec 64)
  | reduce (t : Nat) (endPoint : ScopeEndpoint)
  | pass (t : Nat) (u : Touch)
  | enter (t : Nat) (r : Reference)
  | check (t : Nat)

def setCall (c : Crew) (t : Nat) (call : Call) : Crew := { c with calls := Function.update c.calls t call }

def setHistory (c : Crew) (slot : Slot) (h : AccessHistory) : Crew :=
  { c with shadowMemory := Function.update c.shadowMemory slot h }

def setHolder (c : Crew) (slot : Slot) (t : Option Nat) : Crew :=
  { c with holder := Function.update c.holder slot t }

/-- An event of the program. The thread of a task in a call does nothing else, and accesses are made in calls. -/
def event (c : Crew) (e : Event) : Option Crew :=
  match e with
  | .access _ => none
  | _ =>
    if e.actor.all fun t => (c.calls t).isIdle then
      (c.subject.system.step e).map fun system => { c with subject := { c.subject with system } }
    else none

def protect (c : Crew) (t : Nat) (told : Except Abort Detector) (guard : Guard) : Option Crew :=
  let p := c.subject
  if (c.calls t).isIdle ∧ p.system.runtime.running t then
    told.toOption.map fun detector =>
      { c with subject := { p with system := { p.system with detector }, guards := Function.update p.guards t guard } }
  else none

/-- An access of the initial task is not checked. -/
def pass (c : Crew) (t : Nat) (u : Touch) : Option Crew :=
  if (c.subject.system.runtime.task t).kind = .initial then
    (c.subject.access t u).map fun subject => { c with subject }
  else none

def enter (c : Crew) (t : Nat) (r : Reference) : Option Crew :=
  let runtime := c.subject.system.runtime
  if (c.calls t).isIdle ∧ runtime.running t ∧ (runtime.task t).kind ≠ .initial then
    some (c.setCall t (.next r.touches))
  else none

def lock (c : Crew) (t : Nat) (u : Touch) (left : List Touch) : Option Crew :=
  if (c.holder u.slot).isSome then none
  else
    (c.subject.access t u).map fun subject =>
      ({ c with subject }.setHolder u.slot (some t)).setCall t (.holding c.subject.made.length u left)

def leave (c : Crew) (t : Nat) (u : Touch) (left : List Touch) (h : AccessHistory) : Crew :=
  ((c.setHistory u.slot h).setHolder u.slot none).setCall t (.next left)

def look (c : Crew) (t number : Nat) (u : Touch) (left : List Touch) : Option Crew :=
  let h := c.shadowMemory u.slot
  if u.Unchecked then some (c.leave t u left h)
  else if h.dataRaceFound then some (c.leave t u left { h with records := [] })
  else if h.memIsRecycled then some (c.leave t u left { h.clearFlags with records := [] })
  else
    (c.subject.system.detector.data t).label.map fun label =>
      let cur := (c.subject.system.call t label u).record
      if h.records = [] then c.leave t u left { h with records := [cur] }
      else c.setCall t (.scanning number u left cur ⟨false, u.uninitialised.diffIndex, false⟩ [] h.records)

def scanOf (c : Crew) (t : Nat) (u : Touch) (locals : Locals) : Scan where
  isHistBeforeCurrent := locals.isHistBeforeCurrent
  diffIndex := locals.diffIndex
  skipAddCur := locals.skipAddCur
  state := (c.shadowMemory u.slot).state
  taskDepGraph := c.subject.system.taskDepGraph t
  reports := c.reports

def scan (flags : ReportFlags) (c : Crew) (t number : Nat) (u : Touch) (left : List Touch) (cur : Record)
    (locals : Locals) (kept : List Record) (r : Record) (records : List Record) : Option Crew := do
  let system := c.subject.system
  let (scan, stays) ← (scanRecord (system.context t) flags (u.info t) cur r (c.scanOf t u locals)).toOption
  let kept := if stays then kept ++ [r] else kept
  let subject := { c.subject with system := system.setGraph t scan.taskDepGraph }
  some (({ c with subject, reports := scan.reports }.setHistory u.slot ⟨scan.state, kept ++ records⟩).setCall t
    (.scanning number u left cur ⟨scan.isHistBeforeCurrent, scan.diffIndex, scan.skipAddCur⟩ kept records))

def check (flags : ReportFlags) (c : Crew) (t : Nat) : Option Crew :=
  match c.calls t with
  | .idle => none
  | .locking u left => c.lock t u left
  | .holding number u left => c.look t number u left
  | .scanning number u left cur locals kept (r :: records) => c.scan flags t number u left cur locals kept r records
  | .scanning _ u left cur locals kept [] =>
    some (c.leave t u left
      { c.shadowMemory u.slot with records := if locals.skipAddCur then kept else kept ++ [cur] })

def step (flags : ReportFlags) (c : Crew) : Move → Option Crew
  | .event e => c.event e
  | .acquire t lock =>
    c.protect t (on_ompt_callback_mutex_acquired c.subject.system.detector .other lock t)
      ((c.subject.guards t).acquire lock)
  | .release t lock =>
    c.protect t (on_ompt_callback_mutex_released c.subject.system.detector .other lock t)
      ((c.subject.guards t).release lock)
  | .reduce t endPoint =>
    c.protect t (.ok (on_ompt_callback_reduction c.subject.system.detector endPoint t))
      { c.subject.guards t with reduces := endPoint = .scope_begin }
  | .pass t u => c.pass t u
  | .enter t r => c.enter t r
  | .check t => c.check flags t

def start (system : System) : Crew :=
  ⟨⟨system, fun _ => .bare, [], fun _ => .bare, fun _ _ => false⟩, fun _ => .idle, fun _ => none, Histories.new,
    RaceReports.none⟩

inductive Reached (flags : ReportFlags) (permits : System → Event → Prop) : Crew → Prop
  | start {s} : System.initial = .ok s → Reached flags permits (start s)
  | step {c c' a} : Reached flags permits c → (∀ e, a = .event e → permits c.subject.system e) →
      c.step flags a = some c' → Reached flags permits c'

def run (flags : ReportFlags) (as : List Move) : Option Crew :=
  System.initial.toOption.bind fun s => as.foldlM (step flags) (start s)

theorem Reached.of_run {flags : ReportFlags} {permits : System → Event → Prop} {as : List Move} {c : Crew}
    (permitted : ∀ e, .event e ∈ as → ∀ s, permits s e) (ran : run flags as = some c) : Reached flags permits c :=
  run_induction (fun _ made => .start made)
    (fun _ _ _ member reached stepped => .step reached (fun e same => permitted e (same ▸ member) _) stepped) ran

end Crew

end Romp
