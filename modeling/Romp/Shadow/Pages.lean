import Romp.Ownership.Depot
import Romp.Shadow.ShadowMemory

open Ownership

namespace Romp

/-- Where a thread is in `_getOrCreatePageForMemAddr`; each step reads or writes one location that is shared. The
    pages are those that the call holds in `freshL1Page` and `freshShadowPage`, the tables what it has read from
    `_pageTable`. -/
inductive PageCall where
  | idle
  | testL1 (address : BitVec 64)
  | getL1Page (address : BitVec 64)
  | casL1 (address : BitVec 64) (page : Nat)
  | saveL1Page (address : BitVec 64) (page : Nat)
  | readL1 (address : BitVec 64)
  | testL2 (address : BitVec 64) (table : Nat)
  | getShadowPage (address : BitVec 64)
  | locate (address : BitVec 64) (page : Nat)
  | casL2 (address : BitVec 64) (table : Nat) (page : Nat)
  | saveShadowPage (address : BitVec 64) (page : Nat)
  | reread (address : BitVec 64)
  | result (address : BitVec 64) (table : Nat)

namespace PageCall

def freshL1Page : PageCall → Option Nat
  | casL1 _ page | saveL1Page _ page => some page
  | _ => none

def freshShadowPage : PageCall → Option Nat
  | locate _ page | casL2 _ _ page | saveShadowPage _ page => some page
  | _ => none

end PageCall

/-- The shadow memory as the threads see it. A page is a number, the table of an entry is the first level page in it.
    `returned` are the results of the calls of a thread. -/
structure Pages (Thread α : Type) where
  pageTable : BitVec 64 → Option Nat
  l1Page : Nat → BitVec 64 → Option Nat
  shadowPage : Nat → BitVec 64 → α
  l1Pages : Nat
  shadowPages : Nat
  cachedL1Page : Thread → Option Nat
  cachedShadowPage : Thread → Option Nat
  call : Thread → PageCall
  returned : Thread → List (BitVec 64 × Option Nat)

inductive PageAction (α : Type) where
  | call (address : BitVec 64)
  | go
  | write (page : Nat) (index : BitVec 64) (value : α)

namespace Pages

variable {Thread α : Type} [DecidableEq Thread] (m : ShadowMemory) (zero : α)

def new : Pages Thread α where
  pageTable := fun _ => none
  l1Page := fun _ _ => none
  shadowPage := fun _ _ => zero
  l1Pages := 0
  shadowPages := 0
  cachedL1Page := fun _ => none
  cachedShadowPage := fun _ => none
  call := fun _ => .idle
  returned := fun _ => []

def goto (s : Pages Thread α) (t : Thread) (call : PageCall) : Pages Thread α :=
  { s with call := Function.update s.call t call }

/-- The next step of a call. A call that reads an entry of no table does not go on. -/
def go (s : Pages Thread α) (t : Thread) : Option (Pages Thread α) :=
  match s.call t with
  | .idle => none
  | .testL1 a =>
    match s.pageTable (m.getL1PageIndex a) with
    | none => some (s.goto t (.getL1Page a))
    | some _ => some (s.goto t (.readL1 a))
  | .getL1Page a =>
    match s.cachedL1Page t with
    | some page => some ({ s with cachedL1Page := Function.update s.cachedL1Page t none }.goto t (.casL1 a page))
    | none => some
        ({ s with
            l1Page := Function.update s.l1Page s.l1Pages fun _ => none
            l1Pages := s.l1Pages + 1 }.goto t (.casL1 a s.l1Pages))
  | .casL1 a page =>
    match s.pageTable (m.getL1PageIndex a) with
    | none => some
        ({ s with pageTable := Function.update s.pageTable (m.getL1PageIndex a) (some page) }.goto t (.readL1 a))
    | some _ => some (s.goto t (.saveL1Page a page))
  | .saveL1Page a page =>
    match s.cachedL1Page t with
    | some _ => some (s.goto t (.readL1 a))
    | none => some ({ s with cachedL1Page := Function.update s.cachedL1Page t (some page) }.goto t (.readL1 a))
  | .readL1 a => (s.pageTable (m.getL1PageIndex a)).map fun table => s.goto t (.testL2 a table)
  | .testL2 a table =>
    match s.l1Page table (m.getL2PageIndex a) with
    | none => some (s.goto t (.getShadowPage a))
    | some _ => some (s.goto t (.reread a))
  | .getShadowPage a =>
    match s.cachedShadowPage t with
    | some page => some ({ s with cachedShadowPage := Function.update s.cachedShadowPage t none }.goto t (.locate a page))
    | none => some
        ({ s with
            shadowPage := Function.update s.shadowPage s.shadowPages fun _ => zero
            shadowPages := s.shadowPages + 1 }.goto t (.locate a s.shadowPages))
  | .locate a page => (s.pageTable (m.getL1PageIndex a)).map fun table => s.goto t (.casL2 a table page)
  | .casL2 a table page =>
    match s.l1Page table (m.getL2PageIndex a) with
    | none => some
        ({ s with
            l1Page := Function.update s.l1Page table
              (Function.update (s.l1Page table) (m.getL2PageIndex a) (some page)) }.goto t (.reread a))
    | some _ => some (s.goto t (.saveShadowPage a page))
  | .saveShadowPage a page =>
    match s.cachedShadowPage t with
    | some _ => some (s.goto t (.reread a))
    | none => some ({ s with cachedShadowPage := Function.update s.cachedShadowPage t (some page) }.goto t (.reread a))
  | .reread a => (s.pageTable (m.getL1PageIndex a)).map fun table => s.goto t (.result a table)
  | .result a table => some
      ({ s with
          returned := Function.update s.returned t (s.returned t ++ [(a, s.l1Page table (m.getL2PageIndex a))]) }.goto t
        .idle)

def step (s : Pages Thread α) (t : Thread) : PageAction α → Option (Pages Thread α)
  | .call a =>
    match s.call t with
    | .idle => some (s.goto t (.testL1 a))
    | _ => none
  | .go => s.go m zero t
  | .write page index value =>
    if (s.returned t).any fun result => result.2 == some page then
      some { s with shadowPage := Function.update s.shadowPage page (Function.update (s.shadowPage page) index value) }
    else none

inductive Reachable : Pages Thread α → Prop
  | start : Reachable (new zero)
  | step {s s' t action} : Reachable s → s.step m zero t action = some s' → Reachable s'

inductive Leads (s : Pages Thread α) : Pages Thread α → Prop
  | refl : Leads s s
  | step {s₁ s₂ t action} : Leads s s₁ → s₁.step m zero t action = some s₂ → Leads s s₂

def entry (s : Pages Thread α) (l1 l2 : BitVec 64) : Option Nat := (s.pageTable l1).bind fun table => s.l1Page table l2

def l1Depot (s : Pages Thread α) : Depot (BitVec 64) Thread where
  entry := s.pageTable
  cache := s.cachedL1Page
  hand := fun t => (s.call t).freshL1Page
  made := s.l1Pages

def shadowDepot (s : Pages Thread α) : Depot (Nat × BitVec 64) Thread where
  entry := fun e => s.l1Page e.1 e.2
  cache := s.cachedShadowPage
  hand := fun t => (s.call t).freshShadowPage
  made := s.shadowPages

end Pages

end Romp
