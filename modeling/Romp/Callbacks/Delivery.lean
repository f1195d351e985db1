import Romp.Callbacks.Detector

namespace Romp

open Detector

def on_ompt_callback_reduction (d : Detector) (endPoint : ScopeEndpoint) (taskData : Nat) : Detector :=
  match endPoint with
  | .scope_begin => d.setData taskData { d.data taskData with inReduction := true }
  | .scope_end => d.setData taskData { d.data taskData with inReduction := false }

/-- The events that OMPT delivers, each with what its callback is told or finds by a query. Those that
    concern a thread alone are left out. -/
inductive Callback where
  | initialBegin (t : Nat)
  | initialEnd (t : Nat)
  | implicitBegin (t parent size index : Nat)
  | implicitEnd (t parent index : Nat)
  | parallelBegin (t region requested : Nat) (flags : Int)
  | parallelEnd (t : Nat)
  | taskCreate (t new : Nat) (flags : BitVec 32) (region : Option Nat)
  | taskSchedule (prior : Nat) (status : TaskStatus)
  | syncRegion (kind : SyncRegion) (endPoint : ScopeEndpoint) (t : Nat)
  | work (wsType : WorkType) (endPoint : ScopeEndpoint) (t : Nat)
  | dispatch (t : Nat) (kind : DispatchKind) (value : BitVec 64)
  | mutexAcquired (kind : MutexKind) (waitId : BitVec 64) (t : Nat)
  | mutexReleased (kind : MutexKind) (waitId : BitVec 64) (t : Nat)
  | dependences (t : Nat) (region : Option Nat) (deps : List Dependence)
  | reduction (endPoint : ScopeEndpoint) (t : Nat)

/-- The callback with the flag `ompt_task_initial` does the same at the end of the initial task. -/
def Detector.deliver (d : Detector) : Callback → Except Abort Detector
  | .initialBegin t | .initialEnd t => on_initial_task d t
  | .implicitBegin t parent size index => on_ompt_callback_implicit_task d .scope_begin t parent size index
  | .implicitEnd t parent index => on_ompt_callback_implicit_task d .scope_end t parent 0 index
  | .parallelBegin _ region requested flags => .ok (on_ompt_callback_parallel_begin d region requested flags)
  | .parallelEnd _ => .ok d
  | .taskCreate t new flags region => on_ompt_callback_task_create d t new flags region
  | .taskSchedule prior status => on_ompt_callback_task_schedule d prior status
  | .syncRegion kind endPoint t => on_ompt_callback_sync_region d kind endPoint t
  | .work wsType endPoint t => on_ompt_callback_work d wsType endPoint t
  | .dispatch t kind value => on_ompt_callback_dispatch d t kind value
  | .mutexAcquired kind waitId t => on_ompt_callback_mutex_acquired d kind waitId t
  | .mutexReleased kind waitId t => on_ompt_callback_mutex_released d kind waitId t
  | .dependences t region deps => .ok (on_ompt_callback_dependences d region t deps)
  | .reduction endPoint t => .ok (on_ompt_callback_reduction d endPoint t)

inductive Origin where
  | initial
  | implicit (index : Nat)
  | explicit
  deriving DecidableEq

/-- What a created task is: the bits of the flags other than the lowest one say of an explicit task how it
    is to be run. -/
def Origin.created (flags : BitVec 32) : Origin :=
  if flags &&& ompt_task_initial = 0 then .explicit else .initial

inductive Fork where
  | none
  | forked
  | started (first : Nat)
  | joined
  deriving DecidableEq

def WorkType.isShared : WorkType → Bool
  | .loop | .sections | .single_executor | .single_other => true
  | _ => false

/-- A task as the events that have been delivered leave it. -/
structure Standing where
  origin : Origin
  live : Bool
  work : List WorkType
  fork : Fork

def Standing.begun (origin : Origin) : Standing := ⟨origin, true, [], .none⟩

def Standing.running (s : Standing) : Bool := s.live && s.fork = .none

def Standing.sharing (s : Standing) : Bool := s.work.any WorkType.isShared

abbrev Program := Nat → Option Standing

namespace Program

def set (p : Program) (t : Nat) (s : Standing) : Program := Function.update p t (some s)

theorem set_apply (p : Program) (t : Nat) (s : Standing) (x : Nat) :
    p.set t s x = if x = t then some s else p x := Function.update_apply ..

def holds (p : Program) (t : Nat) (condition : Standing → Bool) : Bool := (p t).any condition

def change (p : Program) (t : Nat) (f : Standing → Standing) : Program :=
  match p t with
  | some s => p.set t (f s)
  | none => p

def dispatches (kind : DispatchKind) (s : Standing) : Bool :=
  match kind, s.work with
  | .iteration, .loop :: _ | .section_, .sections :: _ | .other, _ => true
  | _, _ => false

/-- The events that can be next in a well-formed sequence. -/
def allows (p : Program) : Callback → Bool
  | .initialBegin t => (p t).isNone
  | .initialEnd t => p.holds t fun s => s.running && s.origin = .initial && s.work.isEmpty
  | .implicitBegin t parent size index =>
    (p t).isNone && index < size && p.holds parent fun s =>
      s.live && if index = 0 then s.fork = .forked else s.fork ≠ .none
  | .implicitEnd t parent index =>
    (p.holds t fun s => s.running && s.origin = .implicit index && s.work.isEmpty) &&
      (index ≠ 0 || p.holds parent fun s => s.fork = .started t)
  | .parallelBegin t .. => p.holds t Standing.running
  | .parallelEnd t => p.holds t fun s => s.fork = .joined
  | .taskCreate t new flags _ => (flags = ompt_task_initial || p.holds t Standing.running) && (p new).isNone
  | .taskSchedule prior .complete =>
    p.holds prior fun s => s.running && s.origin = .explicit && s.work.isEmpty
  | .taskSchedule prior _ => p.holds prior Standing.live
  | .syncRegion _ _ t => p.holds t Standing.running
  | .work wsType .scope_begin t => p.holds t fun s => s.running && !(wsType.isShared && s.sharing)
  | .work wsType .scope_end t => p.holds t fun s => s.running && s.work.head? = some wsType
  | .dispatch t kind _ => p.holds t fun s => s.running && dispatches kind s
  | .mutexAcquired _ _ t | .mutexReleased _ _ t => p.holds t Standing.running
  | .dependences t _ _ => p.holds t Standing.live
  | .reduction _ t => p.holds t Standing.running

def after (p : Program) : Callback → Program
  | .initialBegin t => p.set t (.begun .initial)
  | .initialEnd t => p.change t fun s => { s with live := false }
  | .implicitBegin t parent _ index =>
    (if index = 0 then p.change parent fun s => { s with fork := .started t } else p).set t
      (.begun (.implicit index))
  | .implicitEnd t parent index =>
    (if index = 0 then p.change parent fun s => { s with fork := .joined } else p).change t fun s =>
      { s with live := false }
  | .parallelBegin t .. => p.change t fun s => { s with fork := .forked }
  | .parallelEnd t => p.change t fun s => { s with fork := .none }
  | .taskCreate _ new flags _ => p.set new (.begun (.created flags))
  | .taskSchedule prior .complete => p.change prior fun s => { s with live := false }
  | .work wsType .scope_begin t => p.change t fun s => { s with work := wsType :: s.work }
  | .work _ .scope_end t => p.change t fun s => { s with work := s.work.tail }
  | _ => p

end Program

structure Delivery where
  program : Program
  detector : Detector

namespace Delivery

def initial : Delivery := ⟨fun _ => none, Detector.empty⟩

def step (s : Delivery) (e : Callback) : Option Delivery :=
  if s.program.allows e then
    match s.detector.deliver e with
    | .error _ => none
    | .ok detector => some ⟨s.program.after e, detector⟩
  else none

def run (es : List Callback) : Option Delivery := es.foldlM step initial

end Delivery

end Romp
