import Romp.Runtime.Rules

namespace Romp

/-- An access as the detector has it: its task, and the label that the task had then, with the
    strands and the constructs in which the task made it. -/
structure Entry where
  task : Nat
  label : Label
  strands : List Strand
  constructs : List Construct
  deriving DecidableEq

structure System where
  runtime : Runtime
  detector : Detector
  log : List Entry

namespace Detector

def handle (d : Detector) (s : Runtime) : Event → Except Abort Detector
  | .parallelBegin _ size => .ok (on_ompt_callback_parallel_begin d s.regions size 0)
  | .implicitBegin t =>
    match (s.task t).kind with
    | .implicit r index =>
      on_ompt_callback_implicit_task d .scope_begin t (s.task t).parent (s.region r).size index
    | _ => .ok d
  | .barrierBegin t _ => on_ompt_callback_sync_region d .barrier .scope_begin t
  | .release _ => .ok d
  | .barrierEnd t => on_ompt_callback_sync_region d .barrier .scope_end t
  | .implicitEnd t =>
    match (s.task t).kind with
    | .implicit _ index => on_ompt_callback_implicit_task d .scope_end t (s.task t).parent 0 index
    | _ => .ok d
  | .parallelEnd _ => .ok d
  | .taskCreate t => on_ompt_callback_task_create d t s.tasks ompt_task_explicit (s.task t).region
  | .dependences t deps => .ok (on_ompt_callback_dependences d (s.task t).region t deps)
  | .taskComplete t => on_ompt_callback_task_schedule d t .complete
  | .taskwaitEnd t => on_ompt_callback_sync_region d .taskwait .scope_end t
  | .taskgroupBegin t => on_ompt_callback_sync_region d .taskgroup .scope_begin t
  | .taskgroupEnd t => on_ompt_callback_sync_region d .taskgroup .scope_end t
  | .workBegin t work executor =>
    let wsType : WorkType :=
      match work with
      | .loop => .loop
      | .sections => .sections
      | .single => if executor then .single_executor else .single_other
    on_ompt_callback_work d wsType .scope_begin t
  | .workEnd t =>
    let wsType : WorkType :=
      match (s.task t).constructs with
      | .loop .. :: _ => .loop
      | .sections .. :: _ => .sections
      | .single _ executor :: _ => if executor then .single_executor else .single_other
      | _ => .other
    on_ompt_callback_work d wsType .scope_end t
  | .dispatch t id =>
    let kind : DispatchKind :=
      match (s.task t).constructs with
      | .sections .. :: _ => .section_
      | _ => .iteration
    on_ompt_callback_dispatch d t kind id
  | .orderedBegin t => on_ompt_callback_mutex_acquired d .ordered 0 t
  | .orderedEnd t => on_ompt_callback_mutex_released d .ordered 0 t
  | .access _ => .ok d

end Detector

namespace System

def initial : Except Abort System := do
  let detector ← on_initial_task Detector.empty 0
  .ok ⟨Runtime.init, detector, []⟩

def entry (s : System) (t : Nat) : Option Entry :=
  (s.detector.data t).label.map fun label => ⟨t, label, (s.runtime.task t).strands t, (s.runtime.task t).constructs⟩

/-- A step of the program under test and of the detector: an event that the runtime allows, whose
    callbacks do not abort. -/
def step (s : System) (e : Event) : Option System :=
  if s.runtime.enabled e then
    match s.detector.handle s.runtime e with
    | .error _ => none
    | .ok detector =>
      match e with
      | .access t => (s.entry t).map fun entry => ⟨s.runtime.after e, detector, s.log ++ [entry]⟩
      | _ => some ⟨s.runtime.after e, detector, s.log⟩
  else none

def runFrom (s : System) (es : List Event) : Option System := es.foldlM step s

def run (es : List Event) : Option System :=
  match initial with
  | .error _ => none
  | .ok s => s.runFrom es

def labelOf (s : System) (a : Nat) : List Segment :=
  match s.log[a]? with
  | some entry => s.detector.heap.read entry.label
  | none => []

def verdict (s : System) (a b : Nat) : Except Abort Bool :=
  happensBefore (s.labelOf a) (s.labelOf b)

end System

end Romp
