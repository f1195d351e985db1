import Romp.Callbacks.Detector

namespace Romp

inductive TaskKind where
  | initial
  | implicit (region : Nat) (index : Nat)
  | explicit
  deriving DecidableEq

/-- A construct that a task has entered and not left. Worksharing constructs are numbered in the order
    in which the members of the region meet them, the units of one that a member executes as it gets them. -/
inductive Construct where
  | parallel (region : Nat)
  | taskgroup (group : Nat)
  | single (number : Nat) (executor : Bool)
  | loop (number : Nat) (turn : Nat) (iteration : Option (BitVec 64))
  | sections (number : Nat) (turn : Nat)
  | ordered
  deriving DecidableEq

def Construct.isIdle : Construct → Bool
  | parallel _ => true
  | single _ executor => !executor
  | _ => false

def Construct.number : Construct → Option Nat
  | single number _ | loop number .. | sections number _ => some number
  | _ => none

/-- Where code is executed: in a task, and in the unit of a worksharing construct that it is in. -/
structure Strand where
  task : Nat
  body : Option Construct
  deriving DecidableEq

def Construct.isTaskgroup : Construct → Bool
  | taskgroup _ => true
  | _ => false

/-- A task as the OpenMP runtime sees it, with the accesses that the task graph orders before
    whatever the task does next. It was created in the last strand of its `line`, which starts at
    the initial task, after `born` accesses; `waited` is the number of tasks that there were when
    a taskwait of its parent had waited for it. -/
structure Task where
  kind : TaskKind
  parent : Nat
  line : List Strand
  born : Nat
  region : Option Nat
  groups : List Nat
  constructs : List Construct
  begun : Bool
  arrived : Nat
  passed : Nat
  closing : Bool
  ended : Bool
  works : Nat
  waited : Option Nat
  known : Nat → Bool

namespace Task

def new (kind : TaskKind) (parent : Nat) (line : List Strand) (born : Nat) (region : Option Nat)
    (groups : List Nat) (begun : Bool) (known : Nat → Bool) : Task where
  kind
  parent
  line
  born
  region
  groups
  constructs := []
  begun
  arrived := 0
  passed := 0
  closing := false
  ended := false
  works := 0
  waited := none
  known

/-- The task executes code: it is not waiting at a barrier or for a region that it has forked. -/
def running (t : Task) : Bool :=
  t.begun && !t.ended && t.arrived == t.passed && !t.closing &&
    !(t.constructs.head?.any Construct.isIdle)

def body (t : Task) : Option Construct := t.constructs.find? fun c => c.number.isSome

def strands (t : Task) (number : Nat) : List Strand :=
  t.line ++ ⟨number, none⟩ :: (t.body.toList.map fun c => ⟨number, some c⟩)

def openGroups (t : Task) : List Nat :=
  t.constructs.filterMap fun
    | .taskgroup g => some g
    | _ => none

def learn (t : Task) (news : Nat → Bool) : Task := { t with known := fun a => t.known a || news a }
def enter (t : Task) (c : Construct) : Task := { t with constructs := c :: t.constructs }
def leave (t : Task) : Task := { t with constructs := t.constructs.tail }

end Task

inductive Work where
  | loop | sections | single
  deriving DecidableEq

/-- A parallel region: its members are the tasks `first`, `first + 1`, …, one for each index. -/
structure Region where
  encountering : Nat
  size : Nat
  first : Nat
  released : Nat
  works : Nat → Option Work
  executed : Nat → Bool
  dispatched : Nat → BitVec 64 → Bool
  finished : Nat → BitVec 64 → Bool

def Region.members (r : Region) : List Nat := (List.range r.size).map fun i => r.first + i

structure Runtime where
  task : Nat → Task
  tasks : Nat
  region : Nat → Region
  regions : Nat
  groups : Nat
  accesses : Nat

inductive Event where
  | parallelBegin (t : Nat) (size : Nat)
  | implicitBegin (t : Nat)
  | barrierBegin (t : Nat) (closing : Bool)
  | release (r : Nat)
  | barrierEnd (t : Nat)
  | implicitEnd (t : Nat)
  | parallelEnd (r : Nat)
  | taskCreate (t : Nat)
  | dependences (t : Nat) (deps : List Dependence)
  | taskComplete (t : Nat)
  | taskwaitEnd (t : Nat)
  | taskgroupBegin (t : Nat)
  | taskgroupEnd (t : Nat)
  | workBegin (t : Nat) (work : Work) (executor : Bool)
  | workEnd (t : Nat)
  | dispatch (t : Nat) (id : BitVec 64)
  | orderedBegin (t : Nat)
  | orderedEnd (t : Nat)
  | access (t : Nat)

namespace Runtime

def init : Runtime where
  task := fun _ => Task.new .initial 0 [] 0 none [] true fun _ => false
  tasks := 1
  region := fun _ => ⟨0, 0, 0, 0, fun _ => none, fun _ => false, fun _ _ => false, fun _ _ => false⟩
  regions := 0
  groups := 0
  accesses := 0

variable (s : Runtime)

def set (t : Nat) (task : Task) : Runtime := { s with task := Function.update s.task t task }

def setRegion (r : Nat) (region : Region) : Runtime :=
  { s with region := Function.update s.region r region }

def running (t : Nat) : Bool := t < s.tasks && (s.task t).running

def tasksWith (p : Task → Bool) : List Nat := (List.range s.tasks).filter fun t => p (s.task t)

def children (t : Nat) : List Nat :=
  s.tasksWith fun c => c.kind = .explicit && c.parent = t

def inGroup (g : Nat) : List Nat := s.tasksWith fun c => c.groups.contains g

def explicitTasks (r : Nat) : List Nat :=
  s.tasksWith fun c => c.kind = .explicit && c.region = some r

def gather (ts : List Nat) (a : Nat) : Bool := ts.any fun t => (s.task t).known a

/-- The tasks whose work is complete when the next barrier of the region lets its members go. -/
def team (r : Nat) : List Nat := (s.region r).members ++ s.explicitTasks r

def currentIteration (t : Nat) : Option (Nat × Nat × BitVec 64) :=
  match (s.task t).region, (s.task t).constructs with
  | some r, .loop number _ (some id) :: _ => some (r, number, id)
  | _, _ => none

def allEnded (ts : List Nat) : Bool := ts.all fun t => (s.task t).ended

/-- What the rules of OpenMP and its runtime let happen next. -/
def enabled : Event → Bool
  | .parallelBegin t size => s.running t && 0 < size
  | .implicitBegin t => t < s.tasks && !(s.task t).begun
  | .barrierBegin t closing =>
    s.running t && (match (s.task t).kind with | .implicit .. => true | _ => false) &&
      (s.task t).constructs.all Construct.isTaskgroup && (!closing || (s.task t).constructs.isEmpty)
  | .release r =>
    r < s.regions &&
      ((s.region r).members.all fun t =>
        (s.task t).arrived == (s.region r).released + 1 &&
          (s.task t).closing == (s.task (s.region r).first).closing) &&
      s.allEnded (s.explicitTasks r)
  | .barrierEnd t =>
    t < s.tasks && (match (s.task t).kind with
      | .implicit r _ => (s.task t).passed < (s.region r).released
      | _ => false)
  | .implicitEnd t =>
    t < s.tasks && (s.task t).closing && (s.task t).arrived == (s.task t).passed && !(s.task t).ended &&
      (match (s.task t).kind with
      | .implicit r 0 => s.allEnded (s.region r).members.tail
      | .implicit .. => true
      | _ => false)
  | .parallelEnd r =>
    r < s.regions && s.allEnded (s.region r).members &&
      (s.task (s.region r).encountering).constructs.head? == some (.parallel r)
  | .taskCreate t => s.running t
  | .dependences t _ => t < s.tasks && !(s.task t).ended && (s.task t).kind = .explicit
  | .taskComplete t => s.running t && (s.task t).kind = .explicit && (s.task t).constructs.isEmpty
  | .taskwaitEnd t => s.running t && s.allEnded (s.children t)
  | .taskgroupBegin t => s.running t
  | .taskgroupEnd t =>
    s.running t && (match (s.task t).constructs with
      | .taskgroup g :: _ => s.allEnded (s.inGroup g)
      | _ => false)
  | .workBegin t work executor =>
    s.running t && (s.task t).constructs.all Construct.isTaskgroup &&
      (match (s.task t).kind with
      | .implicit r _ =>
        (((s.region r).works (s.task t).works).all fun other => other = work) &&
          !(executor && (s.region r).executed (s.task t).works)
      | _ => false)
  | .workEnd t =>
    t < s.tasks && (match (s.task t).constructs with
      | .single .. :: _ | .loop .. :: _ | .sections .. :: _ => true
      | _ => false)
  | .dispatch t id =>
    s.running t && (match (s.task t).region, (s.task t).constructs with
      | some r, .loop number .. :: _ => !(s.region r).dispatched number id
      | some _, .sections .. :: _ => true
      | _, _ => false)
  | .orderedBegin t =>
    s.running t && (match s.currentIteration t with
      | some (r, number, id) =>
        !(s.region r).finished number id &&
          (List.range id.toNat).all fun i => (s.region r).finished number (BitVec.ofNat 64 i)
      | none => false)
  | .orderedEnd t => s.running t && (s.task t).constructs.head? == some .ordered
  | .access t => s.running t

def finishIteration (t : Nat) : Runtime :=
  match s.currentIteration t with
  | some (r, number, id) =>
    let region := s.region r
    s.setRegion r
      { region with
        finished := Function.update region.finished number
          (Function.update (region.finished number) id true) }
  | none => s

def fork (t : Nat) (size : Nat) (x : Nat) : Task :=
  if s.tasks ≤ x ∧ x < s.tasks + size then
    Task.new (.implicit s.regions (x - s.tasks)) t ((s.task t).strands t) s.accesses (some s.regions) []
      false (s.task t).known
  else if x = t then (s.task t).enter (.parallel s.regions)
  else s.task x

def newRegion (t : Nat) (size : Nat) : Region :=
  ⟨t, size, s.tasks, 0, fun _ => none, fun _ => false, fun _ _ => false, fun _ _ => false⟩

def waitTask (t : Nat) (x : Nat) : Task :=
  if x = t then (s.task t).learn (s.gather (s.children t))
  else if x ∈ s.children t then
    { s.task x with waited := some ((s.task x).waited.getD s.tasks) }
  else s.task x

def releaseTask (r : Nat) (x : Nat) : Task :=
  if x ∈ (s.region r).members then { s.task x with known := s.gather (s.team r) } else s.task x

def beginWork (t : Nat) (work : Work) (executor : Bool) : Runtime :=
  let task := s.task t
  let number := task.works
  let construct : Construct :=
    match work with
    | .loop => .loop number 0 none
    | .sections => .sections number 0
    | .single => .single number executor
  let s := s.set t { task.enter construct with works := number + 1 }
  match task.kind with
  | .implicit r _ =>
    let region := s.region r
    s.setRegion r
      { region with
        works := Function.update region.works number (some work)
        executed := Function.update region.executed number (region.executed number || executor) }
  | _ => s

def dispatchTo (t : Nat) (id : BitVec 64) : Runtime :=
  let s := s.finishIteration t
  match (s.task t).region, (s.task t).constructs with
  | some r, .loop number turn _ :: rest =>
    let region := s.region r
    (s.set t { s.task t with constructs := .loop number (turn + 1) (some id) :: rest }).setRegion r
      { region with
        dispatched := Function.update region.dispatched number
          (Function.update (region.dispatched number) id true) }
  | some _, .sections number turn :: rest =>
    s.set t { s.task t with constructs := .sections number (turn + 1) :: rest }
  | _, _ => s

def after : Event → Runtime
  | .parallelBegin t size =>
    { s with
      task := s.fork t size
      tasks := s.tasks + size
      region := Function.update s.region s.regions (s.newRegion t size)
      regions := s.regions + 1 }
  | .implicitBegin t => s.set t { s.task t with begun := true }
  | .barrierBegin t closing => s.set t { s.task t with arrived := (s.task t).arrived + 1, closing }
  | .release r =>
    { s with task := s.releaseTask r }.setRegion r
      { s.region r with released := (s.region r).released + 1 }
  | .barrierEnd t => s.set t { s.task t with passed := (s.task t).passed + 1 }
  | .implicitEnd t => s.set t { s.task t with ended := true }
  | .parallelEnd r =>
    let t := (s.region r).encountering
    s.set t ((s.task t).leave.learn (s.gather (s.region r).members))
  | .taskCreate t =>
    let task := s.task t
    { s.set s.tasks (Task.new .explicit t (task.strands t) s.accesses task.region
        (task.groups ++ task.openGroups) true task.known)
      with tasks := s.tasks + 1 }
  | .dependences _ _ => s
  | .taskComplete t => s.set t { s.task t with ended := true }
  | .taskwaitEnd t => { s with task := s.waitTask t }
  | .taskgroupBegin t => { s.set t ((s.task t).enter (.taskgroup s.groups)) with groups := s.groups + 1 }
  | .taskgroupEnd t =>
    match (s.task t).openGroups.head? with
    | some g => s.set t ((s.task t).leave.learn (s.gather (s.inGroup g)))
    | none => s
  | .workBegin t work executor => s.beginWork t work executor
  | .workEnd t => let s := s.finishIteration t; s.set t (s.task t).leave
  | .dispatch t id => s.dispatchTo t id
  | .orderedBegin t => s.set t ((s.task t).enter .ordered)
  | .orderedEnd t => (s.set t (s.task t).leave).finishIteration t
  | .access t =>
    { s.set t ((s.task t).learn fun a => a == s.accesses) with accesses := s.accesses + 1 }

end Runtime

end Romp
