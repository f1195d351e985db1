import Mathlib.Data.Fintype.Defs
import Mathlib.Logic.Function.Basic

namespace Romp

structure McsNode (Node : Type) where
  next : Option Node
  blocked : Bool

/-- Where a thread is in the functions of the lock. It makes one atomic access in each of the places but `outside`
    and `holding`. -/
inductive McsCall (Node : Type) where
  | outside
  -- mcsLock
  | initNext (me : Node)
  | exchange (me : Node)
  | initBlocked (me predecessor : Node)
  | link (me predecessor : Node)
  | wait (me : Node)
  -- mcsTryLock
  | storeNext (me : Node)
  | compareExchange (me : Node)
  | holding (me : Node)
  -- mcsUnlock
  | loadNext (me : Node)
  | removeSelf (me : Node)
  | awaitNext (me : Node)
  | signal (me successor : Node)
  deriving DecidableEq

inductive McsField where
  | next
  | blocked
  deriving DecidableEq

namespace McsCall

variable {Node : Type}

def me : McsCall Node → Option Node
  | outside => none
  | initNext me | exchange me | initBlocked me _ | link me _ | wait me | storeNext me | compareExchange me
  | holding me | loadNext me | removeSelf me | awaitNext me | signal me _ => some me

def queued : McsCall Node → Bool
  | outside | initNext _ | exchange _ | storeNext _ | compareExchange _ => false
  | _ => true

def owns : McsCall Node → Bool
  | holding _ | loadNext _ | removeSelf _ | awaitNext _ | signal _ _ => true
  | _ => false

def locking : McsCall Node → Bool
  | initNext _ | exchange _ | initBlocked _ _ | link _ _ | wait _ => true
  | _ => false

/-- The field that the next access reads or writes, other than the tail of the lock. -/
def touches : McsCall Node → Option (Node × McsField)
  | initNext me | storeNext me | loadNext me | awaitNext me => some (me, .next)
  | link _ predecessor => some (predecessor, .next)
  | initBlocked me _ | wait me => some (me, .blocked)
  | signal _ successor => some (successor, .blocked)
  | outside | exchange _ | compareExchange _ | holding _ | removeSelf _ => none

def inits : McsCall Node → Bool
  | initNext _ | initBlocked _ _ => true
  | _ => false

end McsCall

/-- A lock with the storage of all nodes, and the threads that use it. -/
structure McsLock (Node Thread : Type) where
  tail : Option Node
  node : Node → McsNode Node
  call : Thread → McsCall Node

/-- A thread calls a function of the lock, or goes on with the one that it has called. The node is a variable of
    the caller that may hold anything before. -/
inductive McsAction (Node : Type) where
  | mcsLock (me : Node) (storage : McsNode Node)
  | mcsTryLock (me : Node) (storage : McsNode Node)
  | mcsUnlock
  | go

namespace McsLock

structure History (Thread : Type) where
  arrived : List Thread
  entered : List Thread
  left : List Thread

variable {Node Thread : Type}

def mcsInit (storage : Node → McsNode Node) : McsLock Node Thread where
  tail := none
  node := storage
  call := fun _ => .outside

def setTail (s : McsLock Node Thread) (tail : Option Node) : McsLock Node Thread := { s with tail }

@[simp] theorem setTail_tail (s : McsLock Node Thread) (tail : Option Node) : (s.setTail tail).tail = tail := rfl

@[simp] theorem setTail_node (s : McsLock Node Thread) (tail : Option Node) : (s.setTail tail).node = s.node := rfl

@[simp] theorem setTail_call (s : McsLock Node Thread) (tail : Option Node) : (s.setTail tail).call = s.call := rfl

def goto [DecidableEq Thread] (s : McsLock Node Thread) (t : Thread) (call : McsCall Node) : McsLock Node Thread :=
  { s with call := Function.update s.call t call }

section goto

variable [DecidableEq Thread] (s : McsLock Node Thread) (t : Thread) (call : McsCall Node)

@[simp] theorem goto_tail : (s.goto t call).tail = s.tail := rfl

@[simp] theorem goto_node : (s.goto t call).node = s.node := rfl

@[simp] theorem goto_self : (s.goto t call).call t = call := by simp [goto]

theorem goto_other {u : Thread} (other : u ≠ t) : (s.goto t call).call u = s.call u := by simp [goto, other]

end goto

def setNode [DecidableEq Node] (s : McsLock Node Thread) (n : Node) (contents : McsNode Node) : McsLock Node Thread :=
  { s with node := Function.update s.node n contents }

section setNode

variable [DecidableEq Node] (s : McsLock Node Thread) (n : Node) (contents : McsNode Node)

@[simp] theorem setNode_tail : (s.setNode n contents).tail = s.tail := rfl

@[simp] theorem setNode_call : (s.setNode n contents).call = s.call := rfl

@[simp] theorem setNode_self : (s.setNode n contents).node n = contents := by simp [setNode]

theorem setNode_other {m : Node} (other : m ≠ n) : (s.setNode n contents).node m = s.node m := by
  simp [setNode, other]

end setNode

def setNext [DecidableEq Node] (s : McsLock Node Thread) (n : Node) (next : Option Node) : McsLock Node Thread :=
  s.setNode n { s.node n with next }

def setBlocked [DecidableEq Node] (s : McsLock Node Thread) (n : Node) (blocked : Bool) : McsLock Node Thread :=
  s.setNode n { s.node n with blocked }

theorem setNext_blocked [DecidableEq Node] (s : McsLock Node Thread) (n : Node) (next : Option Node) (m : Node) :
    ((s.setNext n next).node m).blocked = (s.node m).blocked := by
  by_cases self : m = n
  · rw [self, setNext, setNode_self]
  · rw [setNext, setNode_other _ _ _ self]

theorem setBlocked_next [DecidableEq Node] (s : McsLock Node Thread) (n : Node) (blocked : Bool) (m : Node) :
    ((s.setBlocked n blocked).node m).next = (s.node m).next := by
  by_cases self : m = n
  · rw [self, setBlocked, setNode_self]
  · rw [setBlocked, setNode_other _ _ _ self]

variable [DecidableEq Node] [DecidableEq Thread]

def go (s : McsLock Node Thread) (t : Thread) : McsLock Node Thread :=
  match s.call t with
  | .outside => s
  | .initNext me => (s.setNext me none).goto t (.exchange me)
  | .exchange me =>
    match s.tail with
    | none => (s.setTail (some me)).goto t (.holding me)
    | some predecessor => (s.setTail (some me)).goto t (.initBlocked me predecessor)
  | .initBlocked me predecessor => (s.setBlocked me true).goto t (.link me predecessor)
  | .link me predecessor => (s.setNext predecessor (some me)).goto t (.wait me)
  | .wait me => if (s.node me).blocked then s else s.goto t (.holding me)
  | .storeNext me => (s.setNext me none).goto t (.compareExchange me)
  | .compareExchange me =>
    match s.tail with
    | none => (s.setTail (some me)).goto t (.holding me)
    | some _ => s.goto t .outside
  | .holding _ => s
  | .loadNext me =>
    match (s.node me).next with
    | none => s.goto t (.removeSelf me)
    | some successor => s.goto t (.signal me successor)
  | .removeSelf me => if s.tail = some me then (s.setTail none).goto t .outside else s.goto t (.awaitNext me)
  | .awaitNext me =>
    match (s.node me).next with
    | none => s
    | some successor => s.goto t (.signal me successor)
  | .signal _ successor => (s.setBlocked successor false).goto t .outside

/-- The lock is called with a node that is in no other call, and unlocked with the node that it was locked with. -/
def Enabled (s : McsLock Node Thread) (t : Thread) : McsAction Node → Prop
  | .mcsLock me _ | .mcsTryLock me _ => s.call t = .outside ∧ ∀ u, (s.call u).me ≠ some me
  | .mcsUnlock => ∃ me, s.call t = .holding me
  | .go => s.call t ≠ .outside ∧ ∀ me, s.call t ≠ .holding me

def after (s : McsLock Node Thread) (t : Thread) : McsAction Node → McsLock Node Thread
  | .mcsLock me storage => (s.setNode me storage).goto t (.initNext me)
  | .mcsTryLock me storage => (s.setNode me storage).goto t (.storeNext me)
  | .mcsUnlock =>
    match s.call t with
    | .holding me => s.goto t (.loadNext me)
    | _ => s
  | .go => s.go t

def History.add (h : History Thread) (t : Thread) (call call' : McsCall Node) : History Thread where
  arrived := if call.queued = false ∧ call'.queued = true then h.arrived ++ [t] else h.arrived
  entered := if call.owns = false ∧ call'.owns = true then h.entered ++ [t] else h.entered
  left := if call.owns = true ∧ call'.owns = false then h.left ++ [t] else h.left

inductive Reached : McsLock Node Thread → History Thread → Prop
  | start (storage) : Reached (mcsInit storage) ⟨[], [], []⟩
  | step {s h t a} : Reached s h → s.Enabled t a → Reached (s.after t a) (h.add t (s.call t) ((s.after t a).call t))

def play : List (Thread × McsAction Node) → McsLock Node Thread → History Thread → McsLock Node Thread × History Thread
  | [], s, h => (s, h)
  | (t, a) :: schedule, s, h => play schedule (s.after t a) (h.add t (s.call t) ((s.after t a).call t))

def Permits : List (Thread × McsAction Node) → McsLock Node Thread → Prop
  | [], _ => True
  | (t, a) :: schedule, s => s.Enabled t a ∧ Permits schedule (s.after t a)

instance [Fintype Node] [Fintype Thread] (s : McsLock Node Thread) (t : Thread) :
    (a : McsAction Node) → Decidable (s.Enabled t a)
  | .mcsLock _ _ => inferInstanceAs (Decidable (_ ∧ _))
  | .mcsTryLock _ _ => inferInstanceAs (Decidable (_ ∧ _))
  | .mcsUnlock => inferInstanceAs (Decidable (∃ _, _))
  | .go => inferInstanceAs (Decidable (_ ∧ _))

instance decidablePermits [Fintype Node] [Fintype Thread] :
    (schedule : List (Thread × McsAction Node)) → (s : McsLock Node Thread) → Decidable (Permits schedule s)
  | [], _ => inferInstanceAs (Decidable True)
  | (t, a) :: schedule, s =>
    have := decidablePermits schedule (s.after t a)
    inferInstanceAs (Decidable (_ ∧ _))

theorem Reached.play {schedule : List (Thread × McsAction Node)} {s : McsLock Node Thread} {h : History Thread}
    (reached : Reached s h) (permits : Permits schedule s) :
    Reached (McsLock.play schedule s h).1 (McsLock.play schedule s h).2 := by
  induction schedule generalizing s h with
  | nil => exact reached
  | cons step schedule ih => exact ih (reached.step permits.1) permits.2

end McsLock

end Romp
