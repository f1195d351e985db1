import Romp.Mcs.Exclusion
import Romp.Order.Fairness

namespace Romp

namespace McsCall

variable {Node : Type}

def trying : McsCall Node → Bool
  | storeNext _ | compareExchange _ => true
  | _ => false

def justIn : McsCall Node → Bool
  | initBlocked _ _ | holding _ => true
  | _ => false

def toArrive : McsCall Node → ℕ
  | initNext _ | storeNext _ => 2
  | exchange _ | compareExchange _ => 1
  | _ => 0

def toLeave : McsCall Node → ℕ
  | wait _ => 6
  | holding _ => 5
  | loadNext _ => 4
  | removeSelf _ => 3
  | awaitNext _ => 2
  | signal _ _ => 1
  | _ => 0

def toLink : McsCall Node → ℕ
  | initBlocked _ _ => 2
  | link _ _ => 1
  | _ => 0

theorem justIn_cases {call : McsCall Node} (arrived : call.justIn = true) :
    (∃ me, call = .holding me) ∨ call.queued = true ∧ call.owns = false := by
  cases call with
  | holding me => exact .inl ⟨me, rfl⟩
  | initBlocked me predecessor => exact .inr ⟨rfl, rfl⟩
  | _ => cases arrived

theorem busy_cases {call : McsCall Node} (busy : call.locking = true ∨ call.trying = true) :
    call ≠ .outside ∧ call.owns = false := by
  cases call with
  | outside | holding | loadNext | removeSelf | awaitNext | signal => rcases busy with locking | trying <;> contradiction
  | _ => exact ⟨by simp, rfl⟩

theorem trying_not_locking {call : McsCall Node} (trying : call.trying = true) : call.locking = false := by
  cases call <;> first | rfl | cases trying

theorem toLink_le (call : McsCall Node) : call.toLink ≤ 2 := by
  cases call <;> simp [toLink]

end McsCall

namespace McsLock

variable {Node Thread : Type} {s : McsLock Node Thread} {rest : List Thread} {t u : Thread}

/-- Who has to do something for the first thread to leave: it waits for the one behind it to link itself. -/
def helper [DecidableEq Node] (s : McsLock Node Thread) (t : Thread) (rest : List Thread) : Thread :=
  match s.call t with
  | .awaitNext me => if (s.node me).next = none then rest.head?.getD t else t
  | _ => t

def leftToDo (s : McsLock Node Thread) (t : Thread) (rest : List Thread) : ℕ :=
  3 * (s.call t).toLeave +
    match s.call t with
    | .awaitNext _ => rest.head?.elim 0 fun u => (s.call u).toLink
    | _ => 0

theorem leftToDo_bounds (s : McsLock Node Thread) (t : Thread) (rest : List Thread) :
    3 * (s.call t).toLeave ≤ s.leftToDo t rest ∧ s.leftToDo t rest ≤ 3 * (s.call t).toLeave + 2 := by
  refine ⟨Nat.le_add_right _ _, Nat.add_le_add_left ?_ _⟩
  split
  · cases rest with
    | nil => exact Nat.zero_le 2
    | cons u rest => exact (s.call u).toLink_le
  · exact Nat.zero_le 2

theorem line_kept {q : List Thread} {call call' : McsCall Node} (queued : call.queued = true)
    (stays : call.owns = true → call'.owns = true) : line t call call' q = q := by
  rw [line, queued, if_neg (by simp), if_neg]
  rintro ⟨owns, gone⟩
  cases (stays owns).symm.trans gone

theorem line_left {q : List Thread} {call call' : McsCall Node} (owns : call.owns = true) (gone : call'.owns = false) :
    line t call call' q = q.tail := by
  rw [line, McsCall.owns_queued owns, if_neg (by simp), if_pos ⟨owns, gone⟩]

theorem Queue.other_line (queue : s.Queue (t :: rest)) (other : u ≠ t) (call : McsCall Node) :
    ∃ more, line u (s.call u) call (t :: rest) = t :: (rest ++ more) := by
  rw [line]
  split
  · exact ⟨[u], rfl⟩
  · split
    · rename_i leaves
      obtain ⟨rest', split⟩ := queue.first_of_owns leaves.1
      exact absurd (List.cons.inj split).1.symm other
    · exact ⟨[], by simp⟩

variable [DecidableEq Node] [DecidableEq Thread]

theorem own_step {a : McsAction Node} (turn : s.InTurn (s.call t)) (enabled : s.Enabled t a) :
    (s.call t).owns = true ∧ (s.after t a).call t = .outside ∨
      ((s.after t a).call t).toLeave < (s.call t).toLeave ∧ ((s.after t a).call t).owns = true ∨
      s.after t a = s ∧ ∃ me, s.call t = .awaitNext me ∧ (s.node me).next = none := by
  cases a with
  | mcsLock me storage =>
    rw [enabled.1] at turn
    exact turn.elim
  | mcsTryLock me storage =>
    rw [enabled.1] at turn
    exact turn.elim
  | mcsUnlock =>
    obtain ⟨me, call⟩ := enabled
    simp [after, call, McsCall.toLeave, McsCall.owns]
  | go =>
    rw [after, go]
    cases call : s.call t with
    | holding me => exact absurd call (enabled.2 me)
    | wait me =>
      rw [call] at turn
      simp [show (s.node me).blocked = false from turn, McsCall.toLeave, McsCall.owns]
    | loadNext me => cases next : (s.node me).next <;> simp [next, McsCall.toLeave, McsCall.owns]
    | removeSelf me => by_cases tail : s.tail = some me <;> simp [tail, McsCall.toLeave, McsCall.owns]
    | awaitNext me => cases next : (s.node me).next <;> simp [next, McsCall.toLeave, McsCall.owns]
    | signal me successor => simp [McsCall.owns]
    | _ =>
      rw [call] at turn
      exact turn.elim

theorem Queue.next_kept {q : List Thread} (queue : s.Queue q) {a : McsAction Node} (enabled : s.Enabled u a)
    (other : u ≠ t) {n : Node} (own : (s.call t).me = some n) :
    ((s.after u a).node n).next = (s.node n).next ∨ ∃ m, s.call u = .link m n := by
  have apart : ∀ {m}, (s.call u).me = some m → n ≠ m := by
    rintro m own' rfl
    exact other (queue.apart u t n own' own)
  cases a with
  | mcsLock me storage =>
    refine .inl ?_
    rw [after, goto_node, setNode_other]
    rintro rfl
    exact enabled.2 t own
  | mcsTryLock me storage =>
    refine .inl ?_
    rw [after, goto_node, setNode_other]
    rintro rfl
    exact enabled.2 t own
  | mcsUnlock =>
    obtain ⟨me, call⟩ := enabled
    simp [after, call]
  | go =>
    rw [after, McsLock.go]
    cases call : s.call u with
    | initNext me => exact .inl (by rw [goto_node, setNext, setNode_other _ _ _ (apart (by rw [call]; rfl))])
    | storeNext me => exact .inl (by rw [goto_node, setNext, setNode_other _ _ _ (apart (by rw [call]; rfl))])
    | initBlocked me predecessor => exact .inl (setBlocked_next s me true n)
    | signal me successor => exact .inl (setBlocked_next s successor false n)
    | link me predecessor =>
      by_cases self : n = predecessor
      · exact .inr ⟨me, by rw [self]⟩
      · exact .inl (by rw [goto_node, setNext, setNode_other _ _ _ self])
    | exchange me => cases s.tail <;> exact .inl rfl
    | compareExchange me => cases s.tail <;> exact .inl rfl
    | wait me => by_cases told : (s.node me).blocked = true <;> simp [told]
    | loadNext me => cases next : (s.node me).next <;> simp [next]
    | removeSelf me => by_cases tail : s.tail = some me <;> simp [tail]
    | awaitNext me => cases next : (s.node me).next <;> simp [next]
    | _ => exact .inl rfl

omit [DecidableEq Thread] in
theorem Queue.helper_mem (queue : s.Queue (t :: rest)) : s.helper t rest ∈ t :: rest := by
  rw [helper]
  split
  · split
    · cases rest <;> simp
    · simp
  · simp

omit [DecidableEq Thread] in
theorem Queue.waits_behind (queue : s.Queue (t :: rest)) {me : Node} (call : s.call t = .awaitNext me) :
    ∃ v behind, rest = v :: behind ∧ v ≠ t ∧ s.Waits me (s.call v) ∧
      s.helper t rest = if (s.node me).next = none then v else t := by
  have turn := queue.first t rfl
  rw [call] at turn
  cases rest with
  | nil => exact absurd (queue.tail.trans (by simp [call, McsCall.me])) turn
  | cons v behind =>
    refine ⟨v, behind, rfl, (queue.behind_ne (a := []) rfl).symm, queue.follower (a := []) rfl (by rw [call]; rfl), ?_⟩
    simp [helper, call]

theorem Queue.first_step (queue : s.Queue (t :: rest)) {a : McsAction Node} (enabled : s.Enabled t a) :
    line t (s.call t) ((s.after t a).call t) (t :: rest) = rest ∧ (s.after t a).call t = .outside ∨
      line t (s.call t) ((s.after t a).call t) (t :: rest) = t :: rest ∧
        ((s.after t a).leftToDo t rest < s.leftToDo t rest ∨
          (s.after t a).leftToDo t rest = s.leftToDo t rest ∧ (s.after t a).helper t rest = s.helper t rest ∧
            t ≠ s.helper t rest) := by
  have turn := queue.first t rfl
  rcases own_step turn enabled with ⟨owns, gone⟩ | ⟨less, owns⟩ | ⟨same, me, call, next⟩
  · exact .inl ⟨line_left owns (by rw [gone]; rfl), gone⟩
  · refine .inr ⟨line_kept turn.queued fun _ => owns, .inl ?_⟩
    have before := s.leftToDo_bounds t rest
    have after := (s.after t a).leftToDo_bounds t rest
    omega
  · obtain ⟨v, behind, -, apart, -, who⟩ := queue.waits_behind call
    rw [same]
    refine .inr ⟨line_kept turn.queued id, .inr ⟨rfl, rfl, ?_⟩⟩
    rw [who, if_pos next]
    exact apart.symm

theorem new_step {a : McsAction Node} (inside : s.call t ≠ .outside) (new : (s.call t).queued = false)
    (enabled : s.Enabled t a) : ((s.after t a).call t).justIn ∨
      (s.after t a).call t = .outside ∧ (s.call t).trying = true ∨
      ((s.after t a).call t).toArrive < (s.call t).toArrive ∧ (s.after t a).call t ≠ .outside ∧
        ((s.after t a).call t).queued = false ∧ ((s.after t a).call t).trying = (s.call t).trying := by
  cases a with
  | mcsLock me storage => exact absurd enabled.1 inside
  | mcsTryLock me storage => exact absurd enabled.1 inside
  | mcsUnlock =>
    obtain ⟨me, holding⟩ := enabled
    rw [holding] at new
    cases new
  | go =>
    rw [after, go]
    cases call : s.call t with
    | outside => exact absurd call inside
    | initNext me => simp [McsCall.toArrive, McsCall.queued, McsCall.trying]
    | storeNext me => simp [McsCall.toArrive, McsCall.queued, McsCall.trying]
    | exchange me => cases tail : s.tail <;> simp [McsCall.justIn]
    | compareExchange me => cases tail : s.tail <;> simp [McsCall.justIn, McsCall.trying]
    | _ =>
      rw [call] at new
      cases new

theorem told_step {a : McsAction Node} {me : Node} (call : s.call t = .wait me) (told : (s.node me).blocked = false)
    (enabled : s.Enabled t a) : (s.after t a).call t = .holding me := by
  cases a with
  | mcsLock n storage => cases call.symm.trans enabled.1
  | mcsTryLock n storage => cases call.symm.trans enabled.1
  | mcsUnlock =>
    obtain ⟨n, holding⟩ := enabled
    cases call.symm.trans holding
  | go =>
    rw [after, go, call]
    simp [told]

theorem waiting_step {a : McsAction Node} {me : Node} (waits : s.Waits me (s.call u)) (enabled : s.Enabled u a) :
    ((s.after u a).call u).toLink < (s.call u).toLink ∨ s.after u a = s ∧ ∃ n, (s.node me).next = some n := by
  cases a with
  | mcsLock n storage =>
    rw [enabled.1] at waits
    exact waits.elim
  | mcsTryLock n storage =>
    rw [enabled.1] at waits
    exact waits.elim
  | mcsUnlock =>
    obtain ⟨n, call⟩ := enabled
    rw [call] at waits
    exact waits.elim
  | go =>
    rw [after, go]
    cases call : s.call u with
    | initBlocked n predecessor => simp [McsCall.toLink]
    | link n predecessor => simp [McsCall.toLink]
    | wait n =>
      rw [call] at waits
      simp [waits.1, waits.2]
    | _ =>
      rw [call] at waits
      exact waits.elim

theorem Queue.other_step (queue : s.Queue (t :: rest)) {a : McsAction Node} (enabled : s.Enabled u a) (other : u ≠ t)
    (more : List Thread) : (s.after u a).leftToDo t (rest ++ more) < s.leftToDo t rest ∨
      (s.after u a).leftToDo t (rest ++ more) = s.leftToDo t rest ∧
        (s.after u a).helper t (rest ++ more) = s.helper t rest ∧ u ≠ s.helper t rest := by
  have first : (s.after u a).call t = s.call t := after_other s a other.symm
  by_cases waits : ∃ me, s.call t = .awaitNext me
  · obtain ⟨me, call⟩ := waits
    obtain ⟨v, behind, rfl, apart, waits, who⟩ := queue.waits_behind call
    have own : (s.call t).me = some me := by rw [call]; rfl
    have before : s.leftToDo t (v :: behind) = 3 * 2 + (s.call v).toLink := by simp [leftToDo, call, McsCall.toLeave]
    have after : (s.after u a).leftToDo t (v :: behind ++ more) = 3 * 2 + ((s.after u a).call v).toLink := by
      simp [leftToDo, first, call, McsCall.toLeave]
    have who' : (s.after u a).helper t (v :: behind ++ more) =
        if ((s.after u a).node me).next = none then v else t := by simp [helper, first, call]
    rw [before, after, who, who']
    by_cases self : u = v
    · rw [self] at enabled other ⊢
      rcases waiting_step waits enabled with less | ⟨same, linked⟩
      · exact .inl (by omega)
      · obtain ⟨n, next⟩ := linked
        rw [same, next]
        exact .inr ⟨rfl, rfl, by simpa using other⟩
    · have next : ((s.after u a).node me).next = (s.node me).next := by
        rcases queue.next_kept enabled other own with same | ⟨m, linking⟩
        · exact same
        · obtain ⟨⟨front, back, split⟩, -⟩ := queue.linked linking own
          exact absurd (queue.next_unique split (show t :: v :: behind = [] ++ t :: v :: behind from rfl)) self
      rw [after_other s a (Ne.symm self), next]
      refine .inr ⟨rfl, rfl, ?_⟩
      split
      · exact self
      · exact other
  · have alone : ∀ s' : McsLock Node Thread, s'.call t = s.call t → ∀ behind,
        s'.leftToDo t behind = 3 * (s.call t).toLeave ∧ s'.helper t behind = t := by
      intro s' same behind
      rw [leftToDo, helper, same]
      cases call : s.call t with
      | awaitNext me => exact absurd ⟨me, call⟩ waits
      | _ => exact ⟨rfl, rfl⟩
    rw [(alone _ first _).1, (alone _ first _).2, (alone _ rfl _).1, (alone _ rfl _).2]
    exact .inr ⟨rfl, rfl, other⟩

structure Run (Node Thread : Type) [DecidableEq Node] [DecidableEq Thread] where
  state : ℕ → McsLock Node Thread
  event : ℕ → Option (Thread × McsAction Node)
  start : ∃ storage, state 0 = mcsInit storage
  idle : ∀ i, event i = none → state (i + 1) = state i
  moves : ∀ i t a, event i = some (t, a) → (state i).Enabled t a ∧ state (i + 1) = (state i).after t a

namespace Run

variable (run : Run Node Thread)

/-- A thread that is in a function goes on, and one that has the lock unlocks it. -/
def Fair : Prop :=
  ∀ t, Fairness.Weak (fun i t => (run.state i).call t ≠ .outside) (fun i => (run.event i).map Prod.fst) t

def queue : ℕ → List Thread
  | 0 => []
  | i + 1 =>
    match run.event i with
    | none => queue i
    | some (t, _) => line t ((run.state i).call t) ((run.state (i + 1)).call t) (queue i)

theorem isQueue (i : ℕ) : (run.state i).Queue (run.queue i) := by
  induction i with
  | zero =>
    obtain ⟨storage, start⟩ := run.start
    rw [start]
    exact .initial storage
  | succ i ih =>
    rw [queue]
    cases event : run.event i with
    | none =>
      rw [run.idle i event]
      exact ih
    | some move =>
      obtain ⟨enabled, after⟩ := run.moves i move.1 move.2 event
      rw [after]
      exact ih.step enabled

theorem queue_idle {i : ℕ} (event : run.event i = none) : run.queue (i + 1) = run.queue i := by
  rw [queue, event]

theorem queue_moves {i : ℕ} {a : McsAction Node} (event : run.event i = some (t, a)) :
    run.queue (i + 1) = line t ((run.state i).call t) (((run.state i).after t a).call t) (run.queue i) := by
  rw [queue, event, (run.moves i t a event).2]

/-- At each time the first thread of the queue leaves, or there is less to do, or the thread that has something to do
    has not taken a step. -/
theorem first_cases {i : ℕ} (front : run.queue i = t :: rest) :
    (run.queue (i + 1) = rest ∧ (run.state (i + 1)).call t = .outside ∧ ∀ u, ((run.state (i + 1)).call u).owns = false) ∨
      ∃ more, run.queue (i + 1) = t :: (rest ++ more) ∧
        ((run.state (i + 1)).leftToDo t (rest ++ more) < (run.state i).leftToDo t rest ∨
          (run.state (i + 1)).leftToDo t (rest ++ more) = (run.state i).leftToDo t rest ∧
            (run.state (i + 1)).helper t (rest ++ more) = (run.state i).helper t rest ∧
            (run.event i).map Prod.fst ≠ some ((run.state i).helper t rest)) := by
  have queue := run.isQueue i
  rw [front] at queue
  cases event : run.event i with
  | none =>
    rw [run.queue_idle event, run.idle i event, front]
    exact .inr ⟨[], by simp, .inr (by simp)⟩
  | some move =>
    obtain ⟨u, a⟩ := move
    obtain ⟨enabled, after⟩ := run.moves i u a event
    rw [run.queue_moves event, after, front]
    by_cases self : u = t
    · rw [self] at enabled ⊢
      rcases queue.first_step enabled with ⟨leaves, gone⟩ | ⟨stays, less | ⟨same, who, other⟩⟩
      · refine .inl ⟨leaves, gone, fun v => ?_⟩
        by_cases first : v = t
        · rw [first, gone]
          rfl
        · rw [after_other _ _ first]
          by_contra owns
          obtain ⟨rest', split⟩ := queue.first_of_owns (by simpa using owns)
          exact first (List.cons.inj split).1.symm
      · exact .inr ⟨[], by simpa using stays, .inl (by simpa using less)⟩
      · exact .inr ⟨[], by simpa using stays, .inr ⟨by simpa using same, by simpa using who, by simpa using other⟩⟩
    · obtain ⟨more, line⟩ := queue.other_line self (((run.state i).after u a).call u)
      refine .inr ⟨more, line, ?_⟩
      rcases queue.other_step enabled self more with less | ⟨same, who, other⟩
      · exact .inl less
      · exact .inr ⟨same, who, by simpa using other⟩

theorem queued_busy {i : ℕ} (inside : t ∈ run.queue i) : (run.state i).call t ≠ .outside := by
  intro outside
  have queued := ((run.isQueue i).queued t).mp inside
  rw [outside] at queued
  cases queued

variable {run}

theorem leaves (fair : run.Fair) {i : ℕ} (front : run.queue i = t :: rest) : ∃ j ≥ i,
    (∃ more, run.queue j = rest ++ more) ∧ (run.state j).call t = .outside ∧ ∀ u, ((run.state j).call u).owns = false := by
  apply Fairness.response fair (fun k => ∃ more, run.queue k = t :: (rest ++ more))
    (fun k => (run.state k).leftToDo t (run.queue k).tail) (fun k => (run.state k).helper t (run.queue k).tail)
  · intro k holds
    obtain ⟨more, front⟩ := holds
    have queue := run.isQueue k
    rw [front] at queue
    apply run.queued_busy
    rw [front]
    exact queue.helper_mem
  · intro k holds
    obtain ⟨more, front⟩ := holds
    rcases run.first_cases front with ⟨line, none⟩ | ⟨more', line, less⟩
    · exact .inl ⟨⟨more, line⟩, none⟩
    · rw [line, front]
      exact .inr ⟨⟨more ++ more', by rw [List.append_assoc]⟩, less⟩
  · exact ⟨[], by simpa using front⟩

theorem enters (fair : run.Fair) {i : ℕ} (front : run.queue i = t :: rest) (waits : ((run.state i).call t).owns = false) :
    ∃ j ≥ i, ∃ me, (run.state j).call t = .holding me := by
  apply Fairness.response fair
    (fun k => (∃ rest, run.queue k = t :: rest) ∧ ((run.state k).call t).owns = false) (fun _ => 0) (fun _ => t)
  · intro k holds
    obtain ⟨⟨rest, front⟩, -⟩ := holds
    apply run.queued_busy
    rw [front]
    exact List.mem_cons_self
  · intro k holds
    obtain ⟨⟨rest, front⟩, waits⟩ := holds
    have queue := run.isQueue k
    rw [front] at queue
    obtain ⟨me, call, told⟩ := (queue.first t rfl).waiting waits
    cases event : run.event k with
    | none =>
      rw [run.queue_idle event, run.idle k event]
      exact .inr ⟨⟨⟨rest, front⟩, waits⟩, .inr ⟨rfl, rfl, by simp⟩⟩
    | some move =>
      obtain ⟨u, a⟩ := move
      obtain ⟨enabled, after⟩ := run.moves k u a event
      rw [run.queue_moves event, after, front]
      by_cases self : u = t
      · rw [self] at enabled ⊢
        exact .inl ⟨me, told_step call told enabled⟩
      · obtain ⟨more, line⟩ := queue.other_line self (((run.state k).after u a).call u)
        rw [after_other _ _ (Ne.symm self)]
        exact .inr ⟨⟨⟨_, line⟩, waits⟩, .inr ⟨rfl, rfl, by simpa using self⟩⟩
  · exact ⟨⟨rest, front⟩, waits⟩

/-- A thread of the queue gets the lock when those before it have left. -/
theorem turn_comes (fair : run.Fair) {i : ℕ} {before : List Thread} (line : run.queue i = before ++ t :: rest)
    (waits : ((run.state i).call t).owns = false) : ∃ j ≥ i, ∃ me, (run.state j).call t = .holding me := by
  induction before generalizing i rest with
  | nil => exact enters fair line waits
  | cons u before ih =>
    obtain ⟨j, later, ⟨more, line'⟩, -, none⟩ := leaves fair line
    obtain ⟨k, later', holds⟩ := ih (line'.trans (List.append_assoc before (t :: rest) more)) (none t)
    exact ⟨k, le_trans later later', holds⟩

theorem arrives (fair : run.Fair) {i : ℕ} (inside : (run.state i).call t ≠ .outside)
    (new : ((run.state i).call t).queued = false) : ∃ j ≥ i, ((run.state j).call t).justIn ∨
      (run.state j).call t = .outside ∧ ((run.state i).call t).trying = true := by
  apply Fairness.response fair (fun k => (run.state k).call t ≠ .outside ∧ ((run.state k).call t).queued = false ∧
    ((run.state k).call t).trying = ((run.state i).call t).trying) (fun k => ((run.state k).call t).toArrive) (fun _ => t)
  · exact fun k holds => holds.1
  · intro k holds
    obtain ⟨inside, new, same⟩ := holds
    cases event : run.event k with
    | none =>
      rw [run.idle k event]
      exact .inr ⟨⟨inside, new, same⟩, .inr ⟨rfl, rfl, by simp⟩⟩
    | some move =>
      obtain ⟨u, a⟩ := move
      obtain ⟨enabled, after⟩ := run.moves k u a event
      rw [after]
      by_cases self : u = t
      · rw [self] at enabled ⊢
        rcases new_step inside new enabled with arrived | failed | ⟨less, inside', new', same'⟩
        · exact .inl (.inl arrived)
        · exact .inl (.inr ⟨failed.1, same ▸ failed.2⟩)
        · exact .inr ⟨⟨inside', new', same'.trans same⟩, .inl less⟩
      · rw [after_other _ _ (Ne.symm self)]
        exact .inr ⟨⟨inside, new, same⟩, .inr ⟨rfl, rfl, by simpa using self⟩⟩
  · exact ⟨inside, new, rfl⟩

theorem gets (fair : run.Fair) {i : ℕ} (queued : ((run.state i).call t).queued = true)
    (waits : ((run.state i).call t).owns = false) : ∃ j ≥ i, ∃ me, (run.state j).call t = .holding me := by
  obtain ⟨before, rest, line⟩ := List.append_of_mem (((run.isQueue i).queued t).mpr queued)
  exact turn_comes fair line waits

end Run

namespace Run

variable {run : Run Node Thread}

theorem gets_or_fails (fair : run.Fair) {i : ℕ} (busy : ((run.state i).call t).locking = true ∨
    ((run.state i).call t).trying = true) : ∃ j ≥ i, (∃ me, (run.state j).call t = .holding me) ∨
      (run.state j).call t = .outside ∧ ((run.state i).call t).trying = true := by
  obtain ⟨inside, waits⟩ := McsCall.busy_cases busy
  cases queued : ((run.state i).call t).queued with
  | true =>
    obtain ⟨j, later, holds⟩ := gets fair queued waits
    exact ⟨j, later, .inl holds⟩
  | false =>
    obtain ⟨j, later, arrived | failed⟩ := arrives fair inside queued
    · rcases McsCall.justIn_cases arrived with holds | ⟨queued, waits⟩
      · exact ⟨j, later, .inl holds⟩
      · obtain ⟨k, later', holds⟩ := gets fair queued waits
        exact ⟨k, le_trans later later', .inl holds⟩
    · exact ⟨j, later, .inr failed⟩

end Run

/-- Where every thread goes on, and unlocks the lock when it has it, `mcsLock` gets the lock, `mcsTryLock` gets it or
    returns, and `mcsUnlock` returns. -/
theorem mcs_progress (run : Run Node Thread) (fair : run.Fair) (i : ℕ) (t : Thread) :
    (((run.state i).call t).locking = true → ∃ j ≥ i, ∃ me, (run.state j).call t = .holding me) ∧
      (((run.state i).call t).trying = true →
        ∃ j ≥ i, (run.state j).call t = .outside ∨ ∃ me, (run.state j).call t = .holding me) ∧
      (((run.state i).call t).owns = true → ∃ j ≥ i, (run.state j).call t = .outside) := by
  refine ⟨fun locking => ?_, fun trying => ?_, fun owns => ?_⟩
  · obtain ⟨j, later, holds | ⟨-, trying⟩⟩ := Run.gets_or_fails fair (.inl locking)
    · exact ⟨j, later, holds⟩
    · cases (McsCall.trying_not_locking trying).symm.trans locking
  · obtain ⟨j, later, holds | ⟨failed, -⟩⟩ := Run.gets_or_fails fair (.inr trying)
    · exact ⟨j, later, .inr holds⟩
    · exact ⟨j, later, .inl failed⟩
  · obtain ⟨rest, front⟩ := (run.isQueue i).first_of_owns owns
    obtain ⟨j, later, -, outside, -⟩ := Run.leaves fair front
    exact ⟨j, later, outside⟩

theorem play_concat (schedule : List (Thread × McsAction Node)) (t : Thread) (a : McsAction Node)
    (s : McsLock Node Thread) (h : History Thread) :
    (play (schedule ++ [(t, a)]) s h).1 = (play schedule s h).1.after t a ∧
      (Permits (schedule ++ [(t, a)]) s → (play schedule s h).1.Enabled t a) := by
  induction schedule generalizing s h with
  | nil => exact ⟨rfl, fun permits => permits.1⟩
  | cons step schedule ih =>
    obtain ⟨after, enabled⟩ := ih (s.after step.1 step.2) (h.add step.1 (s.call step.1) ((s.after step.1 step.2).call step.1))
    exact ⟨after, fun permits => enabled permits.2⟩

theorem Permits.left {schedule : List (Thread × McsAction Node)} (more : List (Thread × McsAction Node))
    (permits : Permits (schedule ++ more) s) : Permits schedule s := by
  induction schedule generalizing s with
  | nil => trivial
  | cons step schedule ih => exact ⟨permits.1, ih permits.2⟩

def Run.follow (schedule : List (Thread × McsAction Node)) (storage : Node → McsNode Node)
    (permits : Permits schedule (mcsInit storage)) : Run Node Thread where
  state i := (play (schedule.take i) (mcsInit storage) ⟨[], [], []⟩).1
  event i := schedule[i]?
  start := ⟨storage, rfl⟩
  idle i ended := by
    have long := List.getElem?_eq_none_iff.mp ended
    rw [List.take_of_length_le long, List.take_of_length_le (Nat.le_succ_of_le long)]
  moves i t a event := by
    have split : schedule.take (i + 1) = schedule.take i ++ [(t, a)] := by
      rw [List.take_add_one, event, Option.toList_some]
    obtain ⟨after, enabled⟩ := play_concat (schedule.take i) t a (mcsInit storage) ⟨[], [], []⟩
    rw [split]
    refine ⟨enabled (Permits.left (schedule.drop (i + 1)) ?_), after⟩
    rw [← split, List.take_append_drop]
    exact permits

theorem Run.follow_fair {schedule : List (Thread × McsAction Node)} {storage : Node → McsNode Node}
    (permits : Permits schedule (mcsInit storage))
    (outside : ∀ t, (play schedule (mcsInit storage) ⟨[], [], []⟩).1.call t = .outside) : (follow schedule storage permits).Fair := by
  intro t i inside
  have ends : (follow schedule storage permits).state (max i schedule.length) =
      (play schedule (mcsInit storage) ⟨[], [], []⟩).1 := by
    show (play (schedule.take _) _ _).1 = _
    rw [List.take_of_length_le (Nat.le_max_right _ _)]
  exact absurd (by rw [ends, outside t]) (inside (max i schedule.length) (Nat.le_max_left _ _))

def bothLeave : List (Bool × McsAction Bool) := handOver ++ [(true, .mcsUnlock), (true, .go), (true, .go)]

theorem mcs_progress_pair : ∃ run : Run Bool Bool, run.Fair ∧ ((run.state 6).call true).locking = true ∧
    ∃ j ≥ 6, ∃ me, (run.state j).call true = .holding me := by
  have permits : Permits bothLeave (mcsInit fun _ => ⟨none, true⟩ : McsLock Bool Bool) := by decide
  have fair := Run.follow_fair permits (by decide)
  have locking : (((Run.follow _ _ permits).state 6).call true).locking = true := by
    show (((play (bothLeave.take 6) (mcsInit fun _ => ⟨none, true⟩) ⟨[], [], []⟩).1).call true).locking = true
    decide
  exact ⟨_, fair, locking, (mcs_progress _ fair 6 true).1 locking⟩

end McsLock

end Romp
