import Mathlib.Data.List.Basic
import Romp.Mcs.McsLock

namespace Romp

namespace McsCall

variable {Node : Type}

def isNew : McsCall Node → Bool
  | exchange _ | compareExchange _ => true
  | _ => false

theorem new_not_queued {call : McsCall Node} (new : call.isNew = true) : call.queued = false := by
  cases call <;> first | rfl | cases new

theorem owns_queued {call : McsCall Node} (owns : call.owns = true) : call.queued = true := by
  cases call <;> first | rfl | cases owns

theorem queued_me {call : McsCall Node} (queued : call.queued = true) : ∃ n, call.me = some n := by
  cases call <;> first | exact ⟨_, rfl⟩ | cases queued

theorem touches_cases {call : McsCall Node} {n : Node} {field : McsField} (touches : call.touches = some (n, field)) :
    call.me = some n ∨ (∃ m, call = .link m n ∧ field = .next) ∨ ∃ m, call = .signal m n ∧ field = .blocked := by
  cases call with
  | outside | exchange | compareExchange | holding | removeSelf => cases touches
  | link me predecessor =>
    cases touches
    exact .inr (.inl ⟨me, rfl, rfl⟩)
  | signal me successor =>
    cases touches
    exact .inr (.inr ⟨me, rfl, rfl⟩)
  | _ =>
    cases touches
    exact .inl rfl

theorem inits_cases {call : McsCall Node} {n : Node} {field : McsField} (inits : call.inits = true)
    (touches : call.touches = some (n, field)) :
    call = .initNext n ∧ field = .next ∨ (∃ predecessor, call = .initBlocked n predecessor) ∧ field = .blocked := by
  cases call with
  | initNext me =>
    cases touches
    exact .inl ⟨rfl, rfl⟩
  | initBlocked me predecessor =>
    cases touches
    exact .inr ⟨⟨predecessor, rfl⟩, rfl⟩
  | _ => cases inits

end McsCall

namespace McsLock

variable {Node Thread : Type} {s s' : McsLock Node Thread} {q : List Thread} {t : Thread}

def Waits (s : McsLock Node Thread) (n : Node) : McsCall Node → Prop
  | .initBlocked _ predecessor => predecessor = n ∧ (s.node n).next = none
  | .link me predecessor => predecessor = n ∧ (s.node n).next = none ∧ (s.node me).blocked = true
  | .wait me => (s.node n).next = some me ∧ (s.node me).blocked = true
  | _ => False

def InTurn (s : McsLock Node Thread) : McsCall Node → Prop
  | .wait me => (s.node me).blocked = false
  | .holding _ | .loadNext _ | .removeSelf _ => True
  | .awaitNext me => s.tail ≠ some me
  | .signal me successor => (s.node me).next = some successor
  | _ => False

/-- The threads of the queue from the first to the last one: each points to the next one, once that has linked
    itself. -/
structure Queue (s : McsLock Node Thread) (q : List Thread) : Prop where
  nodup : q.Nodup
  queued : ∀ u, u ∈ q ↔ (s.call u).queued = true
  apart : ∀ u v n, (s.call u).me = some n → (s.call v).me = some n → u = v
  new : ∀ u n, (s.call u).isNew = true → (s.call u).me = some n → (s.node n).next = none
  tail : s.tail = q.getLast?.bind fun u => (s.call u).me
  first : ∀ u ∈ q.head?, s.InTurn (s.call u)
  links : ∀ a u v b, q = a ++ u :: v :: b → ∃ n, (s.call u).me = some n ∧ s.Waits n (s.call v)
  last : ∀ u ∈ q.getLast?, ∀ n, (s.call u).me = some n → (s.node n).next = none

theorem Waits.congr {n : Node} {call : McsCall Node} (next : (s'.node n).next = (s.node n).next)
    (blocked : ∀ m, call.me = some m → (s'.node m).blocked = (s.node m).blocked) (waits : s.Waits n call) :
    s'.Waits n call := by
  cases call with
  | initBlocked me predecessor => exact ⟨waits.1, next.trans waits.2⟩
  | link me predecessor => exact ⟨waits.1, next.trans waits.2.1, (blocked me rfl).trans waits.2.2⟩
  | wait me => exact ⟨next.trans waits.1, (blocked me rfl).trans waits.2⟩
  | _ => exact waits

theorem InTurn.congr {call : McsCall Node} (tail : ∀ m, call.me = some m → s'.tail = some m → s.tail = some m)
    (same : ∀ m, call.me = some m →
      ((s'.node m).next = (s.node m).next ∨ (s.node m).next = none) ∧ (s'.node m).blocked = (s.node m).blocked)
    (turn : s.InTurn call) : s'.InTurn call := by
  cases call with
  | wait me => exact (same me rfl).2.trans turn
  | awaitNext me =>
    intro own
    exact turn (tail me rfl own)
  | signal me successor =>
    rcases (same me rfl).1 with next | none
    · exact next.trans turn
    · cases none.symm.trans turn
  | _ => exact turn

theorem InTurn.queued {call : McsCall Node} (turn : s.InTurn call) : call.queued = true := by
  cases call <;> first | rfl | exact turn.elim

theorem Waits.queued {n : Node} {call : McsCall Node} (waits : s.Waits n call) : call.queued = true := by
  cases call <;> first | rfl | exact waits.elim

theorem Waits.not_turn {n : Node} {call : McsCall Node} (waits : s.Waits n call) : ¬s.InTurn call := by
  intro turn
  cases call with
  | wait me => cases waits.2.symm.trans turn
  | initBlocked | link => exact turn
  | _ => exact waits

theorem Waits.not_owns {n : Node} {call : McsCall Node} (waits : s.Waits n call) : call.owns = false := by
  cases call <;> first | rfl | exact waits.elim

theorem InTurn.waiting {call : McsCall Node} (turn : s.InTurn call) (waits : call.owns = false) :
    ∃ me, call = .wait me ∧ (s.node me).blocked = false := by
  cases call with
  | wait me => exact ⟨me, rfl, turn⟩
  | holding | loadNext | removeSelf | awaitNext | signal => cases waits
  | _ => exact turn.elim

namespace Queue

variable (queue : s.Queue q)

include queue

theorem cases (inside : t ∈ q) : (∃ rest, q = t :: rest ∧ s.InTurn (s.call t)) ∨
    ∃ a u b n, q = a ++ u :: t :: b ∧ (s.call u).me = some n ∧ s.Waits n (s.call t) := by
  obtain ⟨a, b, rfl⟩ := List.append_of_mem inside
  rcases List.eq_nil_or_concat' a with rfl | ⟨a, u, rfl⟩
  · exact .inl ⟨b, rfl, queue.first t rfl⟩
  · have split : a ++ [u] ++ t :: b = a ++ u :: t :: b := by simp
    obtain ⟨n, own, waits⟩ := queue.links a u t b split
    exact .inr ⟨a, u, b, n, split, own, waits⟩

theorem first_of_owns (owns : (s.call t).owns = true) : ∃ rest, q = t :: rest := by
  rcases queue.cases ((queue.queued t).mpr (McsCall.owns_queued owns)) with ⟨rest, split, -⟩ | ⟨a, u, b, n, -, -, waits⟩
  · exact ⟨rest, split⟩
  · cases owns.symm.trans waits.not_owns

theorem turn_of_owns (owns : (s.call t).owns = true) : s.InTurn (s.call t) := by
  obtain ⟨rest, rfl⟩ := queue.first_of_owns owns
  exact queue.first t rfl

theorem next_unique {a a' b b' : List Thread} {u v w : Thread} (split : q = a ++ u :: v :: b)
    (split' : q = a' ++ u :: w :: b') : v = w := by
  have nodup := queue.nodup
  rw [split] at nodup
  have parts := List.nodup_append.mp nodup
  have before : u ∉ a := fun inside => parts.2.2 u inside u (by simp) rfl
  have behind : u ∉ v :: b := (List.nodup_cons.mp parts.2.1).1
  have same := (List.append_cons_inj_of_notMem before behind).mp (split.symm.trans split')
  exact (List.cons.inj same.2.2).1

theorem behind_ne {a b : List Thread} {u v : Thread} (split : q = a ++ u :: v :: b) : u ≠ v := by
  have nodup := queue.nodup
  rw [split] at nodup
  have parts := (List.nodup_append.mp nodup).2.1
  intro same
  exact (List.nodup_cons.mp parts).1 (by simp [same])

theorem follower {a b : List Thread} {u v : Thread} {n : Node} (split : q = a ++ u :: v :: b)
    (own : (s.call u).me = some n) : s.Waits n (s.call v) := by
  obtain ⟨m, own', waits⟩ := queue.links a u v b split
  cases own.symm.trans own'
  exact waits

theorem last_alone {a b : List Thread} {u v : Thread} (last : q.getLast? = some u) : q ≠ a ++ u :: v :: b := by
  intro split
  have nodup := queue.nodup
  rw [split] at nodup last
  have ends : (v :: b).getLast? = some u := by
    rw [← last, List.getLast?_append, List.getLast?_cons_cons, List.getLast?_cons, Option.some_or]
  exact (List.nodup_cons.mp (List.nodup_append.mp nodup).2.1).1 (List.mem_of_getLast? ends)

theorem linked {n predecessor : Node} (call : s.call t = .link n predecessor) {u : Thread}
    (own : (s.call u).me = some predecessor) :
    (∃ a b, q = a ++ u :: t :: b) ∧ (s.node predecessor).next = none := by
  rcases queue.cases ((queue.queued t).mpr (by rw [call]; rfl)) with ⟨rest, -, turn⟩ | ⟨a, v, b, m, split, own', waits⟩
  · rw [call] at turn
    exact turn.elim
  · rw [call] at waits
    obtain ⟨same, none, -⟩ := waits
    rw [← same] at own' none
    rw [queue.apart u v predecessor own own']
    exact ⟨⟨a, b, split⟩, none⟩

end Queue

end McsLock

end Romp
