import Romp.Mcs.Queue

namespace Romp

namespace McsLock

variable {Node Thread : Type} {s s' : McsLock Node Thread} {q : List Thread} {t : Thread}

namespace Queue

variable (queue : s.Queue q)

include queue

theorem keep (others : ∀ u, u ≠ t → s'.call u = s.call u) (tail : s'.tail = s.tail)
    (queued : (s'.call t).queued = (s.call t).queued)
    (me : (s.call t).queued = true → (s'.call t).me = (s.call t).me)
    (apart : ∀ u n, u ≠ t → (s.call u).me = some n → (s'.call t).me ≠ some n)
    (new : ∀ n, (s'.call t).isNew = true → (s'.call t).me = some n → (s'.node n).next = none)
    (next : ∀ u n, u ≠ t → (s.call u).me = some n →
      (s'.node n).next = (s.node n).next ∨ ∃ m, s.call t = .link m n)
    (blocked : ∀ u n, u ≠ t → (s.call u).me = some n → (s'.node n).blocked = (s.node n).blocked)
    (own : (s.call t).queued = true → ∀ n, (s.call t).me = some n → (s'.node n).next = (s.node n).next)
    (turn : s.InTurn (s.call t) → s'.InTurn (s'.call t))
    (waits : ∀ n, s.Waits n (s.call t) → s'.Waits n (s'.call t)) : s'.Queue q := by
  have same : ∀ u n, u ≠ t → (s.call u).me = some n → (∀ a b, q ≠ a ++ u :: t :: b) →
      (s'.node n).next = (s.node n).next := by
    intro u n other own apart
    rcases next u n other own with same | ⟨m, call⟩
    · exact same
    · obtain ⟨⟨a, b, split⟩, -⟩ := queue.linked call own
      exact absurd split (apart a b)
  refine ⟨queue.nodup, fun u => ?_, fun u v n => ?_, fun u n => ?_, ?_, fun u first => ?_, fun a u v b split => ?_,
    fun u last n => ?_⟩
  · rw [queue.queued u]
    by_cases self : u = t
    · rw [self, queued]
    · rw [others u self]
  · by_cases self : u = t
    · by_cases self' : v = t
      · intro _ _
        exact self.trans self'.symm
      · rw [self, others v self']
        intro own own'
        exact absurd own (apart v n self' own')
    · by_cases self' : v = t
      · rw [self', others u self]
        intro own own'
        exact absurd own' (apart u n self own)
      · rw [others u self, others v self']
        exact queue.apart u v n
  · by_cases self : u = t
    · rw [self]
      exact new n
    · rw [others u self]
      intro isNew own
      rw [← queue.new u n isNew own]
      apply same u n self own
      intro a b split
      have inside := (queue.queued u).mp (by rw [split]; simp)
      cases inside.symm.trans (McsCall.new_not_queued isNew)
  · rw [tail, queue.tail]
    cases last : q.getLast? with
    | none => rfl
    | some u =>
      by_cases self : u = t
      · have inside := (queue.queued u).mp (List.mem_of_getLast? last)
        rw [self] at inside
        simp only [Option.bind_some, self, me inside]
      · simp only [Option.bind_some, others u self]
  · by_cases self : u = t
    · rw [self]
      exact turn (by rw [← self]; exact queue.first u first)
    · rw [others u self]
      refine (queue.first u first).congr (fun n _ end_ => tail ▸ end_) fun n own => ⟨?_, blocked u n self own⟩
      rcases next u n self own with same | ⟨m, call⟩
      · exact .inl same
      · exact .inr (queue.linked call own).2
  · obtain ⟨n, own', waits'⟩ := queue.links a u v b split
    have apart' := queue.behind_ne split
    by_cases self : v = t
    · rw [self] at apart' waits' ⊢
      rw [others u apart']
      exact ⟨n, own', waits n waits'⟩
    · have next' : (s'.node n).next = (s.node n).next := by
        by_cases front : u = t
        · rw [front] at own'
          exact own ((queue.queued t).mp (by rw [split, front]; simp)) n own'
        · apply same u n front own'
          intro a' b' split'
          exact self (queue.next_unique split split')
      have own'' : (s'.call u).me = some n := by
        by_cases front : u = t
        · rw [front] at own' ⊢
          rw [me ((queue.queued t).mp (by rw [split, front]; simp)), own']
        · rw [others u front, own']
      rw [others v self]
      exact ⟨n, own'', waits'.congr next' fun m own => blocked v m self own⟩
  · intro own'
    by_cases self : u = t
    · have inside := (queue.queued t).mp (by rw [← self]; exact List.mem_of_getLast? last)
      rw [self, me inside] at own'
      rw [own inside n own', queue.last u last n (by rw [self, own'])]
    · rw [others u self] at own'
      rw [same u n self own' fun a b => queue.last_alone last, queue.last u last n own']

theorem idle (others : ∀ u, u ≠ t → s'.call u = s.call u) (tail : s'.tail = s.tail) (queued : (s.call t).queued = false)
    (queued' : (s'.call t).queued = false) (apart : ∀ u n, u ≠ t → (s.call u).me = some n → (s'.call t).me ≠ some n)
    (new : ∀ n, (s'.call t).isNew = true → (s'.call t).me = some n → (s'.node n).next = none)
    (same : ∀ u n, u ≠ t → (s.call u).me = some n → s'.node n = s.node n) : s'.Queue q := by
  refine queue.keep others tail (queued'.trans queued.symm) (fun inside => ?_) apart new
    (fun u n other own => .inl (by rw [same u n other own])) (fun u n other own => by rw [same u n other own])
    (fun inside => ?_) (fun turn => ?_) fun n waits => ?_
  · cases queued.symm.trans inside
  · cases queued.symm.trans inside
  · cases queued.symm.trans turn.queued
  · cases queued.symm.trans waits.queued

theorem turns [DecidableEq Thread] {call : McsCall Node} (turn : s.InTurn (s.call t)) (me : call.me = (s.call t).me)
    (turn' : s.InTurn call) : (s.goto t call).Queue q := by
  have queued := turn'.queued
  refine queue.keep (fun u other => goto_other s t call other) rfl ?_ (fun _ => ?_) (fun u n other own => ?_)
    (fun n new => ?_) (fun u n _ _ => .inl rfl) (fun u n _ _ => rfl) (fun _ n _ => rfl) (fun _ => ?_) fun n waits => ?_
  · rw [goto_self, queued, turn.queued]
  · rw [goto_self, me]
  · rw [goto_self, me]
    exact fun own' => other (queue.apart u t n own own')
  · rw [goto_self] at new
    cases queued.symm.trans (McsCall.new_not_queued new)
  · rw [goto_self]
    exact InTurn.congr (s := s) (fun n _ ends => ends) (fun n _ => ⟨.inl rfl, rfl⟩) turn'
  · exact absurd turn waits.not_turn

theorem tail_none : s.tail = none ↔ q = [] := by
  rw [queue.tail]
  cases last : q.getLast? with
  | none => simpa using last
  | some u =>
    obtain ⟨n, own⟩ := McsCall.queued_me ((queue.queued u).mp (List.mem_of_getLast? last))
    have filled : q ≠ [] := by
      rintro rfl
      cases last
    simp [own, filled]

theorem tail_some {n : Node} (tail : s.tail = some n) : ∃ u ∈ q.getLast?, (s.call u).me = some n := by
  rw [queue.tail] at tail
  obtain ⟨u, last, own⟩ := Option.bind_eq_some_iff.mp tail
  exact ⟨u, last, own⟩

variable [DecidableEq Thread]

theorem arrive {me : Node} {call : McsCall Node} (isNew : (s.call t).isNew = true) (own : (s.call t).me = some me)
    (own' : call.me = some me) (queued : call.queued = true) (turn : s.tail = none → ∃ n, call = .holding n)
    (waits : ∀ predecessor, s.tail = some predecessor → call = .initBlocked me predecessor) :
    ((s.setTail (some me)).goto t call).Queue (q ++ [t]) := by
  have outside : t ∉ q := by
    intro inside
    cases ((queue.queued t).mp inside).symm.trans (McsCall.new_not_queued isNew)
  have others : ∀ u, u ≠ t → ((s.setTail (some me)).goto t call).call u = s.call u := by
    intro u other
    rw [goto_other _ _ _ other, setTail_call]
  have owned : ∀ u n, (((s.setTail (some me)).goto t call).call u).me = some n → (s.call u).me = some n := by
    intro u n holds
    by_cases self : u = t
    · rw [self, goto_self, own'] at holds
      rw [self, own, holds]
    · rwa [others u self] at holds
  refine ⟨?_, fun u => ?_, fun u v n => ?_, fun u n => ?_, ?_, fun u first => ?_, fun a u v b split => ?_,
    fun u last n => ?_⟩
  · rw [List.nodup_append]
    refine ⟨queue.nodup, by simp, fun u inside v single => ?_⟩
    rw [List.mem_singleton.mp single]
    intro self
    exact outside (self ▸ inside)
  · by_cases self : u = t
    · simp [self, queued]
    · simp [self, others u self, queue.queued u]
  · intro holds holds'
    exact queue.apart u v n (owned u n holds) (owned v n holds')
  · by_cases self : u = t
    · rw [self, goto_self]
      intro again
      cases queued.symm.trans (McsCall.new_not_queued again)
    · rw [others u self]
      exact queue.new u n
  · simp [own']
  · cases line : q with
    | nil =>
      rw [line] at first
      obtain ⟨n, call⟩ := turn (queue.tail_none.mpr line)
      obtain rfl : t = u := by simpa using first
      rw [goto_self, call]
      trivial
    | cons v rest =>
      rw [line] at first
      obtain rfl : v = u := by simpa using first
      have other : v ≠ t := by
        rintro rfl
        exact outside (by simp [line])
      rw [others v other]
      refine InTurn.congr (s := s) (fun n holds ends => ?_) (fun n _ => ⟨.inl rfl, rfl⟩) (queue.first v (by simp [line]))
      rw [goto_tail, setTail_tail] at ends
      exact absurd (queue.apart v t n holds (own.trans ends)) other
  · rcases List.eq_nil_or_concat' b with rfl | ⟨b, x, rfl⟩
    · have parts : q ++ [t] = (a ++ [u]) ++ [v] := by simp [split]
      obtain ⟨line, same⟩ := List.append_inj' parts rfl
      obtain rfl : t = v := by simpa using same
      have ends : q.getLast? = some u := by simp [line]
      have inside := List.mem_of_getLast? ends
      obtain ⟨n, holds⟩ := McsCall.queued_me ((queue.queued u).mp inside)
      have other : u ≠ t := by
        rintro rfl
        exact outside inside
      rw [others u other, goto_self, waits n (by rw [queue.tail, ends]; exact holds)]
      exact ⟨n, holds, rfl, queue.last u ends n holds⟩
    · have parts : q ++ [t] = (a ++ u :: v :: b) ++ [x] := by simp [split]
      obtain ⟨line, same⟩ := List.append_inj' parts rfl
      obtain ⟨n, holds, waits⟩ := queue.links a u v b line
      have inside : ∀ w, w = u ∨ w = v → w ≠ t := by
        rintro w which rfl
        apply outside
        rw [line]
        rcases which with rfl | rfl <;> simp
      rw [others u (inside u (.inl rfl)), others v (inside v (.inr rfl))]
      exact ⟨n, holds, waits.congr rfl fun m _ => rfl⟩
  · obtain rfl : t = u := by simpa using last
    intro holds
    exact queue.new t n isNew (owned t n holds)

/-- The first thread goes out of the queue, where what is behind it waits for the lock no more. -/
theorem leave {rest : List Thread} {next : McsLock Node Thread} (line : q = t :: rest)
    (others : ∀ u, u ≠ t → next.call u = s.call u) (gone : next.call t = .outside)
    (tail : next.tail = if rest = [] then none else s.tail)
    (same : ∀ n, (next.node n).next = (s.node n).next)
    (told : ∀ u ∈ rest.head?, next.InTurn (s.call u))
    (blocked : ∀ u n, u ∉ rest.head? → (s.call u).me = some n → (next.node n).blocked = (s.node n).blocked) :
    next.Queue rest := by
  subst line
  have outside := (List.nodup_cons.mp queue.nodup).1
  have other : ∀ u ∈ rest, u ≠ t := by
    rintro u inside rfl
    exact outside inside
  have owned : ∀ u n, (next.call u).me = some n → u ≠ t ∧ (s.call u).me = some n := by
    intro u n holds
    by_cases self : u = t
    · rw [self, gone] at holds
      cases holds
    · rw [others u self] at holds
      exact ⟨self, holds⟩
  refine ⟨(List.nodup_cons.mp queue.nodup).2, fun u => ?_, fun u v n holds holds' => ?_, fun u n isNew holds => ?_, ?_,
    fun u first => ?_, fun a u v b split => ?_, fun u last n holds => ?_⟩
  · by_cases self : u = t
    · rw [self, gone]
      simpa [McsCall.queued] using outside
    · rw [others u self, ← queue.queued u]
      simp [self]
  · exact queue.apart u v n (owned u n holds).2 (owned v n holds').2
  · rw [others u (owned u n holds).1] at isNew
    rw [same, queue.new u n isNew (owned u n holds).2]
  · rw [tail]
    cases rest with
    | nil => rfl
    | cons v rest =>
      rw [if_neg (List.cons_ne_nil v rest), queue.tail, List.getLast?_cons_cons]
      cases last : (v :: rest).getLast? with
      | none => rfl
      | some u => rw [Option.bind_some, Option.bind_some, others u (other u (List.mem_of_getLast? last))]
  · rw [others u (other u (List.mem_of_mem_head? first))]
    exact told u first
  · obtain ⟨n, holds, waits⟩ := queue.links (t :: a) u v b (by rw [split]; rfl)
    have second : v ∉ rest.head? := by
      intro first
      have nodup := (List.nodup_cons.mp queue.nodup).2
      rw [split] at first nodup
      cases a with
      | nil =>
        obtain rfl : u = v := by simpa using first
        exact (List.nodup_cons.mp nodup).1 (by simp)
      | cons x a =>
        obtain rfl : x = v := by simpa using first
        exact (List.nodup_cons.mp nodup).1 (by simp)
    rw [others u (other u (by rw [split]; simp)), others v (other v (by rw [split]; simp))]
    exact ⟨n, holds, waits.congr (same n) fun m own => blocked v m second own⟩
  · rw [others u (other u (List.mem_of_mem_getLast? last))] at holds
    rw [same]
    refine queue.last u ?_ n holds
    cases rest with
    | nil => cases last
    | cons v rest => rwa [List.getLast?_cons_cons]

end Queue

def line (t : Thread) (call call' : McsCall Node) (q : List Thread) : List Thread :=
  if call.queued = false ∧ call'.queued = true then q ++ [t]
  else if call.owns = true ∧ call'.owns = false then q.tail
  else q

variable [DecidableEq Node] [DecidableEq Thread]

theorem after_other (s : McsLock Node Thread) {u : Thread} (a : McsAction Node) (other : u ≠ t) :
    (s.after t a).call u = s.call u := by
  cases a with
  | mcsLock me storage => exact goto_other _ _ _ other
  | mcsTryLock me storage => exact goto_other _ _ _ other
  | mcsUnlock =>
    rw [after]
    split
    · exact goto_other _ _ _ other
    · rfl
  | go =>
    rw [after, go]
    split <;> (try split) <;> first | rfl | exact goto_other _ _ _ other

namespace Queue

variable (queue : s.Queue q)

include queue

theorem called {me : Node} {storage : McsNode Node} {call : McsCall Node} (outside : s.call t = .outside)
    (free : ∀ u, (s.call u).me ≠ some me) (own : call.me = some me) (new : call.isNew = false)
    (queued : call.queued = false) : ((s.setNode me storage).goto t call).Queue q := by
  refine queue.idle (fun u other => goto_other _ _ _ other) rfl (by rw [outside]; rfl) (by rw [goto_self, queued])
    (fun u n _ holds => ?_) (fun n isNew => ?_) fun u n _ holds => ?_
  · rw [goto_self, own, ← holds]
    exact (free u).symm
  · rw [goto_self, new] at isNew
    cases isNew
  · apply setNode_other
    rintro rfl
    exact free u holds

theorem prepared {me : Node} {call : McsCall Node} (own : (s.call t).me = some me) (queued : (s.call t).queued = false)
    (own' : call.me = some me) (queued' : call.queued = false) : ((s.setNext me none).goto t call).Queue q := by
  refine queue.idle (fun u other => goto_other _ _ _ other) rfl queued (by rw [goto_self, queued'])
    (fun u n other holds => ?_) (fun n _ holds => ?_) fun u n other holds => ?_
  · rw [goto_self, own']
    exact fun same => other (queue.apart u t n holds (own.trans same))
  · rw [goto_self, own'] at holds
    rw [← Option.some.inj holds, goto_node, setNext, setNode_self]
  · apply setNode_other
    rintro rfl
    exact other (queue.apart u t n holds own)

theorem blocked {me predecessor : Node} (call : s.call t = .initBlocked me predecessor) :
    ((s.setBlocked me true).goto t (.link me predecessor)).Queue q := by
  have own : (s.call t).me = some me := by rw [call]; rfl
  have next : ∀ n, ((s.setBlocked me true).node n).next = (s.node n).next := fun n => setBlocked_next s me true n
  refine queue.keep (fun u other => goto_other _ _ _ other) rfl (by rw [goto_self, call]; rfl)
    (fun _ => by rw [goto_self, call]; rfl) (fun u n other holds => ?_) (fun n new => ?_) (fun u n _ _ => .inl (next n))
    (fun u n other holds => ?_) (fun _ n _ => next n) (fun turn => ?_) fun n waits => ?_
  · rw [goto_self]
    exact fun same => other (queue.apart u t n holds (own.trans same))
  · rw [goto_self] at new
    cases new
  · rw [goto_node, setBlocked, setNode_other]
    rintro rfl
    exact other (queue.apart u t n holds own)
  · rw [call] at turn
    exact turn.elim
  · rw [call] at waits
    rw [goto_self]
    refine ⟨waits.1, (next n).trans waits.2, ?_⟩
    rw [goto_node, setBlocked, setNode_self]

theorem linking {me predecessor : Node} (call : s.call t = .link me predecessor) :
    ((s.setNext predecessor (some me)).goto t (.wait me)).Queue q := by
  have own : (s.call t).me = some me := by rw [call]; rfl
  have front : predecessor ≠ me := by
    rintro rfl
    obtain ⟨⟨a, b, split⟩, -⟩ := queue.linked call own
    exact queue.behind_ne split rfl
  refine queue.keep (fun u other => goto_other _ _ _ other) rfl (by rw [goto_self, call]; rfl)
    (fun _ => by rw [goto_self, call]; rfl) (fun u n other holds => ?_) (fun n new => ?_) (fun u n _ _ => ?_)
    (fun u n _ _ => setNext_blocked s predecessor (some me) n) (fun _ n holds => ?_) (fun turn => ?_) fun n waits => ?_
  · rw [goto_self]
    exact fun same => other (queue.apart u t n holds (own.trans same))
  · rw [goto_self] at new
    cases new
  · by_cases self : n = predecessor
    · rw [self]
      exact .inr ⟨me, call⟩
    · exact .inl (by rw [goto_node, setNext, setNode_other _ _ _ self])
  · rw [← Option.some.inj (own.symm.trans holds), goto_node, setNext, setNode_other _ _ _ front.symm]
  · rw [call] at turn
    exact turn.elim
  · rw [call] at waits
    rw [goto_self]
    obtain ⟨rfl, -, told⟩ := waits
    refine ⟨?_, (setNext_blocked s _ _ me).trans told⟩
    rw [goto_node, setNext, setNode_self]

omit [DecidableEq Node] in
theorem removed {me : Node} (call : s.call t = .removeSelf me) (tail : s.tail = some me) :
    q = [t] ∧ ((s.setTail none).goto t .outside).Queue [] := by
  obtain ⟨rest, line⟩ := queue.first_of_owns (t := t) (by rw [call]; rfl)
  obtain ⟨u, last, own⟩ := queue.tail_some tail
  obtain rfl : u = t := queue.apart u t me own (by rw [call]; rfl)
  obtain rfl : rest = [] := by
    cases rest with
    | nil => rfl
    | cons v rest => exact absurd line (queue.last_alone (a := []) last)
  refine ⟨line, queue.leave line (fun v other => goto_other _ _ _ other) (goto_self _ _ _) rfl (fun n => rfl)
    (fun v first => ?_) fun v n _ _ => rfl⟩
  cases first

/-- The first thread hands the lock over to the second one. -/
theorem signalled {me successor : Node} (call : s.call t = .signal me successor) :
    ∃ u rest, q = t :: u :: rest ∧ s.call u = .wait successor ∧
      ((s.setBlocked successor false).goto t .outside).Queue (u :: rest) := by
  have own : (s.call t).me = some me := by rw [call]; rfl
  have turn := queue.turn_of_owns (t := t) (by rw [call]; rfl)
  rw [call] at turn
  obtain ⟨rest, line⟩ := queue.first_of_owns (t := t) (by rw [call]; rfl)
  cases rest with
  | nil =>
    have none := queue.last t (by rw [line]; rfl) me own
    cases none.symm.trans turn
  | cons u rest =>
    have waits := queue.follower (a := []) line own
    have waiting : s.call u = .wait successor := by
      cases place : s.call u with
      | wait m =>
        rw [place] at waits
        rw [Option.some.inj (waits.1.symm.trans turn)]
      | initBlocked m predecessor =>
        rw [place] at waits
        cases waits.2.symm.trans turn
      | link m predecessor =>
        rw [place] at waits
        cases waits.2.1.symm.trans turn
      | _ =>
        rw [place] at waits
        exact waits.elim
    refine ⟨u, rest, line, waiting, queue.leave line (fun v other => goto_other _ _ _ other) (goto_self _ _ _) ?_
      (fun n => ?_) (fun v first => ?_) fun v n second holds => ?_⟩
    · rw [if_neg (List.cons_ne_nil u rest)]
      rfl
    · exact setBlocked_next s successor false n
    · obtain rfl : u = v := by simpa using first
      rw [waiting]
      show ((s.setBlocked successor false).node successor).blocked = false
      rw [setBlocked, setNode_self]
    · rw [goto_node, setBlocked, setNode_other]
      rintro rfl
      exact second (by rw [queue.apart v u n holds (by rw [waiting]; rfl)]; rfl)

theorem go (running : s.call t ≠ .outside ∧ ∀ me, s.call t ≠ .holding me) :
    (s.go t).Queue (line t (s.call t) ((s.go t).call t) q) := by
  rw [McsLock.go]
  cases call : s.call t with
  | outside => exact absurd call running.1
  | holding me => exact absurd call (running.2 me)
  | initNext me =>
    simp only [goto_self]
    exact queue.prepared (by rw [call]; rfl) (by rw [call]; rfl) rfl rfl
  | storeNext me =>
    simp only [goto_self]
    exact queue.prepared (by rw [call]; rfl) (by rw [call]; rfl) rfl rfl
  | exchange me =>
    cases tail : s.tail with
    | none =>
      simp only [goto_self]
      exact queue.arrive (by rw [call]; rfl) (by rw [call]; rfl) rfl rfl (fun _ => ⟨me, rfl⟩)
        fun predecessor some => by cases tail.symm.trans some
    | some predecessor =>
      simp only [goto_self]
      refine queue.arrive (by rw [call]; rfl) (by rw [call]; rfl) rfl rfl (fun none => ?_) fun other some => ?_
      · cases tail.symm.trans none
      · rw [Option.some.inj (tail.symm.trans some)]
  | compareExchange me =>
    cases tail : s.tail with
    | none =>
      simp only [goto_self]
      exact queue.arrive (by rw [call]; rfl) (by rw [call]; rfl) rfl rfl (fun _ => ⟨me, rfl⟩)
        fun predecessor some => by cases tail.symm.trans some
    | some predecessor =>
      simp only [goto_self]
      refine queue.idle (fun u other => goto_other _ _ _ other) rfl (by rw [call]; rfl) (by rw [goto_self]; rfl)
        (fun u n other holds => ?_) (fun n new => ?_) fun u n other holds => rfl
      · rw [goto_self]
        exact fun none => by cases none
      · rw [goto_self] at new
        cases new
  | initBlocked me predecessor =>
    simp only [goto_self]
    exact queue.blocked call
  | link me predecessor =>
    simp only [goto_self]
    exact queue.linking call
  | wait me =>
    cases told : (s.node me).blocked with
    | true =>
      simp only [told, if_true, call]
      exact queue
    | false =>
      simp only [told, Bool.false_eq_true, if_false, goto_self]
      have turn : s.InTurn (s.call t) := by
        rw [call]
        exact told
      exact queue.turns turn (by rw [call]; rfl) (show s.InTurn (.holding me) from trivial)
  | loadNext me =>
    have turn := queue.turn_of_owns (t := t) (by rw [call]; rfl)
    cases next : (s.node me).next with
    | none =>
      simp only [next, goto_self]
      exact queue.turns turn (by rw [call]; rfl) (show s.InTurn (.removeSelf me) from trivial)
    | some successor =>
      simp only [next, goto_self]
      exact queue.turns turn (by rw [call]; rfl) (show s.InTurn (.signal me successor) from next)
  | removeSelf me =>
    have turn := queue.turn_of_owns (t := t) (by rw [call]; rfl)
    by_cases tail : s.tail = some me
    · simp only [tail, if_true, goto_self]
      obtain ⟨line, left⟩ := queue.removed call tail
      rw [line]
      exact left
    · simp only [tail, if_false, goto_self]
      exact queue.turns turn (by rw [call]; rfl) (show s.InTurn (.awaitNext me) from tail)
  | awaitNext me =>
    have turn := queue.turn_of_owns (t := t) (by rw [call]; rfl)
    cases next : (s.node me).next with
    | none =>
      simp only [next, call]
      exact queue
    | some successor =>
      simp only [next, goto_self]
      exact queue.turns turn (by rw [call]; rfl) (show s.InTurn (.signal me successor) from next)
  | signal me successor =>
    simp only [goto_self]
    obtain ⟨u, rest, line, -, left⟩ := queue.signalled call
    rw [line]
    exact left

theorem step {a : McsAction Node} (enabled : s.Enabled t a) :
    (s.after t a).Queue (line t (s.call t) ((s.after t a).call t) q) := by
  cases a with
  | mcsLock me storage =>
    rw [after, goto_self, enabled.1]
    exact queue.called enabled.1 enabled.2 rfl rfl rfl
  | mcsTryLock me storage =>
    rw [after, goto_self, enabled.1]
    exact queue.called enabled.1 enabled.2 rfl rfl rfl
  | mcsUnlock =>
    obtain ⟨me, call⟩ := enabled
    have turn := queue.turn_of_owns (t := t) (by rw [call]; rfl)
    simp only [after, call, goto_self]
    exact queue.turns turn (by rw [call]; rfl) trivial
  | go => exact queue.go enabled

end Queue

end McsLock

end Romp
