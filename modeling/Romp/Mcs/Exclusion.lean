import Romp.Mcs.Turns

namespace Romp

namespace McsLock

variable {Node Thread : Type} {s s' : McsLock Node Thread} {q q' : List Thread} {t : Thread}

def owners (s : McsLock Node Thread) (q : List Thread) : List Thread := q.filter fun u => (s.call u).owns

namespace Queue

theorem owner_unique (queue : s.Queue q) {u v : Thread} (owns : (s.call u).owns = true) (owns' : (s.call v).owns = true) :
    u = v := by
  obtain ⟨rest, line⟩ := queue.first_of_owns owns
  obtain ⟨rest', line'⟩ := queue.first_of_owns owns'
  exact (List.cons.inj (line.symm.trans line')).1

theorem owners_one (queue : s.Queue q) (owns : (s.call t).owns = true) : s.owners q = [t] := by
  obtain ⟨rest, rfl⟩ := queue.first_of_owns owns
  rw [owners, List.filter_cons_of_pos (by simpa using owns), List.filter_eq_nil_iff.mpr]
  intro u inside owns'
  rw [queue.owner_unique owns owns'] at queue
  exact (List.nodup_cons.mp queue.nodup).1 inside

theorem owners_none (none : ∀ u, (s.call u).owns = false) : s.owners q = [] := by
  rw [owners, List.filter_eq_nil_iff]
  intro u _
  simp [none u]

theorem owners_kept (queue : s.Queue q) (queue' : s'.Queue q') (others : ∀ u, u ≠ t → s'.call u = s.call u)
    (same : (s'.call t).owns = (s.call t).owns) : s'.owners q' = s.owners q := by
  by_cases owner : ∃ u, (s.call u).owns = true
  · obtain ⟨u, owns⟩ := owner
    have owns' : (s'.call u).owns = true := by
      by_cases self : u = t
      · rw [self] at owns ⊢
        rw [same, owns]
      · rw [others u self, owns]
    rw [queue.owners_one owns, queue'.owners_one owns']
  · have none : ∀ u, (s.call u).owns = false := by simpa using owner
    rw [owners_none none, owners_none]
    intro u
    by_cases self : u = t
    · rw [self, same, none]
    · rw [others u self, none]

theorem alone (queue : s.Queue q) (others : ∀ u, u ≠ t → s'.call u = s.call u) (owns : (s.call t).owns = true)
    (gone : (s'.call t).owns = false) (u : Thread) : (s'.call u).owns = false := by
  by_cases self : u = t
  · rw [self, gone]
  · rw [others u self]
    by_contra owns'
    exact self (queue.owner_unique (by simpa using owns') owns)

theorem initial (storage : Node → McsNode Node) : (mcsInit storage : McsLock Node Thread).Queue [] where
  nodup := List.nodup_nil
  queued u := by simp [mcsInit, McsCall.queued]
  apart u v n own := by cases own
  new u n isNew := by cases isNew
  tail := rfl
  first u first := by cases first
  links a u v b split := by simp at split
  last u last := by cases last

end Queue

variable {h : History Thread}

/-- The queue holds who has arrived and not left; the first one may have entered. -/
def Told (s : McsLock Node Thread) (h : History Thread) (q : List Thread) : Prop :=
  h.arrived = h.left ++ q ∧ h.entered = h.left ++ s.owners q

theorem arrived_line {call call' : McsCall Node} (stays : call.owns = false ∨ call'.owns = true)
    (arrived : h.arrived = h.left ++ q) : (h.add t call call').arrived = h.left ++ line t call call' q := by
  have leaves : ¬(call.owns = true ∧ call'.owns = false) := by
    rintro ⟨owns, gone⟩
    rcases stays with owns' | owns'
    · cases owns.symm.trans owns'
    · cases gone.symm.trans owns'
  simp only [History.add, line, if_neg leaves]
  split
  · rw [arrived, List.append_assoc]
  · exact arrived

theorem Told.add (told : s.Told h q) (queue : s.Queue q) (queue' : s'.Queue (line t (s.call t) (s'.call t) q))
    (others : ∀ u, u ≠ t → s'.call u = s.call u) :
    s'.Told (h.add t (s.call t) (s'.call t)) (line t (s.call t) (s'.call t) q) := by
  obtain ⟨arrived, entered⟩ := told
  by_cases same : (s'.call t).owns = (s.call t).owns
  · have stays : (s.call t).owns = false ∨ (s'.call t).owns = true := by
      rw [same]
      cases (s.call t).owns <;> simp
    refine ⟨?_, ?_⟩
    · rw [arrived_line stays arrived, History.add, same]
      simp
    · rw [queue.owners_kept queue' others same, History.add, same, entered]
      simp
  · cases owns : (s.call t).owns with
    | true =>
      have gone : (s'.call t).owns = false := by simpa [owns] using same
      obtain ⟨rest, split⟩ := queue.first_of_owns owns
      have leaves : line t (s.call t) (s'.call t) q = rest := by
        simp [line, McsCall.owns_queued owns, owns, gone, split]
      have before := queue.owners_one owns
      rw [leaves]
      refine ⟨?_, ?_⟩
      · simp [History.add, McsCall.owns_queued owns, owns, gone, arrived, split]
      · rw [Queue.owners_none (queue.alone others owns gone)]
        simp [History.add, owns, gone, entered, before]
    | false =>
      have entering : (s'.call t).owns = true := by simpa [owns] using same
      have before : s.owners q = [] :=
        Queue.owners_none (queue'.alone (fun u other => (others u other).symm) entering owns)
      refine ⟨?_, ?_⟩
      · rw [arrived_line (.inl owns) arrived, History.add, owns]
        simp
      · rw [queue'.owners_one entering]
        simp [History.add, owns, entering, entered, before]

variable [DecidableEq Node] [DecidableEq Thread]

theorem Reached.queue (reached : Reached s h) : ∃ q, s.Queue q ∧ s.Told h q := by
  induction reached with
  | start storage => exact ⟨[], .initial storage, rfl, rfl⟩
  | @step s h t a reached enabled ih =>
    obtain ⟨q, queue, told⟩ := ih
    have queue' := queue.step enabled
    exact ⟨_, queue', told.add queue queue' fun u => after_other s a⟩

/-- At most one thread has the lock at a time, the threads get it in the order in which they have put their nodes at
    the tail, and hand it over in that order. -/
theorem mcs_fifo (reached : Reached s h) :
    (∀ u v, (s.call u).owns = true → (s.call v).owns = true → u = v) ∧
      h.left <+: h.entered ∧ h.entered <+: h.arrived ∧ h.entered.length ≤ h.left.length + 1 ∧
      (h.left.length < h.entered.length ↔ ∃ u, (s.call u).owns = true) := by
  obtain ⟨q, queue, arrived, entered⟩ := reached.queue
  refine ⟨fun u v => queue.owner_unique, ⟨_, entered.symm⟩, ?_⟩
  by_cases owner : ∃ u, (s.call u).owns = true
  · obtain ⟨u, owns⟩ := owner
    obtain ⟨rest, split⟩ := queue.first_of_owns owns
    have one := queue.owners_one owns
    refine ⟨⟨rest, ?_⟩, ?_, fun _ => ⟨u, owns⟩, fun _ => ?_⟩
    · rw [entered, one, arrived, split]
      simp
    · rw [entered, one]
      simp
    · rw [entered, one]
      simp
  · have none : ∀ u, (s.call u).owns = false := by simpa using owner
    have empty := Queue.owners_none (q := q) none
    refine ⟨⟨q, ?_⟩, ?_, fun less => ?_, fun some => absurd some owner⟩
    · rw [entered, empty, arrived]
      simp
    · rw [entered, empty]
      simp
    · rw [entered, empty] at less
      simp at less

def handOver : List (Bool × McsAction Bool) :=
  [(false, .mcsLock false ⟨none, true⟩), (false, .go), (false, .go), (true, .mcsLock true ⟨some true, false⟩),
    (true, .go), (true, .go), (false, .mcsUnlock), (false, .go), (false, .go), (true, .go), (true, .go),
    (true, .go), (false, .go), (false, .go), (true, .go)]

theorem reached_pair (schedule : List (Bool × McsAction Bool))
    (permits : Permits schedule (mcsInit fun _ => ⟨none, true⟩)) :
    Reached (play schedule (mcsInit fun _ => ⟨none, true⟩) ⟨[], [], []⟩).1
      (play schedule (mcsInit fun _ => ⟨none, true⟩) ⟨[], [], []⟩).2 :=
  (Reached.start fun _ => ⟨none, true⟩).play permits

theorem mcs_fifo_pair : ∃ (s : McsLock Bool Bool) (h : History Bool), Reached s h ∧ h.arrived = [false, true] ∧
    h.left = [false] ∧ (s.call true).owns = true ∧ (s.call false).owns = false ∧ h.entered <+: [false, true] ∧
    h.left.length < h.entered.length := by
  have reached := reached_pair handOver (by decide)
  have owns : ((play handOver (mcsInit fun _ => ⟨none, true⟩) ⟨[], [], []⟩).1.call true).owns = true := by decide
  have fifo := mcs_fifo reached
  exact ⟨_, _, reached, by decide, by decide, owns, by decide, fifo.2.2.1, fifo.2.2.2.2.mpr ⟨true, owns⟩⟩

/-- What an access of a thread reads or writes is in a node of a call that has not returned, and an `atomic_init` is
    not made to a field that another thread is accessing. -/
theorem mcs_access_safe (reached : Reached s h) {n : Node} {field : McsField}
    (touches : (s.call t).touches = some (n, field)) : (∃ u, (s.call u).me = some n) ∧
      ((s.call t).inits = true → ∀ u, (s.call u).touches = some (n, field) → u = t) := by
  obtain ⟨q, queue, -⟩ := reached.queue
  have inside : ∀ {u v : Thread} {a b : List Thread}, q = a ++ u :: v :: b → (s.call u).queued = true := by
    intro u v a b split
    exact (queue.queued u).mp (by simp [split])
  refine ⟨?_, fun inits u touches' => ?_⟩
  · rcases McsCall.touches_cases touches with own | ⟨m, call, -⟩ | ⟨m, call, -⟩
    · exact ⟨t, own⟩
    · rcases queue.cases ((queue.queued t).mpr (by rw [call]; rfl)) with ⟨rest, -, turn⟩ | ⟨a, u, b, p, -, own, waits⟩
      · rw [call] at turn
        exact turn.elim
      · rw [call] at waits
        exact ⟨u, waits.1 ▸ own⟩
    · obtain ⟨u, rest, -, waiting, -⟩ := queue.signalled call
      exact ⟨u, by rw [waiting]; rfl⟩
  · rcases McsCall.inits_cases inits touches with ⟨call, rfl⟩ | ⟨⟨predecessor, call⟩, rfl⟩
    · have own : (s.call t).me = some n := by rw [call]; rfl
      rcases McsCall.touches_cases touches' with own' | ⟨m, call', -⟩ | ⟨m, -, other⟩
      · exact queue.apart u t n own' own
      · -- no thread links itself behind a node that is not in the queue
        obtain ⟨⟨a, b, split⟩, -⟩ := queue.linked call' own
        cases (congrArg McsCall.queued call).symm.trans (inside split)
      · cases other
    · have own : (s.call t).me = some n := by rw [call]; rfl
      rcases McsCall.touches_cases touches' with own' | ⟨m, -, other⟩ | ⟨m, call', -⟩
      · exact queue.apart u t n own' own
      · cases other
      · -- who is signalled has linked itself
        obtain ⟨v, rest, -, waiting, -⟩ := queue.signalled call'
        have same := queue.apart v t n (by rw [waiting]; rfl) own
        rw [same, call] at waiting
        cases waiting

theorem mcs_access_safe_pair : ∃ (s : McsLock Bool Bool) (h : History Bool), Reached s h ∧
    (s.call true).inits = true ∧ (∃ u, (s.call u).me = some true) ∧
      ∀ u, (s.call u).touches = some (true, .blocked) → u = true := by
  have reached := reached_pair (handOver.take 9) (by decide)
  have safe := mcs_access_safe reached (t := true) (n := true) (show _ = some (true, McsField.blocked) by decide)
  exact ⟨_, _, reached, by decide, safe.1, safe.2 (by decide)⟩

/-- `mcsTryLock` gets the lock if and only if no thread has it or waits for it; else it leaves the queue alone. -/
theorem mcsTryLock_iff (reached : Reached s h) {me : Node} (call : s.call t = .compareExchange me) :
    ((s.go t).call t = .holding me ↔ ∀ u, (s.call u).queued = false) ∧
      ((s.go t).call t ≠ .holding me → s.go t = s.goto t .outside) := by
  obtain ⟨q, queue, -⟩ := reached.queue
  cases tail : s.tail with
  | none =>
    have empty := queue.tail_none.mp tail
    have got : (s.go t).call t = .holding me := by
      rw [go, call]
      simp [tail]
    refine ⟨⟨fun _ u => ?_, fun _ => got⟩, fun other => absurd got other⟩
    by_contra queued
    have inside := (queue.queued u).mpr (by simpa using queued)
    rw [empty] at inside
    cases inside
  | some n =>
    obtain ⟨u, last, own⟩ := queue.tail_some tail
    have left : s.go t = s.goto t .outside := by
      rw [go, call]
      simp [tail]
    refine ⟨⟨fun got => ?_, fun none => ?_⟩, fun _ => left⟩
    · rw [left, goto_self] at got
      cases got
    · cases (none u).symm.trans ((queue.queued u).mp (List.mem_of_getLast? last))

def tryBusy : List (Bool × McsAction Bool) :=
  handOver.take 3 ++ [(true, .mcsTryLock true ⟨none, true⟩), (true, .go)]

theorem mcsTryLock_iff_busy : ∃ (s : McsLock Bool Bool) (h : History Bool), Reached s h ∧
    s.call true = .compareExchange true ∧ s.go true = s.goto true .outside := by
  have reached := reached_pair tryBusy (by decide)
  have call : (play tryBusy (mcsInit fun _ => ⟨none, true⟩) ⟨[], [], []⟩).1.call true = .compareExchange true := by decide
  have queued : ((play tryBusy (mcsInit fun _ => ⟨none, true⟩) ⟨[], [], []⟩).1.call false).queued = true := by decide
  have tried := mcsTryLock_iff reached call
  refine ⟨_, _, reached, call, tried.2 fun got => ?_⟩
  cases queued.symm.trans (tried.1.mp got false)

end McsLock

end Romp
