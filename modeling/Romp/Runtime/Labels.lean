import Romp.Runtime.Placement

namespace Romp

namespace Task

theorem strands_plain {t : Task} (plain : t.units = []) (number : Nat) :
    t.strands number = t.line ++ [⟨number, none⟩] := by
  rw [strands, body_units, plain]
  rfl

theorem strands_unit {t : Task} {c : Construct} (unit : t.units = [c]) (number : Nat) :
    t.strands number = t.line ++ [⟨number, none⟩, ⟨number, some c⟩] := by
  rw [strands, body_units, unit]
  rfl

theorem units_groups {t : Task} (groups : t.constructs.all Construct.isTaskgroup = true) : t.units = [] := by
  rw [units, List.filter_eq_nil_iff]
  intro c inside
  rw [Construct.number_none (List.all_eq_true.mp groups c inside)]
  exact Bool.false_ne_true

end Task

namespace Runtime

variable {R : Runtime}

theorem Lineage.units_cons (lineage : R.Lineage) {t : Nat} {c : Construct} {rest : List Construct} {k : Nat}
    (constructs : (R.task t).constructs = c :: rest) (number : c.number = some k) :
    (R.task t).units = [c] ∧ rest.filter (fun c => c.number.isSome) = [] := by
  have short := (lineage.units t).1
  have units : (R.task t).units = c :: rest.filter fun c => c.number.isSome := by
    rw [Task.units, constructs, List.filter_cons_of_pos (by rw [number]; rfl)]
  rw [units, List.length_cons] at short
  have empty := List.eq_nil_of_length_eq_zero (show (rest.filter fun c => c.number.isSome).length = 0 by omega)
  exact ⟨by rw [units, empty], empty⟩

theorem unmoved_waitTask (t : Nat) : R.Unmoved (R.after (.taskwaitEnd t)) := by
  have kept : ∀ x, ((R.after (.taskwaitEnd t)).task x).begun = (R.task x).begun ∧
      ((R.after (.taskwaitEnd t)).task x).body = (R.task x).body ∧
      ((R.after (.taskwaitEnd t)).task x).ended = (R.task x).ended := by
    intro x
    simp only [after, waitTask]
    by_cases self : x = t
    · rw [if_pos self, self]
      exact ⟨rfl, rfl, rfl⟩
    · rw [if_neg self]
      split <;> exact ⟨rfl, rfl, rfl⟩
  exact .of_tasks (after_extends R _) rfl (fun x => (kept x).1) (fun x => (kept x).2.1) fun x _ _ => (kept x).2.2

theorem unmoved_release (r : Nat) : R.Unmoved (R.after (.release r)) := by
  have kept : ∀ x, ((R.after (.release r)).task x).begun = (R.task x).begun ∧
      ((R.after (.release r)).task x).body = (R.task x).body ∧
      ((R.after (.release r)).task x).ended = (R.task x).ended := by
    intro x
    obtain ⟨known, same⟩ := release_kept (R := R) (r := r) x
    rw [same]
    exact ⟨rfl, rfl, rfl⟩
  exact .of_tasks (after_extends R _) rfl (fun x => (kept x).1) (fun x => (kept x).2.1) fun x _ _ => (kept x).2.2

theorem unmoved_parallelBegin (t size : Nat) : R.Unmoved (R.after (.parallelBegin t size)) := by
  have extend := after_extends R (.parallelBegin t size)
  refine ⟨extend.tasks, extend.fixed, fun x bound begun => ?_⟩
  by_cases old : x < R.tasks
  · have kept : ((R.after (.parallelBegin t size)).task x).begun = (R.task x).begun ∧
        ((R.after (.parallelBegin t size)).task x).body = (R.task x).body ∧
        ((R.after (.parallelBegin t size)).task x).ended = (R.task x).ended := by
      rw [fork_task old]
      by_cases self : x = t
      · rw [if_pos self, self]
        exact ⟨rfl, rfl, rfl⟩
      · rw [if_neg self]
        exact ⟨rfl, rfl, rfl⟩
    exact ⟨old, kept.1.symm.trans begun, place_eq (extend.fixed x old) kept.2.1 fun _ => kept.2.2⟩
  · have bound : x < R.tasks + size := bound
    have made := fork_member (R := R) (t := t) (show x - R.tasks < size by omega)
    rw [show R.tasks + (x - R.tasks) = x by omega] at made
    rw [made] at begun
    cases begun

theorem Unmoved.trans {R' R'' : Runtime} (first : R.Unmoved R') (second : R'.Unmoved R'') : R.Unmoved R'' := by
  refine ⟨first.tasks.trans second.tasks, fun x isTask => ?_, fun x bound begun => ?_⟩
  · exact (first.origin x isTask).trans (second.origin x (Nat.lt_of_lt_of_le isTask first.tasks))
  · obtain ⟨bound, begun, place⟩ := second.same x bound begun
    obtain ⟨bound, begun, place'⟩ := first.same x bound begun
    exact ⟨bound, begun, place.trans place'⟩

theorem unmoved_same_tasks {R' : Runtime} (tasks : R'.task = R.task) (count : R'.tasks = R.tasks) : R.Unmoved R' := by
  refine ⟨count.ge, fun x _ => by rw [tasks]; exact .refl _, fun x bound begun => ?_⟩
  rw [tasks] at begun
  rw [count] at bound
  exact ⟨bound, begun, by rw [place, place, tasks]⟩

theorem finishIteration_tasks (t : Nat) : (R.finishIteration t).tasks = R.tasks := by
  unfold finishIteration
  split <;> rfl

theorem unmoved_finishIteration (t : Nat) : R.Unmoved (R.finishIteration t) :=
  unmoved_same_tasks (finishIteration_task R t) (finishIteration_tasks t)

theorem Elsewhere.of_set {R' : Runtime} {t : Nat} {task : Task} (others : ∀ x, x ≠ t → R'.task x = R.task x)
    (count : R'.tasks = R.tasks) (origin : (R.task t).SameOrigin task) (now : R'.task t = task) : R.Elsewhere R' t := by
  refine ⟨count.ge, fun x _ => ?_, fun x bound other begun => ?_⟩
  · by_cases self : x = t
    · rw [self, now]
      exact origin
    · rw [others x self]
      exact .refl _
  · rw [others x other] at begun
    exact ⟨count ▸ bound, begun, by rw [place, place, others x other]⟩

theorem workBegin_task (R : Runtime) (t : Nat) (work : Work) (executor : Bool) :
    ∃ c : Construct, c.number = some (R.task t).works ∧
      (R.after (.workBegin t work executor)).task t =
        { (R.task t).enter c with works := (R.task t).works + 1 } ∧
      (R.after (.workBegin t work executor)).tasks = R.tasks ∧
      ∀ x, x ≠ t → (R.after (.workBegin t work executor)).task x = R.task x := by
  refine ⟨.ofWork work (R.task t).works executor, Construct.ofWork_number .., ?_, ?_, fun x other => ?_⟩
  · simp only [after, beginWork]
    split <;> exact (set_task ..).trans (if_pos rfl)
  · simp only [after, beginWork]
    split <;> rfl
  · simp only [after, beginWork]
    split <;> simp only [setRegion_task, set_task, if_neg other]

theorem dispatch_task {t : Nat} {id : BitVec 64} (inside : (match (R.task t).region, (R.task t).constructs with
      | some r, .loop number .. :: _ => !(R.region r).dispatched number id
      | some _, .sections .. :: _ => true
      | _, _ => false) = true) :
    ∃ (c c' : Construct) (rest : List Construct) (k : Nat), (R.task t).constructs = c :: rest ∧ c.number = some k ∧
      c'.number = some k ∧ (R.after (.dispatch t id)).task t = { R.task t with constructs := c' :: rest } ∧
      (R.after (.dispatch t id)).tasks = R.tasks ∧ ∀ x, x ≠ t → (R.after (.dispatch t id)).task x = R.task x := by
  have task := finishIteration_task R t
  have count := finishIteration_tasks (R := R) t
  split at inside
  · rename_i r number turn last rest region constructs
    have same : R.after (.dispatch t id) = R.dispatchTo t id := rfl
    simp only [dispatchTo, task, region, constructs] at same
    refine ⟨_, .loop number (turn + 1) (some id), rest, number, constructs, rfl, rfl, ?_, ?_, fun x other => ?_⟩
    all_goals
      rw [same]
      simp [*]
  · rename_i r number unit rest region constructs
    have same : R.after (.dispatch t id) = R.dispatchTo t id := rfl
    simp only [dispatchTo, task, region, constructs] at same
    refine ⟨_, .sections number (unit + 1), rest, number, constructs, rfl, rfl, ?_, ?_, fun x other => ?_⟩
    all_goals
      rw [same]
      simp [*]
  · cases inside

end Runtime

namespace Runtime.Nested

variable {R : Runtime} (nested : R.Nested)

include nested

theorem unbegun {t : Nat} (isTask : t < R.tasks) (unbegun : (R.task t).begun = false) :
    ∃ r < R.regions, ∃ i < (R.region r).size, t = R.memberOf r i ∧ (R.task t).kind = .implicit r i ∧
      (R.task t).constructs = [] ∧ R.IsOpen r := by
  cases kind : (R.task t).kind with
  | initial =>
    rw [nested.initial t isTask kind, nested.root.2.2.1] at unbegun
    cases unbegun
  | explicit =>
    rw [(nested.explicit t isTask kind).2.1] at unbegun
    cases unbegun
  | implicit r i =>
    obtain ⟨isRegion, isMember, rfl⟩ := nested.member t isTask r i kind
    have counters := nested.counters r isRegion i isMember
    have still := counters.unbegun unbegun
    refine ⟨r, isRegion, i, isMember, rfl, rfl, still.2.2, nested.live_open isRegion isMember ?_⟩
    rw [← Bool.not_eq_true]
    intro ended
    cases (counters.ended ended).1.symm.trans still.2.1

theorem forker (lineage : R.Lineage) {r : Nat} (isRegion : r < R.regions) (isOpen : R.IsOpen r) :
    (R.task (R.region r).encountering).begun = true ∧ (R.task (R.region r).encountering).ended = false := by
  obtain ⟨rest, waits⟩ := open_head isOpen
  refine ⟨(nested.busy (nested.encountering_lt isRegion) waits rfl).2.1, ?_⟩
  rw [← Bool.not_eq_true]
  intro ended
  cases waits.symm.trans (lineage.idle _ ended)

end Runtime.Nested

/-- The labels follow the strands after a step too; no segment that was there changes its owner, and no task
    the label that it was created with. -/
def Carried (R R' : Runtime) (d d' : Detector) (owner : Nat → Strand) : Prop :=
  ∃ owner', (Lined R' d' owner' ∧ SameBirths R R' d d') ∧ (∀ r < d.heap.next, owner' r = owner r) ∧
    d.heap.Grows d'.heap

namespace Lined

variable {R R' : Runtime} {d d' : Detector} {owner : Nat → Strand} (lined : Lined R d owner)

include lined

theorem carry (upper dropped lower : Label) (strand : Strand) (lineage' : R'.Lineage) {t : Nat} (isTask : t < R.tasks)
    (begun : (R.task t).begun = true) (elsewhere : R.Elsewhere R' t) (count : R'.tasks = R.tasks)
    (moves : d.Moves d' t (upper ++ dropped ++ lower) (upper ++ d.heap.next :: lower))
    (next : d'.heap.next = d.heap.next + 1) (grows : d.heap.Grows d'.heap)
    (placed : R'.place t = upper.map owner ++ strand :: lower.map owner)
    (low : (R.task t).line.length ≤ upper.length + 1)
    (explicit : (R.task t).kind = .explicit → (R.task t).line.length ≤ upper.length) : Carried R R' d d' owner :=
  ⟨_, lined.move lineage' isTask begun elsewhere count moves next grows placed low explicit,
    fun _ bound => Function.update_of_ne (Nat.ne_of_lt bound) _ _, grows⟩

theorem carry_still (lineage' : R'.Lineage) (unmoved : R.Unmoved R') (quiet : d.Quiet d') : Carried R R' d d' owner := by
  have grows : d.heap.Grows d'.heap := quiet.heap ▸ .refl _
  exact ⟨owner, lined.still lineage' unmoved grows quiet.labels, fun _ _ => rfl, grows⟩

theorem carry_last (lineage' : R'.Lineage) {t : Nat} {init : Label} {r : Nat} (isTask : t < R.tasks)
    (begun : (R.task t).begun = true) (live : (R.task t).ended = false) (unmoved : R.Unmoved R')
    (begun' : (R'.task t).begun = true) (count : R'.tasks = R.tasks)
    (moves : d.Moves d' t (init ++ [r]) (init ++ [d.heap.next]))
    (next : d'.heap.next = d.heap.next + 1) (grows : d.heap.Grows d'.heap) : Carried R R' d d' owner := by
  have before := (lined.place_length isTask begun moves.old).1
  have same := (unmoved.same t (count ▸ isTask) begun').2.2
  have length := congrArg List.length before
  rw [Runtime.place_live live, Task.strands] at length
  simp only [List.length_map, List.length_append, List.length_cons, List.length_nil] at length
  refine lined.carry init [r] [] (owner r) lineage' isTask begun
    (unmoved.elsewhere t) count ?_ next grows ?_ (by omega) fun _ => by omega
  · rw [List.append_nil]
    exact moves
  · rw [same, ← before, List.map_append]
    rfl

variable (nested : R.Nested) (lineage : R.Lineage)

include nested lineage

theorem implicitBegin {t : Nat} (lineage' : (R.after (.implicitBegin t)).Lineage) (isTask : t < R.tasks)
    (unbegun : (R.task t).begun = false) (handled : d.handle R (.implicitBegin t) = .ok d') :
    Carried R (R.after (.implicitBegin t)) d d' owner := by
  obtain ⟨r, isRegion, i, isMember, self, kind, idle, isOpen⟩ := nested.unbegun isTask unbegun
  have member := nested.kind r isRegion i isMember
  rw [← self] at member
  have forker := nested.forker lineage isRegion isOpen
  obtain ⟨upper, s, known, -, heap, now, others, -⟩ :=
    Detector.handle_implicitBegin kind (nested.bounds r isRegion).1 handled
  rw [member.2.1] at known
  have live : (R.task t).ended = false := by
    rw [← Bool.not_eq_true]
    intro ended
    rw [self] at ended unbegun
    have counters := nested.counters r isRegion i isMember
    cases (counters.ended ended).1.symm.trans (counters.unbegun unbegun).2.1
  have line := lineage.waiting r isRegion i isMember (self ▸ live)
  rw [← self, ← Runtime.place_live forker.2] at line
  have grows : d.heap.Grows d'.heap := heap ▸ (d.heap.alloc_extends s).grows
  refine ⟨_, lined.enter lineage' (nested.encountering_lt isRegion) forker.1 (.set ⟨rfl, rfl, rfl, rfl, rfl, rfl⟩)
    (fun x bound => .inl bound) (fun _ explicit => ?_) known others now (heap ▸ rfl) grows ?_ ?_
    (Runtime.place_live forker.2), fun _ bound => Function.update_of_ne (Nat.ne_of_lt bound) _ _, grows⟩
  · cases kind.symm.trans explicit
  · simp only [Runtime.after, Runtime.set_task, if_true]
    exact line
  · have same : (R.after (.implicitBegin t)).task t = { R.task t with begun := true } := by
      simp only [Runtime.after, Runtime.set_task, if_true]
    rw [Runtime.place_live (by rw [same]; exact live), ← line, same]
    exact Task.strands_plain (show (R.task t).constructs.filter _ = [] by rw [idle]; rfl) t

omit lineage in
theorem barrierEnd {t r i : Nat} (lineage' : (R.after (.barrierEnd t)).Lineage) (isRegion : r < R.regions)
    (isMember : i < (R.region r).size) (self : t = R.memberOf r i) (pending : (R.task t).passed < (R.region r).released)
    (handled : d.handle R (.barrierEnd t) = .ok d') : Carried R (R.after (.barrierEnd t)) d d' owner := by
  subst self
  have counters := nested.counters r isRegion i isMember
  have isTask := nested.member_lt isRegion isMember
  have kind := (nested.kind r isRegion i isMember).1
  have notExplicit : (R.task (R.memberOf r i)).kind ≠ .explicit := by
    rw [kind]
    intro explicit
    cases explicit
  have arrived := counters.arrived
  have groups : (R.task (R.memberOf r i)).constructs.all Construct.isTaskgroup = true := by
    by_contra busy
    have settled := (counters.busy (by simpa using busy)).1
    omega
  have begun : (R.task (R.memberOf r i)).begun = true := by
    by_contra unbegun
    have still := (counters.unbegun (by simpa using unbegun)).1
    omega
  obtain ⟨init, x, m, relabels, heap⟩ := Detector.handle_barrierEnd handled
  have before := (lined.place_length isTask begun relabels.old).1
  have place := Runtime.place_implicit notExplicit
  rw [Task.strands_plain (Task.units_groups groups)] at place
  have unmoved : R.Unmoved (R.after (.barrierEnd (R.memberOf r i))) :=
    .set ⟨rfl, rfl, rfl, rfl, rfl, rfl⟩ rfl rfl fun _ => rfl
  have same : (R.after (.barrierEnd (R.memberOf r i))).place (R.memberOf r i) = R.place (R.memberOf r i) :=
    Runtime.place_eq (unmoved.origin _ isTask) (by simp [Runtime.after, Task.body]) fun explicit => absurd explicit notExplicit
  have length := congrArg List.length before
  rw [place] at length
  simp only [List.length_map, List.length_append, List.length_cons, List.length_nil] at length
  refine lined.carry init [x] [m] (owner x) lineage' isTask begun
    (unmoved.elsewhere _) rfl ?_ (heap ▸ rfl) (heap ▸ (d.heap.alloc_extends _).grows) ?_ (by omega)
    fun explicit => absurd explicit notExplicit
  · rw [List.append_assoc]
    exact relabels.toMoves
  · rw [same, ← before, List.map_append]
    rfl

theorem implicitEnd {t r i : Nat} (lineage' : (R.after (.implicitEnd t)).Lineage) (isRegion : r < R.regions)
    (isMember : i < (R.region r).size) (self : t = R.memberOf r i) (closing : (R.task t).closing = true)
    (live : (R.task t).ended = false) (handled : d.handle R (.implicitEnd t) = .ok d') :
    Carried R (R.after (.implicitEnd t)) d d' owner := by
  have member := nested.kind r isRegion i isMember
  have isTask := nested.member_lt isRegion isMember
  have isOpen := nested.live_open isRegion isMember (self ▸ live)
  have line := lineage.waiting r isRegion i isMember (self ▸ live)
  rw [← self] at member isTask line
  have notExplicit : (R.task t).kind = .explicit → (R.after (.implicitEnd t)).place t = R.place t ∧ False := by
    intro explicit
    cases member.1.symm.trans explicit
  have unmoved : R.Unmoved (R.after (.implicitEnd t)) :=
    .set ⟨rfl, rfl, rfl, rfl, rfl, rfl⟩ rfl rfl fun explicit => (notExplicit explicit).2.elim
  by_cases first : i = 0
  · subst first
    have forker := nested.forker lineage isRegion isOpen
    obtain ⟨upper, m, old, known, heap, now, others, -⟩ := Detector.handle_implicitEnd_first member.1 handled
    rw [member.2.1] at now others
    have notSelf : (R.region r).encountering ≠ t := by
      have bounds := nested.bounds r isRegion
      rw [self, Runtime.memberOf]
      omega
    have begun : (R.task t).begun = true := by
      rw [← Bool.not_eq_false]
      intro unbegun
      have counters := nested.counters r isRegion 0 isMember
      rw [← self] at counters
      cases closing.symm.trans (counters.unbegun unbegun).2.1
    refine ⟨owner, lined.join lineage' isTask begun (nested.encountering_lt isRegion) (unmoved.elsewhere _) rfl known heap
      others now ?_ line forker.1, fun _ _ => rfl, heap ▸ .refl _⟩
    have same : (R.after (.implicitEnd t)).task (R.region r).encountering = R.task (R.region r).encountering := by
      simp only [Runtime.after, Runtime.set_task, if_neg notSelf]
    rw [Runtime.place_live (by rw [same]; exact forker.2), same, ← line,
      Runtime.place_live live, Task.strands_plain]
    rw [Task.units, nested.closing_idle isTask closing]
    rfl
  · exact lined.carry_still lineage' unmoved (Detector.handle_implicitEnd_other member.1 first handled)

omit nested lineage in
theorem taskCreate {t : Nat} (lineage' : (R.after (.taskCreate t)).Lineage) (isTask : t < R.tasks)
    (runs : (R.task t).running = true) (handled : d.handle R (.taskCreate t) = .ok d') :
    Carried R (R.after (.taskCreate t)) d d' owner := by
  obtain ⟨begun, live, -⟩ := Task.running_iff.mp runs
  obtain ⟨init, r, x, y, known, -, -, heap, made, now, others, -⟩ := Detector.handle_taskCreate handled isTask
  have apart : t ≠ R.tasks := Nat.ne_of_lt isTask
  have place := Runtime.place_live live
  have old : ∀ z, z ≠ R.tasks → (R.after (.taskCreate t)).task z = R.task z := by
    intro z other
    simp [Runtime.after, other]
  have new : (R.after (.taskCreate t)).task R.tasks = Task.new .explicit t ((R.task t).strands t) R.accesses
      (R.task t).region ((R.task t).groups ++ (R.task t).openGroups) true (R.task t).known := by
    simp [Runtime.after]
  have elsewhere : R.Elsewhere (R.after (.taskCreate t)) R.tasks := by
    refine ⟨(Runtime.after_extends R _).tasks, (Runtime.after_extends R _).fixed, fun z bound other begun => ?_⟩
    have bound : z < R.tasks + 1 := bound
    rw [old z other] at begun
    exact ⟨by omega, begun, by rw [Runtime.place, Runtime.place, old z other]⟩
  let d₁ : Detector := { d with heap := (d.heap.alloc x).1 }.setLabel R.tasks (some (init ++ [r] ++ [d.heap.next]))
  have grows₁ : d.heap.Grows d₁.heap := (d.heap.alloc_extends x).grows
  obtain ⟨lined₁, births₁⟩ : Lined (R.after (.taskCreate t)) d₁ (Function.update owner d.heap.next ⟨R.tasks, none⟩) ∧
      SameBirths R (R.after (.taskCreate t)) d d₁ := by
    refine lined.enter lineage' isTask begun elsewhere (fun z bound => ?_) (fun bound => absurd bound (Nat.lt_irrefl _))
      known (fun z other => ?_) ?_ rfl grows₁ ?_ ?_ place
    · have bound : z < R.tasks + 1 := bound
      omega
    · simp [d₁, Detector.label, other]
    · simp [d₁, Detector.label]
    · rw [new, place]
      rfl
    · rw [Runtime.place_live (by rw [new]; rfl), new, place]
      rfl
  have moves : d₁.Moves d' t (init ++ [r]) (init ++ [d₁.heap.next]) := by
    refine ⟨?_, now, fun z other => ?_⟩
    · simpa [d₁, Detector.label, apart] using known
    · by_cases self : z = R.tasks
      · rw [self, made]
        simp [d₁, Detector.label]
      · rw [others z other self]
        simp [d₁, Detector.label, self]
  have grows₂ : d₁.heap.Grows d'.heap := heap ▸ ((d.heap.alloc x).1.alloc_extends y).grows
  obtain ⟨owner', ⟨lined', births'⟩, owners, -⟩ := lined₁.carry_last lineage' (Nat.lt_succ_of_lt isTask) (by rw [old t apart]; exact begun)
    (by rw [old t apart]; exact live) (.refl _) (by rw [old t apart]; exact begun) rfl moves (heap ▸ rfl) grows₂
  refine ⟨owner', ⟨lined', fun c bound kind => ?_⟩, fun z bound => ?_, grows₁.trans grows₂⟩
  · rw [births' c (Nat.lt_succ_of_lt bound) (by rw [old c (Nat.ne_of_lt bound)]; exact kind), births₁ c bound kind]
  rw [owners z (Nat.lt_succ_of_lt bound), Function.update_of_ne (Nat.ne_of_lt bound)]

omit nested lineage in
theorem taskComplete {t : Nat} (lineage' : (R.after (.taskComplete t)).Lineage) (isTask : t < R.tasks)
    (runs : (R.task t).running = true) (kind : (R.task t).kind = .explicit) (idle : (R.task t).constructs = [])
    (handled : d.handle R (.taskComplete t) = .ok d') : Carried R (R.after (.taskComplete t)) d d' owner := by
  obtain ⟨begun, live, -⟩ := Task.running_iff.mp runs
  obtain ⟨label, known, holds, placed⟩ := lined.label t isTask begun
  obtain ⟨init, x, relabels, heap⟩ := Detector.handle_taskComplete known handled
  have place := Runtime.place_live live
  rw [Task.strands_plain (by rw [Task.units, idle]; rfl)] at place
  have ended : (R.after (.taskComplete t)).place t = (R.place t).dropLast := by
    rw [place, List.dropLast_concat, Runtime.place, if_pos]
    · simp [Runtime.after]
    · simpa [Runtime.after] using kind
  have before := congrArg List.length (lined.place_length isTask begun relabels.old).1
  rw [place] at before
  simp only [List.length_map, List.length_append, List.length_cons, List.length_nil] at before
  exact ⟨owner, lined.drop lineage' isTask begun (.set ⟨rfl, rfl, rfl, rfl, rfl, rfl⟩) rfl relabels.toMoves heap ended
    (by omega), fun _ _ => rfl, heap ▸ .refl _⟩

omit nested lineage in
theorem taskwaitEnd {t : Nat} (lineage' : (R.after (.taskwaitEnd t)).Lineage) (isTask : t < R.tasks)
    (runs : (R.task t).running = true) (handled : d.handle R (.taskwaitEnd t) = .ok d') :
    Carried R (R.after (.taskwaitEnd t)) d d' owner := by
  obtain ⟨begun, live, -⟩ := Task.running_iff.mp runs
  obtain ⟨init, r, s, refs, moves, -, heap, -⟩ := Detector.handle_taskwaitEnd handled
  have grows : d.heap.Grows d'.heap :=
    heap ▸ (d.heap.alloc_extends s).grows.trans (Heap.mark_grows _ refs (Segment.plain_markTaskwaited _))
  refine lined.carry_last lineage' isTask begun live (Runtime.unmoved_waitTask t) ?_ rfl moves (heap ▸ rfl) grows
  simp only [Runtime.after, Runtime.waitTask, if_true]
  exact begun

omit nested lineage in
theorem taskgroupEnd {t : Nat} (lineage' : (R.after (.taskgroupEnd t)).Lineage) (isTask : t < R.tasks)
    (runs : (R.task t).running = true) (unmoved : R.Unmoved (R.after (.taskgroupEnd t)))
    (count : (R.after (.taskgroupEnd t)).tasks = R.tasks) (begun' : ((R.after (.taskgroupEnd t)).task t).begun = true)
    (handled : d.handle R (.taskgroupEnd t) = .ok d') : Carried R (R.after (.taskgroupEnd t)) d d' owner := by
  obtain ⟨begun, live, -⟩ := Task.running_iff.mp runs
  obtain ⟨init, r, s, refs, moves, -, heap, -⟩ := Detector.handle_taskgroupEnd handled
  have grows : d.heap.Grows d'.heap :=
    heap ▸ (d.heap.alloc_extends s).grows.trans (Heap.mark_grows _ refs Segment.plain_setTaskGroupSync)
  exact lined.carry_last lineage' isTask begun live unmoved begun' count moves (heap ▸ rfl) grows

omit nested lineage in
theorem workBegin {t : Nat} {work : Work} {executor : Bool} (lineage' : R'.Lineage) (isTask : t < R.tasks)
    (runs : (R.task t).running = true) (groups : (R.task t).constructs.all Construct.isTaskgroup = true)
    (elsewhere : R.Elsewhere R' t) (count : R'.tasks = R.tasks) {c : Construct}
    (placed : R'.place t = (R.task t).line ++ [⟨t, none⟩, ⟨t, some c⟩])
    (handled : d.handle R (.workBegin t work executor) = .ok d') : Carried R R' d d' owner := by
  obtain ⟨begun, live, -⟩ := Task.running_iff.mp runs
  obtain ⟨upper, relabels, heap⟩ := Detector.handle_workBegin handled
  have before := (lined.place_length isTask begun relabels.old).1
  rw [Runtime.place_live live, Task.strands_plain (Task.units_groups groups)] at before
  have length := congrArg List.length before
  simp only [List.length_map, List.length_append, List.length_cons, List.length_nil] at length
  refine lined.carry upper [] [] ⟨t, some c⟩ lineage' isTask begun
    elsewhere count ?_ (heap ▸ rfl) (heap ▸ (d.heap.alloc_extends _).grows) ?_ (by omega) fun _ => by omega
  · rw [List.append_nil, List.append_nil]
    exact relabels.toMoves
  · rw [placed, before, List.append_assoc]
    rfl

omit nested lineage in
theorem workEnd {t : Nat} {c : Construct} {rest : List Construct} (lineage' : R'.Lineage) (isTask : t < R.tasks)
    (begun : (R.task t).begun = true) (live : (R.task t).ended = false) (constructs : (R.task t).constructs = c :: rest)
    (units : (R.task t).units = [c]) (isWork : (∃ number executor, c = .single number executor) ∨
      (∃ number turn last, c = .loop number turn last) ∨ ∃ number unit, c = .sections number unit)
    (elsewhere : R.Elsewhere R' t) (count : R'.tasks = R.tasks) (placed : R'.place t = (R.task t).line ++ [⟨t, none⟩])
    (handled : d.handle R (.workEnd t) = .ok d') : Carried R R' d d' owner := by
  have place := Runtime.place_live live
  rw [Task.strands_unit units] at place
  rcases isWork with ⟨number, executor, rfl⟩ | shared
  · obtain ⟨init, unit, relabels, heap⟩ := Detector.handle_workEnd_single constructs handled
    have before := congrArg List.length (lined.place_length isTask begun relabels.old).1
    rw [place] at before
    simp only [List.length_map, List.length_append, List.length_cons, List.length_nil] at before
    refine ⟨owner, lined.drop lineage' isTask begun elsewhere count relabels.toMoves heap ?_ (by omega),
      fun _ _ => rfl, heap ▸ .refl _⟩
    rw [placed, place, show [(⟨t, none⟩ : Strand), ⟨t, some (.single number executor)⟩] =
      [⟨t, none⟩] ++ [⟨t, some (.single number executor)⟩] from rfl, ← List.append_assoc, List.dropLast_concat]
  · have shares : (∃ number turn last rest, (R.task t).constructs = .loop number turn last :: rest) ∨
        ∃ number unit rest, (R.task t).constructs = .sections number unit :: rest := by
      rcases shared with ⟨number, turn, last, rfl⟩ | ⟨number, unit, rfl⟩
      · exact .inl ⟨number, turn, last, rest, constructs⟩
      · exact .inr ⟨number, unit, rest, constructs⟩
    obtain ⟨init, r, unit, s, relabels, -, heap⟩ := Detector.handle_workEnd_shared shares handled
    have before := (lined.place_length isTask begun relabels.old).1
    rw [place, List.map_append] at before
    have lengths := congrArg List.length before
    simp only [List.length_map, List.length_append, List.length_cons, List.length_nil] at lengths
    obtain ⟨upper, lower⟩ := List.append_inj' before rfl
    simp only [List.map_cons, List.map_nil, List.cons.injEq, and_true] at lower
    refine lined.carry init [r, unit] [] ⟨t, none⟩ lineage' isTask begun
      elsewhere count ?_ (heap ▸ rfl) (heap ▸ (d.heap.alloc_extends _).grows) ?_ (by omega) fun _ => by omega
    · rw [List.append_nil]
      exact relabels.toMoves
    · rw [placed, upper]
      rfl

omit nested lineage in
theorem dispatch {t : Nat} {id : BitVec 64} {c c' : Construct} (lineage' : R'.Lineage) (isTask : t < R.tasks)
    (begun : (R.task t).begun = true) (live : (R.task t).ended = false) (units : (R.task t).units = [c])
    (elsewhere : R.Elsewhere R' t) (count : R'.tasks = R.tasks)
    (placed : R'.place t = (R.task t).line ++ [⟨t, none⟩, ⟨t, some c'⟩])
    (handled : d.handle R (.dispatch t id) = .ok d') : Carried R R' d d' owner := by
  obtain ⟨init, unit, isSection, relabels, heap, -⟩ := Detector.handle_dispatch handled
  have before := (lined.place_length isTask begun relabels.old).1
  rw [Runtime.place_live live, Task.strands_unit units, show [(⟨t, none⟩ : Strand), ⟨t, some c⟩] =
    [⟨t, none⟩] ++ [⟨t, some c⟩] from rfl, ← List.append_assoc, List.map_append] at before
  have upper := (List.append_inj' before rfl).1
  have lengths := congrArg List.length upper
  simp only [List.length_map, List.length_append, List.length_cons, List.length_nil] at lengths
  refine lined.carry init [unit] [] ⟨t, some c'⟩ lineage' isTask begun
    elsewhere count ?_ (heap ▸ rfl) (heap ▸ (d.heap.alloc_extends _).grows) ?_ (by omega) fun _ => by omega
  · rw [List.append_nil]
    exact relabels.toMoves
  · rw [placed, upper, List.append_assoc]
    rfl

/-- Every event keeps the labels in step with the strands. -/
theorem after {e : Event} (enabled : R.enabled e = true) (handled : d.handle R e = .ok d') :
    Carried R (R.after e) d d' owner := by
  have lineage' : (R.after e).Lineage := lineage.after nested enabled
  have live : ∀ {t : Nat}, (R.task t).running = true → (R.task t).begun = true ∧ (R.task t).ended = false :=
    fun runs => ⟨(Task.running_iff.mp runs).1, (Task.running_iff.mp runs).2.1⟩
  cases e with
  | parallelBegin t size =>
    cases handled
    exact lined.carry_still lineage' (Runtime.unmoved_parallelBegin t size) ⟨rfl, fun _ => rfl, fun _ => rfl⟩
  | implicitBegin t =>
    simp only [Runtime.enabled, Bool.and_eq_true, decide_eq_true_eq, Bool.not_eq_true'] at enabled
    exact lined.implicitBegin nested lineage lineage' enabled.1 enabled.2 handled
  | barrierBegin t closing =>
    cases handled
    exact lined.carry_still lineage' (.set ⟨rfl, rfl, rfl, rfl, rfl, rfl⟩ rfl rfl fun _ => rfl) (.refl d)
  | release r =>
    cases handled
    exact lined.carry_still lineage' (Runtime.unmoved_release r) (.refl d)
  | barrierEnd t =>
    simp only [Runtime.enabled, Bool.and_eq_true, decide_eq_true_eq] at enabled
    obtain ⟨isTask, pending⟩ := enabled
    split at pending
    · rename_i r i kind
      obtain ⟨isRegion, isMember, self⟩ := nested.member t isTask r i kind
      exact lined.barrierEnd nested lineage' isRegion isMember self (by simpa using pending) handled
    · cases pending
  | implicitEnd t =>
    simp only [Runtime.enabled, Bool.and_eq_true, decide_eq_true_eq, Bool.not_eq_true'] at enabled
    obtain ⟨⟨⟨⟨isTask, closing⟩, -⟩, live⟩, ends⟩ := enabled
    cases kind : (R.task t).kind with
    | initial | explicit =>
      rw [kind] at ends
      cases ends
    | implicit r i =>
      obtain ⟨isRegion, isMember, self⟩ := nested.member t isTask r i kind
      exact lined.implicitEnd nested lineage lineage' isRegion isMember self closing live handled
  | parallelEnd r =>
    simp only [Runtime.enabled, Bool.and_eq_true, beq_iff_eq] at enabled
    obtain ⟨rest, waits⟩ := List.head?_eq_some_iff.mp enabled.2
    cases handled
    refine lined.carry_still lineage' (.set ⟨rfl, rfl, rfl, rfl, rfl, rfl⟩ rfl ?_ fun _ => rfl) (.refl d)
    rw [Task.body_units, Task.body_units]
    exact congrArg List.head? (Task.units_leave waits rfl)
  | taskCreate t =>
    have runs := Runtime.running_lt enabled
    exact lined.taskCreate lineage' runs.1 runs.2 handled
  | dependences t deps =>
    cases handled
    exact lined.carry_still lineage' (.refl R) (Detector.dependences_quiet d _ t deps)
  | taskComplete t =>
    simp only [Runtime.enabled, Bool.and_eq_true, decide_eq_true_eq, List.isEmpty_iff] at enabled
    have runs := Runtime.running_lt enabled.1.1
    exact lined.taskComplete lineage' runs.1 runs.2 enabled.1.2 enabled.2 handled
  | taskwaitEnd t =>
    simp only [Runtime.enabled, Bool.and_eq_true] at enabled
    have runs := Runtime.running_lt enabled.1
    exact lined.taskwaitEnd lineage' runs.1 runs.2 handled
  | taskgroupBegin t =>
    have runs := Runtime.running_lt enabled
    obtain ⟨init, r, relabels, heap⟩ := Detector.handle_taskgroupBegin handled
    have entered : R.Unmoved (R.set t ((R.task t).enter (.taskgroup R.groups))) :=
      .set ⟨rfl, rfl, rfl, rfl, rfl, rfl⟩ rfl rfl fun _ => rfl
    refine lined.carry_last lineage' runs.1 (live runs.2).1 (live runs.2).2
      (entered.trans (Runtime.unmoved_same_tasks rfl rfl)) ?_ rfl relabels.toMoves (heap ▸ rfl)
      (heap ▸ (d.heap.alloc_extends _).grows)
    simp [Runtime.after, Task.enter, (live runs.2).1]
  | taskgroupEnd t =>
    simp only [Runtime.enabled, Bool.and_eq_true] at enabled
    obtain ⟨running, inside⟩ := enabled
    have runs := Runtime.running_lt running
    split at inside
    · rename_i g rest constructs
      have opened : (R.task t).openGroups.head? = some g := by
        rw [Task.openGroups, constructs]
        rfl
      have same : R.after (.taskgroupEnd t) = R.set t ((R.task t).leave.learn (R.gather (R.inGroup g))) := by
        simp only [Runtime.after, opened]
      rw [same] at lineage' ⊢
      have unmoved : R.Unmoved (R.set t ((R.task t).leave.learn (R.gather (R.inGroup g)))) := by
        refine .set ⟨rfl, rfl, rfl, rfl, rfl, rfl⟩ rfl ?_ fun _ => rfl
        rw [Task.body_units, Task.body_units]
        exact congrArg List.head? (Task.units_leave constructs rfl)
      rw [← same] at lineage' unmoved ⊢
      refine lined.taskgroupEnd lineage' runs.1 runs.2 unmoved (by rw [same]; rfl) ?_ handled
      rw [same]
      simp [Task.leave, Task.learn, (live runs.2).1]
    · cases inside
  | workBegin t work executor =>
    simp only [Runtime.enabled, Bool.and_eq_true] at enabled
    obtain ⟨⟨running, groups⟩, -⟩ := enabled
    have runs := Runtime.running_lt running
    obtain ⟨c, number, task, count, others⟩ := Runtime.workBegin_task R t work executor
    have units : ((R.after (.workBegin t work executor)).task t).units = [c] := by
      rw [task]
      change (c :: (R.task t).constructs).filter _ = _
      rw [List.filter_cons_of_pos (by rw [number]; rfl)]
      exact congrArg _ (Task.units_groups groups)
    refine lined.workBegin lineage' runs.1 runs.2 groups (.of_set others count ?_ task) count (c := c) ?_ handled
    · exact ⟨rfl, rfl, rfl, rfl, rfl, rfl⟩
    · rw [Runtime.place_live (by rw [task]; exact (live runs.2).2), Task.strands_unit units, task]
      rfl
  | workEnd t =>
    simp only [Runtime.enabled, Bool.and_eq_true, decide_eq_true_eq] at enabled
    obtain ⟨isTask, inside⟩ := enabled
    have ends : ∀ (c : Construct) (rest : List Construct) (k : Nat), (R.task t).constructs = c :: rest →
        c.number = some k → ((∃ number executor, c = .single number executor) ∨
          (∃ number turn last, c = .loop number turn last) ∨ ∃ number unit, c = .sections number unit) →
        Carried R (R.after (.workEnd t)) d d' owner := by
      intro c rest k constructs number isWork
      obtain ⟨units, empty⟩ := lineage.units_cons constructs number
      have busy := nested.busy isTask constructs (by cases c <;> first | rfl | cases number)
      have alive : (R.task t).ended = false := by
        rw [← Bool.not_eq_true]
        intro ended
        cases constructs.symm.trans (lineage.idle t ended)
      have task : (R.after (.workEnd t)).task t = (R.task t).leave := by
        simp [Runtime.after, Runtime.finishIteration_task]
      refine lined.workEnd lineage' isTask busy.2.1 alive constructs units isWork
        (.of_set (fun x other => ?_) (Runtime.finishIteration_tasks t) ?_ task) (Runtime.finishIteration_tasks t) ?_ handled
      · simp [Runtime.after, Runtime.finishIteration_task, other]
      · exact ⟨rfl, rfl, rfl, rfl, rfl, rfl⟩
      · rw [Runtime.place_live (by rw [task]; exact alive), task, Task.strands_plain]
        · rfl
        · rw [Task.units, Task.leave, constructs]
          exact empty
    split at inside
    · rename_i number executor rest constructs
      exact ends _ rest number constructs rfl (.inl ⟨number, executor, rfl⟩)
    · rename_i number turn last rest constructs
      exact ends _ rest number constructs rfl (.inr (.inl ⟨number, turn, last, rfl⟩))
    · rename_i number unit rest constructs
      exact ends _ rest number constructs rfl (.inr (.inr ⟨number, unit, rfl⟩))
    · cases inside
  | dispatch t id =>
    simp only [Runtime.enabled, Bool.and_eq_true] at enabled
    obtain ⟨running, inside⟩ := enabled
    have runs := Runtime.running_lt running
    obtain ⟨c, c', rest, k, constructs, number, number', task, count, others⟩ := Runtime.dispatch_task inside
    obtain ⟨units, empty⟩ := lineage.units_cons constructs number
    have placed : (R.after (.dispatch t id)).place t = (R.task t).line ++ [⟨t, none⟩, ⟨t, some c'⟩] := by
      rw [Runtime.place_live (by rw [task]; exact (live runs.2).2), task, Task.strands_unit]
      change (c' :: rest).filter _ = _
      rw [List.filter_cons_of_pos (by rw [number']; rfl), empty]
    refine lined.dispatch lineage' runs.1 (live runs.2).1 (live runs.2).2 units (.of_set others count ?_ task) count
      placed handled
    exact ⟨rfl, rfl, rfl, rfl, rfl, rfl⟩
  | orderedBegin t =>
    simp only [Runtime.enabled, Bool.and_eq_true] at enabled
    have runs := Runtime.running_lt enabled.1
    obtain ⟨init, r, s, relabels, -, heap⟩ := Detector.handle_ordered handled
    refine lined.carry_last lineage' runs.1 (live runs.2).1 (live runs.2).2
      (.set ⟨rfl, rfl, rfl, rfl, rfl, rfl⟩ rfl rfl fun _ => rfl) ?_ rfl relabels.toMoves (heap ▸ rfl)
      (heap ▸ (d.heap.alloc_extends _).grows)
    simp [Runtime.after, Task.enter, (live runs.2).1]
  | orderedEnd t =>
    simp only [Runtime.enabled, Bool.and_eq_true, beq_iff_eq] at enabled
    obtain ⟨running, head⟩ := enabled
    have runs := Runtime.running_lt running
    obtain ⟨rest, constructs⟩ := List.head?_eq_some_iff.mp head
    obtain ⟨init, r, s, relabels, -, heap⟩ := Detector.handle_ordered handled
    have unmoved : R.Unmoved (R.set t (R.task t).leave) := by
      refine .set ⟨rfl, rfl, rfl, rfl, rfl, rfl⟩ rfl ?_ fun _ => rfl
      rw [Task.body_units, Task.body_units]
      exact congrArg List.head? (Task.units_leave constructs rfl)
    refine lined.carry_last lineage' runs.1 (live runs.2).1 (live runs.2).2
      (unmoved.trans (Runtime.unmoved_finishIteration t)) ?_ (Runtime.finishIteration_tasks t) relabels.toMoves
      (heap ▸ rfl) (heap ▸ (d.heap.alloc_extends _).grows)
    simp [Runtime.after, Runtime.finishIteration_task, Task.leave, (live runs.2).1]
  | access t =>
    cases handled
    have learned : R.Unmoved (R.set t ((R.task t).learn fun a => a == R.accesses)) :=
      .set ⟨rfl, rfl, rfl, rfl, rfl, rfl⟩ rfl rfl fun _ => rfl
    exact lined.carry_still lineage' (learned.trans (Runtime.unmoved_same_tasks rfl rfl)) (.refl d)

end Lined

def System.lastSegment (s : System) (t : Nat) : Option Segment :=
  (s.detector.label t).bind fun label => label.getLast?.map s.detector.heap.objects

structure Logged (s : System) (owner : Nat → Strand) : Prop where
  length : s.log.length = s.runtime.accesses
  entry : ∀ e ∈ s.log, s.detector.heap.Holds e.label ∧ e.label.map owner = e.strands
  task : ∀ e ∈ s.log, e.task < s.runtime.tasks ∧ ∃ body : Option Construct, e.strands =
    (s.runtime.task e.task).line ++ ⟨e.task, none⟩ :: body.toList.map fun c => ⟨e.task, some c⟩
  birth : ∀ e ∈ s.log, ∀ c < s.runtime.tasks, (s.runtime.task c).kind = .explicit → ⟨c, none⟩ ∈ e.strands →
    s.runtime.birth s.detector c <+: e.label

structure Placed (s : System) (owner : Nat → Strand) : Prop where
  lined : Lined s.runtime s.detector owner
  logged : Logged s owner

structure Carries (s s' : System) (owner owner' : Nat → Strand) : Prop where
  owners : ∀ r < s.detector.heap.next, owner' r = owner r
  births : SameBirths s.runtime s'.runtime s.detector s'.detector
  grows : s.detector.heap.Grows s'.detector.heap
  extend : s.runtime.Extends s'.runtime

theorem after_accesses {R : Runtime} {e : Event} : (R.after e).accesses =
    match e with
    | .access _ => R.accesses + 1
    | _ => R.accesses := by
  have finish : ∀ (S : Runtime) t, (S.finishIteration t).accesses = S.accesses := by
    intro S t
    unfold Runtime.finishIteration
    split <;> rfl
  cases e with
  | taskgroupEnd t =>
    simp only [Runtime.after]
    split <;> rfl
  | workBegin t work executor =>
    simp only [Runtime.after, Runtime.beginWork]
    split <;> rfl
  | dispatch t id =>
    simp only [Runtime.after, Runtime.dispatchTo]
    split <;> exact finish R t
  | workEnd t => exact finish R t
  | orderedEnd t => exact finish (R.set t (R.task t).leave) t
  | _ => rfl

theorem System.logged_cases {s s' : System} {e : Event} (stepped : s.step e = some s') :
    (s'.log = s.log ∧ s'.runtime.accesses = s.runtime.accesses) ∨ ∃ t label, e = .access t ∧
      s.runtime.running t = true ∧ s.detector.label t = some label ∧ s'.detector = s.detector ∧
      s'.runtime = s.runtime.after (.access t) ∧
      s'.log = s.log ++ [⟨t, label, (s.runtime.task t).strands t, (s.runtime.task t).constructs⟩] := by
  obtain ⟨enabled, -, runtime, log⟩ := System.step_cases stepped
  by_cases isAccess : ∃ t, e = .access t
  · obtain ⟨t, rfl⟩ := isAccess
    obtain ⟨label, known, same, log⟩ := System.step_access stepped
    exact .inr ⟨t, label, rfl, enabled, known, same, runtime, log⟩
  · refine .inl ⟨?_, ?_⟩
    · rw [log]
      cases e <;> first | rfl | exact absurd ⟨_, rfl⟩ isAccess
    · rw [runtime, after_accesses]
      cases e <;> first | rfl | exact absurd ⟨_, rfl⟩ isAccess

namespace Placed

variable {s s' : System} {owner : Nat → Strand} (placed : Placed s owner)

include placed

theorem step (nested : s.runtime.Nested) (lineage : s.runtime.Lineage) {e : Event} (stepped : s.step e = some s') :
    ∃ owner', Placed s' owner' ∧ Carries s s' owner owner' := by
  obtain ⟨enabled, handled, runtime, -⟩ := System.step_cases stepped
  have extend : s.runtime.Extends s'.runtime := runtime ▸ Runtime.after_extends s.runtime e
  obtain ⟨owner', ⟨lined', births⟩, owners, grows⟩ := placed.lined.after nested lineage enabled handled
  rw [← runtime] at lined' births
  refine ⟨owner', ⟨lined', ?_⟩, owners, births, grows, extend⟩
  have entry : ∀ e ∈ s.log, s'.detector.heap.Holds e.label ∧ e.label.map owner' = e.strands := by
    intro e inside
    obtain ⟨holds, mapped⟩ := placed.logged.entry e inside
    exact ⟨holds.grow grows, by rw [← mapped]; exact List.map_congr_left fun r member => owners r (holds r member)⟩
  have task : ∀ e ∈ s.log, e.task < s'.runtime.tasks ∧ ∃ body : Option Construct, e.strands =
      (s'.runtime.task e.task).line ++ ⟨e.task, none⟩ :: body.toList.map fun c => ⟨e.task, some c⟩ := by
    intro e inside
    obtain ⟨isTask, body, strands⟩ := placed.logged.task e inside
    exact ⟨Nat.lt_of_lt_of_le isTask extend.tasks, body, by rw [(extend.fixed _ isTask).line, strands]⟩
  have birth : ∀ e ∈ s.log, ∀ c < s'.runtime.tasks, (s'.runtime.task c).kind = .explicit → ⟨c, none⟩ ∈ e.strands →
      s'.runtime.birth s'.detector c <+: e.label := by
    intro e inside c _ kind through
    obtain ⟨isTask, body, strands⟩ := placed.logged.task e inside
    have old : c < s.runtime.tasks := by
      rw [strands] at through
      rcases List.mem_append.mp through with above | here
      · exact (lineage.through isTask above).1.trans isTask
      · rcases List.mem_cons.mp here with same | inBody
        · have self : c = e.task := congrArg Strand.task same
          exact self ▸ isTask
        · obtain ⟨_, -, same⟩ := List.mem_map.mp inBody
          cases same
    rw [(extend.fixed c old).kind] at kind
    rw [births c old kind]
    exact placed.logged.birth e inside c old kind through
  rcases System.logged_cases stepped with ⟨log, count⟩ | ⟨t, label, rfl, running, known, same, runtime', log⟩
  · refine ⟨?_, ?_, ?_, ?_⟩
    · rw [log, count]
      exact placed.logged.length
    all_goals
      rw [log]
      assumption
  · have runs := Runtime.running_lt running
    obtain ⟨begun, live, -⟩ := Task.running_iff.mp runs.2
    obtain ⟨mapped, holds⟩ := placed.lined.place_length runs.1 begun known
    rw [Runtime.place_live live] at mapped
    have cases : ∀ {p : Entry → Prop}, (∀ e ∈ s.log, p e) →
        p ⟨t, label, (s.runtime.task t).strands t, (s.runtime.task t).constructs⟩ → ∀ e ∈ s'.log, p e := by
      intro p old new e inside
      rw [log] at inside
      rcases List.mem_append.mp inside with inside | inside
      · exact old e inside
      · rw [List.mem_singleton.mp inside]
        exact new
    refine ⟨?_, cases entry ⟨holds.grow grows, ?_⟩, cases task ⟨Nat.lt_of_lt_of_le runs.1 extend.tasks, ?_⟩,
      cases birth fun c _ kind through => ?_⟩
    · rw [log, runtime', List.length_append, List.length_singleton, placed.logged.length]
      rfl
    · rw [← mapped]
      exact List.map_congr_left fun r member => owners r (holds r member)
    · exact ⟨(s.runtime.task t).body, by rw [(extend.fixed t runs.1).line]; rfl⟩
    · have old : c ≤ t ∧ c < s.runtime.tasks := by
        rcases List.mem_append.mp through with above | here
        · have earlier := (lineage.through runs.1 above).1
          exact ⟨earlier.le, earlier.trans runs.1⟩
        · rcases List.mem_cons.mp here with self | inBody
          · have self : c = t := congrArg Strand.task self
            exact ⟨self.le, self ▸ runs.1⟩
          · obtain ⟨_, -, self⟩ := List.mem_map.mp inBody
            cases self
      rw [(extend.fixed c old.2).kind] at kind
      rw [births c old.2 kind]
      rcases List.mem_append.mp through with above | here
      · exact placed.lined.birth c old.2 kind t runs.1 begun above label known
      · rcases List.mem_cons.mp here with self | inBody
        · have self : c = t := congrArg Strand.task self
          rw [self, Runtime.birth, known, Option.getD_some]
          exact List.take_prefix ..
        · obtain ⟨_, -, self⟩ := List.mem_map.mp inBody
          cases self

end Placed

theorem System.placed_initial {s : System} (begun : System.initial = .ok s) : Placed s fun _ => ⟨0, none⟩ := by
  cases begun
  refine ⟨⟨fun t isTask _ => ?_, fun c isTask kind => ?_⟩, rfl, fun e inside => ?_, fun e inside => ?_, fun e inside => ?_⟩
  · cases Nat.lt_one_iff.mp isTask
    refine ⟨[0], rfl, fun r member => ?_, rfl⟩
    rw [List.mem_singleton.mp member]
    exact Nat.zero_lt_one
  · cases Nat.lt_one_iff.mp isTask
    cases kind
  all_goals cases inside

theorem System.Reachable.placed {allowed : System → Event → Prop} {s : System}
    (reached : System.Reachable allowed s) : ∃ owner, Placed s owner := by
  induction reached with
  | start begun => exact ⟨_, System.placed_initial begun⟩
  | step before _ stepped ih =>
    obtain ⟨owner, placed⟩ := ih
    obtain ⟨owner', placed', -⟩ := placed.step before.nested before.lineage stepped
    exact ⟨owner', placed'⟩

end Romp
