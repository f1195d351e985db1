import Romp.Runtime.Worksharing
import Romp.Tasking.Awaited

namespace Romp

def Event.CountsIn (e : Event) (t : Nat) : Prop := e = .taskCreate t ∨ e = .taskwaitEnd t

structure Childless (s : System) (owner : Nat → Strand) (t z : Nat) : Prop where
  there : z < s.detector.heap.next
  own : owner z = ⟨t, none⟩
  unborn : ∀ c < s.runtime.tasks, (s.runtime.task c).kind = .explicit → (s.runtime.birth s.detector c).getLast? ≠ some z

section Step

variable {s s' : System} {owner owner' : Nat → Strand} {fork : Nat → Contents} {below : Strand → Contents}
  {e : Event} {t z : Nat} (treed : Treed s owner fork below)
  (adv : Advance s.runtime s.detector s'.detector owner owner' e) (permitted : TreeStep s e)
  (runtime : s'.runtime = s.runtime.after e)

include treed adv permitted runtime

theorem Childless.step (childless : Childless s owner t z)
    (last : e = .taskCreate t → ∀ init, s.detector.label t ≠ some (init ++ [z])) : Childless s' owner' t z := by
  refine ⟨Nat.lt_of_lt_of_le childless.there adv.grows.next, (adv.owners z childless.there).trans childless.own,
    fun c isTask kind born => ?_⟩
  rw [runtime] at isTask kind born
  rcases Runtime.explicit_after adv.nested' adv.enabled isTask kind with old | ⟨t', creates, new⟩
  · rw [(Runtime.after_extends s.runtime e).fixed c old |>.kind] at kind
    rw [adv.births c old kind] at born
    exact childless.unborn c old kind born
  · subst creates
    cases adv.taskTurn treed.flat permitted.1 with
    | still _ _ _ plain => exact plain.2.1 t' rfl
    | create running known _ _ _ made =>
      obtain ⟨isTask', runs⟩ := Runtime.running_lt running
      obtain ⟨begun, live, -⟩ := Task.running_iff.mp runs
      obtain ⟨birth, -⟩ := adv.birth_new rfl isTask' begun live known made
      rw [new, birth, List.getLast?_concat, Option.some.injEq] at born
      subst born
      have mine := (adv.lined.last_task isTask' begun live known).2
      rw [childless.own] at mine
      cases mine
      exact last rfl _ known

theorem ends_kept (notRoot : t ≠ 0) (quiet : ¬e.CountsIn t) (there : z < s.detector.heap.next) (own : owner z = ⟨t, none⟩)
    (live : (s'.runtime.task t).ended = false) {init : Label} (known : s.detector.label t = some (init ++ [z])) :
    ∃ init', s'.detector.label t = some (init' ++ [z]) := by
  have isTask := (treed.origins.past z there).1
  have begun := (treed.origins.past z there).2.1
  rw [own] at isTask begun
  have others : ∀ {x}, (t ≠ x → s'.detector.label t = s.detector.label t) → t ≠ x →
      ∃ init', s'.detector.label t = some (init' ++ [z]) :=
    fun others other => ⟨init, (others other).trans known⟩
  cases adv.taskTurn treed.flat permitted.1 with
  | still _ labels => exact ⟨init, (labels t).trans known⟩
  | enter _ unbegun _ _ _ _ kept =>
    apply others (kept t)
    rintro rfl
    cases begun.symm.trans unbegun
  | @barrier i x last _ _ _ relabels =>
    by_cases actor : t = s.runtime.memberOf 0 i
    · subst actor
      have same := relabels.old.symm.trans known
      rw [Option.some.injEq] at same
      obtain ⟨-, same⟩ := List.append_inj' (show [x] ++ [last] = init ++ [z] from same) rfl
      rw [← List.singleton_inj.mp same]
      exact ⟨[s.detector.heap.next], relabels.new⟩
    · exact others (relabels.others t) actor
  | join _ _ kept => exact others (kept t) notRoot
  | @create t' _ _ _ _ _ _ _ _ _ _ _ kept =>
    have other : t ≠ t' := by
      rintro rfl
      exact quiet (.inl rfl)
    exact others (fun other => kept t other (Nat.ne_of_lt isTask)) other
  | @complete t' _ _ running _ relabels =>
    by_cases actor : t = t'
    · subst actor
      rw [runtime] at live
      simp [Runtime.after] at live
    · exact others (relabels.others t) actor
  | @wait t' _ _ _ _ _ _ moves =>
    have other : t ≠ t' := by
      rintro rfl
      exact quiet (.inr rfl)
    exact others (moves.others t) other
  | single => exact absurd trivial permitted.2
  | @leave t' _ _ isTask' =>
    have enabled := adv.enabled
    simp only [Runtime.enabled, Bool.and_eq_true] at enabled
    have units := treed.undivided.units treed.lineage isTask'
    split at enabled
    all_goals first
      | (rename_i constructs; rw [Task.units, constructs] at units; cases units)
      | cases enabled.2

end Step

/-- The label of the task ends in the segment as long as the task is there, and no task has been created in it. -/
structure Dwells (s : System) (owner : Nat → Strand) (t z : Nat) : Prop extends Childless s owner t z where
  ends : t ≠ 0 → (s.runtime.task t).ended = false → ∃ init, s.detector.label t = some (init ++ [z])

structure Surpassed (s : System) (owner : Nat → Strand) (t z : Nat) : Prop extends Childless s owner t z where
  later : ∃ z', z < z' ∧ z' < s.detector.heap.next ∧ owner z' = ⟨t, none⟩

section Run

variable {s s' : System} {owner : Nat → Strand} {fork : Nat → Contents} {below : Strand → Contents} {t z : Nat}

theorem Treed.dwells (treed : Treed s owner fork below) (running : s.runtime.running t = true) {init : Label}
    (known : s.detector.label t = some (init ++ [z])) : Dwells s owner t z := by
  obtain ⟨isTask, runs⟩ := Runtime.running_lt running
  obtain ⟨begun, live, -⟩ := Task.running_iff.mp runs
  have lined := treed.placed.lined
  have there := (lined.place_length isTask begun known).2 z (by simp)
  have self := (lined.last_task isTask begun live known).2
  have own : owner z = ⟨t, none⟩ := by rw [← self, ← treed.origins.undivided treed.undivided there]
  refine ⟨⟨there, own, fun c isTask kind born => ?_⟩, fun _ _ => ⟨init, known⟩⟩
  obtain ⟨init', z', birth, -, line, parent⟩ := lined.birth_last treed.nested treed.lineage isTask kind
  rw [birth, List.getLast?_concat, Option.some.injEq] at born
  subst born
  rw [self] at parent
  have less := treed.origins.births c isTask kind _ (parent ▸ known) z' (by simp) (by rw [line, List.getLast?_concat])
  rw [Runtime.tick, birth, List.getLast?_concat] at less
  exact lt_irrefl _ less

theorem Dwells.run (treed : Treed s owner fork below) (dwells : Dwells s owner t z)
    (path : System.Leads (fun s e => TreeStep s e ∧ ¬e.CountsIn t) s s') :
    ∃ owner' fork' below', Treed s' owner' fork' below' ∧ Dwells s' owner' t z := by
  induction path with
  | refl => exact ⟨owner, fork, below, treed, dwells⟩
  | step _ permitted stepped ih =>
    obtain ⟨owner₁, fork₁, below₁, treed₁, dwells₁⟩ := ih
    obtain ⟨owner', fork', below', treed', adv⟩ := treed₁.step permitted.1 stepped
    obtain ⟨-, -, runtime, -⟩ := System.step_cases stepped
    refine ⟨owner', fork', below', treed', dwells₁.toChildless.step treed₁ adv permitted.1 runtime
      (fun creates => absurd (.inl creates) permitted.2), fun notRoot live => ?_⟩
    have before := live
    rw [runtime, ← Bool.not_eq_true] at before
    have isTask := (treed₁.origins.past z dwells₁.there).1
    rw [dwells₁.own] at isTask
    have live₁ := Bool.eq_false_iff.mpr fun ended => before (Runtime.ended_lasts isTask ended)
    obtain ⟨init, known⟩ := dwells₁.ends notRoot live₁
    exact ends_kept treed₁ adv permitted.1 runtime notRoot permitted.2 dwells₁.there dwells₁.own live known

/-- A taskwait gives the label of its task a new end. -/
theorem Dwells.surpassed (treed : Treed s owner fork below) (dwells : Dwells s owner t z)
    (permitted : TreeStep s (.taskwaitEnd t)) (stepped : s.step (.taskwaitEnd t) = some s') :
    ∃ owner' fork' below', Treed s' owner' fork' below' ∧ Surpassed s' owner' t z := by
  obtain ⟨owner', fork', below', treed', adv⟩ := treed.step permitted stepped
  obtain ⟨-, -, runtime, -⟩ := System.step_cases stepped
  refine ⟨owner', fork', below', treed', dwells.toChildless.step treed adv permitted runtime (by simp), ?_⟩
  cases adv.taskTurn treed.flat permitted.1 with
  | still _ _ _ plain => exact absurd rfl (plain.2.2 t)
  | wait running _ moves _ heap _ _ kept =>
    obtain ⟨init, known⟩ := dwells.ends permitted.1 (Task.running_iff.mp (Runtime.running_lt running).2).2.1
    have same := Option.some.inj (moves.old.symm.trans known)
    have last := List.singleton_inj.mp (List.append_inj' same rfl).2
    subst last
    refine ⟨s.detector.heap.next, dwells.there, ?_, kept.trans dwells.own⟩
    rw [heap]
    exact Nat.lt_succ_self _

/-- A task is created in the segment that the label of its parent ends with. -/
theorem Dwells.born (treed : Treed s owner fork below) (dwells : Dwells s owner t z)
    (permitted : TreeStep s (.taskCreate t)) (stepped : s.step (.taskCreate t) = some s') :
    s.runtime.tasks < s'.runtime.tasks ∧ (s'.runtime.task s.runtime.tasks).kind = .explicit ∧
      (s'.runtime.birth s'.detector s.runtime.tasks).getLast? = some z := by
  obtain ⟨_, _, _, -, adv⟩ := treed.step permitted stepped
  obtain ⟨enabled, -, runtime, -⟩ := System.step_cases stepped
  obtain ⟨init, last⟩ := dwells.ends permitted.1 (Task.running_iff.mp (Runtime.running_lt enabled).2).2.1
  refine ⟨by simp [runtime, Runtime.after], by simp [runtime, Runtime.after, Task.new], ?_⟩
  cases adv.taskTurn treed.flat permitted.1 with
  | still _ _ _ plain => exact absurd rfl (plain.2.1 t)
  | create running known _ _ _ made =>
    obtain ⟨isTask, runs⟩ := Runtime.running_lt running
    obtain ⟨begun, live, -⟩ := Task.running_iff.mp runs
    have same := Option.some.inj (known.symm.trans last)
    rw [runtime, (adv.birth_new rfl isTask begun live known made).1, same, List.getLast?_concat]

theorem Surpassed.run (treed : Treed s owner fork below) (surpassed : Surpassed s owner t z)
    (path : System.Leads TreeStep s s') : ∃ owner' fork' below', Treed s' owner' fork' below' ∧ Surpassed s' owner' t z := by
  induction path with
  | refl => exact ⟨owner, fork, below, treed, surpassed⟩
  | @step s₁ _ e _ permitted stepped ih =>
    obtain ⟨owner₁, fork₁, below₁, treed₁, surpassed₁⟩ := ih
    obtain ⟨owner', fork', below', treed', adv⟩ := treed₁.step permitted stepped
    obtain ⟨-, -, runtime, -⟩ := System.step_cases stepped
    obtain ⟨z', less, there, own⟩ := surpassed₁.later
    refine ⟨owner', fork', below', treed', surpassed₁.toChildless.step treed₁ adv permitted runtime ?_, z', less,
      Nat.lt_of_lt_of_le there adv.grows.next, (adv.owners z' there).trans own⟩
    rintro rfl init known
    obtain ⟨isTask, runs⟩ := Runtime.running_lt adv.enabled
    obtain ⟨begun, live, -⟩ := Task.running_iff.mp runs
    have latest := treed₁.versions.latest t isTask permitted.1 begun live _ known z (by simp)
      (congrArg Strand.task surpassed₁.own) z' there (own.trans surpassed₁.own.symm)
    omega

variable {a : Nat} {entry : Entry} (treed : Treed s owner fork below) (found : s.log[a]? = some entry)
  (ends : entry.label.getLast? = some z)

include treed found ends

theorem Childless.not_endsWaited (childless : Childless s owner t z) : ¬s.EndsWaited a := by
  rw [System.endsWaited_iff found ends]
  intro marked
  obtain ⟨c, isTask, kind, born, -⟩ := (treed.versions.marks z childless.there).mp marked
  exact childless.unborn c isTask kind born

theorem Treed.endsWaited_iff_waited (there : z < s.detector.heap.next) {c : Nat} (isTask : c < s.runtime.tasks)
    (kind : (s.runtime.task c).kind = .explicit) (born : (s.runtime.birth s.detector c).getLast? = some z) :
    s.EndsWaited a ↔ (s.runtime.task c).waited ≠ none := by
  rw [System.endsWaited_iff found ends]
  constructor
  · intro marked
    obtain ⟨c', isTask', kind', born', waited⟩ := (treed.versions.marks z there).mp marked
    rwa [treed.birth_unique isTask kind isTask' kind' born born']
  · intro waited
    exact (treed.versions.marks z there).mpr ⟨c, isTask, kind, born, waited⟩

end Run

theorem Treed.run {s s' : System} {owner : Nat → Strand} {fork : Nat → Contents} {below : Strand → Contents}
    (treed : Treed s owner fork below) (path : System.Leads TreeStep s s') :
    ∃ owner' fork' below', Treed s' owner' fork' below' := by
  induction path with
  | refl => exact ⟨owner, fork, below, treed⟩
  | step _ permitted stepped ih =>
    obtain ⟨owner₁, fork₁, below₁, treed₁⟩ := ih
    obtain ⟨owner', fork', below', treed', -⟩ := treed₁.step permitted stepped
    exact ⟨owner', fork', below', treed'⟩

/-- What becomes of the end of an access's label is decided by the first event that counts in the task after it: the
    creation of a task, which leaves the mark to a taskwait for that task, or a taskwait, after which there is none. -/
theorem endsWaited_after {s₀ s₁ s₂ : System} {t : Nat} (reached : System.Reachable TreeStep s₀)
    (stepped : s₀.step (.access t) = some s₁)
    (path : System.Leads (fun s e => TreeStep s e ∧ ¬e.CountsIn t) s₁ s₂) :
    ¬s₂.EndsWaited s₀.log.length ∧
    (∀ s₃ s, TreeStep s₂ (.taskwaitEnd t) → s₂.step (.taskwaitEnd t) = some s₃ → System.Leads TreeStep s₃ s →
      ¬s.EndsWaited s₀.log.length) ∧
    ∀ s₃ s, TreeStep s₂ (.taskCreate t) → s₂.step (.taskCreate t) = some s₃ → System.Leads TreeStep s₃ s →
      (s.EndsWaited s₀.log.length ↔ (s.runtime.task s₂.runtime.tasks).waited ≠ none) := by
  obtain ⟨owner₀, fork₀, below₀, treed₀⟩ := reached.treed
  obtain ⟨enabled, -, -, -⟩ := System.step_cases stepped
  obtain ⟨label, known, -, -⟩ := System.step_access stepped
  obtain ⟨isTask, runs⟩ := Runtime.running_lt enabled
  obtain ⟨begun, live, -⟩ := Task.running_iff.mp runs
  obtain ⟨init, z, rfl⟩ := treed₀.placed.lined.label_last isTask begun live known
  have whole := (System.Leads.refl.step ⟨⟨trivial, id⟩, by simp [Event.CountsIn]⟩ stepped).trans path
  obtain ⟨owner, fork, below, treed, dwells⟩ := (treed₀.dwells enabled known).run treed₀ whole
  have reached₁ := (reached.weaken fun _ _ _ => trivial).step trivial stepped
  have reached₂ := path.reachable reached₁
  have found := (path.continues reached₁).found (System.found_access stepped known)
  have ends : (init ++ [z]).getLast? = some z := List.getLast?_concat
  refine ⟨dwells.toChildless.not_endsWaited treed found ends, fun s₃ s permitted waits later => ?_,
    fun s₃ s permitted creates later => ?_⟩
  · obtain ⟨owner₃, fork₃, below₃, treed₃, surpassed⟩ := dwells.surpassed treed permitted waits
    obtain ⟨owner', fork', below', treed', surpassed'⟩ := surpassed.run treed₃ later
    have onward := (System.Leads.refl.step trivial waits).trans (later.weaken fun _ _ _ => trivial)
    exact surpassed'.toChildless.not_endsWaited treed' ((onward.continues reached₂).found found) ends
  · obtain ⟨isNew, kind, born⟩ := dwells.born treed permitted creates
    obtain ⟨owner', fork', below', treed'⟩ := treed.run ((System.Leads.refl.step permitted creates).trans later)
    have onward := (System.Leads.refl.step trivial creates).trans (later.weaken fun _ _ _ => trivial)
    have kept := later.continues (reached₂.step trivial creates)
    have there := Nat.lt_of_lt_of_le dwells.there (onward.continues reached₂).grows.next
    refine treed'.endsWaited_iff_waited ((onward.continues reached₂).found found) ends there
      (Nat.lt_of_lt_of_le isNew kept.extend.tasks) ((kept.extend.fixed _ isNew).kind.trans kind) ?_
    rw [kept.births _ isNew kind, born]

theorem endsWaited_after_child : ∃ s₀ s₁ s₂ s₃ s, System.runWhile (fun s e => decide (TreeStep s e))
      [.parallelBegin 0 2, .implicitBegin 1] = some s₀ ∧
    s₀.step (.access 1) = some s₁ ∧ s₁.step (.taskCreate 1) = some s₂ ∧ s₂.step (.taskComplete 3) = some s₃ ∧
      s₃.step (.taskwaitEnd 1) = some s ∧ s.EndsWaited s₀.log.length := by
  obtain ⟨s₀, ran, s₁, stepped, new, s₂, created, s₃, completed, s, waits, waited⟩ :
      ∃ s₀, System.runWhile (fun s e => decide (TreeStep s e)) [.parallelBegin 0 2, .implicitBegin 1] = some s₀ ∧
        ∃ s₁ ∈ s₀.step (.access 1), s₁.runtime.tasks = 3 ∧ ∃ s₂ ∈ s₁.step (.taskCreate 1),
          ∃ s₃ ∈ s₂.step (.taskComplete 3), ∃ s ∈ s₃.step (.taskwaitEnd 1), (s.runtime.task 3).waited.isSome = true :=
    exists_of_any (by decide)
  have reached : System.Reachable TreeStep s₀ := .of_checked (fun _ _ => of_decide_eq_true) ran
  have path : System.Leads TreeStep s₂ s :=
    (System.Leads.refl.step ⟨trivial, id⟩ completed).step (e := .taskwaitEnd 1) ⟨Nat.one_ne_zero, id⟩ waits
  refine ⟨s₀, s₁, s₂, s₃, s, ran, stepped, created, completed, waits, ?_⟩
  apply ((endsWaited_after reached stepped .refl).2.2 s₂ s ⟨Nat.one_ne_zero, id⟩ created path).mpr
  rw [new]
  exact Option.isSome_iff_ne_none.mp waited

def System.startOf (s : System) (t : Nat) : Nat :=
  (((s.detector.label t).bind List.head?).map fun r => (s.detector.plain r).offset).getD 0

section Start

variable {s s' : System}

theorem System.startOf_cons {t r : Nat} {rest : Label} (known : s.detector.label t = some (r :: rest)) :
    s.startOf t = (s.detector.plain r).offset := by
  rw [startOf, known]
  rfl

theorem System.start_access {t : Nat} (stepped : s.step (.access t) = some s') :
    s'.start s.log.length = s.startOf t := by
  obtain ⟨label, known, detector, log⟩ := System.step_access stepped
  have known' : s.detector.label t = some label := known
  rw [System.start, System.labelOf, log, List.getElem?_concat_length, System.startOf, known', detector]
  cases label <;> rfl

variable {owner owner' : Nat → Strand} {fork : Nat → Contents} {below : Strand → Contents} {e : Event}
  (treed : Treed s owner fork below)

include treed

theorem Treed.start_kept (stepped : s.step e = some s') {a : Nat} (logged : a < s.log.length) : s'.start a = s.start a := by
  obtain ⟨owner', -, adv⟩ := treed.placed.advance treed.nested treed.lineage treed.closing stepped
  have found : s.log[a]? = some s.log[a] := List.getElem?_eq_getElem logged
  have found' : s'.log[a]? = some s.log[a] := by
    rcases System.logged_cases stepped with ⟨log, -⟩ | ⟨_, _, -, -, -, -, -, log⟩
    · rw [log, found]
    · rw [log, List.getElem?_append_left logged, found]
  rw [System.start, System.start, System.labelOf_found found, System.labelOf_found found']
  cases split : s.log[a].label with
  | nil => rfl
  | cons r rest =>
    have there := (treed.placed.logged.entry _ (List.getElem_mem logged)).1 r (by rw [split]; exact List.mem_cons_self)
    exact congrArg Contents.offset (adv.plain there)

section Labels

variable (adv : Advance s.runtime s.detector s'.detector owner owner' e) {t : Nat} (notRoot : t ≠ 0)

include adv

omit treed in
theorem System.startOf_eq {r : Nat} {rest rest' : Label} (there : r < s.detector.heap.next)
    (known : s.detector.label t = some (r :: rest)) {t' : Nat} (known' : s'.detector.label t' = some (r :: rest')) :
    s'.startOf t' = s.startOf t := by
  rw [System.startOf_cons known, System.startOf_cons known', adv.plain there]

include notRoot

theorem Treed.startOf_kept (isTask : t < s.runtime.tasks) (begun : (s.runtime.task t).begun = true)
    (other : e ≠ .barrierEnd t) : s'.startOf t = s.startOf t := by
  obtain ⟨label, known, holds, mapped⟩ := adv.lined.label t isTask begun
  obtain ⟨strands, place⟩ := s.runtime.place_line t
  obtain ⟨more, line⟩ := treed.lineage.starts isTask notRoot
  obtain ⟨r, rest, rfl⟩ : ∃ r rest, label = r :: rest := by
    cases label with
    | nil =>
      rw [place, line] at mapped
      cases mapped
    | cons r rest => exact ⟨r, rest, rfl⟩
  have there := holds r List.mem_cons_self
  have same : s'.detector.label t = s.detector.label t → s'.startOf t = s.startOf t :=
    fun same => System.startOf_eq adv there known (same.trans known)
  have front : ∀ {upper rest rest' : Label}, upper ≠ [] → s.detector.label t = some (upper ++ rest) →
      s'.detector.label t = some (upper ++ rest') → s'.startOf t = s.startOf t := by
    intro upper rest rest' some_ old new
    cases upper with
    | nil => exact absurd rfl some_
    | cons x upper => exact System.startOf_eq adv (adv.held isTask begun old x (by simp)) old new
  have long : ∀ {upper : Label}, (s.runtime.task t).line.length ≤ upper.length → upper ≠ [] := by
    rintro _ low rfl
    rw [line] at low
    cases low
  cases adv.turn with
  | still _ labels => exact same (labels t)
  | @touch _ t' _ _ _ _ _ _ _ _ _ moves low =>
    by_cases actor : t = t'
    · subst actor
      exact front (long low) moves.old moves.new
    · exact same (moves.others t actor)
  | @create t' init x isTask' begun' live _ old new _ others =>
    by_cases actor : t = t'
    · subst actor
      exact front (long (adv.lined.last_task isTask' begun' live old).1) old new
    · exact same (others t actor (Nat.ne_of_lt isTask))
  | enter _ _ _ unbegun _ _ others =>
    apply same (others t _)
    rintro rfl
    cases begun.symm.trans unbegun
  | barrier _ _ _ _ _ moves =>
    apply same (moves.others t _)
    rintro rfl
    exact other rfl
  | join isRegion _ _ _ _ _ others =>
    apply same (others t _)
    rintro rfl
    have only := Advance.only_region treed.flat isRegion
    exact notRoot (only.1 ▸ only.2.2)

omit notRoot in
theorem Treed.startOf_barrier (ends : e = .barrierEnd t) : s'.startOf t = (s.startOf t + 1) % 2 ^ 16 := by
  cases adv.turn with
  | still plain => exact absurd ends (plain t)
  | touch plain => exact absurd ends (plain t)
  | @barrier r i upper x own isRegion isMember begun live _ moves low _ _ bumped =>
    cases ends
    obtain ⟨-, -, bound⟩ := adv.nested.bounds r isRegion
    have isTask : s.runtime.memberOf r i < s.runtime.tasks := by
      rw [Runtime.memberOf]
      omega
    have line := (treed.flat.implicit _ isTask r i (adv.nested.kind r isRegion i isMember).1).1
    rw [line] at low
    obtain rfl := List.eq_nil_of_length_eq_zero (Nat.succ.inj low.symm)
    have mapped := (adv.lined.place_length isTask begun moves.old).1
    rw [Runtime.place_live live, Task.strands, line] at mapped
    have root : owner x = ⟨0, none⟩ := (List.cons.inj mapped).1
    have suits := treed.origins.suits x (adv.held isTask begun moves.old x (by simp))
    simp only [Runtime.Suits, root, adv.nested.root.1] at suits
    rw [System.startOf_cons moves.old, System.startOf_cons moves.new, bumped, Contents.bump, suits.2, Nat.one_mul]
  | _ => cases ends

omit notRoot in
/-- A task begins where the task that creates it is, and a member where the initial task is. -/
theorem Treed.startOf_new (begins : e = .taskCreate t ∧ t ≠ 0) :
    s'.startOf s.runtime.tasks = s.startOf t := by
  obtain ⟨rfl, notRoot⟩ := begins
  cases adv.turn with
  | still _ _ _ begun =>
    have new := begun s.runtime.tasks (Nat.lt_succ_self _) (by simp [Runtime.after, Task.new])
    exact absurd new.1 (lt_irrefl _)
  | touch _ _ _ _ _ _ _ _ count => exact absurd count (Nat.succ_ne_self _)
  | @create _ init r isTask begun live _ old _ made =>
    obtain ⟨more, line⟩ := treed.lineage.starts isTask notRoot
    cases init with
    | nil =>
      have low := (adv.lined.last_task isTask begun live old).1
      rw [line] at low
      cases low
    | cons x init => exact System.startOf_eq adv (adv.held isTask begun old x (by simp)) old made

omit notRoot in
theorem Treed.startOf_begin (begins : e = .implicitBegin t) : s'.startOf t = s.startOf 0 := by
  cases adv.taskTurn treed.flat (begins ▸ trivial) with
  | still _ _ _ plain => exact absurd begins (plain.1 t)
  | enter _ _ old _ _ now =>
    cases begins
    exact System.startOf_eq adv (adv.held treed.nested.positive treed.nested.root.2.2.1 old _ List.mem_cons_self) old now
  | _ => cases begins

end Labels

end Start

/-- When the offset that the verdicts compare first grows: an access has that of its task for good; a task has that of
    the task that created it, and a member at first that of the initial task; and a member adds one at each barrier. -/
theorem starts_after {s s' : System} {e : Event} (reached : System.Reachable TreeStep s) (permitted : TreeStep s e)
    (stepped : s.step e = some s') : (∀ a < s.log.length, s'.start a = s.start a) ∧
    (∀ t, e = .access t → s'.start s.log.length = s.startOf t) ∧
    (∀ t, t ≠ 0 → t < s.runtime.tasks → (s.runtime.task t).begun = true → e ≠ .barrierEnd t →
      s'.startOf t = s.startOf t) ∧
    (∀ t, e = .barrierEnd t → s'.startOf t = (s.startOf t + 1) % 2 ^ 16) ∧
    (∀ t, e = .taskCreate t → s'.startOf s.runtime.tasks = s.startOf t) ∧
    ∀ t, e = .implicitBegin t → s'.startOf t = s.startOf 0 := by
  obtain ⟨owner, fork, below, treed⟩ := reached.treed
  obtain ⟨owner', -, -, -, adv⟩ := treed.step permitted stepped
  refine ⟨fun a logged => treed.start_kept stepped logged, fun t access => ?_,
    fun t notRoot isTask begun other => treed.startOf_kept adv notRoot isTask begun other,
    fun t ends => treed.startOf_barrier adv ends, fun t creates => ?_, fun t begins => treed.startOf_begin adv begins⟩
  · subst access
    exact System.start_access stepped
  · subst creates
    exact treed.startOf_new adv ⟨rfl, permitted.1⟩

theorem starts_after_barrier : ∃ s s', System.runWhile (fun s e => decide (TreeStep s e))
      [.parallelBegin 0 2, .implicitBegin 1, .implicitBegin 2, .barrierBegin 1 false, .barrierBegin 2 false, .release 0] =
        some s ∧ s.step (.barrierEnd 1) = some s' ∧ s'.startOf 1 = 1 := by
  obtain ⟨s, ran, zero, s', stepped, -⟩ : ∃ s, System.runWhile (fun s e => decide (TreeStep s e))
      [.parallelBegin 0 2, .implicitBegin 1, .implicitBegin 2, .barrierBegin 1 false, .barrierBegin 2 false, .release 0] =
        some s ∧ s.startOf 1 = 0 ∧ ∃ s' ∈ s.step (.barrierEnd 1), s'.log = [] :=
    exists_of_any (by decide)
  have reached : System.Reachable TreeStep s := .of_checked (fun _ _ => of_decide_eq_true) ran
  have grown := (starts_after (e := .barrierEnd 1) reached ⟨trivial, id⟩ stepped).2.2.2.1 1 rfl
  rw [zero] at grown
  exact ⟨s, s', ran, stepped, grown⟩

end Romp
