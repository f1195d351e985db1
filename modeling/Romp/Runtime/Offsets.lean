import Romp.Runtime.Origins

namespace Romp

/-- The end of a barrier does not take the offset past what its field can hold. -/
def Detector.InRange (d : Detector) : Event → Prop
  | .barrierEnd t => ∀ above x own, d.label t = some (above ++ [x, own]) →
      (d.heap.objects x).getOffset + (d.heap.objects x).getSpan < 2 ^ 16
  | _ => True

/-- The offsets as long as none has wrapped: a region starts from the offset that the barriers of the ones before
    it, in the same strand, have led to. -/
structure Offsets (R : Runtime) (d : Detector) (owner : Nat → Strand) (fork : Nat → Contents) : Prop where
  spans : ∀ r < R.regions, 0 < (fork r).span
  room : ∀ r < R.regions, ∀ i < (R.region r).size, (R.task (R.memberOf r i)).begun = true →
    (fork r).offset + (R.task (R.memberOf r i)).passed * (fork r).span < 2 ^ 16
  residue : ∀ x < d.heap.next, (owner x).body = none → ∀ r i, (R.task (owner x).task).kind = .implicit r i →
    (d.plain x).offset % (R.region r).size = i
  joined : ∀ r < R.regions, (R.task (R.memberOf r 0)).ended = true → ∀ label,
    d.label (R.region r).encountering = some label → ∀ z ∈ label,
    (R.task (R.memberOf r 0)).line.getLast? = some (owner z) →
    (fork r).offset + (R.region r).released * (fork r).span ≤ (d.plain z).offset
  later : ∀ r r', r < r' → r' < R.regions → (R.task (R.memberOf r 0)).line = (R.task (R.memberOf r' 0)).line →
    (R.task (R.memberOf r 0)).ended = true ∧
      (fork r).offset + (R.region r).released * (fork r).span ≤ (fork r').offset

theorem Contents.bump_offset {z : Contents} {k : Nat} (room : z.offset + k * z.span < 2 ^ 16) :
    (z.bump k).offset = z.offset + k * z.span := Nat.mod_eq_of_lt room

namespace Advance

variable {R : Runtime} {d d' : Detector} {owner owner' : Nat → Strand} {e : Event} {fork fork' : Nat → Contents}
  {below below' : Strand → Contents} (adv : Advance R d d' owner owner' e)
  (origins : Origins R d owner fork below) (offsets : Offsets R d owner fork)

include adv

theorem forking {t size : Nat} (forks : e = .parallelBegin t size) : ∃ init x, t < R.tasks ∧
    (R.task t).running = true ∧ d.label t = some (init ++ [x]) ∧ x < d.heap.next ∧ 0 < size ∧
      (R.task t).strands t = init.map owner ++ [owner x] := by
  subst forks
  have enabled := adv.enabled
  simp only [Runtime.enabled, Bool.and_eq_true, decide_eq_true_eq] at enabled
  obtain ⟨isTask, runs⟩ := Runtime.running_lt enabled.1
  obtain ⟨begun, live, -⟩ := Task.running_iff.mp runs
  obtain ⟨label, known, holds, mapped⟩ := adv.lined.label t isTask begun
  rw [Runtime.place_live live] at mapped
  rcases List.eq_nil_or_concat' label with rfl | ⟨init, x, rfl⟩
  · cases List.append_ne_nil_of_right_ne_nil _ (List.cons_ne_nil _ _) mapped.symm
  · exact ⟨init, x, isTask, runs, known, holds x (by simp), enabled.2, by rw [← mapped, List.map_append]; rfl⟩

include origins

theorem span_positive {x : Nat} (there : x < d.heap.next) : 0 < (d.plain x).span := by
  have suits := origins.suits x there
  have isTask := (origins.past x there).1
  unfold Runtime.Suits at suits
  cases body : (owner x).body with
  | some c =>
    rw [body] at suits
    rw [suits.2.1]
    exact Nat.one_pos
  | none =>
    rw [body] at suits
    cases kind : (R.task (owner x).task).kind with
    | initial | explicit =>
      rw [kind] at suits
      rw [suits.2]
      exact Nat.one_pos
    | implicit r i =>
      rw [kind] at suits
      rw [suits.2]
      exact (adv.nested.bounds r (adv.nested.member _ isTask r i kind).1).1

theorem leaving {r i : Nat} (isRegion : r < R.regions) (isMember : i < (R.region r).size)
    (leaves : e = .barrierEnd (R.memberOf r i)) : ∃ upper y own, (R.task (R.memberOf r i)).begun = true ∧
      (R.task (R.memberOf r i)).ended = false ∧ d.label (R.memberOf r i) = some (upper ++ [y, own]) ∧
      d.plain y = (fork r).bump (R.task (R.memberOf r i)).passed := by
  cases adv.turn with
  | still plain | touch plain => exact absurd leaves (plain _)
  | create | enter | join => cases leaves
  | @barrier ρ j upper y own isRegion' isMember' begun live idle moves low next kept bumped =>
    simp only [Event.barrierEnd.injEq] at leaves
    obtain ⟨rfl, rfl⟩ := adv.nested.member_inj isRegion' isMember' isRegion isMember leaves
    obtain ⟨x, -, -, same⟩ := adv.barrier_shape origins isRegion isMember begun live moves.old low
    exact ⟨upper, y, own, begun, live, moves.old, same⟩

include offsets

theorem spans_field (keeps : Keeps R d owner e fork fork' below below') :
    ∀ r < (R.after e).regions, 0 < (fork' r).span := by
  intro r isRegion
  rcases Runtime.regions_after r isRegion with old | ⟨t, size, rfl, rfl⟩
  · rw [keeps.forks r old]
    exact offsets.spans r old
  · obtain ⟨init, x, -, -, known, there, -⟩ := adv.forking rfl
    rw [keeps.forked t size rfl init x known]
    exact adv.span_positive origins there

theorem room_field (keeps : Keeps R d owner e fork fork' below below') (inRange : d.InRange e) :
    ∀ r < (R.after e).regions, ∀ i < ((R.after e).region r).size,
      ((R.after e).task ((R.after e).memberOf r i)).begun = true →
      (fork' r).offset + ((R.after e).task ((R.after e).memberOf r i)).passed * (fork' r).span < 2 ^ 16 := by
  intro r isRegion i isMember begun
  rcases Runtime.regions_after r isRegion with old | ⟨t, size, rfl, rfl⟩
  · rw [(Runtime.region_after old).size] at isMember
    rw [Runtime.after_memberOf old] at begun ⊢
    rw [keeps.forks r old]
    have isTask := adv.nested.member_lt old isMember
    have bound := Nat.lt_of_lt_of_le isTask (Runtime.after_extends R e).tasks
    by_cases leaves : e = .barrierEnd (R.memberOf r i)
    · obtain ⟨upper, y, own, begun, live, known, same⟩ := adv.leaving origins old isMember leaves
      have before := offsets.room r old i isMember begun
      subst leaves
      have range := inRange upper y own known
      change (d.plain y).offset + (d.plain y).span < 2 ^ 16 at range
      rw [same, Contents.bump_offset before] at range
      change (fork r).offset + _ + (fork r).span < 2 ^ 16 at range
      have task : (R.after (.barrierEnd (R.memberOf r i))).task (R.memberOf r i) =
          { R.task (R.memberOf r i) with passed := (R.task (R.memberOf r i)).passed + 1 } := by
        simp only [Runtime.after, Runtime.set_task, if_true]
      rw [task]
      change _ + ((R.task (R.memberOf r i)).passed + 1) * _ < _
      rw [Nat.add_mul, Nat.one_mul]
      omega
    · rw [adv.passed_same isTask leaves]
      rcases (Runtime.created_after adv.enabled).mp ⟨bound, begun⟩ with created | begins | ⟨t, -, new⟩
      · exact offsets.room r old i isMember created.2
      · subst begins
        have enabled := adv.enabled
        simp only [Runtime.enabled, Bool.and_eq_true, Bool.not_eq_true'] at enabled
        have counters := adv.nested.counters r old i isMember
        have still := (counters.unbegun enabled.2).1
        have first := counters.passed
        have second := counters.arrived
        have live : (R.task (R.memberOf r i)).ended = false := by
          rw [← Bool.not_eq_true]
          intro ended
          cases (counters.ended ended).1.symm.trans (counters.unbegun enabled.2).2.1
        obtain ⟨init, x, -, same, -⟩ :=
          origins.forked r old (adv.nested.live_open old isMember live) (adv.first_live old isMember live)
        rw [show (R.task (R.memberOf r i)).passed = 0 by omega, Nat.zero_mul, Nat.add_zero, ← same]
        exact plain_offset_lt _
      · exact absurd isTask (by omega)
  · have bound : i < size := by
      rw [Runtime.fork_region, if_pos rfl] at isMember
      exact isMember
    rw [Runtime.fork_memberOf_new, Runtime.fork_member bound] at begun
    cases begun

theorem residue_field (inRange : d.InRange e) : ∀ x < d'.heap.next, (owner' x).body = none → ∀ r i,
    ((R.after e).task (owner' x).task).kind = .implicit r i → (d'.plain x).offset % ((R.after e).region r).size = i := by
  have old : ∀ x < d.heap.next, (owner x).body = none → ∀ r i, ((R.after e).task (owner x).task).kind = .implicit r i →
      (d.plain x).offset % ((R.after e).region r).size = i ∧ (d.plain x).span = ((R.after e).region r).size := by
    intro x there body r i kind
    have isTask := (origins.past x there).1
    rw [((Runtime.after_extends R e).fixed _ isTask).kind] at kind
    have isRegion := (adv.nested.member _ isTask r i kind).1
    have suits := origins.suits x there
    simp only [Runtime.Suits, body, kind] at suits
    rw [(Runtime.region_after isRegion).size]
    exact ⟨offsets.residue x there body r i kind, suits.2⟩
  intro x bound body r i kind
  by_cases new : x < d.heap.next
  · rw [adv.owners x new] at body kind
    rw [adv.plain new]
    exact (old x new body r i kind).1
  · cases adv.fresh bound new with
    | version there owns counted =>
      rw [owns] at body kind
      rw [counted, Event.count_offset]
      exact (old _ there body r i kind).1
    | @bumped y t upper own leaves known there owns bumped =>
      subst leaves
      rw [owns] at body kind
      obtain ⟨residue, span⟩ := old y there body r i kind
      have range := inRange upper y own known
      change (d.plain y).offset + (d.plain y).span < 2 ^ 16 at range
      rw [bumped, Contents.bump_offset (by rw [Nat.one_mul]; exact range), Nat.one_mul, span, Nat.add_mod_right]
      exact residue
    | unit _ _ owns =>
      rw [owns] at body
      cases body
    | @task t creates owns plain =>
      subst creates
      rw [owns] at kind
      simp [Runtime.after, Task.new] at kind
    | @member ρ j isRegion isMember begins owns plain =>
      have isTask := adv.nested.member_lt isRegion isMember
      rw [owns, ((Runtime.after_extends R e).fixed _ isTask).kind, (adv.nested.kind ρ isRegion j isMember).1] at kind
      cases kind
      rw [plain, (Runtime.region_after isRegion).size]
      exact Nat.mod_eq_of_lt isMember

omit offsets origins in
theorem released_ended {r : Nat} (isRegion : r < R.regions) (ended : (R.task (R.memberOf r 0)).ended = true) :
    ((R.after e).region r).released = (R.region r).released := by
  rcases (Runtime.region_after (e := e) isRegion).released with same | ⟨rfl, -⟩
  · exact same
  · have first := (adv.nested.bounds r isRegion).1
    have counters := adv.nested.counters r isRegion 0 first
    have enabled := adv.enabled
    simp only [Runtime.enabled, Bool.and_eq_true, List.all_eq_true, beq_iff_eq] at enabled
    have arrived := (enabled.1.2 (R.memberOf r 0) (Region.mem_members.mpr ⟨0, first, rfl⟩)).1
    have passed := (counters.ended ended).2
    have bound := counters.passed
    omega

/-- The offset of a strand does not fall in the label of the task that has forked a region there. -/
theorem offset_after (inRange : d.InRange e) {r bound : Nat} (isRegion : r < R.regions)
    (ended : (R.task (R.memberOf r 0)).ended = true)
    (before : ∀ label, d.label (R.region r).encountering = some label → ∀ z ∈ label,
      (R.task (R.memberOf r 0)).line.getLast? = some (owner z) → bound ≤ (d.plain z).offset)
    {label : Label} (known : d'.label (R.region r).encountering = some label) {z : Nat} (inside : z ∈ label)
    (last : (R.task (R.memberOf r 0)).line.getLast? = some (owner' z)) : bound ≤ (d'.plain z).offset := by
  have first := (adv.nested.bounds r isRegion).1
  have isTask := adv.nested.member_lt isRegion first
  have isForker := adv.nested.encountering_lt isRegion
  have begun := adv.begun_closing isRegion first ((adv.nested.counters r isRegion 0 first).ended ended).1
  obtain ⟨forkerBegun, -⟩ := adv.parent_begun origins isTask (adv.nested.member_ne_zero isRegion 0) begun
  rw [(adv.nested.kind r isRegion 0 first).2.1] at forkerBegun
  have old : ∀ y label, d.label (R.region r).encountering = some label → y ∈ label →
      (R.task (R.memberOf r 0)).line.getLast? = some (owner' y) → bound ≤ (d'.plain y).offset := by
    intro y label known member last
    have there := adv.held isForker forkerBegun known y member
    rw [adv.owners y there] at last
    rw [adv.plain there]
    exact before label known y member last
  have version : ∀ y n label, d.label (R.region r).encountering = some label → y ∈ label →
      (R.task (R.memberOf r 0)).line.getLast? = some (owner' n) → owner' n = owner y →
      (d.plain y).offset ≤ (d'.plain n).offset → bound ≤ (d'.plain n).offset := by
    intro y n label known member last same more
    exact (before label known y member (same ▸ last)).trans more
  cases adv.turn with
  | still plain labels next begun => exact old z label ((labels _).symm.trans known) inside last
  | @touch _ t upper dropped new plain isTask' begun' live free actor moves low count same next renewal =>
    by_cases self : (R.region r).encountering = t
    · subst self
      rw [moves.new, Option.some.injEq] at known
      subst known
      rcases List.mem_append.mp inside with above | here
      · exact old z _ moves.old (List.mem_append_left _ above) last
      · cases renewal with
        | gone => cases here
        | @version y rest kept counted =>
          rw [List.mem_singleton.mp here] at last ⊢
          apply version y _ _ moves.old (by simp) last kept
          rw [counted, Event.count_offset]
        | @unit dropped b owns opens units type =>
          rw [List.mem_singleton.mp here, owns] at last
          obtain ⟨y, there, same⟩ := adv.line_owned isTask begun (List.mem_of_getLast? last)
          exact absurd same (origins.opens_fresh opens y there)
    · exact old z label ((moves.others _ self).symm.trans known) inside last
  | @create t init y isTask' begun' live free before' now made others next own kept plain counted =>
    by_cases self : (R.region r).encountering = t
    · subst self
      rw [now, Option.some.injEq] at known
      subst known
      rcases List.mem_append.mp inside with above | here
      · exact old z _ before' (List.mem_append_left _ above) last
      · rw [List.mem_singleton.mp here] at last ⊢
        apply version y _ _ before' (by simp) last kept
        rw [counted, Event.count_offset]
    · exact old z label ((others _ self (Nat.ne_of_lt isForker)).symm.trans known) inside last
  | @enter ρ i upper isRegion' isMember isOpen unbegun before' now others next own plain =>
    have notMember : (R.region r).encountering ≠ R.memberOf ρ i := by
      intro self
      rw [self, unbegun] at forkerBegun
      cases forkerBegun
    exact old z label ((others _ notMember).symm.trans known) inside last
  | @barrier ρ i upper x own isRegion' isMember begun' live idle moves low next kept bumped =>
    by_cases self : (R.region r).encountering = R.memberOf ρ i
    · rw [self, moves.new, Option.some.injEq] at known
      subst known
      rcases List.mem_append.mp inside with above | here
      · exact old z _ (self ▸ moves.old) (List.mem_append_left _ above) last
      · rcases List.mem_cons.mp here with rfl | here
        · apply version x _ _ (self ▸ moves.old) (by simp) last kept
          have range := inRange upper x own moves.old
          change (d.plain x).offset + (d.plain x).span < 2 ^ 16 at range
          rw [bumped, Contents.bump_offset (by rw [Nat.one_mul]; exact range)]
          exact Nat.le_add_right _ _
        · exact old z _ (self ▸ moves.old) (by simp [List.mem_singleton.mp here]) last
    · exact old z label ((moves.others _ self).symm.trans known) inside last
  | @join ρ upper own isRegion' live closing settled before' now others heap =>
    by_cases self : (R.region r).encountering = (R.region ρ).encountering
    · obtain ⟨init, x, y, forker, rfl, same, same', owns⟩ := adv.join_shape origins isRegion' live closing before'
      rw [self, now, Option.some.injEq] at known
      subst known
      rcases List.mem_append.mp inside with above | here
      · exact old z _ (self ▸ forker) (List.mem_append_left _ above) last
      · have first' := (adv.nested.bounds ρ isRegion').1
        have begun' := adv.begun_closing isRegion' first' closing
        have there := adv.held (adv.nested.member_lt isRegion' first') begun' before' y (by simp)
        rw [List.mem_singleton.mp here] at last ⊢
        apply version x _ _ (self ▸ forker) (by simp) last ((adv.owners y there).trans owns)
        rw [adv.plain there, same, same', Contents.bump_offset (offsets.room ρ isRegion' 0 first' begun')]
        exact Nat.le_add_right _ _
    · exact old z label ((others _ self).symm.trans known) inside last

theorem joined_field (keeps : Keeps R d owner e fork fork' below below') (inRange : d.InRange e) :
    ∀ r < (R.after e).regions, ((R.after e).task ((R.after e).memberOf r 0)).ended = true → ∀ label,
      d'.label ((R.after e).region r).encountering = some label → ∀ z ∈ label,
      ((R.after e).task ((R.after e).memberOf r 0)).line.getLast? = some (owner' z) →
      (fork' r).offset + ((R.after e).region r).released * (fork' r).span ≤ (d'.plain z).offset := by
  intro r isRegion ended label known z inside last
  rcases Runtime.regions_after r isRegion with isRegion | ⟨t, size, rfl, rfl⟩
  · have first := (adv.nested.bounds r isRegion).1
    have isTask := adv.nested.member_lt isRegion first
    have region := Runtime.region_after (e := e) isRegion
    rw [Runtime.after_memberOf isRegion] at ended last
    rw [((Runtime.after_extends R e).fixed _ isTask).line] at last
    rw [region.encountering] at known
    rw [keeps.forks r isRegion]
    by_cases before : (R.task (R.memberOf r 0)).ended = true
    · rw [adv.released_ended isRegion before]
      exact adv.offset_after origins offsets inRange isRegion before (offsets.joined r isRegion before) known inside last
    · -- the region is joined: the offset comes from the barriers of the first member
      have ends : e = .implicitEnd (R.memberOf r 0) := by
        apply (Runtime.ended_by isTask (by simpa using before) ended).resolve_right
        rintro rfl
        have enabled := adv.enabled
        simp only [Runtime.enabled, Bool.and_eq_true, decide_eq_true_eq] at enabled
        cases ((adv.nested.kind r isRegion 0 first).1).symm.trans enabled.1.2
      obtain ⟨upper, own, live, closing, settled, known', new, heap⟩ := adv.joining isRegion ends
      obtain ⟨init, x, y, forker, rfl, same, same', owns⟩ := adv.join_shape origins isRegion live closing known'
      have isOpen := adv.nested.live_open isRegion first live
      have isForker := adv.nested.encountering_lt isRegion
      obtain ⟨begun, alive⟩ := adv.nested.forker adv.lineage isRegion isOpen
      have mapped := (adv.lined.place_length isForker begun forker).1
      rw [Runtime.place_live alive, List.map_append, List.map_singleton] at mapped
      rw [adv.lineage.waiting r isRegion 0 first live, ← mapped, List.getLast?_concat, Option.some.injEq] at last
      rw [new, Option.some.injEq] at known
      subst known
      have held := adv.held isForker begun forker
      rcases List.mem_append.mp inside with above | here
      · rw [adv.owners z (held z (List.mem_append_left _ above))] at last
        refine absurd ?_ (adv.lineage.strands_last isForker mapped.symm)
        rw [last]
        exact List.mem_map_of_mem above
      · have counters := adv.nested.counters r isRegion 0 first
        have begun₀ := adv.begun_closing isRegion first closing
        have there := adv.held isTask begun₀ known' y (by simp)
        have released : ((R.after e).region r).released = (R.task (R.memberOf r 0)).passed := by
          rcases region.released with same | ⟨plain, -⟩
          · have before := counters.passed
            have after := counters.arrived
            omega
          · rw [ends] at plain
            cases plain
        rw [List.mem_singleton.mp here, adv.plain there, same',
          Contents.bump_offset (offsets.room r isRegion 0 first begun₀),
          released]
  · have room : 0 < ((R.after (.parallelBegin t size)).region R.regions).size :=
      (adv.nested'.bounds R.regions (Nat.lt_succ_self _)).1
    rw [Runtime.fork_region, if_pos rfl] at room
    rw [Runtime.fork_memberOf_new, Runtime.fork_member (show 0 < size from room)] at ended
    cases ended

omit origins in
theorem later_field (keeps : Keeps R d owner e fork fork' below below') : ∀ r r', r < r' → r' < (R.after e).regions →
    ((R.after e).task ((R.after e).memberOf r 0)).line = ((R.after e).task ((R.after e).memberOf r' 0)).line →
    ((R.after e).task ((R.after e).memberOf r 0)).ended = true ∧
      (fork' r).offset + ((R.after e).region r).released * (fork' r).span ≤ (fork' r').offset := by
  intro r r' less isRegion' same
  rcases Runtime.regions_after r' isRegion' with old | ⟨t, size, rfl, rfl⟩
  · have isRegion := less.trans old
    have isTask := adv.nested.member_lt isRegion (adv.nested.bounds r isRegion).1
    have isTask' := adv.nested.member_lt old (adv.nested.bounds r' old).1
    rw [Runtime.after_memberOf isRegion] at same ⊢
    rw [Runtime.after_memberOf old, ((Runtime.after_extends R e).fixed _ isTask).line,
      ((Runtime.after_extends R e).fixed _ isTask').line] at same
    obtain ⟨ended, offset⟩ := offsets.later r r' less old same
    rw [keeps.forks r isRegion, keeps.forks r' old, adv.released_ended isRegion ended]
    exact ⟨Runtime.ended_lasts isTask ended, offset⟩
  · -- an earlier region of the strand that the task forks the new one in has been joined
    have isRegion : r < R.regions := less
    have first := (adv.nested.bounds r isRegion).1
    have isTask := adv.nested.member_lt isRegion first
    obtain ⟨init, x, isForker, runs, known, there, room, strands⟩ := adv.forking rfl
    rw [Runtime.after_memberOf isRegion, Runtime.fork_memberOf_new, Runtime.fork_member room,
      ((Runtime.after_extends R _).fixed _ isTask).line] at same
    change (R.task (R.memberOf r 0)).line = (R.task t).strands t at same
    have last : (R.task (R.memberOf r 0)).line.getLast? = some (owner x) := by
      rw [same, strands, List.getLast?_concat]
    have forker : (R.region r).encountering = t := by
      obtain ⟨upper, strand, line, parent⟩ := adv.lineage.line_last isTask (adv.nested.member_ne_zero isRegion 0)
      rw [(adv.nested.kind r isRegion 0 first).2.1] at parent
      rw [line, List.getLast?_concat, Option.some.injEq] at last
      rw [← parent, last]
      exact Task.strands_self strands
    have ended : (R.task (R.memberOf r 0)).ended = true := by
      rw [← Bool.not_eq_false]
      intro live
      have isOpen := adv.nested.live_open isRegion first live
      rw [← forker] at runs
      exact Runtime.Nested.running_not_open runs rfl isOpen
    rw [Runtime.after_memberOf isRegion, keeps.forks r isRegion, keeps.forked t size rfl init x known,
      adv.released_ended isRegion ended]
    exact ⟨Runtime.ended_lasts isTask ended,
      offsets.joined r isRegion ended _ (forker ▸ known) x (by simp) last⟩

theorem offsets_after (keeps : Keeps R d owner e fork fork' below below') (inRange : d.InRange e) :
    Offsets (R.after e) d' owner' fork' where
  spans := adv.spans_field origins offsets keeps
  room := adv.room_field origins offsets keeps inRange
  residue := adv.residue_field origins offsets inRange
  joined := adv.joined_field origins offsets keeps inRange
  later := adv.later_field offsets keeps

end Advance

theorem System.offsets_initial {s : System} (begun : System.initial = .ok s) (fork : Nat → Contents) :
    Offsets s.runtime s.detector (fun _ => ⟨0, none⟩) fork := by
  cases begun
  refine ⟨fun r none => absurd none (Nat.not_lt_zero r), fun r none => absurd none (Nat.not_lt_zero r),
    fun x _ _ r i kind => (by cases kind), fun r none => absurd none (Nat.not_lt_zero r),
    fun r r' less none => absurd none (Nat.not_lt_zero r')⟩

end Romp
