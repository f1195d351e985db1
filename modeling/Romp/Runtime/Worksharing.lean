import Romp.Core.Units
import Romp.Runtime.Identity
import Romp.Runtime.Onward

namespace Romp

structure System.Continues (s s' : System) : Prop where
  grows : s.detector.heap.Grows s'.detector.heap
  log : s.log <+: s'.log
  extend : s.runtime.Extends s'.runtime
  births : SameBirths s.runtime s'.runtime s.detector s'.detector
  regions : ∀ r < s.runtime.regions, r < s'.runtime.regions ∧ (s'.runtime.region r).size = (s.runtime.region r).size

namespace System

variable {s s' s'' : System} {t : Nat}

theorem Leads.reachable {allowed : System → Event → Prop} (path : Leads allowed s s')
    (reached : Reachable (fun _ _ => True) s) : Reachable (fun _ _ => True) s' := by
  induction path with
  | refl => exact reached
  | step _ _ stepped ih => exact ih.step trivial stepped

theorem Leads.trans {allowed : System → Event → Prop} (first : Leads allowed s s') (second : Leads allowed s' s'') :
    Leads allowed s s'' := by
  induction second with
  | refl => exact first
  | step _ permitted stepped ih => exact ih.step permitted stepped

theorem Leads.weaken {allowed allowed' : System → Event → Prop} (path : Leads allowed s s')
    (weaker : ∀ s e, allowed s e → allowed' s e) : Leads allowed' s s' := by
  induction path with
  | refl => exact .refl
  | step _ permitted stepped ih => exact ih.step (weaker _ _ permitted) stepped

theorem Leads.continues {allowed : System → Event → Prop} (path : Leads allowed s s')
    (reached : Reachable (fun _ _ => True) s) : s.Continues s' := by
  induction path with
  | refl => exact ⟨.refl _, List.prefix_refl _, .refl _, fun _ _ _ => rfl, fun _ isRegion => ⟨isRegion, rfl⟩⟩
  | @step s₁ s₂ e before _ stepped ih =>
    have reached₁ := before.reachable reached
    obtain ⟨owner, placed⟩ := reached₁.placed
    obtain ⟨owner', -, carries⟩ := placed.step reached₁.nested reached₁.lineage stepped
    obtain ⟨-, -, runtime, -⟩ := step_cases stepped
    refine ⟨ih.grows.trans carries.grows, ih.log.trans ?_, ih.extend.trans carries.extend, fun c isTask kind => ?_,
      fun r isRegion => ?_⟩
    · rcases logged_cases stepped with ⟨log, -⟩ | ⟨_, _, -, -, -, -, -, log⟩
      · exact ⟨[], by rw [List.append_nil, log]⟩
      · exact ⟨_, log.symm⟩
    · have old := Nat.lt_of_lt_of_le isTask ih.extend.tasks
      rw [carries.births c old ((ih.extend.fixed c isTask).kind.trans kind)]
      exact ih.births c isTask kind
    · obtain ⟨isRegion', size⟩ := ih.regions r isRegion
      rw [runtime]
      exact ⟨Nat.lt_of_lt_of_le isRegion' (Runtime.regions_le ..), (Runtime.region_after isRegion').size.trans size⟩

theorem Continues.found {a : Nat} {entry : Entry} (later : s.Continues s') (found : s.log[a]? = some entry) :
    s'.log[a]? = some entry := by
  obtain ⟨rest, whole⟩ := later.log
  rw [← whole, List.getElem?_append_left (List.getElem?_eq_some_iff.mp found).1, found]

theorem found_access {label : Label} (stepped : s.step (.access t) = some s') (known : s.detector.label t = some label) :
    s'.log[s.log.length]? = some ⟨t, label, (s.runtime.task t).strands t, (s.runtime.task t).constructs⟩ := by
  obtain ⟨label', known', -, log⟩ := step_access stepped
  rw [show (s.detector.data t).label = s.detector.label t from rfl, known, Option.some.injEq] at known'
  rw [log, List.getElem?_concat_length, known']

theorem labelOf_access {label : Label} (stepped : s.step (.access t) = some s') (known : s.detector.label t = some label)
    (later : s'.Continues s'') : s''.labelOf s.log.length = s''.detector.heap.read label := by
  rw [labelOf, later.found (found_access stepped known)]

end System

structure GoesOn (s : System) (owner : Nat → Strand) (t n : Nat) (c : Construct) (front : Label) (z : Contents)
    (k : Tally) :
    Prop where
  isTask : t < s.runtime.tasks
  begun : (s.runtime.task t).begun = true
  met : n < (s.runtime.task t).works
  midway : Midway s.runtime s.detector t [] front z k
  flat : k.barriers = 0
  noneForked : s.runtime.NoneForked t
  number : c.number = some n
  issued : s.runtime.Issued t c
  member : ∃ r i, (s.runtime.task t).kind = .implicit r i
  beyond : s.runtime.Beyond t n c k.loops
  unphased : s.detector.Unphased owner t n c.rank

section Steps

variable {s s' : System} {owner owner' : Nat → Strand} {fork : Nat → Contents} {below : Strand → Contents}
  {t n : Nat} {c : Construct} {front : Label} {z : Contents} {k : Tally} {e : Event}

theorem GoesOn.step (ahead : GoesOn s owner t n c front z k)
    (adv : Advance s.runtime s.detector s'.detector owner owner' e)
    (origins : Origins s.runtime s.detector owner fork below) (stacked : Construct.Stacked (s.runtime.task t).constructs)
    (runtime : s'.runtime = s.runtime.after e) (onward : Onward t n s e) (forks : ForksInUnits t s e)
    (live : (s'.runtime.task t).ended = false) : GoesOn s' owner' t n c front z (k.next s.runtime t none e) := by
  have isTask := ahead.isTask
  rw [runtime] at live
  have turns := Runtime.units_after adv.lineage adv.enabled isTask
  obtain ⟨r, i, member⟩ := ahead.member
  refine ⟨?_, ?_, ?_, ?_, ?_, ?_, ahead.number, ?_, ⟨r, i, ?_⟩, ?_, adv.unphased ahead.unphased onward.ordered⟩
  · rw [runtime]
    exact Nat.lt_of_lt_of_le isTask (Runtime.after_extends _ _).tasks
  · rw [runtime]
    exact Runtime.begun_lasts isTask ahead.begun
  · rw [runtime]
    have met := ahead.met
    cases turns with
    | same _ works | done _ _ works | next _ _ _ _ _ works => rw [works]; exact met
    | work _ _ _ works => rw [works]; omega
  · rw [runtime]
    exact adv.midway_step ahead.midway isTask ahead.begun origins onward.barrier (.inr (.inr ⟨rfl, live⟩))
  · -- a region that is joined has been forked in a unit
    rw [Tally.barriers_next ?_, ahead.flat]
    rintro m r rfl kind body forker
    have stack := Runtime.constructs_after adv.enabled isTask
    have enabled := adv.enabled
    simp only [Runtime.enabled, Bool.and_eq_true, decide_eq_true_eq, Bool.not_eq_true'] at enabled
    obtain ⟨isRegion, room, self⟩ := adv.nested.member m enabled.1.1.1.1 r 0 kind
    rw [self] at enabled
    have isOpen := adv.nested.live_open isRegion room enabled.1.2
    rw [Runtime.IsOpen, forker] at isOpen
    obtain ⟨rest, top⟩ := List.head?_eq_some_iff.mp isOpen
    refine ahead.noneForked ?_ r (by rw [top]; exact List.mem_cons_self)
    rw [Task.body, ← body, Task.body, stack]
    rfl
  · rw [runtime]
    exact Runtime.noneForked_after ahead.noneForked stacked adv.enabled isTask forks
  · rw [runtime]
    exact Runtime.issued_lasts adv.nested isTask ahead.issued
  · rw [runtime, ((Runtime.after_extends _ _).fixed t isTask).kind]
    exact member
  · rw [runtime]
    exact Runtime.beyond_after ahead.beyond ahead.met ahead.number ahead.issued member adv.nested adv.lineage adv.enabled
      isTask

theorem GoesOn.run (reached : System.Reachable (fun _ _ => True) s) (sourced : Sourced s owner fork below)
    (ahead : GoesOn s owner t n c front z k)
    (path : System.Leads (fun s e => Onward t n s e ∧ ForksInUnits t s e) s s')
    (live : (s'.runtime.task t).ended = false) :
    ∃ owner' fork' below' k', Sourced s' owner' fork' below' ∧ GoesOn s' owner' t n c front z k' := by
  induction path with
  | refl => exact ⟨owner, fork, below, k, sourced, ahead⟩
  | @step s₁ s₂ e before allowed stepped ih =>
    obtain ⟨-, -, runtime, -⟩ := System.step_cases stepped
    have reached₁ := before.reachable reached
    have isTask : t < s₁.runtime.tasks := Nat.lt_of_lt_of_le ahead.isTask (before.continues reached).extend.tasks
    have live₁ : (s₁.runtime.task t).ended = false := by
      rw [← Bool.not_eq_true]
      intro ended
      rw [runtime, Runtime.ended_lasts isTask ended] at live
      cases live
    obtain ⟨owner₁, fork₁, below₁, k₁, sourced₁, ahead₁⟩ := ih live₁
    obtain ⟨owner₂, fork₂, below₂, sourced₂, adv⟩ :=
      sourced₁.step reached₁.nested reached₁.lineage reached₁.closing stepped
    exact ⟨owner₂, fork₂, below₂, _, sourced₂, ahead₁.step adv sourced₁.origins (reached₁.stacked t isTask) runtime
      allowed.1 allowed.2 live⟩

end Steps

/-- An access of a member of a team of more than one in a loop or a sections construct. -/
structure SharedAccess (s s' : System) (t n : Nat) (c : Construct) : Prop where
  stepped : s.step (.access t) = some s'
  body : (s.runtime.task t).body = some c
  number : c.number = some n
  shared : c.isShared = true
  team : ∃ r i, (s.runtime.task t).kind = .implicit r i ∧ 1 < (s.runtime.region r).size

structure UnitLabel (s : System) (t : Nat) (c : Construct) (front : Label) (y u : Nat) : Prop where
  label : s.detector.label t = some (front ++ [y, u])
  bounds : y < s.detector.heap.next ∧ u < s.detector.heap.next
  team : (s.detector.plain y).span ≠ 1
  unit : (s.detector.plain u).IsUnit
  codes : c.Codes (s.detector.plain u)

section Accesses

variable {s s' : System} {owner : Nat → Strand} {fork : Nat → Contents} {below : Strand → Contents}
  {t n : Nat} {c : Construct}

theorem Sourced.unit_label (sourced : Sourced s owner fork below) (isTask : t < s.runtime.tasks)
    (begun : (s.runtime.task t).begun = true) (live : (s.runtime.task t).ended = false) {r i : Nat}
    (member : (s.runtime.task t).kind = .implicit r i) (large : 1 < (s.runtime.region r).size)
    (units : (s.runtime.task t).units = [c]) : ∃ front y u, UnitLabel s t c front y u := by
  obtain ⟨label, known, holds, mapped⟩ := sourced.placed.lined.label t isTask begun
  rw [Runtime.place_live live, Task.strands_unit units] at mapped
  obtain ⟨front, rest, rfl, -, mapped⟩ := List.map_eq_append_iff.mp mapped
  obtain ⟨y, rest, rfl, own, mapped⟩ := List.map_eq_cons_iff.mp mapped
  obtain ⟨u, rest, rfl, owns, mapped⟩ := List.map_eq_cons_iff.mp mapped
  obtain rfl := List.map_eq_nil_iff.mp mapped
  have there : y < s.detector.heap.next := holds y (by simp)
  have there' : u < s.detector.heap.next := holds u (by simp)
  have suits := sourced.origins.suits y there
  have suits' := sourced.origins.suits u there'
  rw [own] at suits
  rw [owns] at suits'
  simp only [Runtime.Suits, member] at suits
  refine ⟨front, y, u, known, ⟨there, there'⟩, ?_, suits', sourced.coded u there' t c owns⟩
  rw [suits.2]
  omega

theorem SharedAccess.start (access : SharedAccess s s' t n c) (reached : System.Reachable (fun _ _ => True) s)
    (sourced : Sourced s owner fork below) : ∃ front y u z, UnitLabel s t c front y u ∧
      (∃ g, GoesOn s owner t n c front z { groups := g }) ∧ z.loopCount = (s.detector.plain y).loopCount ∧
      z.span = (s.detector.plain y).span ∧ z.offset = (s.detector.plain y).offset := by
  obtain ⟨enabled, -⟩ := System.step_cases access.stepped
  obtain ⟨isTask, runs⟩ := Runtime.running_lt enabled
  obtain ⟨begun, live, -⟩ := Task.running_iff.mp runs
  obtain ⟨r, i, member, large⟩ := access.team
  have units := reached.lineage.body_units access.body
  have inside : c ∈ (s.runtime.task t).units := by rw [units]; exact List.mem_singleton_self c
  obtain ⟨front, y, u, shown⟩ := sourced.unit_label isTask begun live member large units
  obtain ⟨number, inner, outer, stack, low⟩ := List.find?_eq_some_iff_append.mp access.body
  have groups := reached.stacked t isTask inner c outer stack number
  have low' : ∀ a ∈ inner, a.number = none := by
    intro a inside
    have none := low a inside
    rwa [Bool.not_eq_true', ← Bool.not_eq_true, Option.not_isSome_iff_eq_none] at none
  have plain : ∀ a ∈ outer, a.number = none :=
    fun a inside => Construct.number_none (List.all_eq_true.mp groups a inside)
  have count : outer.countP Construct.isTaskgroup = outer.length :=
    List.countP_eq_length.mpr (List.all_eq_true.mp groups)
  have noOrder : outer.count .ordered = 0 := by
    rw [List.count_eq_zero]
    intro inside
    cases List.all_eq_true.mp groups _ inside
  obtain ⟨z, counted, loops, span, offset⟩ :=
    Tally.apply_groups plain_taskGroup_lt (s.detector.heap.objects y) outer.length
  refine ⟨front, y, u, z, shown, ⟨outer.length, isTask, begun, ?_, ?_, rfl, ?_, access.number,
    reached.issued t isTask c inside, ⟨r, i, member⟩, ?_, ?_⟩, loops, span, offset⟩
  · exact (reached.lineage.units t).2 c inside n access.number
  · refine .unit (by rw [List.append_nil]; exact stack) low' number plain (List.forall_mem_nil _) shown.label
      counted.symm ?_ ?_
    · rw [count, Nat.zero_add]
    · rw [noOrder]
  · intro body
    rw [access.body] at body
    cases body
  · exact .within units access.number access.shared rfl (.inl rfl)
  · intro r there c' owns same later
    have past := (sourced.origins.past r there).2.2 c' (by rw [owns])
    rw [owns] at past
    obtain ⟨k, number', -, ranks⟩ : s.runtime.Past t c' := past
    rw [number', Option.some.injEq] at same
    have bound := ranks c inside (access.number.trans (by rw [same]))
    omega

end Accesses

/-- What keeps the detector from taking an access in a unit `c`, made in the first state, to be ordered before one that
    the task makes in the second state: outside of all units the construct is no sections construct, and in another unit
    of the construct the two identifiers do not both have the highest bit set, and two sections have segments that are
    not the same. -/
structure ToldApart (s s' : System) (t n : Nat) (c : Construct) : Prop where
  loop : (s'.runtime.task t).body = none → c.isLoop = true
  ids : s'.runtime.InConstruct t n → ∀ u u', s.lastSegment t = some u → s'.lastSegment t = some u' →
    ¬(u.isSingleExecutor = true ∧ u'.isSingleExecutor = true) ∧
      (c.isLoop = false → ¬(u.plain.Alike u'.plain ∧ u.getWorkShareId = u'.getWorkShareId))

theorem getType_workShare {s : Segment} (type : s.plain.type = 3) : s.getType = .ok .eWorkShare := by
  have contents : s.contents.type = 3 := type
  rw [s.getType_contents, contents]
  rfl

theorem getType_explicit {s : Segment} (type : s.plain.type = 2) : s.getType = .ok .eExplicit := by
  have contents : s.contents.type = 2 := type
  rw [s.getType_contents, contents]
  rfl

theorem isSingleExecutor_of_plain {s s' : Segment} (same : s.plain = s'.plain) :
    s.isSingleExecutor = s'.isSingleExecutor := by
  have id : s.workShareId = s'.workShareId := congrArg Contents.workShareId same
  rw [Segment.isSingleExecutor, Segment.isSingleExecutor, Segment.getWorkShareId, Segment.getWorkShareId, id]

theorem Tally.parted {k : Tally} {z : Contents} {y y' : Segment} (loops : z.loopCount = y.plain.loopCount)
    (span : z.span = y.plain.span) (offset : z.offset = y.plain.offset) (counted : y'.plain = k.apply z)
    (flat : k.barriers = 0) (team : y.plain.span ≠ 1) (differ : 0 < k.loops ∨ y.equals y' = false) : Parted y y' := by
  have small := plain_offset_lt y
  refine ⟨?_, ?_, ?_, team⟩
  · rcases differ with more | differ
    · rw [← Bool.not_eq_true]
      intro equal
      have alike := (Segment.equals_plain equal).1
      rw [Contents.Alike, Contents.mk.injEq] at alike
      have same : y.plain.loopCount = y'.plain.loopCount := alike.2.2.2.2.2.1
      have later : y'.plain.loopCount = z.loopCount + k.loops := congrArg Contents.loopCount counted
      omega
    · exact differ
  · have later : y'.plain.offset = (z.offset + k.barriers * z.span) % 2 ^ 16 := congrArg Contents.offset counted
    rw [flat, Nat.zero_mul, Nat.add_zero, offset, Nat.mod_eq_of_lt small] at later
    exact later.symm
  · have later : y'.plain.span = z.span := by rw [counted]; rfl
    exact span.symm.trans later.symm

theorem Construct.iteration_ne {c c' : Construct} (loop : c.isLoop = true) (loop' : c'.isLoop = true)
    (unit : c.isUnit = true) (later : c.Before c') : ∃ i j, c.iteration = some i ∧ c'.iteration = some j ∧ i ≠ j := by
  cases c with
  | loop number turn id =>
    cases c' with
    | loop number' turn' id' =>
      cases id with
      | none => cases unit
      | some i =>
        cases id' with
        | none => exact absurd later.1 (Nat.not_lt_zero _)
        | some j => exact ⟨i, j, rfl, rfl, later.2 i j rfl rfl⟩
    | _ => cases loop'
  | _ => cases loop

theorem Placed.entry_below {s : System} {owner : Nat → Strand} (placed : Placed s owner) (lineage : s.runtime.Lineage)
    {entry : Entry} (logged : entry ∈ s.log) {c : Nat} (isTask : c < s.runtime.tasks)
    (kind : (s.runtime.task c).kind = .explicit) (inside : ⟨c, none⟩ ∈ entry.strands)
    (length : (s.runtime.birth s.detector c).length = (s.runtime.task c).line.length) :
    ∃ v tail, entry.label = s.runtime.birth s.detector c ++ v :: tail ∧ owner v = ⟨c, none⟩ ∧
    v < s.detector.heap.next := by
  obtain ⟨holds, mapped⟩ := placed.logged.entry entry logged
  obtain ⟨rest, whole⟩ := placed.logged.birth entry logged c isTask kind inside
  obtain ⟨isTask', body, strands⟩ := placed.logged.task entry logged
  have begins : (s.runtime.task c).line ++ [⟨c, none⟩] <+: entry.strands := by
    rw [strands] at inside ⊢
    rcases List.mem_append.mp inside with above | own
    · exact (lineage.through isTask' above).2.trans (List.prefix_append _ _)
    · rcases List.mem_cons.mp own with same | inBody
      · rw [show c = entry.task from congrArg Strand.task same]
        exact ⟨body.toList.map fun c => ⟨entry.task, some c⟩, by rw [List.append_assoc]; rfl⟩
      · obtain ⟨_, -, same⟩ := List.mem_map.mp inBody
        cases congrArg Strand.body same
  obtain ⟨above, begins⟩ := begins
  rw [List.append_assoc, ← mapped, ← whole, List.map_append] at begins
  obtain ⟨-, own⟩ := List.append_inj begins (by rw [List.length_map, length])
  obtain ⟨v, tail, rfl, owns, -⟩ := List.map_eq_cons_iff.mp own.symm
  exact ⟨v, tail, whole.symm, owns, holds v (by rw [← whole]; simp)⟩

section Verdicts

variable {s₀ s₁ s₂ s₃ s₄ : System} {t n : Nat} {c : Construct}

theorem SharedAccess.leads (access : SharedAccess s₀ s₁ t n c)
    (path : System.Leads (fun s e => Onward t n s e ∧ ForksInUnits t s e) s₁ s₂) :
    System.Leads (fun s e => Onward t n s e ∧ ForksInUnits t s e) s₀ s₂ :=
  (System.Leads.refl.step ⟨⟨by simp, fun _ => by simp⟩, fun _ forks => by cases forks⟩ access.stepped).trans path

structure WentOn (s s' : System) (owner : Nat → Strand) (t n : Nat) (c : Construct) (front : Label) (y y' : Nat)
    (rest : Label) : Prop where
  label : s.detector.label t = some (front ++ y' :: rest)
  holds : s.detector.heap.Holds (front ++ y' :: rest)
  unphased : s.detector.Unphased owner t n c.rank
  unit : (s.runtime.task t).body = none ∧ rest = [] ∨ ∃ c' u', (s.runtime.task t).body = some c' ∧ rest = [u'] ∧
    UnitLabel s t c' front y' u' ∧ owner u' = ⟨t, some c'⟩
  side : (∃ c', (s.runtime.task t).body = some c' ∧ c'.number = some n ∧ c'.isLoop = c.isLoop ∧ (c' = c ∨ c.Before c')) ∨
    (s'.detector.heap.objects y).equals (s'.detector.heap.objects y') = false ∧ ¬s.runtime.InConstruct t n
  parted : (s'.detector.heap.objects y).equals (s'.detector.heap.objects y') = false →
    Parted (s'.detector.heap.objects y) (s'.detector.heap.objects y')

theorem SharedAccess.goes_on (access : SharedAccess s₀ s₁ t n c) (reached : System.Reachable (fun _ _ => True) s₀)
    (path : System.Leads (fun s e => Onward t n s e ∧ ForksInUnits t s e) s₁ s₂) (running : s₂.runtime.running t = true)
    (later : s₂.Continues s₄) : ∃ front y u y' rest owner fork below, UnitLabel s₀ t c front y u ∧
      Sourced s₂ owner fork below ∧ WentOn s₂ s₄ owner t n c front y y' rest := by
  obtain ⟨owner₀, fork₀, below₀, sourced₀⟩ := reached.sourced
  obtain ⟨front, y, u, z, shown, ⟨g, start⟩, loops, span, offset⟩ := access.start reached sourced₀
  have whole := access.leads path
  have kept := whole.continues reached
  obtain ⟨isTask, runs⟩ := Runtime.running_lt running
  obtain ⟨begun, live, -⟩ := Task.running_iff.mp runs
  obtain ⟨owner, fork, below, k, sourced, ahead⟩ := start.run reached sourced₀ whole live
  have reached₂ := whole.reachable reached
  have plain : (s₄.detector.heap.objects y).plain = s₀.detector.plain y :=
    (kept.grows.trans later.grows).plain y shown.bounds.1
  have parted : ∀ {y'}, s₂.detector.plain y' = k.apply z → y' < s₂.detector.heap.next →
      (0 < k.loops ∨ (s₄.detector.heap.objects y).equals (s₄.detector.heap.objects y') = false) →
      Parted (s₄.detector.heap.objects y) (s₄.detector.heap.objects y') := by
    intro y' counted bound
    have same : (s₄.detector.heap.objects y').plain = k.apply z := (later.grows.plain y' bound).trans counted
    refine Tally.parted ?_ ?_ ?_ same ahead.flat ?_
    · rw [plain]; exact loops
    · rw [plain]; exact span
    · rw [plain]; exact offset
    · rw [plain]; exact shown.team
  have sides : ∀ {y'}, s₂.detector.plain y' = k.apply z → y' < s₂.detector.heap.next →
      (∃ c', (s₂.runtime.task t).body = some c' ∧ c'.number = some n ∧ c'.isLoop = c.isLoop ∧ (c' = c ∨ c.Before c')) ∨
        (s₄.detector.heap.objects y).equals (s₄.detector.heap.objects y') = false ∧ ¬s₂.runtime.InConstruct t n := by
    intro y' counted bound
    cases ahead.beyond with
    | within units number shared kind later =>
      exact .inl ⟨_, by rw [Task.body_units, units]; rfl, number, kind, later⟩
    | behind more others =>
      refine .inr ⟨(parted counted bound (.inl more)).differ, ?_⟩
      rintro ⟨c', body, number⟩
      have units := reached₂.lineage.body_units body
      exact others c' (by rw [units]; exact List.mem_singleton_self c') number
  have holds : ∀ {label}, s₂.detector.label t = some label → s₂.detector.heap.Holds label :=
    fun known => (sourced.placed.lined.place_length isTask begun known).2
  cases ahead.midway with
  | @direct outer y' stack plain label counted =>
    have bound := holds label y' (by simp)
    refine ⟨front, y, u, y', [], owner, fork, below, shown, sourced, label, holds label, ahead.unphased, .inl ⟨?_, rfl⟩,
      sides counted bound, fun differ => parted counted bound (.inr differ)⟩
    rw [Task.body, stack, find_none plain]
    rfl
  | @unit inner c' outer y' u' stack low number plain idle label counted =>
    have bound := holds label y' (by simp)
    have body : (s₂.runtime.task t).body = some c' := by
      rw [Task.body, stack, find_none low, find_unit number]
    have units := reached₂.lineage.body_units body
    obtain ⟨r, i, member, large⟩ := access.team
    have fixed := kept.extend.fixed t start.isTask
    have isRegion := (reached.nested.member t start.isTask r i member).1
    obtain ⟨front', y'', u'', shown'⟩ := sourced.unit_label isTask begun live (fixed.kind.trans member)
      (by rw [(kept.regions r isRegion).2]; exact large) units
    have same := shown'.label
    rw [label, Option.some.injEq] at same
    obtain ⟨rfl, last⟩ := List.append_inj' same rfl
    cases last
    have place := (sourced.placed.lined.place_length isTask begun label).1
    rw [Runtime.place_live live, Task.strands_unit units, List.map_append] at place
    have owns := (List.append_inj' place rfl).2
    simp only [List.map_cons, List.map_nil, List.cons.injEq, and_true] at owns
    exact ⟨front, y, u, y', [u'], owner, fork, below, shown, sourced, label, holds label, ahead.unphased,
      .inr ⟨c', u', body, rfl, shown', owns.2⟩, sides counted bound, fun differ => parted counted bound (.inr differ)⟩

theorem UnitLabel.read {front : Label} {y u : Nat} (shown : UnitLabel s₀ t c front y u)
    (grows : s₀.detector.heap.Grows s₄.detector.heap) :
    s₄.detector.heap.read (front ++ [y, u]) =
        s₄.detector.heap.read front ++ [s₄.detector.heap.objects y, s₄.detector.heap.objects u] ∧
      (s₄.detector.heap.objects u).plain = s₀.detector.plain u ∧
      (s₄.detector.heap.objects u).getType = .ok .eWorkShare ∧ (s₄.detector.heap.objects u).getSpan = 1 := by
  have same : (s₄.detector.heap.objects u).plain = s₀.detector.plain u := grows.plain u shown.bounds.2
  refine ⟨?_, same, getType_workShare ?_, ?_⟩
  · rw [Heap.read_append]
    rfl
  · rw [same]
    exact shown.unit.1
  · have span : (s₄.detector.heap.objects u).plain.span = 1 := by
      rw [same]
      exact shown.unit.2.1
    exact span

theorem ToldApart.differ {front front' : Label} {y y' u u' : Nat} {c' : Construct} (apart : ToldApart s₀ s₂ t n c)
    (shown : UnitLabel s₀ t c front y u) (shown' : UnitLabel s₂ t c' front' y' u') (inside : s₂.runtime.InConstruct t n)
    (unit : c.isUnit = true) (kind : c'.isLoop = c.isLoop) (later : c.Before c')
    {x x' : Segment} (same : x.plain = s₀.detector.plain u) (same' : x'.plain = s₂.detector.plain u') :
    x.equals x' = false ∧ ¬(x.isSingleExecutor = true ∧ x'.isSingleExecutor = true) := by
  have lasts : s₀.lastSegment t = some (s₀.detector.heap.objects u) ∧
      s₂.lastSegment t = some (s₂.detector.heap.objects u') := by
    rw [System.lastSegment, System.lastSegment, shown.label, shown'.label]
    simp
  obtain ⟨single, ids⟩ := apart.ids inside _ _ lasts.1 lasts.2
  have executor : x.isSingleExecutor = (s₀.detector.heap.objects u).isSingleExecutor := isSingleExecutor_of_plain same
  have executor' : x'.isSingleExecutor = (s₂.detector.heap.objects u').isSingleExecutor := isSingleExecutor_of_plain same'
  refine ⟨?_, by rw [executor, executor']; exact single⟩
  rw [← Bool.not_eq_true]
  intro equal
  obtain ⟨alike, id⟩ := Segment.equals_plain equal
  rw [same, same'] at alike id
  replace id := id.resolve_left shown.unit.2.2
  cases loop : c.isLoop with
  | true =>
    obtain ⟨i, j, number, number', other⟩ := Construct.iteration_ne loop (kind.trans loop) unit later
    rw [shown.codes.id i number, shown'.codes.id j number', Option.some.injEq] at id
    exact other id
  | false =>
    have number : (s₀.detector.heap.objects u).workShareId = (s₂.detector.heap.objects u').workShareId := id
    exact ids loop ⟨alike, by rw [Segment.getWorkShareId, Segment.getWorkShareId, number]⟩

/-- The verdict on an access in a unit and on one that the task makes when it has left the unit. -/
theorem SharedAccess.later (access : SharedAccess s₀ s₁ t n c) (reached : System.Reachable (fun _ _ => True) s₀)
    (path : System.Leads (fun s e => Onward t n s e ∧ ForksInUnits t s e) s₁ s₂) (stepped : s₂.step (.access t) = some s₃)
    (rest : System.Leads (fun _ _ => True) s₃ s₄) :
    ((s₂.runtime.task t).body = none → s₄.verdict s₀.log.length s₂.log.length = .ok c.marked) ∧
    (c.isUnit = true → (s₂.runtime.task t).body ≠ none → (s₂.runtime.task t).body ≠ some c → ToldApart s₀ s₂ t n c →
      s₄.verdict s₀.log.length s₂.log.length = .ok false) := by
  have reached₁ := reached.step trivial access.stepped
  have reached₂ := path.reachable reached₁
  have onward : System.Leads (fun _ _ => True) s₂ s₄ := (System.Leads.refl.step trivial stepped).trans rest
  have whole : System.Leads (fun _ _ => True) s₁ s₄ := (path.weaken fun _ _ _ => trivial).trans onward
  have grows := (whole.continues reached₁).grows
  obtain ⟨front, y, u, y', last, owner, fork, below, shown, sourced, went⟩ :=
    access.goes_on reached path (System.step_cases stepped).1 (onward.continues reached₂)
  have first := System.labelOf_access access.stepped shown.label (whole.continues reached₁)
  have second := System.labelOf_access stepped went.label (rest.continues (reached₂.step trivial stepped))
  rw [(System.step_access access.stepped).choose_spec.2.1] at grows
  obtain ⟨read, plain, type, span⟩ := shown.read grows
  rw [read] at first
  rw [Heap.read_append] at second
  rw [System.verdict, first, second]
  refine ⟨fun outside => ?_, fun unit inUnit other apart => ?_⟩
  · -- outside of all units the last segment is the member's own one
    rcases went.unit with ⟨-, rfl⟩ | ⟨c', _, body, -⟩
    · rcases went.side with ⟨c', body, -⟩ | ⟨differ, -⟩
      · cases outside.symm.trans body
      · have marker : (s₄.detector.heap.objects u).plain.marker = c.marked := by
          rw [plain]
          exact shown.codes.marker
        rw [← marker]
        apply (happensBefore_unit_leaf (went.parted differ) type).trans
        rw [Segment.isPlaceHolder_eq_isSection]
        rfl
    · cases outside.symm.trans body
  · rcases went.unit with ⟨outside, -⟩ | ⟨c', u', body, rfl, shown', owns⟩
    · exact absurd outside inUnit
    · have kept : (s₄.detector.heap.objects u').plain = s₂.detector.plain u' :=
        (onward.continues reached₂).grows.plain u' shown'.bounds.2
      have type' : (s₄.detector.heap.objects u').getType = .ok .eWorkShare :=
        getType_workShare (by rw [kept]; exact shown'.unit.1)
      by_cases differ : (s₄.detector.heap.objects y).equals (s₄.detector.heap.objects y') = false
      · exact happensBefore_unit_next (went.parted differ) type (.inl type') []
      · rcases went.side with ⟨c'', body', number, kind, self | later⟩ | ⟨differ', -⟩
        · exact absurd (self ▸ body') other
        · cases body.symm.trans body'
          obtain ⟨apart, single⟩ := apart.differ shown shown' ⟨c', body, number⟩ unit kind later plain kept
          have span' : (s₄.detector.heap.objects u').plain.span = 1 := by
            rw [kept]
            exact shown'.unit.2.1
          have phase : (s₄.detector.heap.objects u').plain.phase = 0 := by
            rw [kept]
            exact went.unphased u' shown'.bounds.2 c' owns number later.1
          exact happensBefore_unit_other (by simpa using differ) apart type type' span span' single phase
        · exact absurd differ' differ

theorem System.created {label : Label} (stepped : s₂.step (.taskCreate t) = some s₃) (isTask : t < s₂.runtime.tasks)
    (known : s₂.detector.label t = some label) (place : label.length = ((s₂.runtime.task t).strands t).length) :
    s₂.runtime.tasks < s₃.runtime.tasks ∧ (s₃.runtime.task s₂.runtime.tasks).kind = .explicit ∧
      (s₃.runtime.task s₂.runtime.tasks).line.length = label.length ∧
      s₃.runtime.birth s₃.detector s₂.runtime.tasks = label := by
  obtain ⟨-, handled, runtime, -⟩ := System.step_cases stepped
  obtain ⟨init, r, _, _, known', -, -, -, made, -⟩ := Detector.handle_taskCreate handled isTask
  rw [known, Option.some.injEq] at known'
  have task : s₃.runtime.task s₂.runtime.tasks = Task.new .explicit t ((s₂.runtime.task t).strands t)
      s₂.runtime.accesses (s₂.runtime.task t).region ((s₂.runtime.task t).groups ++ (s₂.runtime.task t).openGroups) true
      (s₂.runtime.task t).known := by
    rw [runtime]
    simp [Runtime.after]
  have line : (s₃.runtime.task s₂.runtime.tasks).line.length = label.length := by
    rw [task, place]
    rfl
  refine ⟨?_, by rw [task]; rfl, line, ?_⟩
  · rw [runtime]
    exact Nat.lt_succ_self _
  · rw [Runtime.birth, made, line, Option.getD_some, ← known']
    exact List.take_left' rfl

/-- The verdict on an access in a unit and on one in a task that its member has created behind the construct, or below
    that task. -/
theorem SharedAccess.created (access : SharedAccess s₀ s₁ t n c) (reached : System.Reachable (fun _ _ => True) s₀)
    (path : System.Leads (fun s e => Onward t n s e ∧ ForksInUnits t s e) s₁ s₂)
    (stepped : s₂.step (.taskCreate t) = some s₃) (rest : System.Leads (fun _ _ => True) s₃ s₄)
    (past : ¬s₂.runtime.InConstruct t n) {b : Nat} {entry : Entry} (found : s₄.log[b]? = some entry)
    (inside : ⟨s₂.runtime.tasks, none⟩ ∈ entry.strands) : s₄.verdict s₀.log.length b = .ok false := by
  have reached₁ := reached.step trivial access.stepped
  have reached₂ := path.reachable reached₁
  have reached₃ := reached₂.step trivial stepped
  have reached₄ := rest.reachable reached₃
  have onward : System.Leads (fun _ _ => True) s₂ s₄ := (System.Leads.refl.step trivial stepped).trans rest
  have whole : System.Leads (fun _ _ => True) s₁ s₄ := (path.weaken fun _ _ _ => trivial).trans onward
  have later := rest.continues reached₃
  have running := (System.step_cases stepped).1
  obtain ⟨front, y, u, y', last, owner, fork, below, shown, sourced, went⟩ :=
    access.goes_on reached path running (onward.continues reached₂)
  obtain ⟨isTask, runs⟩ := Runtime.running_lt running
  obtain ⟨begun, live, -⟩ := Task.running_iff.mp runs
  have place := (sourced.placed.lined.place_length isTask begun went.label).1
  rw [Runtime.place_live live] at place
  obtain ⟨isChild, kind, line, birth⟩ := System.created stepped isTask went.label (by rw [← place, List.length_map])
  obtain ⟨owner₄, fork₄, below₄, sourced₄⟩ := reached₄.sourced
  have isChild' := Nat.lt_of_lt_of_le isChild later.extend.tasks
  have kind' := (later.extend.fixed _ isChild).kind.trans kind
  have birth' := (later.births _ isChild kind).trans birth
  obtain ⟨v, tail, label, owns, bound⟩ := sourced₄.placed.entry_below reached₄.lineage
    (List.mem_of_getElem? found) isChild' kind' inside (by rw [birth', (later.extend.fixed _ isChild).line, line])
  have explicit : (s₄.detector.heap.objects v).getType = .ok .eExplicit := by
    have suits := sourced₄.origins.suits v bound
    rw [owns] at suits
    simp only [Runtime.Suits, kind'] at suits
    exact getType_explicit suits.1
  have first := System.labelOf_access access.stepped shown.label (whole.continues reached₁)
  have grows := (whole.continues reached₁).grows
  rw [(System.step_access access.stepped).choose_spec.2.1] at grows
  obtain ⟨read, -, type, -⟩ := shown.read grows
  have second : s₄.labelOf b = s₄.detector.heap.read (front ++ y' :: last ++ v :: tail) := by
    rw [System.labelOf, found, ← birth', ← label]
  have differ : Parted (s₄.detector.heap.objects y) (s₄.detector.heap.objects y') := by
    rcases went.side with ⟨c', body, number, -⟩ | ⟨differ, -⟩
    · exact absurd ⟨c', body, number⟩ past
    · exact went.parted differ
  rw [System.verdict, first, second, read, List.append_assoc, Heap.read_append]
  rcases went.unit with ⟨-, rfl⟩ | ⟨c', u', -, rfl, shown', -⟩
  · exact happensBefore_unit_next differ type (.inr explicit) _
  · have type' := getType_workShare (by
      rw [show (s₄.detector.heap.objects u').plain = s₂.detector.plain u' from
        (onward.continues reached₂).grows.plain u' shown'.bounds.2]
      exact shown'.unit.1)
    exact happensBefore_unit_next differ type (.inl type') _

/-- The detector takes an access in an iteration or a section for concurrent with what the member does before its next
    barrier in another unit or behind the construct, and with the tasks that it creates there. -/
theorem units_concurrent (reached : System.Reachable (fun _ _ => True) s₀) (access : SharedAccess s₀ s₁ t n c)
    (unit : c.isUnit = true) (path : System.Leads (fun s e => Onward t n s e ∧ ForksInUnits t s e) s₁ s₂) :
    ((s₂.runtime.task t).body ≠ some c → ToldApart s₀ s₂ t n c → ∀ s₃ s₄, s₂.step (.access t) = some s₃ →
      System.Leads (fun _ _ => True) s₃ s₄ → s₄.verdict s₀.log.length s₂.log.length = .ok false) ∧
    (¬s₂.runtime.InConstruct t n → ∀ s₃ s₄ b entry, s₂.step (.taskCreate t) = some s₃ →
      System.Leads (fun _ _ => True) s₃ s₄ → s₄.log[b]? = some entry → ⟨s₂.runtime.tasks, none⟩ ∈ entry.strands →
      s₄.verdict s₀.log.length b = .ok false) := by
  refine ⟨fun other apart s₃ s₄ stepped rest => ?_, fun past s₃ s₄ b entry stepped rest found inside =>
    access.created reached path stepped rest past found inside⟩
  obtain ⟨outside, inUnit⟩ := access.later reached path stepped rest
  by_cases body : (s₂.runtime.task t).body = none
  · rw [outside body, Construct.marked_unit unit (apart.loop body)]
  · exact inUnit unit body other apart

end Verdicts

def nowaitLoop : List Event := [.parallelBegin 0 2, .implicitBegin 1, .workBegin 1 .loop false, .dispatch 1 5]

theorem units_concurrent_loop : ∃ s₀ s₁ s₂, System.run nowaitLoop = some s₀ ∧ s₀.step (.access 1) = some s₁ ∧
    s₁.step (.workEnd 1) = some s₂ ∧ (∃ s₃, s₂.step (.access 1) = some s₃ ∧ s₃.verdict 0 1 = .ok false) ∧
    ∃ s₃ s₄, s₂.step (.taskCreate 1) = some s₃ ∧ s₃.step (.access 3) = some s₄ ∧ s₄.verdict 0 1 = .ok false := by
  obtain ⟨s₀, ran, facts⟩ : ∃ s₀, System.run nowaitLoop = some s₀ ∧
      ((s₀.step (.access 1)).any fun s₁ => (s₁.step (.workEnd 1)).any fun s₂ =>
        (s₂.step (.access 1)).isSome && (s₂.step (.taskCreate 1)).any fun s₃ => (s₃.step (.access 3)).any fun s₄ =>
          decide (s₀.log.length = 0 ∧ s₂.log.length = 1 ∧ s₂.runtime.tasks = 3 ∧
            (s₀.runtime.task 1).body = some (.loop 0 1 (some 5)) ∧ (s₀.runtime.task 1).kind = .implicit 0 0 ∧
            (s₀.runtime.region 0).size = 2 ∧ (s₂.runtime.task 1).body = none ∧
            ∃ entry ∈ s₄.log[1]?, ⟨3, none⟩ ∈ entry.strands)) = true := exists_of_any (by decide)
  obtain ⟨s₁, accessed, facts⟩ := (Option.any_eq_true _ _).mp facts
  obtain ⟨s₂, left, facts⟩ := (Option.any_eq_true _ _).mp facts
  obtain ⟨own, facts⟩ := Bool.and_eq_true_iff.mp facts
  obtain ⟨s₃, again⟩ := Option.isSome_iff_exists.mp own
  obtain ⟨s₃', made, facts⟩ := (Option.any_eq_true _ _).mp facts
  obtain ⟨s₄, below, facts⟩ := (Option.any_eq_true _ _).mp facts
  obtain ⟨first, second, tasks, body, kind, size, outside, entry, found, inside⟩ := of_decide_eq_true facts
  have reached : System.Reachable (fun _ _ => True) s₀ := .of_run (fun _ _ _ => trivial) ran
  have access : SharedAccess s₀ s₁ 1 0 (.loop 0 1 (some 5)) :=
    ⟨accessed, body, rfl, rfl, 0, 0, kind, by rw [size]; exact Nat.one_lt_two⟩
  have path : System.Leads (fun s e => Onward 1 0 s e ∧ ForksInUnits 1 s e) s₁ s₂ :=
    .step .refl ⟨⟨by simp, fun _ => by simp⟩, fun _ forks => by cases forks⟩ left
  have past : ¬s₂.runtime.InConstruct 1 0 := by
    rintro ⟨c, body, -⟩
    cases outside.symm.trans body
  obtain ⟨after, created⟩ := units_concurrent reached access rfl path
  rw [first, second] at after
  rw [first, tasks] at created
  refine ⟨s₀, s₁, s₂, ran, accessed, left, ⟨s₃, again, after ?_ ⟨fun _ => rfl, fun inside => absurd inside past⟩ s₃ s₃ again .refl⟩,
    s₃', s₄, made, below, created past s₃' s₄ 1 entry made (.step .refl trivial below) found inside⟩
  rw [outside]
  simp

def nowaitSections : List Event :=
  [.parallelBegin 0 2, .implicitBegin 1, .workBegin 1 .sections false, .dispatch 1 5]

/-- A section reads as a placeholder: what the member does behind the construct is taken to come after its accesses in
    the section, which another member could have executed. -/
theorem sections_ordered : ¬ ∀ s₀ s₁ s₂ s₃ s₄ t n c, System.Reachable (fun _ _ => True) s₀ → SharedAccess s₀ s₁ t n c →
    c.isUnit = true → System.Leads (fun s e => Onward t n s e) s₁ s₂ → (s₂.runtime.task t).body ≠ some c →
    s₂.step (.access t) = some s₃ → System.Leads (fun _ _ => True) s₃ s₄ →
    s₄.verdict s₀.log.length s₂.log.length = .ok false := by
  intro concurrent
  obtain ⟨s₀, ran, facts⟩ : ∃ s₀, System.run nowaitSections = some s₀ ∧
      ((s₀.step (.access 1)).any fun s₁ => (s₁.step (.workEnd 1)).any fun s₂ => (s₂.step (.access 1)).any fun s₃ =>
        decide ((s₀.runtime.task 1).body = some (.sections 0 1) ∧ (s₀.runtime.task 1).kind = .implicit 0 0 ∧
          (s₀.runtime.region 0).size = 2 ∧ (s₂.runtime.task 1).body = none ∧
          s₃.verdict s₀.log.length s₂.log.length = .ok true)) = true := exists_of_any (by decide)
  obtain ⟨s₁, accessed, facts⟩ := (Option.any_eq_true _ _).mp facts
  obtain ⟨s₂, left, facts⟩ := (Option.any_eq_true _ _).mp facts
  obtain ⟨s₃, again, facts⟩ := (Option.any_eq_true _ _).mp facts
  obtain ⟨body, kind, size, outside, ordered⟩ := of_decide_eq_true facts
  have access : SharedAccess s₀ s₁ 1 0 (.sections 0 1) :=
    ⟨accessed, body, rfl, rfl, 0, 0, kind, by rw [size]; exact Nat.one_lt_two⟩
  have path : System.Leads (fun s e => Onward 1 0 s e) s₁ s₂ := .step .refl ⟨by simp, fun _ => by simp⟩ left
  have verdict := concurrent s₀ s₁ s₂ s₃ s₃ 1 0 _ (.of_run (fun _ _ _ => trivial) ran) access rfl path
    (by rw [outside]; simp) again .refl
  rw [ordered] at verdict
  cases verdict

end Romp
