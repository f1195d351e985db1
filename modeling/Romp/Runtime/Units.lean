import Romp.Runtime.Offsets

namespace Romp

namespace Contents

/-- All that `operator==` of a base segment looks at is the same, but for the marks. -/
def Alike (z z' : Contents) : Prop :=
  { z with taskGroupId := 0, taskGroupLevel := 0, workShareId := none } =
    { z' with taskGroupId := 0, taskGroupLevel := 0, workShareId := none }

/-- All that `operator==` of the segment of a unit looks at is the same, but for the marks and the barriers passed. -/
def SameUnit (z z' : Contents) : Prop :=
  { z with taskGroupId := 0, taskGroupLevel := 0, offset := 0 } =
    { z' with taskGroupId := 0, taskGroupLevel := 0, offset := 0 }

variable {z z' z'' : Contents}

theorem Alike.symm (alike : z.Alike z') : z'.Alike z := Eq.symm alike

theorem Alike.type (alike : z.Alike z') : z.type = z'.type := by
  unfold Alike at alike
  rw [Contents.mk.injEq] at alike
  exact alike.1

theorem Alike.counts (alike : z.Alike z') : z.taskcreate = z'.taskcreate ∧ z.offset = z'.offset ∧
    z.marker = z'.marker := by
  unfold Alike at alike
  rw [Contents.mk.injEq] at alike
  exact ⟨alike.2.2.2.2.1, alike.2.2.2.2.2.2.2.2.2.1, alike.2.1⟩

theorem SameUnit.symm (same : z.SameUnit z') : z'.SameUnit z := Eq.symm same

theorem SameUnit.trans (first : z.SameUnit z') (second : z'.SameUnit z'') : z.SameUnit z'' := Eq.trans first second

theorem Alike.sameUnit (alike : z.Alike z') (id : z.workShareId = z'.workShareId) : z.SameUnit z' := by
  unfold Alike at alike
  rw [Contents.mk.injEq] at alike
  simp [SameUnit, alike, id]

end Contents

namespace Runtime

variable (R : Runtime)

def Starts (p : Nat) : Event → Prop
  | .taskCreate t => t = p
  | .implicitBegin t => (R.task t).parent = p
  | _ => False

/-- What a member can have passed of the barriers of its region when it, or a task below it, executes code: once the
    last barrier has let the members go, no code is executed. -/
def InTime (c k : Nat) : Prop :=
  k ≤ (R.task c).passed ∧ ∀ r i, (R.task c).kind = .implicit r i → R.Closed r → k < (R.region r).released

/-- The segment that a task has started below, as it was when the task was created or its region was forked. -/
def site (d : Detector) (fork : Nat → Contents) (c : Nat) : Option Contents :=
  match (R.task c).kind with
  | .initial => none
  | .implicit r _ => some (fork r)
  | .explicit => (R.birth d c).getLast?.map d.plain

def UnitsApart (d : Detector) (fork : Nat → Contents) (below : Strand → Contents) : Prop :=
  ∀ t b b', b ≠ b' → ∀ c < R.tasks, (R.task c).begun = true → ∀ c' < R.tasks, (R.task c').begun = true →
    (R.task c).line.getLast? = some ⟨t, some b⟩ → (R.task c').line.getLast? = some ⟨t, some b'⟩ →
    ∀ z ∈ R.site d fork c, ∀ z' ∈ R.site d fork c',
      ¬ ((below ⟨t, some b⟩).Alike (below ⟨t, some b'⟩) ∧ z.SameUnit z')

end Runtime

/-- When a task starts in a unit, the label tells that unit apart from all the other units of the same task that
    a task has started in: the task's own segment or the segment of the unit is not the same. -/
def System.UnitsDiffer (s : System) (e : Event) : Prop :=
  ∀ p, s.runtime.Starts p e → ∀ b, (s.runtime.task p).body = some b → ∀ b', b' ≠ b →
    ∀ c < s.runtime.tasks, (s.runtime.task c).begun = true → (s.runtime.task c).line.getLast? = some ⟨p, some b'⟩ →
    ∀ above own unit, s.detector.label p = some (above ++ [own, unit]) →
    ∀ above' own' unit' rest, s.detector.label c = some (above' ++ own' :: unit' :: rest) →
      above'.length = above.length →
      ¬ ((s.detector.plain own).Alike (s.detector.plain own') ∧
        (s.detector.plain unit).SameUnit (s.detector.plain unit'))

namespace Runtime

variable {R : Runtime}

theorem Lineage.body_units (lineage : R.Lineage) {p : Nat} {b : Construct} (body : (R.task p).body = some b) :
    (R.task p).units = [b] := by
  have short := (lineage.units p).1
  rw [Task.body_units, List.head?_eq_some_iff] at body
  obtain ⟨rest, units⟩ := body
  rw [units, List.length_cons] at short
  rw [units, List.eq_nil_of_length_eq_zero (show rest.length = 0 by omega)]

theorem mem_line_split (lineage : R.Lineage) {c p : Nat} {b : Construct} (isTask : c < R.tasks)
    (last : (R.task c).line.getLast? = some ⟨p, some b⟩) :
    (R.task c).line = (R.task p).line ++ [⟨p, none⟩, ⟨p, some b⟩] := by
  obtain ⟨upper, line⟩ := List.getLast?_eq_some_iff.mp last
  have strands : (R.task c).line ++ ⟨c, none⟩ :: (none : Option Construct).toList.map (fun u => ⟨c, some u⟩) =
      upper ++ ⟨p, some b⟩ :: [⟨c, none⟩] := by
    rw [line, List.append_assoc]
    rfl
  rw [lineage.split_body isTask strands, List.append_assoc] at line
  exact line

theorem mem_strands {t p : Nat} {b : Construct} (inside : ⟨t, some b⟩ ∈ (R.task p).strands p) :
    ⟨t, some b⟩ ∈ (R.task p).line ∨ t = p ∧ (R.task p).body = some b := by
  rcases List.mem_append.mp inside with above | here
  · exact .inl above
  · rcases List.mem_cons.mp here with self | inBody
    · cases congrArg Strand.body self
    · obtain ⟨c, body, same⟩ := List.mem_map.mp inBody
      rw [Strand.mk.injEq, Option.some.injEq] at same
      rw [Option.mem_toList, same.2] at body
      exact .inr ⟨same.1.symm, body⟩

theorem strands_last {p t : Nat} {b : Construct} (last : ((R.task p).strands p).getLast? = some ⟨t, some b⟩) :
    p = t ∧ (R.task p).body = some b := by
  obtain ⟨above, strands⟩ := List.getLast?_eq_some_iff.mp last
  have self := Task.strands_self strands
  unfold Task.strands at strands
  cases body : (R.task p).body with
  | none =>
    rw [body] at strands
    cases (List.append_inj' strands rfl).2
  | some b' =>
    rw [body, Option.toList_some, List.map_singleton, List.append_cons] at strands
    cases (List.append_inj' strands rfl).2
    exact ⟨rfl, rfl⟩

end Runtime

theorem unit_above {R : Runtime} {d : Detector} {owner : Nat → Strand} {fork : Nat → Contents}
    {below : Strand → Contents} {bound : Nat → Nat → Prop} {label : Label} {upper lower : List Strand}
    {p : Nat} {b : Construct}
    (chain : label.IsChain fun z q => R.Above fork below bound (d.plain z) (owner q))
    (mapped : label.map owner = upper ++ ⟨p, none⟩ :: ⟨p, some b⟩ :: lower) :
    ∃ above own unit rest, label = above ++ own :: unit :: rest ∧ above.map owner = upper ∧
      rest.map owner = lower ∧ d.plain own = below ⟨p, some b⟩ := by
  obtain ⟨above, tail, rfl, mappedUpper, mapped⟩ := List.map_eq_append_iff.mp mapped
  obtain ⟨own, tail, rfl, -, mapped⟩ := List.map_eq_cons_iff.mp mapped
  obtain ⟨unit, rest, rfl, owns, mappedLower⟩ := List.map_eq_cons_iff.mp mapped
  have inner := (List.isChain_append.mp chain).2.1
  rw [List.isChain_cons_cons, owns] at inner
  exact ⟨above, own, unit, rest, rfl, mappedUpper, mappedLower, inner.1⟩

/-- The segment above the one of a task is a version of the one that the task has started below. -/
theorem Runtime.site_above {R : Runtime} {d : Detector} {fork : Nat → Contents} {x c : Nat}
    (notRoot : (R.task c).kind ≠ .initial)
    (explicit : (R.task c).kind = .explicit → (R.birth d c).getLast? = some x)
    (member : ∀ r i, (R.task c).kind = .implicit r i → ∃ k, d.plain x = (fork r).bump k) :
    ∃ z ∈ R.site d fork c, (d.plain x).SameUnit z := by
  unfold Runtime.site
  cases kind : (R.task c).kind with
  | initial => exact absurd kind notRoot
  | implicit r i =>
    obtain ⟨k, same⟩ := member r i kind
    exact ⟨fork r, rfl, by rw [same]; rfl⟩
  | explicit => exact ⟨d.plain x, by rw [explicit kind]; rfl, rfl⟩

namespace Advance

variable {R : Runtime} {d d' : Detector} {owner owner' : Nat → Strand} {e : Event} {fork fork' : Nat → Contents}
  {below below' : Strand → Contents} (adv : Advance R d d' owner owner' e)

include adv

theorem site_after (keeps : Keeps R d owner e fork fork' below below') {c : Nat} (isTask : c < R.tasks)
    (begun : (R.task c).begun = true) : (R.after e).site d' fork' c = R.site d fork c := by
  unfold Runtime.site
  rw [((Runtime.after_extends R e).fixed c isTask).kind]
  cases kind : (R.task c).kind with
  | initial => rfl
  | implicit r i => exact congrArg some (keeps.forks r (adv.nested.member c isTask r i kind).1)
  | explicit =>
    simp only [adv.births c isTask kind]
    cases last : (R.birth d c).getLast? with
    | none => rfl
    | some x =>
      have there := adv.birth_held isTask begun x (List.mem_of_getLast? last)
      rw [Option.map_some, Option.map_some, adv.plain there]

variable (origins : Origins R d owner fork below)

include origins

theorem site_label {c x : Nat} {upper rest : Label} (isTask : c < R.tasks) (begun : (R.task c).begun = true)
    (known : d.label c = some (upper ++ x :: rest)) (length : upper.length + 1 = (R.task c).line.length) :
    ∃ z ∈ R.site d fork c, (d.plain x).SameUnit z := by
  apply Runtime.site_above
  · intro kind
    rw [adv.nested.initial c isTask kind, adv.lineage.root] at length
    cases length
  · intro _
    rw [Runtime.birth, known, ← length, Option.getD_some, List.append_cons, List.take_left' (by simp),
      List.getLast?_concat]
  · intro r i kind
    have mapped := (adv.lined.place_length isTask begun known).1
    rw [Runtime.place_implicit (by simp [kind]), List.append_cons, List.map_append] at mapped
    obtain ⟨-, lower⟩ := List.append_inj mapped (by simp [length])
    obtain ⟨v, tail, rfl, owns, -⟩ := List.map_eq_cons_iff.mp lower
    have chain := origins.chain c isTask begun _ known
    have above := ((List.isChain_cons_cons ..).mp (List.isChain_append.mp chain).2.1).1
    rw [owns] at above
    obtain ⟨k, -, same⟩ := above r i kind
    exact ⟨k, same⟩

/-- A task that starts does so in the strand of another one, below the last segment of that task's label. -/
theorem started (keeps : Keeps R d owner e fork fork' below below') {c : Nat} (isTask : c < (R.after e).tasks)
    (begun : ((R.after e).task c).begun = true) :
    (c < R.tasks ∧ (R.task c).begun = true ∧ ((R.after e).task c).line = (R.task c).line) ∨
    ∃ p < R.tasks, R.Starts p e ∧ (R.task p).begun = true ∧ (R.task p).ended = false ∧
      ((R.after e).task c).line = (R.task p).strands p ∧
      ∃ init x, d.label p = some (init ++ [x]) ∧ (R.after e).site d' fork' c = some (d.plain x) := by
  rcases (Runtime.created_after adv.enabled).mp ⟨isTask, begun⟩ with ⟨old, before⟩ | rfl | ⟨t, rfl, rfl⟩
  · exact .inl ⟨old, before, ((Runtime.after_extends R e).fixed c old).line⟩
  · by_cases before : (R.task c).begun = true
    · exact .inl ⟨isTask, before, ((Runtime.after_extends R _).fixed c isTask).line⟩
    · have isTask : c < R.tasks := isTask
      obtain ⟨r, isRegion, i, isMember, rfl, kind, -, isOpen⟩ := adv.nested.unbegun isTask (by simpa using before)
      have forker := adv.nested.forker adv.lineage isRegion isOpen
      have live : (R.task (R.memberOf r i)).ended = false := by
        rw [← Bool.not_eq_true]
        intro ended
        exact before (adv.begun_closing isRegion isMember ((adv.nested.counters r isRegion i isMember).ended ended).1)
      have first : (R.task (R.memberOf r 0)).ended = false := by
        rw [← Bool.not_eq_true]
        intro ended
        cases (adv.closing.last r isRegion ended i isMember).symm.trans live
      have kept := (Runtime.after_extends R (.implicitBegin (R.memberOf r i))).fixed _ isTask
      obtain ⟨init, x, known, same, -⟩ := origins.forked r isRegion isOpen first
      refine .inr ⟨_, adv.nested.encountering_lt isRegion, (adv.nested.kind r isRegion i isMember).2.1, forker.1, forker.2,
        ?_, init, x, known, ?_⟩
      · rw [kept.line, adv.lineage.waiting r isRegion i isMember live]
      · rw [Runtime.site, kept.kind, kind, same]
        exact congrArg some (keeps.forks r isRegion)
  · obtain ⟨isParent, runs⟩ := Runtime.running_lt adv.enabled
    obtain ⟨begun', live, -⟩ := Task.running_iff.mp runs
    refine .inr ⟨t, isParent, rfl, begun', live, by simp [Runtime.after, Task.new], ?_⟩
    cases adv.turn with
    | still _ _ _ begins => exact absurd (begins R.tasks isTask begun).1 (lt_irrefl _)
    | touch _ _ _ _ _ _ _ _ count => exact absurd count (Nat.succ_ne_self _)
    | @create _ init x _ _ _ _ known now made =>
      refine ⟨init, x, known, ?_⟩
      have kind : ((R.after (.taskCreate t)).task R.tasks).kind = .explicit := by simp [Runtime.after, Task.new]
      rw [Runtime.site, kind]
      simp only [(adv.birth_new rfl isParent begun' live known made).1, List.getLast?_concat, Option.map_some,
        adv.plain (adv.held isParent begun' known x (by simp))]

theorem unit_differs {s : System} (runtime : s.runtime = R) (detector : s.detector = d) (differ : s.UnitsDiffer e)
    {p c x : Nat} {b b' : Construct} {init : Label} (starts : R.Starts p e) (isTask : p < R.tasks)
    (begun : (R.task p).begun = true) (live : (R.task p).ended = false) (body : (R.task p).body = some b)
    (known : d.label p = some (init ++ [x])) (other : b' ≠ b) (isTask' : c < R.tasks) (begun' : (R.task c).begun = true)
    (last : (R.task c).line.getLast? = some ⟨p, some b'⟩) :
    ∀ z ∈ R.site d fork c, ¬ ((below ⟨p, some b⟩).Alike (below ⟨p, some b'⟩) ∧ (d.plain x).SameUnit z) := by
  subst runtime detector
  have mapped := (adv.lined.place_length isTask begun known).1
  rw [Runtime.place_live live, Task.strands_unit (adv.lineage.body_units body)] at mapped
  obtain ⟨above, own, unit, rest, split, upper, empty, same⟩ :=
    unit_above (origins.chain p isTask begun _ known) mapped
  rw [List.map_eq_nil_iff.mp empty, List.append_cons above own] at split
  obtain ⟨rfl, self⟩ := List.append_inj' split rfl
  obtain rfl := List.singleton_inj.mp self
  rw [List.append_assoc] at known
  obtain ⟨label', known', -, mapped'⟩ := adv.lined.label c isTask' begun'
  have chain' := origins.chain c isTask' begun' label' known'
  obtain ⟨more, place⟩ := s.runtime.place_line c
  have line := Runtime.mem_line_split adv.lineage isTask' last
  rw [place, line, List.append_assoc] at mapped'
  obtain ⟨above', own', unit', rest', rfl, upper', -, same'⟩ := unit_above chain' mapped'
  have apart := differ p starts b body b' other c isTask' begun' last above own x known above' own' unit' rest'
    known' (by rw [← List.length_map owner, upper', ← upper, List.length_map])
  have through : s.detector.label c = some ((above' ++ [own']) ++ unit' :: rest') := by
    rw [known', List.append_assoc]
    rfl
  obtain ⟨z, isSite, version⟩ := adv.site_label origins isTask' begun' through (by simp [line, ← upper'])
  rintro z' isSite' ⟨alike, sameUnit⟩
  rw [isSite, Option.mem_some] at isSite'
  refine apart ⟨?_, sameUnit.trans (isSite' ▸ version.symm)⟩
  rw [same, same']
  exact alike

theorem units_field (keeps : Keeps R d owner e fork fork' below below') (units : R.UnitsApart d fork below) {s : System}
    (runtime : s.runtime = R) (detector : s.detector = d) (differ : s.UnitsDiffer e) :
    (R.after e).UnitsApart d' fork' below' := by
  -- a task that has started before in the unit, or the one that starts now
  have cases : ∀ {c t b}, c < (R.after e).tasks → ((R.after e).task c).begun = true →
      ((R.after e).task c).line.getLast? = some ⟨t, some b⟩ → below' ⟨t, some b⟩ = below ⟨t, some b⟩ ∧
        ((c < R.tasks ∧ (R.task c).begun = true ∧ (R.task c).line.getLast? = some ⟨t, some b⟩ ∧
          (R.after e).site d' fork' c = R.site d fork c) ∨
        (R.Starts t e ∧ t < R.tasks ∧ (R.task t).begun = true ∧ (R.task t).ended = false ∧ (R.task t).body = some b ∧
          ∃ init x, d.label t = some (init ++ [x]) ∧ (R.after e).site d' fork' c = some (d.plain x))) := by
    intro c t b isTask begun last
    rcases adv.started origins keeps isTask begun with
      ⟨isTask, begun, line⟩ | ⟨p, isTask, starts, begun, live, line, init, x, known, site⟩
    · rw [line] at last
      obtain ⟨r, there, owns⟩ := adv.line_owned isTask begun (List.mem_of_getLast? last)
      refine ⟨?_, .inl ⟨isTask, begun, last, adv.site_after keeps isTask begun⟩⟩
      rw [← owns, keeps.belows r there]
    · rw [line] at last
      obtain ⟨rfl, body⟩ := Runtime.strands_last last
      obtain ⟨mapped, holds⟩ := adv.lined.place_length isTask begun known
      rw [Runtime.place_live live] at mapped
      rw [← mapped, List.map_append, List.map_singleton, List.getLast?_concat, Option.some.injEq] at last
      refine ⟨?_, .inr ⟨starts, isTask, begun, live, body, init, x, known, site⟩⟩
      rw [← last, keeps.belows x (holds x (by simp))]
  intro t b b' other c isTask begun c' isTask' begun' last last' z isSite z' isSite'
  obtain ⟨same, before⟩ := cases isTask begun last
  obtain ⟨same', before'⟩ := cases isTask' begun' last'
  rw [same, same']
  rcases before with ⟨isTask, begun, last, site⟩ | ⟨starts, isTask, begun, live, body, init, x, known, site⟩
  · rw [site] at isSite
    rcases before' with ⟨isTask', begun', last', site'⟩ | ⟨starts, isTask', begun', live', body, init, x, known, site'⟩
    · rw [site'] at isSite'
      exact units t b b' other c isTask begun c' isTask' begun' last last' z isSite z' isSite'
    · rw [site', Option.mem_some] at isSite'
      subst isSite'
      rintro ⟨alike, like⟩
      exact adv.unit_differs origins runtime detector differ starts isTask' begun' live' body known other isTask begun last
        z isSite ⟨alike.symm, like.symm⟩
  · rw [site, Option.mem_some] at isSite
    subst isSite
    rcases before' with ⟨isTask', begun', last', site'⟩ | ⟨-, -, -, -, body', -⟩
    · rw [site'] at isSite'
      exact adv.unit_differs origins runtime detector differ starts isTask begun live body known other.symm isTask' begun'
        last' z' isSite'
    · rw [body, Option.some.injEq] at body'
      exact absurd body' other

end Advance

end Romp
