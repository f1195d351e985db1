import Romp.Core.Shift
import Romp.Runtime.Units

namespace Romp

theorem compareFrom_same {left right : List Segment} {i : Nat} (same : compareFrom i left right = eSameLabel) :
    List.Forall₂ (fun x y => x.equals y = true) left right := by
  induction left generalizing i right with
  | nil =>
    cases right with
    | nil => exact .nil
    | cons y right => simp [compareFrom, eLeftIsPrefix, eSameLabel] at same
  | cons x left ih =>
    cases right with
    | nil => simp [compareFrom, eRightIsPrefix, eSameLabel] at same
    | cons y right =>
      unfold compareFrom at same
      split at same
      · rename_i equal
        exact .cons equal (ih same)
      · simp only [eSameLabel] at same
        omega

theorem Segment.equals_plain {x y : Segment} (equal : x.equals y = true) :
    x.plain.Alike y.plain ∧ (x.plain.workShareId = none ∨ x.plain.workShareId = y.plain.workShareId) := by
  obtain ⟨word, id⟩ := (Segment.equals_iff x y).mp equal
  refine ⟨?_, id⟩
  have unmarked := congrArg (fun z : Contents => { z with taskwaited := false, taskGroupSync := false }) word
  exact unmarked

theorem first_difference {α β : Type} {P : α → α → Prop} (f : α → β) {z z' : α} {left right : List α}
    (related : List.Forall₂ P (z :: left) (z' :: right)) (start : f z = f z') (differ : left.map f ≠ right.map f) :
    ∃ a w x ra a' w' y rb, z :: left = a ++ w :: x :: ra ∧ z' :: right = a' ++ w' :: y :: rb ∧
      (a ++ [w]).map f = (a' ++ [w']).map f ∧ f x ≠ f y ∧ P w w' ∧ P x y ∧ ra.length = rb.length := by
  induction left generalizing z z' right with
  | nil =>
    cases related with
    | cons _ rest =>
      cases rest
      exact absurd rfl differ
  | cons x left ih =>
    cases related with
    | cons first rest =>
      cases rest with
      | @cons _ y _ right second rest =>
        by_cases same : f x = f y
        · have differ' : left.map f ≠ right.map f := by
            intro equal
            exact differ (by rw [List.map_cons, List.map_cons, same, equal])
          obtain ⟨a, w, x', ra, a', w', y', rb, left_, right_, upper, facts⟩ := ih (.cons second rest) same differ'
          refine ⟨z :: a, w, x', ra, z' :: a', w', y', rb, by rw [left_]; rfl, by rw [right_]; rfl, ?_, facts⟩
          rw [List.cons_append, List.cons_append, List.map_cons, List.map_cons, start, upper]
        · exact ⟨[], z, x, left, [], z', y, right, rfl, rfl, by simp [start], same, first, second, rest.length_eq⟩

/-- The records that the labels go back to, in a run whose offsets stay in range and whose units can be told apart. -/
structure Traced (s : System) (owner : Nat → Strand) (fork : Nat → Contents) (below : Strand → Contents) :
    Prop where
  placed : Placed s owner
  origins : Origins s.runtime s.detector owner fork below
  offsets : Offsets s.runtime s.detector owner fork
  units : s.runtime.UnitsApart s.detector fork below
  entries : ∀ entry ∈ s.log, entry.label.IsChain fun z q =>
    s.runtime.Above fork below s.runtime.InTime (s.detector.plain z) (owner q)

namespace Runtime

variable {R : Runtime} {e : Event}

/-- A region that closes in a step has let its members go once more. -/
theorem inTime_after (nested : R.Nested) (enabled : R.enabled e = true) {c k : Nat} (isTask : c < R.tasks)
    (inTime : R.InTime c k) : (R.after e).InTime c k := by
  refine ⟨inTime.1.trans ?_, fun r i kind closed => ?_⟩
  · cases barriers_after (R := R) (e := e) isTask with
    | same _ passed | comes _ passed => exact passed.ge
    | leaves _ passed => rw [passed]; exact Nat.le_succ _
  · rw [((after_extends R e).fixed c isTask).kind] at kind
    obtain ⟨isRegion, isMember, rfl⟩ := nested.member c isTask r i kind
    rcases nested.closed_after isRegion enabled closed with was | ⟨-, released⟩
    · have before := inTime.2 r i kind was
      rcases (region_after (e := e) isRegion).released with same | ⟨-, more⟩ <;> omega
    · have passed := (nested.counters r isRegion i isMember).passed
      have bound := inTime.1
      omega

end Runtime

namespace Traced

variable {s s' : System} {owner : Nat → Strand} {fork : Nat → Contents} {below : Strand → Contents}
  (traced : Traced s owner fork below)

include traced

theorem step (nested : s.runtime.Nested) (lineage : s.runtime.Lineage) (closing : s.runtime.Closing) {e : Event}
    (inRange : s.detector.InRange e) (differ : s.UnitsDiffer e) (stepped : s.step e = some s') :
    ∃ owner' fork' below', Traced s' owner' fork' below' := by
  obtain ⟨enabled, -, runtime, -⟩ := System.step_cases stepped
  obtain ⟨owner', placed', adv⟩ := traced.placed.advance nested lineage closing stepped
  obtain ⟨fork', below', origins', keeps⟩ := adv.origins traced.origins
  have offsets' := adv.offsets_after traced.origins traced.offsets keeps inRange
  have units' := adv.units_field traced.origins keeps traced.units rfl rfl differ
  rw [← runtime] at origins' offsets' units'
  refine ⟨owner', fork', below', placed', origins', offsets', units', ?_⟩
  have transport : ∀ {label : Label}, s.detector.heap.Holds label →
      (label.IsChain fun z q =>
        s.runtime.Above fork below s.runtime.InTime (s.detector.plain z) (owner q)) →
      label.IsChain fun z q =>
        s'.runtime.Above fork' below' s'.runtime.InTime (s'.detector.plain z) (owner' q) := by
    intro label holds chain
    refine chain.imp_of_mem_imp fun z q first second above => ?_
    rw [runtime]
    exact adv.above_after traced.origins keeps.forks keeps.belows
      (fun x isTask k => Runtime.inTime_after nested enabled isTask) (holds z first) (holds q second) above
  have old : ∀ entry ∈ s.log, entry.label.IsChain fun z q =>
      s'.runtime.Above fork' below' s'.runtime.InTime (s'.detector.plain z) (owner' q) :=
    fun entry inside => transport (traced.placed.logged.entry entry inside).1 (traced.entries entry inside)
  rcases System.logged_cases stepped with ⟨log, -⟩ | ⟨t, label, rfl, running, known, -, -, log⟩
  · rw [log]
    exact old
  · intro entry inside
    rw [log] at inside
    rcases List.mem_append.mp inside with before | here
    · exact old entry before
    · rw [List.mem_singleton.mp here]
      obtain ⟨isTask, runs⟩ := Runtime.running_lt running
      obtain ⟨begun, live, -, staying, -⟩ := Task.running_iff.mp runs
      obtain ⟨mapped, holds⟩ := traced.placed.lined.place_length isTask begun known
      rw [Runtime.place_live live] at mapped
      refine transport holds ((traced.origins.chain t isTask begun label known).imp_of_mem_imp fun z q _ member above => ?_)
      -- a task that executes code is below no member of a region that has closed
      unfold Runtime.Above at above ⊢
      cases body : (owner q).body with
      | some b =>
        rw [body] at above
        exact above
      | none =>
        rw [body] at above
        intro r i kind
        obtain ⟨k, within, same⟩ := above r i kind
        refine ⟨k, ⟨within, fun r' i' kind' closed => ?_⟩, same⟩
        have isOwner := (traced.origins.past q (holds q member)).1
        obtain ⟨isRegion, isMember, self⟩ := nested.member _ isOwner r' i' kind'
        refine absurd closed (nested.live_unclosed lineage closing isRegion isMember isTask live staying ?_)
        have place : owner q ∈ (s.runtime.task t).strands t := mapped ▸ List.mem_map_of_mem member
        have strand : owner q = ⟨s.runtime.memberOf r' i', none⟩ := by
          rw [← self, ← body]
        rw [strand] at place
        rcases List.mem_append.mp place with above | own
        · exact .inr above
        · rcases List.mem_cons.mp own with same | inBody
          · exact .inl (congrArg Strand.task same)
          · obtain ⟨_, -, same⟩ := List.mem_map.mp inBody
            cases congrArg Strand.body same

theorem tick_eq {entry : Entry} (logged : entry ∈ s.log) {upper rest : Label} {z x c : Nat}
    (label : entry.label = upper ++ z :: x :: rest) (owns : owner x = ⟨c, none⟩) (isTask : c < s.runtime.tasks)
    (begun : (s.runtime.task c).begun = true) (kind : (s.runtime.task c).kind = .explicit)
    (line : (s.runtime.task c).line = (upper ++ [z]).map owner) :
    s.runtime.tick s.detector c = (s.detector.plain z).taskcreate := by
  obtain ⟨-, mapped⟩ := traced.placed.logged.entry entry logged
  have inside : ⟨c, none⟩ ∈ entry.strands := by
    rw [← mapped, label, ← owns]
    exact List.mem_map_of_mem (by simp)
  have begins := traced.placed.logged.birth entry logged c isTask kind inside
  have length := traced.placed.lined.birth_length isTask begun
  have birth : s.runtime.birth s.detector c = upper ++ [z] := by
    have whole : upper ++ [z] <+: entry.label := ⟨x :: rest, by rw [label, List.append_assoc]; rfl⟩
    refine (List.prefix_of_prefix_length_le begins whole ?_).eq_of_length ?_ <;>
      rw [length, line, List.length_map]
  rw [Runtime.tick, birth, List.getLast?_concat, Option.map_some, Option.getD_some]

theorem offset_less (nested : s.runtime.Nested) (closing : s.runtime.Closing) {c c' r r' i i' z z' : Nat}
    (isTask : c < s.runtime.tasks) (isTask' : c' < s.runtime.tasks) (begun : (s.runtime.task c).begun = true)
    (begun' : (s.runtime.task c').begun = true) (kind : (s.runtime.task c).kind = .implicit r i)
    (kind' : (s.runtime.task c').kind = .implicit r' i') (less : r < r')
    (line : (s.runtime.task c).line = (s.runtime.task c').line)
    (above : s.runtime.Above fork below s.runtime.InTime (s.detector.plain z) ⟨c, none⟩)
    (above' : s.runtime.Above fork below s.runtime.InTime (s.detector.plain z') ⟨c', none⟩) :
    (s.detector.plain z).offset < (s.detector.plain z').offset := by
  obtain ⟨isRegion, isMember, rfl⟩ := nested.member c isTask r i kind
  obtain ⟨isRegion', isMember', rfl⟩ := nested.member c' isTask' r' i' kind'
  rw [closing.line r isRegion i isMember, closing.line r' isRegion' i' isMember'] at line
  obtain ⟨ended, later⟩ := traced.offsets.later r r' less isRegion' line
  obtain ⟨k, ⟨within, inTime⟩, same⟩ := above r i kind
  obtain ⟨k', ⟨within', -⟩, same'⟩ := above' r' i' kind'
  have room := traced.offsets.room r isRegion i isMember begun
  have room' := traced.offsets.room r' isRegion' i' isMember' begun'
  have closed : s.runtime.Closed r := by
    have first := (nested.bounds r isRegion).1
    have counters := nested.counters r isRegion 0 first
    have last := counters.ended ended
    have passed := counters.passed
    have arrived := counters.arrived
    exact ⟨last.1, by omega⟩
  have bound : k * (fork r).span ≤ (s.runtime.task (s.runtime.memberOf r i)).passed * (fork r).span :=
    Nat.mul_le_mul_right _ within
  have bound' : k' * (fork r').span ≤ (s.runtime.task (s.runtime.memberOf r' i')).passed * (fork r').span :=
    Nat.mul_le_mul_right _ within'
  have before : k * (fork r).span < (s.runtime.region r).released * (fork r).span :=
    Nat.mul_lt_mul_of_pos_right (inTime r i kind closed) (traced.offsets.spans r isRegion)
  rw [same, same', Contents.bump_offset (by omega), Contents.bump_offset (by omega)]
  omega

theorem owned {entry : Entry} (logged : entry ∈ s.log) {x : Nat} (inside : x ∈ entry.label) :
    (owner x).task < s.runtime.tasks ∧ (s.runtime.task (owner x).task).begun = true ∧
      s.runtime.Suits (owner x) (s.detector.plain x) := by
  have there := (traced.placed.logged.entry entry logged).1 x inside
  have past := traced.origins.past x there
  exact ⟨past.1, past.2.1, traced.origins.suits x there⟩

theorem begun {entry : Entry} (logged : entry ∈ s.log) : (s.runtime.task entry.task).begun = true := by
  obtain ⟨-, body, strands⟩ := traced.placed.logged.task entry logged
  rw [← (traced.placed.logged.entry entry logged).2] at strands
  obtain ⟨upper, tail, label, -, mapped⟩ := List.map_eq_append_iff.mp strands
  obtain ⟨x, rest, rfl, owns, -⟩ := List.map_eq_cons_iff.mp mapped
  have begun := (traced.owned logged (x := x) (by rw [label]; simp)).2.1
  rwa [owns] at begun

theorem logged_above {entry : Entry} (logged : entry ∈ s.log) {a ra : Label} {w x : Nat}
    (label : entry.label = a ++ w :: x :: ra) :
    s.runtime.Above fork below s.runtime.InTime (s.detector.plain w) (owner x) := by
  have chain := traced.entries entry logged
  rw [label] at chain
  exact ((List.isChain_cons_cons ..).mp (List.isChain_append.mp chain).2.1).1

theorem unit_end {entry : Entry} (logged : entry ∈ s.log) {a ra : Label} {w x t : Nat} {b : Construct}
    (label : entry.label = a ++ w :: x :: ra) (owns : owner x = ⟨t, some b⟩)
    (upper : (a ++ [w]).map owner = (s.runtime.task t).line ++ [⟨t, none⟩]) : entry.task = t ↔ ra = [] := by
  obtain ⟨-, body, strands⟩ := traced.placed.logged.task entry logged
  rw [← (traced.placed.logged.entry entry logged).2, label, List.append_cons a w, List.map_append, upper, List.map_cons,
    owns] at strands
  refine ⟨fun self => ?_, fun empty => ?_⟩
  · subst self
    have length := congrArg List.length strands
    have short : body.toList.length ≤ 1 := by cases body <;> simp
    simp only [List.length_append, List.length_cons, List.length_nil, List.length_map] at length
    exact List.eq_nil_of_length_eq_zero (by omega)
  · subst empty
    have last := congrArg (fun l => l.getLast?.map Strand.task) strands
    cases body with
    | none => simpa [eq_comm] using last
    | some c => simpa [eq_comm] using last

theorem started_in (nested : s.runtime.Nested) (lineage : s.runtime.Lineage) {entry : Entry} (logged : entry ∈ s.log)
    {a ra : Label} {w x t : Nat} {b : Construct} (label : entry.label = a ++ w :: x :: ra) (owns : owner x = ⟨t, some b⟩)
    (more : ra ≠ []) : ∃ c < s.runtime.tasks, (s.runtime.task c).begun = true ∧
      (s.runtime.task c).line.getLast? = some ⟨t, some b⟩ ∧
        ∃ z ∈ s.runtime.site s.detector fork c, (s.detector.plain x).SameUnit z := by
  obtain ⟨v, rest, rfl⟩ := List.exists_cons_of_ne_nil more
  obtain ⟨isEntry, body, strands⟩ := traced.placed.logged.task entry logged
  have mapped := (traced.placed.logged.entry entry logged).2
  rw [label, show a ++ w :: x :: v :: rest = (a ++ [w, x]) ++ v :: rest by simp, List.map_append, List.map_cons] at mapped
  have last : ((a ++ [w, x]).map owner).getLast? = some ⟨t, some b⟩ := by simp [owns]
  obtain ⟨isTask, begun, -⟩ := traced.owned logged (x := v) (by rw [label]; simp)
  have own : owner v = ⟨(owner v).task, none⟩ := by
    cases unit : (owner v).body with
    | none => rw [← unit]
    | some b' =>
      have ownsV : owner v = ⟨(owner v).task, some b'⟩ := by rw [← unit]
      rw [ownsV] at mapped
      rw [lineage.split_body isEntry (strands.symm.trans mapped.symm), List.getLast?_concat] at last
      cases congrArg (Option.map Strand.body) last
  generalize (owner v).task = c at own isTask begun
  rw [own] at mapped
  have line := lineage.split_task isEntry (strands.symm.trans mapped.symm)
  refine ⟨c, isTask, begun, line ▸ last, Runtime.site_above (fun kind => ?_) (fun kind => ?_) fun r i kind => ?_⟩
  · rw [← line, nested.initial c isTask kind, lineage.root] at last
    cases last
  · have begins := traced.placed.logged.birth entry logged c isTask kind (by rw [← mapped]; simp)
    have length := traced.placed.lined.birth_length isTask begun
    have whole : a ++ [w, x] <+: entry.label := ⟨v :: rest, by rw [label]; simp⟩
    rw [(List.prefix_of_prefix_length_le begins whole (by simp [length, line])).eq_of_length (by simp [length, line])]
    simp
  · have split : entry.label = (a ++ [w]) ++ x :: v :: rest := by rw [label, List.append_assoc]; rfl
    have above := traced.logged_above logged split
    rw [own] at above
    obtain ⟨k, -, same⟩ := above r i kind
    exact ⟨k, same⟩

/-- Two strands that follow the same ones, with segments that compare as equal, are units of one task. -/
theorem strands_units (nested : s.runtime.Nested) (lineage : s.runtime.Lineage) (closing : s.runtime.Closing)
    {first second : Entry} (logged : first ∈ s.log) (logged' : second ∈ s.log) {a a' ra rb : Label} {w w' x y : Nat}
    (left : first.label = a ++ w :: x :: ra) (right : second.label = a' ++ w' :: y :: rb)
    (same : (a ++ [w]).map owner = (a' ++ [w']).map owner) (differ : owner x ≠ owner y)
    (upper : (s.detector.plain w).Alike (s.detector.plain w')) (equal : (s.detector.plain x).Alike (s.detector.plain y)) :
    ∃ t b b', owner x = ⟨t, some b⟩ ∧ owner y = ⟨t, some b'⟩ ∧ b ≠ b' ∧
      (a ++ [w]).map owner = (s.runtime.task t).line ++ [⟨t, none⟩] := by
  obtain ⟨isTask, begun, suits⟩ := traced.owned logged (x := x) (by rw [left]; simp)
  obtain ⟨isTask', begun', suits'⟩ := traced.owned logged' (x := y) (by rw [right]; simp)
  have type : (s.detector.plain x).type = (s.detector.plain y).type := equal.type
  have above := traced.logged_above logged left
  have above' := traced.logged_above logged' right
  obtain ⟨isFirst, body, strands⟩ := traced.placed.logged.task first logged
  obtain ⟨isSecond, body', strands'⟩ := traced.placed.logged.task second logged'
  rw [← (traced.placed.logged.entry first logged).2, left, List.append_cons a w, List.map_append] at strands
  rw [← (traced.placed.logged.entry second logged').2, right, List.append_cons a' w', List.map_append] at strands'
  cases unit : (owner x).body with
  | some b =>
    cases unit' : (owner y).body with
    | some b' =>
      obtain ⟨t, rfl⟩ : ∃ t, t = (owner x).task := ⟨_, rfl⟩
      have ownsX : owner x = ⟨(owner x).task, some b⟩ := by rw [← unit]
      have ownsY : owner y = ⟨(owner y).task, some b'⟩ := by rw [← unit']
      rw [List.map_cons, ownsX] at strands
      rw [List.map_cons, ownsY] at strands'
      have line := lineage.split_body isFirst strands.symm
      have line' := lineage.split_body isSecond strands'.symm
      have task : (owner x).task = (owner y).task := by
        rw [same, line'] at line
        exact (congrArg Strand.task (List.singleton_inj.mp (List.append_inj' line rfl).2)).symm
      refine ⟨_, b, b', ownsX, by rw [task]; exact ownsY, fun equal => differ ?_, line⟩
      rw [ownsX, ownsY, task, equal]
    | none =>
      unfold Runtime.Suits Contents.IsUnit at suits suits'
      rw [unit] at suits
      rw [unit'] at suits'
      cases kind : (s.runtime.task (owner y).task).kind <;> rw [kind] at suits' <;>
        exact absurd ((suits.1.symm.trans type).trans suits'.1) (by decide)
  | none =>
    cases unit' : (owner y).body with
    | some b' =>
      unfold Runtime.Suits Contents.IsUnit at suits suits'
      rw [unit] at suits
      rw [unit'] at suits'
      cases kind : (s.runtime.task (owner x).task).kind <;> rw [kind] at suits <;>
        exact absurd ((suits.1.symm.trans type).trans suits'.1) (by decide)
    | none =>
      have ownsX : owner x = ⟨(owner x).task, none⟩ := by rw [← unit]
      have ownsY : owner y = ⟨(owner y).task, none⟩ := by rw [← unit']
      have tasks : (owner x).task ≠ (owner y).task := fun equal => differ (by rw [ownsX, ownsY, equal])
      rw [List.map_cons, ownsX] at strands
      rw [List.map_cons, ownsY] at strands'
      have line := lineage.split_task isFirst strands.symm
      have line' := lineage.split_task isSecond strands'.symm
      have lines := line.trans (same.trans line'.symm)
      rw [ownsX] at above suits
      rw [ownsY] at above' suits'
      have notRoot : ∀ {t}, t < s.runtime.tasks → (s.runtime.task t).line = (a ++ [w]).map owner →
          (s.runtime.task t).kind ≠ .initial := by
        intro t isTask line kind
        rw [nested.initial t isTask kind, lineage.root, List.map_append] at line
        exact List.append_ne_nil_of_right_ne_nil _ (List.cons_ne_nil _ _) line.symm
      unfold Runtime.Suits at suits suits'
      cases kind : (s.runtime.task (owner x).task).kind with
      | initial => exact absurd kind (notRoot isTask line)
      | explicit =>
        rw [kind] at suits
        cases kind' : (s.runtime.task (owner y).task).kind with
        | initial => exact absurd kind' (notRoot isTask' (line'.trans same.symm))
        | explicit =>
          have tick := traced.tick_eq logged left ownsX isTask begun kind line
          have tick' := traced.tick_eq logged' right ownsY isTask' begun' kind' line'
          refine absurd ?_ (traced.origins.apart _ isTask kind _ isTask' kind' tasks lines)
          rw [tick, tick', upper.counts.1]
        | implicit =>
          rw [kind'] at suits'
          exact absurd ((suits.1.symm.trans type).trans suits'.1) (by decide)
      | implicit r i =>
        rw [kind] at suits
        cases kind' : (s.runtime.task (owner y).task).kind with
        | initial => exact absurd kind' (notRoot isTask' (line'.trans same.symm))
        | explicit =>
          rw [kind'] at suits'
          exact absurd ((suits.1.symm.trans type).trans suits'.1) (by decide)
        | implicit r' i' =>
          rcases Nat.lt_trichotomy r r' with less | rfl | more
          · have offsets := traced.offset_less nested closing isTask isTask' begun begun' kind kind' less lines above above'
            exact absurd upper.counts.2.1 (Nat.ne_of_lt offsets)
          · have there := (traced.placed.logged.entry first logged).1 x (by rw [left]; simp)
            have there' := (traced.placed.logged.entry second logged').1 y (by rw [right]; simp)
            have residue := traced.offsets.residue x there unit r i kind
            have residue' := traced.offsets.residue y there' unit' r i' kind'
            rw [equal.counts.2.1, residue'] at residue
            refine absurd ?_ tasks
            rw [(nested.member _ isTask r i kind).2.2, (nested.member _ isTask' r i' kind').2.2, residue]
          · have offsets :=
              traced.offset_less nested closing isTask' isTask begun' begun kind' kind more lines.symm above' above
            exact absurd upper.counts.2.1.symm (Nat.ne_of_lt offsets)

/-- Two labels that compare as equal belong to one task. -/
theorem same_task (nested : s.runtime.Nested) (lineage : s.runtime.Lineage) (closing : s.runtime.Closing)
    {first second : Entry} (logged : first ∈ s.log) (logged' : second ∈ s.log)
    (same : compareLabels (s.detector.heap.read first.label) (s.detector.heap.read second.label) = eSameLabel) :
    first.task = second.task := by
  by_contra tasks
  have related : List.Forall₂ (fun z z' => (s.detector.heap.objects z).equals (s.detector.heap.objects z') = true)
      first.label second.label := by
    have equal := compareFrom_same same
    rw [Heap.read, Heap.read, List.forall₂_map_left_iff, List.forall₂_map_right_iff] at equal
    exact equal
  have starts : ∀ entry ∈ s.log, ∃ z rest, entry.label = z :: rest ∧ owner z = ⟨0, none⟩ := by
    intro entry logged
    obtain ⟨isTask, body, strands⟩ := traced.placed.logged.task entry logged
    obtain ⟨rest, begins⟩ : ∃ rest, entry.strands = ⟨0, none⟩ :: rest := by
      by_cases root : entry.task = 0
      · rw [root, lineage.root] at strands
        exact ⟨_, strands⟩
      · obtain ⟨rest, line⟩ := lineage.starts isTask root
        rw [line] at strands
        exact ⟨_, strands⟩
    rw [← (traced.placed.logged.entry entry logged).2] at begins
    obtain ⟨z, rest, label, owns, -⟩ := List.map_eq_cons_iff.mp begins
    exact ⟨z, rest, label, owns⟩
  obtain ⟨z, left, label, owns⟩ := starts first logged
  obtain ⟨z', right, label', owns'⟩ := starts second logged'
  have differ : left.map owner ≠ right.map owner := by
    intro equal
    obtain ⟨-, body, strands⟩ := traced.placed.logged.task first logged
    obtain ⟨-, body', strands'⟩ := traced.placed.logged.task second logged'
    rw [← (traced.placed.logged.entry first logged).2, label, List.map_cons, equal, owns, ← owns', ← List.map_cons,
      ← label', (traced.placed.logged.entry second logged').2, strands'] at strands
    have last := congrArg (fun l => l.getLast?.map Strand.task) strands
    apply tasks
    cases body <;> cases body' <;> simpa [eq_comm] using last
  rw [label, label'] at related
  obtain ⟨a, w, x, ra, a', w', y, rb, split, split', upper, apart, equalW, equalX, lengths⟩ :=
    first_difference owner related (owns.trans owns'.symm) differ
  rw [split] at label
  rw [split'] at label'
  have alikeW := (Segment.equals_plain equalW).1
  have alikeX := (Segment.equals_plain equalX).1
  obtain ⟨t, b, b', ownsX, ownsY, other, line⟩ :=
    traced.strands_units nested lineage closing logged logged' label label' upper apart alikeW alikeX
  have ends := traced.unit_end logged label ownsX line
  have ends' := traced.unit_end logged' label' ownsY (upper.symm.trans line)
  have nonempty : ra ≠ [] := by
    intro empty
    have empty' : rb = [] := List.eq_nil_of_length_eq_zero (by rw [← lengths, empty]; rfl)
    exact tasks ((ends.mpr empty).trans (ends'.mpr empty').symm)
  have nonempty' : rb ≠ [] := by
    intro empty
    exact nonempty (List.eq_nil_of_length_eq_zero (by rw [lengths, empty]; rfl))
  obtain ⟨c, isTask, begun, last, z, isSite, same⟩ := traced.started_in nested lineage logged label ownsX nonempty
  obtain ⟨c', isTask', begun', last', z', isSite', same'⟩ :=
    traced.started_in nested lineage logged' label' ownsY nonempty'
  apply traced.units t b b' other c isTask begun c' isTask' begun' last last' z isSite z' isSite'
  have above := traced.logged_above logged label
  have above' := traced.logged_above logged' label'
  rw [ownsX] at above
  rw [ownsY] at above'
  obtain ⟨-, -, suits⟩ := traced.owned logged (x := x) (by rw [label]; simp)
  rw [ownsX] at suits
  have id := (Segment.equals_plain equalX).2.resolve_left suits.2.2
  refine ⟨?_, (same.symm.trans (alikeX.sameUnit id)).trans same'⟩
  rw [← above, ← above']
  exact alikeW

end Traced

theorem System.Reachable.traced {s : System}
    (reached : System.Reachable (fun s e => s.detector.InRange e ∧ s.UnitsDiffer e) s) :
    ∃ owner fork below, Traced s owner fork below := by
  induction reached with
  | @start s begun =>
    refine ⟨_, fun _ => s.detector.plain 0, fun _ => s.detector.plain 0, System.placed_initial begun,
      System.origins_initial begun _ _, System.offsets_initial begun _, ?_, ?_⟩
    · cases begun
      intro t b b' _ c isTask _ c' _ _ last
      cases Nat.lt_one_iff.mp isTask
      cases last
    · cases begun
      intro entry none
      cases none
  | step before allowed stepped ih =>
    obtain ⟨owner, fork, below, traced⟩ := ih
    exact traced.step before.nested before.lineage before.closing allowed.1 allowed.2 stepped

/-- Accesses of different tasks have different labels, as long as the offsets stay in range and the units below which
    tasks start can be told apart. -/
theorem labels_differ {s : System}
    (reached : System.Reachable (fun s e => s.detector.InRange e ∧ s.UnitsDiffer e) s) {a b : Nat} {first second : Entry}
    (found : s.log[a]? = some first) (found' : s.log[b]? = some second) (tasks : first.task ≠ second.task) :
    compareLabels (s.labelOf a) (s.labelOf b) ≠ eSameLabel := by
  obtain ⟨owner, fork, below, traced⟩ := reached.traced
  intro same
  rw [System.labelOf, System.labelOf, found, found'] at same
  exact tasks (traced.same_task reached.nested reached.lineage reached.closing (List.mem_of_getElem? found)
    (List.mem_of_getElem? found') same)

def System.firstUnits (s : System) : Event → Bool
  | .access _ | .workBegin _ _ _ | .workEnd _ => true
  | .barrierEnd _ => false
  | _ => (List.range s.runtime.tasks).all fun c => (s.runtime.task c).line.all fun strand => strand.body.isNone

theorem System.firstUnits_differ (s : System) (e : Event) (first : s.firstUnits e = true) :
    s.detector.InRange e ∧ s.UnitsDiffer e := by
  have none : (∀ p, ¬ s.runtime.Starts p e) ∨
      ∀ c < s.runtime.tasks, ∀ strand ∈ (s.runtime.task c).line, strand.body = none := by
    cases e with
    | taskCreate | implicitBegin =>
      refine .inr fun c isTask strand inside => ?_
      simp only [firstUnits, List.all_eq_true, List.mem_range] at first
      exact Option.isNone_iff_eq_none.mp (first c isTask strand inside)
    | _ => exact .inl fun p starts => starts
  refine ⟨?_, fun p starts b _ b' _ c isTask _ last => ?_⟩
  · cases e with
    | barrierEnd => cases first
    | _ => trivial
  · rcases none with nothing | empty
    · exact absurd starts (nothing p)
    · cases empty c isTask _ (List.mem_of_getLast? last)

/-- A member creates a task in the body of a single, and makes an access below it. -/
theorem labels_differ_single : ∃ s, System.runWhile System.firstUnits
    [.parallelBegin 0 2, .implicitBegin 1, .workBegin 1 .single true, .taskCreate 1, .access 3, .workEnd 1, .access 1] =
      some s ∧ compareLabels (s.labelOf 0) (s.labelOf 1) ≠ eSameLabel := by
  obtain ⟨s, ran, first, second⟩ : ∃ s, System.runWhile System.firstUnits
      [.parallelBegin 0 2, .implicitBegin 1, .workBegin 1 .single true, .taskCreate 1, .access 3, .workEnd 1, .access 1] =
        some s ∧ (∃ e ∈ s.log[0]?, e.task = 3) ∧ ∃ e ∈ s.log[1]?, e.task = 1 :=
    exists_of_any (by decide)
  obtain ⟨first, found, three⟩ := first
  obtain ⟨second, found', one⟩ := second
  refine ⟨s, ran, labels_differ (.of_checked System.firstUnits_differ ran) found found' ?_⟩
  rw [three, one]
  decide

def twoSingles : List Event :=
  [.parallelBegin 0 2, .implicitBegin 1, .workBegin 1 .single true, .taskCreate 1, .workEnd 1,
    .workBegin 1 .single true, .taskCreate 1, .workEnd 1, .access 3, .access 4]

theorem labels_collide : ¬ ∀ s, System.Reachable (fun s e => s.detector.InRange e) s → ∀ a b first second,
    s.log[a]? = some first → s.log[b]? = some second → first.task ≠ second.task →
    compareLabels (s.labelOf a) (s.labelOf b) ≠ eSameLabel := by
  intro apart
  obtain ⟨s, ran, ⟨first, found, three⟩, ⟨second, found', four⟩, same⟩ : ∃ s, System.run twoSingles = some s ∧
      (∃ e ∈ s.log[0]?, e.task = 3) ∧ (∃ e ∈ s.log[1]?, e.task = 4) ∧
        compareLabels (s.labelOf 0) (s.labelOf 1) = eSameLabel :=
    exists_of_any (by decide)
  have inRange : ∀ e ∈ twoSingles, ∀ s : System, s.detector.InRange e := by
    simp [twoSingles, Detector.InRange]
  refine apart s (System.Reachable.of_run inRange ran) 0 1 first second found found' ?_ same
  rw [three, four]
  decide

end Romp
