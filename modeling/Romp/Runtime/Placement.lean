import Romp.Callbacks.Effects
import Romp.Runtime.Lineage

namespace Romp

namespace Runtime

/-- The strands that the segments of a task's label belong to; an explicit task that has ended has lost
    the last of them. -/
def place (R : Runtime) (t : Nat) : List Strand :=
  if (R.task t).kind = .explicit ∧ (R.task t).ended = true then (R.task t).line else (R.task t).strands t

/-- The label that an explicit task had of the task that created it. -/
def birth (R : Runtime) (d : Detector) (c : Nat) : Label :=
  ((d.label c).getD []).take (R.task c).line.length

variable {R R' : Runtime}

theorem place_live {t : Nat} (live : (R.task t).ended = false) : R.place t = (R.task t).strands t :=
  if_neg fun done => by cases live.symm.trans done.2

theorem place_implicit {t : Nat} (kind : (R.task t).kind ≠ .explicit) : R.place t = (R.task t).strands t :=
  if_neg fun done => kind done.1

theorem place_line (t : Nat) : ∃ rest, R.place t = (R.task t).line ++ rest := by
  rw [place]
  split
  · exact ⟨[], (List.append_nil _).symm⟩
  · exact ⟨_, rfl⟩

theorem place_eq {t : Nat} (origin : (R.task t).SameOrigin (R'.task t)) (body : (R'.task t).body = (R.task t).body)
    (ended : (R.task t).kind = .explicit → (R'.task t).ended = (R.task t).ended) : R'.place t = R.place t := by
  rw [place, place, origin.kind, origin.line, Task.strands_eq origin.line body]
  by_cases kind : (R.task t).kind = .explicit
  · rw [ended kind]
  · rw [if_neg fun done => kind done.1, if_neg fun done => kind done.1]

structure Elsewhere (R R' : Runtime) (t : Nat) : Prop where
  tasks : R.tasks ≤ R'.tasks
  origin : ∀ x < R.tasks, (R.task x).SameOrigin (R'.task x)
  others : ∀ x < R'.tasks, x ≠ t → (R'.task x).begun = true →
    x < R.tasks ∧ (R.task x).begun = true ∧ R'.place x = R.place x

theorem Elsewhere.set {t : Nat} {task : Task} (origin : (R.task t).SameOrigin task) : R.Elsewhere (R.set t task) t := by
  refine ⟨le_refl _, (set_extends origin).fixed, fun x bound other begun => ?_⟩
  have same : (R.set t task).task x = R.task x := by rw [set_task, if_neg other]
  rw [same] at begun
  exact ⟨bound, begun, by rw [place, place, same]⟩

structure Unmoved (R R' : Runtime) : Prop where
  tasks : R.tasks ≤ R'.tasks
  origin : ∀ x < R.tasks, (R.task x).SameOrigin (R'.task x)
  same : ∀ x < R'.tasks, (R'.task x).begun = true → x < R.tasks ∧ (R.task x).begun = true ∧ R'.place x = R.place x

theorem Unmoved.elsewhere (unmoved : R.Unmoved R') (t : Nat) : R.Elsewhere R' t :=
  ⟨unmoved.tasks, unmoved.origin, fun x bound _ begun => unmoved.same x bound begun⟩

theorem Unmoved.refl (R : Runtime) : R.Unmoved R :=
  ⟨le_refl _, fun _ _ => .refl _, fun _ bound begun => ⟨bound, begun, rfl⟩⟩

theorem Unmoved.of_tasks (extend : R.Extends R') (count : R'.tasks = R.tasks)
    (begun : ∀ x, (R'.task x).begun = (R.task x).begun) (body : ∀ x, (R'.task x).body = (R.task x).body)
    (ended : ∀ x < R.tasks, (R.task x).kind = .explicit → (R'.task x).ended = (R.task x).ended) : R.Unmoved R' := by
  refine ⟨extend.tasks, extend.fixed, fun x bound begun' => ?_⟩
  rw [count] at bound
  exact ⟨bound, (begun x).symm.trans begun', place_eq (extend.fixed x bound) (body x) (ended x bound)⟩

theorem Unmoved.set {t : Nat} {task : Task} (origin : (R.task t).SameOrigin task) (begun : task.begun = (R.task t).begun)
    (body : task.body = (R.task t).body) (ended : (R.task t).kind = .explicit → task.ended = (R.task t).ended) :
    R.Unmoved (R.set t task) := by
  refine .of_tasks (set_extends origin) rfl (fun x => ?_) (fun x => ?_) fun x _ explicit => ?_
  all_goals
    rw [set_task]
    by_cases self : x = t
    · subst self
      rw [if_pos rfl]
      first | exact begun | exact body | exact ended explicit
    · rw [if_neg self]

end Runtime

/-- The labels of the tasks follow their strands: `owner` says which strand a segment was made for. A task
    that an explicit task created, however far below, keeps the label that the explicit one was created with. -/
structure Lined (R : Runtime) (d : Detector) (owner : Nat → Strand) : Prop where
  label : ∀ t < R.tasks, (R.task t).begun = true →
    ∃ label, d.label t = some label ∧ d.heap.Holds label ∧ label.map owner = R.place t
  birth : ∀ c < R.tasks, (R.task c).kind = .explicit → ∀ t < R.tasks, (R.task t).begun = true →
    ⟨c, none⟩ ∈ (R.task t).line → ∀ label, d.label t = some label → R.birth d c <+: label

def SameBirths (R R' : Runtime) (d d' : Detector) : Prop :=
  ∀ c < R.tasks, (R.task c).kind = .explicit → R'.birth d' c = R.birth d c

namespace Lined

variable {R R' : Runtime} {d d' : Detector} {owner owner' : Nat → Strand} (lined : Lined R d owner)
  (lineage : R'.Lineage)

include lined

theorem birth_length {c : Nat} (isTask : c < R.tasks) (begun : (R.task c).begun = true) :
    (R.birth d c).length = (R.task c).line.length := by
  obtain ⟨label, known, -, placed⟩ := lined.label c isTask begun
  obtain ⟨rest, below⟩ := R.place_line c
  have length := congrArg List.length placed
  rw [below, List.length_map, List.length_append] at length
  rw [Runtime.birth, known, Option.getD_some, List.length_take]
  omega

omit lined in
theorem birth_of_label {c : Nat} (line : (R'.task c).line = (R.task c).line) (same : d'.label c = d.label c) :
    R'.birth d' c = R.birth d c := by
  rw [Runtime.birth, Runtime.birth, line, same]

theorem place_length {t : Nat} {label : Label} (isTask : t < R.tasks) (begun : (R.task t).begun = true)
    (known : d.label t = some label) : label.map owner = R.place t ∧ d.heap.Holds label := by
  obtain ⟨label', known', holds, placed⟩ := lined.label t isTask begun
  rw [known, Option.some.injEq] at known'
  subst known'
  exact ⟨placed, holds⟩

include lineage

theorem put {t : Nat} {new : Label} (elsewhere : R.Elsewhere R' t)
    (bound : ∀ x < R'.tasks, x < R.tasks ∨ x = t)
    (grows : d.heap.Grows d'.heap) (owners : ∀ r < d.heap.next, owner' r = owner r)
    (others : ∀ x, x ≠ t → d'.label x = d.label x) (now : d'.label t = some new)
    (holds : d'.heap.Holds new) (placed : new.map owner' = R'.place t)
    (own : t < R.tasks → (R.task t).kind = .explicit → R'.birth d' t = R.birth d t)
    (above : ∀ c < R.tasks, c < t → (R.task c).kind = .explicit → ⟨c, none⟩ ∈ (R'.task t).line → R.birth d c <+: new) :
    Lined R' d' owner' ∧ SameBirths R R' d d' := by
  have kept : SameBirths R R' d d' := by
    intro c isTask kind
    by_cases self : c = t
    · subst self
      exact own isTask kind
    · exact birth_of_label (elsewhere.origin c isTask).line (others c self)
  refine ⟨⟨fun x isTask begun => ?_, fun c isTask kind x isTask' begun inside label known => ?_⟩, kept⟩
  · by_cases self : x = t
    · subst self
      exact ⟨new, now, holds, placed⟩
    · obtain ⟨isTask, begun, place⟩ := elsewhere.others x isTask self begun
      obtain ⟨label, known, holds, placed⟩ := lined.label x isTask begun
      refine ⟨label, (others x self).trans known, holds.grow grows, ?_⟩
      rw [place, ← placed]
      exact List.map_congr_left fun r member => owners r (holds r member)
  · have earlier : c < x := (lineage.through isTask' inside).1
    have old : c < R.tasks := by
      rcases bound c isTask with old | rfl
      · exact old
      · rcases bound x isTask' with old | rfl
        · exact earlier.trans old
        · exact absurd earlier (Nat.lt_irrefl _)
    rw [(elsewhere.origin c old).kind] at kind
    rw [kept c old kind]
    by_cases self : x = t
    · subst self
      rw [now, Option.some.injEq] at known
      subst known
      exact above c old earlier kind inside
    · obtain ⟨isTask', begun, -⟩ := elsewhere.others x isTask' self begun
      rw [(elsewhere.origin x isTask').line] at inside
      rw [others x self] at known
      exact lined.birth c old kind x isTask' begun inside label known

theorem still (unmoved : R.Unmoved R') (grows : d.heap.Grows d'.heap)
    (labels : ∀ x, d'.label x = d.label x) : Lined R' d' owner ∧ SameBirths R R' d d' := by
  refine ⟨⟨fun x isTask begun => ?_, fun c isTask kind x isTask' begun inside label known => ?_⟩,
    fun c old _ => birth_of_label (unmoved.origin c old).line (labels c)⟩
  · obtain ⟨isTask, begun, place⟩ := unmoved.same x isTask begun
    obtain ⟨label, known, holds, placed⟩ := lined.label x isTask begun
    exact ⟨label, (labels x).trans known, holds.grow grows, by rw [place, placed]⟩
  · have earlier : c < x := (lineage.through isTask' inside).1
    obtain ⟨isTask', begun, -⟩ := unmoved.same x isTask' begun
    have old := earlier.trans isTask'
    rw [(unmoved.origin c old).kind] at kind
    rw [(unmoved.origin x isTask').line] at inside
    rw [labels x] at known
    rw [birth_of_label (unmoved.origin c old).line (labels c)]
    exact lined.birth c old kind x isTask' begun inside label known

theorem move {t : Nat} {upper dropped lower : Label} {strand : Strand} (isTask : t < R.tasks)
    (begun : (R.task t).begun = true) (elsewhere : R.Elsewhere R' t) (count : R'.tasks = R.tasks)
    (relabels : d.Moves d' t (upper ++ dropped ++ lower) (upper ++ d.heap.next :: lower))
    (next : d'.heap.next = d.heap.next + 1) (grows : d.heap.Grows d'.heap)
    (placed : R'.place t = upper.map owner ++ strand :: lower.map owner)
    (low : (R.task t).line.length ≤ upper.length + 1)
    (explicit : (R.task t).kind = .explicit → (R.task t).line.length ≤ upper.length) :
    Lined R' d' (Function.update owner d.heap.next strand) ∧ SameBirths R R' d d' := by
  have holds := (lined.place_length isTask begun relabels.old).2
  have owners : ∀ r < d.heap.next, Function.update owner d.heap.next strand r = owner r :=
    fun r bound => Function.update_of_ne (Nat.ne_of_lt bound) _ _
  have origin := elsewhere.origin t isTask
  have mapped : ∀ part : Label, (∀ r ∈ part, r ∈ upper ++ dropped ++ lower) →
      part.map (Function.update owner d.heap.next strand) = part.map owner :=
    fun part inside => List.map_congr_left fun r member => owners r (holds r (inside r member))
  refine lined.put lineage elsewhere (fun x bound => .inl (count ▸ bound)) grows owners relabels.others relabels.new
    (fun r member => ?_) ?_ (fun _ kind => ?_) fun c isTask' earlier kind inside => ?_
  · rw [next]
    rcases List.mem_append.mp member with inside | inside
    · exact (holds r (by simp [inside])).trans (Nat.lt_succ_self _)
    · rcases List.mem_cons.mp inside with rfl | inside
      · exact Nat.lt_succ_self _
      · exact (holds r (by simp [inside])).trans (Nat.lt_succ_self _)
  · rw [List.map_append, List.map_cons, Function.update_self, mapped upper (fun r member => by simp [member]),
      mapped lower (fun r member => by simp [member]), placed]
  · rw [Runtime.birth, Runtime.birth, relabels.new, relabels.old, origin.line]
    simp only [Option.getD_some, List.append_assoc]
    rw [List.take_append_of_le_length (explicit kind), List.take_append_of_le_length (explicit kind)]
  · rw [origin.line] at inside
    have begins := lined.birth c isTask' kind t isTask begun inside _ relabels.old
    have short : (R.birth d c).length ≤ upper.length := by
      have above := (lineage.through (Nat.lt_of_lt_of_le isTask elsewhere.tasks) (by rwa [origin.line])).2
      have length := above.length_le
      rw [origin.line, (elsewhere.origin c isTask').line, List.length_append, List.length_singleton] at length
      rw [Runtime.birth, List.length_take]
      omega
    rw [List.append_assoc] at begins
    exact (List.prefix_of_prefix_length_le begins (List.prefix_append _ _) short).trans (List.prefix_append _ _)

theorem drop {t : Nat} {upper : Label} {last : Nat} (isTask : t < R.tasks)
    (begun : (R.task t).begun = true) (elsewhere : R.Elsewhere R' t) (count : R'.tasks = R.tasks)
    (relabels : d.Moves d' t (upper ++ [last]) upper) (heap : d'.heap = d.heap)
    (placed : R'.place t = (R.place t).dropLast) (explicit : (R.task t).line.length ≤ upper.length) :
    Lined R' d' owner ∧ SameBirths R R' d d' := by
  obtain ⟨before, holds⟩ := lined.place_length isTask begun relabels.old
  have origin := elsewhere.origin t isTask
  refine lined.put lineage elsewhere (fun x bound => .inl (count ▸ bound)) (heap ▸ .refl _) (fun _ _ => rfl)
    relabels.others relabels.new (fun r member => ?_) ?_ (fun _ kind => ?_) fun c isTask' earlier kind inside => ?_
  · rw [heap]
    exact holds r (List.mem_append_left _ member)
  · rw [placed, ← before, List.map_append, List.map_singleton, List.dropLast_concat]
  · rw [Runtime.birth, Runtime.birth, relabels.new, relabels.old, origin.line, Option.getD_some, Option.getD_some,
      List.take_append_of_le_length explicit]
  · rw [origin.line] at inside
    have begins := lined.birth c isTask' kind t isTask begun inside _ relabels.old
    have short : (R.birth d c).length ≤ upper.length := by
      have length := (lineage.through (Nat.lt_of_lt_of_le isTask elsewhere.tasks) (by rwa [origin.line])).2.length_le
      rw [origin.line, (elsewhere.origin c isTask').line, List.length_append, List.length_singleton] at length
      rw [Runtime.birth, List.length_take]
      omega
    exact List.prefix_of_prefix_length_le begins (List.prefix_append _ _) short

theorem enter {t p : Nat} {upper : Label} (isTask : p < R.tasks) (begun : (R.task p).begun = true)
    (elsewhere : R.Elsewhere R' t) (bound : ∀ x < R'.tasks, x < R.tasks ∨ x = t)
    (fresh : t < R.tasks → (R.task t).kind ≠ .explicit) (known : d.label p = some upper)
    (others : ∀ x, x ≠ t → d'.label x = d.label x) (now : d'.label t = some (upper ++ [d.heap.next]))
    (next : d'.heap.next = d.heap.next + 1) (grows : d.heap.Grows d'.heap)
    (line : (R'.task t).line = R.place p) (placed : R'.place t = R.place p ++ [⟨t, none⟩])
    (strands : R.place p = (R.task p).strands p) :
    Lined R' d' (Function.update owner d.heap.next ⟨t, none⟩) ∧ SameBirths R R' d d' := by
  obtain ⟨before, holds⟩ := lined.place_length isTask begun known
  have owners : ∀ r < d.heap.next, Function.update owner d.heap.next ⟨t, none⟩ r = owner r :=
    fun r bound => Function.update_of_ne (Nat.ne_of_lt bound) _ _
  refine lined.put lineage elsewhere bound grows owners others now (fun r member => ?_) ?_
    (fun isTask' kind => absurd kind (fresh isTask')) fun c isTask' earlier kind inside => ?_
  · rw [next]
    rcases List.mem_append.mp member with inside | inside
    · exact (holds r inside).trans (Nat.lt_succ_self _)
    · rw [List.mem_singleton.mp inside]
      exact Nat.lt_succ_self _
  · rw [List.map_append, List.map_singleton, Function.update_self, placed, ← before,
      List.map_congr_left fun r member => owners r (holds r member)]
  · rw [line, strands, Task.strands] at inside
    refine List.IsPrefix.trans ?_ (List.prefix_append _ _)
    rcases List.mem_append.mp inside with above | here
    · exact lined.birth c isTask' kind p isTask begun above upper known
    · have self : c = p := by
        rcases List.mem_cons.mp here with same | inBody
        · exact congrArg Strand.task same
        · obtain ⟨body, -, same⟩ := List.mem_map.mp inBody
          cases same
      rw [self, Runtime.birth, known, Option.getD_some]
      exact List.take_prefix ..

theorem join {t p : Nat} {upper : Label} {m : Nat} (isTask : t < R.tasks) (begun : (R.task t).begun = true)
    (isTask' : p < R.tasks) (elsewhere : R.Elsewhere R' p) (count : R'.tasks = R.tasks)
    (known : d.label t = some (upper ++ [m])) (heap : d'.heap = d.heap)
    (others : ∀ x, x ≠ p → d'.label x = d.label x) (now : d'.label p = some upper)
    (placed : R'.place p ++ [⟨t, none⟩] = R.place t) (line : (R.task t).line = (R.task p).strands p)
    (begun' : (R.task p).begun = true) :
    Lined R' d' owner ∧ SameBirths R R' d d' := by
  obtain ⟨before, holds⟩ := lined.place_length isTask begun known
  rw [List.map_append, List.map_singleton, ← placed] at before
  have origin := elsewhere.origin p isTask'
  have length : (R.task p).line.length ≤ upper.length := by
    have length := congrArg List.length (List.append_inj' before rfl).1
    obtain ⟨rest, below⟩ := R'.place_line p
    rw [List.length_map, below, List.length_append, origin.line] at length
    omega
  have inStrands : ∀ strand ∈ (R.task p).line, strand ∈ (R.task t).line := by
    intro strand inside
    rw [line, Task.strands]
    exact List.mem_append_left _ inside
  refine lined.put lineage elsewhere (fun x bound => .inl (count ▸ bound)) (heap ▸ .refl _) (fun _ _ => rfl)
    others now (fun r member => ?_) (List.append_inj' before rfl).1 (fun _ kind => ?_)
    fun c isTask'' earlier kind inside => ?_
  · rw [heap]
    exact holds r (List.mem_append_left _ member)
  · have own : (⟨p, none⟩ : Strand) ∈ (R.task t).line := by
      rw [line, Task.strands]
      exact List.mem_append_right _ List.mem_cons_self
    have begins := lined.birth p isTask' kind t isTask begun own _ known
    have short : (R.birth d p).length = (R.task p).line.length := lined.birth_length isTask' begun'
    have inside : R.birth d p <+: upper :=
      List.prefix_of_prefix_length_le begins (List.prefix_append _ _) (by omega)
    rw [Runtime.birth, now, origin.line, Option.getD_some, ← short]
    exact (List.prefix_iff_eq_take.mp inside).symm
  · rw [origin.line] at inside
    have begins := lined.birth c isTask'' kind t isTask begun (inStrands _ inside) _ known
    have short : (R.birth d c).length ≤ upper.length := by
      have above := (lineage.through (Nat.lt_of_lt_of_le isTask' elsewhere.tasks) (by rwa [origin.line])).2.length_le
      rw [origin.line, (elsewhere.origin c isTask'').line, List.length_append, List.length_singleton] at above
      rw [Runtime.birth, List.length_take]
      omega
    exact List.prefix_of_prefix_length_le begins (List.prefix_append _ _) short

end Lined

end Romp
