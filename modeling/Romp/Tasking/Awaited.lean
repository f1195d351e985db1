import Romp.Tasking.Verdict

namespace Romp

namespace Runtime

variable (R : Runtime)

def Ancestor (c t : Nat) : Prop := ⟨c, none⟩ ∈ (R.task t).strands t

/-- The parent of a task has waited for it, before it created the child that another task descends from, if there is
    one. -/
def WaitedBefore (c t : Nat) : Prop :=
  ∃ n, (R.task c).waited = some n ∧
    ∀ x, R.Ancestor x t → (R.task x).kind = .explicit → (R.task x).parent = (R.task c).parent → n ≤ x

def AllWaited (c t : Nat) : Prop := ∀ x, R.Ancestor c x → R.Ancestor x t → (R.task x).waited ≠ none

instance (c t : Nat) : Decidable (R.Ancestor c t) := inferInstanceAs (Decidable (_ ∈ _))

instance (c t : Nat) : Decidable (R.WaitedBefore c t) :=
  decidable_of_iff (∃ n ∈ (R.task c).waited, ∀ strand ∈ (R.task t).strands t, R.Ancestor strand.task t →
    (R.task strand.task).kind = .explicit → (R.task strand.task).parent = (R.task c).parent → n ≤ strand.task)
    ⟨fun ⟨n, waited, before⟩ => ⟨n, waited, fun x above => before ⟨x, none⟩ above above⟩,
      fun ⟨n, waited, before⟩ => ⟨n, waited, fun strand _ => before strand.task⟩⟩

instance (c t : Nat) : Decidable (R.AllWaited c t) :=
  decidable_of_iff (∀ strand ∈ (R.task t).strands t, R.Ancestor c strand.task → R.Ancestor strand.task t →
    (R.task strand.task).waited ≠ none)
    ⟨fun all x above below => all ⟨x, none⟩ below above below, fun all strand _ => all strand.task⟩

end Runtime

namespace Treed

variable {s : System} {owner : Nat → Strand} {fork : Nat → Contents} {below : Strand → Contents}
  (treed : Treed s owner fork below) {entry : Entry} (logged : entry ∈ s.log)

include treed logged

theorem entry_strands : entry.strands = (s.runtime.task entry.task).strands entry.task ∧
    entry.strands = (s.runtime.task entry.task).line ++ [⟨entry.task, none⟩] := by
  obtain ⟨isTask, body, strands⟩ := treed.placed.logged.task entry logged
  have plain : body = none := by
    cases body with
    | none => rfl
    | some c =>
      obtain ⟨holds, mapped⟩ := treed.placed.logged.entry entry logged
      have inside : ⟨entry.task, some c⟩ ∈ entry.strands := by
        rw [strands]
        simp
      rw [← mapped] at inside
      obtain ⟨r, member, own⟩ := List.mem_map.mp inside
      have none := treed.origins.undivided treed.undivided (holds r member)
      rw [own] at none
      cases none
  subst plain
  exact ⟨strands.trans (Task.strands_plain (treed.undivided.units treed.lineage isTask) _).symm, strands⟩

theorem label_cons : ∃ r rest, entry.label = r :: rest := by
  have mapped := (treed.placed.logged.entry entry logged).2
  cases label : entry.label with
  | nil =>
    rw [label, (treed.entry_strands logged).2] at mapped
    cases List.append_ne_nil_of_right_ne_nil _ (List.cons_ne_nil _ _) mapped.symm
  | cons r rest => exact ⟨r, rest, rfl⟩

theorem ancestor_split {c : Nat} (ancestor : s.runtime.Ancestor c entry.task) :
    ∃ above z rest, entry.label = above ++ z :: rest ∧ owner z = ⟨c, none⟩ := by
  rw [Runtime.Ancestor, ← (treed.entry_strands logged).1, ← (treed.placed.logged.entry entry logged).2] at ancestor
  obtain ⟨z, inside, own⟩ := List.mem_map.mp ancestor
  obtain ⟨above, rest, split⟩ := List.append_of_mem inside
  exact ⟨above, z, rest, split, own⟩

theorem split_ancestor {above rest : Label} {z : Nat} (split : entry.label = above ++ z :: rest) :
    s.runtime.Ancestor (owner z).task entry.task := by
  have plain := (treed.strand_at logged split).2.2.1
  rw [Runtime.Ancestor, ← (treed.entry_strands logged).1, ← (treed.placed.logged.entry entry logged).2, split, ← plain]
  exact List.mem_map_of_mem (by simp)

theorem split_end {above rest : Label} {z : Nat} (split : entry.label = above ++ z :: rest) :
    rest = [] ↔ entry.task = (owner z).task := by
  have mapped := (treed.placed.logged.entry entry logged).2
  have line := (treed.strand_at logged split).2.2.2
  rw [(treed.entry_strands logged).2, split, List.map_append, List.map_cons] at mapped
  constructor
  · rintro rfl
    have last := (List.append_inj' (show above.map owner ++ [owner z] = _ from mapped) rfl).2
    rw [List.singleton_inj.mp last]
  · intro self
    rw [self, line] at mapped
    have rest := (List.cons.inj (List.append_cancel_left mapped)).2
    exact List.map_eq_nil_iff.mp rest

theorem child_split {c : Nat} (ancestor : s.runtime.Ancestor c entry.task) (kind : (s.runtime.task c).kind = .explicit) :
    ∃ above x z rest, entry.label = above ++ x :: z :: rest ∧ owner x = ⟨(s.runtime.task c).parent, none⟩ ∧
      owner z = ⟨c, none⟩ ∧ s.runtime.birth s.detector c = above ++ [x] ∧
      s.runtime.waits s.detector c = (s.detector.heap.objects x).getTaskwait := by
  obtain ⟨above, z, rest, split, own⟩ := treed.ancestor_split logged ancestor
  have isTask : c < s.runtime.tasks := by
    have isTask := (treed.strand_at logged split).2.1
    rwa [own] at isTask
  have birth := treed.birth_at logged split (by rw [own]; exact kind)
  obtain ⟨upper, x, birth', -, mine, count⟩ :=
    treed.placed.lined.born treed.nested treed.lineage treed.origins treed.undivided isTask kind
  rw [own, birth'] at birth
  refine ⟨upper, x, z, rest, ?_, mine, own, birth', count⟩
  rw [split, ← birth, List.append_assoc]
  rfl

theorem link_at {above rest : Label} {z w : Nat} (split : entry.label = above ++ z :: w :: rest)
    (kind : (s.runtime.task (owner w).task).kind = .explicit) :
    s.runtime.birth s.detector (owner w).task = above ++ [z] ∧ (s.runtime.task (owner w).task).parent = (owner z).task ∧
      s.runtime.waits s.detector (owner w).task = (s.detector.heap.objects z).getTaskwait := by
  have birth := treed.birth_at logged (split.trans (List.append_cons above z (w :: rest))) kind
  have isTask := (treed.strand_at logged (split.trans (List.append_cons above z (w :: rest)))).2.1
  obtain ⟨upper, x, birth', -, mine, count⟩ :=
    treed.placed.lined.born treed.nested treed.lineage treed.origins treed.undivided isTask kind
  rw [birth'] at birth
  obtain ⟨rfl, same⟩ := List.append_inj' birth rfl
  rw [List.singleton_inj.mp same] at mine count birth'
  exact ⟨birth', by rw [mine], count⟩

theorem link_marked {above rest : Label} {z w : Nat} (split : entry.label = above ++ z :: w :: rest)
    (kind : (s.runtime.task (owner w).task).kind = .explicit)
    (waited : (s.runtime.task (owner w).task).waited ≠ none) :
    (s.detector.heap.objects z).isTaskwaited = true := by
  have isTask := (treed.strand_at logged (split.trans (List.append_cons above z (w :: rest)))).2.1
  refine (treed.versions.marks z (treed.strand_at logged split).1).mpr ⟨_, isTask, kind, ?_, waited⟩
  rw [(treed.link_at logged split kind).1, List.getLast?_concat]

omit logged in
theorem same_level {first second : Entry} (logged : first ∈ s.log) (logged' : second ∈ s.log) {x y : Nat}
    {above above' rest rest' : Label} (split : first.label = above ++ x :: rest)
    (split' : second.label = above' ++ y :: rest')
    (own : owner x = owner y) (notRoot : (owner x).task ≠ 0) : ∃ ra rb cm, above = ra :: cm ∧ above' = rb :: cm := by
  obtain ⟨-, isTask, -, line⟩ := treed.strand_at logged split
  have line' := (treed.strand_at logged' split').2.2.2
  rw [← own] at line'
  obtain ⟨more, starts⟩ := treed.lineage.starts isTask notRoot
  obtain ⟨ra, cm, rfl⟩ : ∃ ra cm, above = ra :: cm := by
    cases above with
    | nil => cases starts.symm.trans line
    | cons ra cm => exact ⟨ra, cm, rfl⟩
  obtain ⟨rb, cm', rfl⟩ : ∃ rb cm', above' = rb :: cm' := by
    cases above' with
    | nil => cases starts.symm.trans line'
    | cons rb cm' => exact ⟨rb, cm', rfl⟩
  cases kind : (s.runtime.task (owner x).task).kind with
  | initial => exact absurd (treed.nested.initial _ isTask kind) notRoot
  | explicit =>
    have birth := treed.birth_at logged split kind
    rw [own, treed.birth_at logged' split' (own ▸ kind)] at birth
    exact ⟨ra, rb, cm, rfl, by rw [(List.cons.inj birth).2]⟩
  | implicit r i =>
    have short := (treed.flat.implicit _ isTask r i kind).1
    have length := congrArg List.length (line.symm.trans short)
    have length' := congrArg List.length (line'.symm.trans short)
    simp only [List.length_map, List.length_cons, List.length_nil] at length length'
    have empty := List.eq_nil_of_length_eq_zero (show cm.length = 0 by omega)
    have empty' := List.eq_nil_of_length_eq_zero (show cm'.length = 0 by omega)
    exact ⟨ra, rb, [], by rw [empty], by rw [empty']⟩

omit logged in
/-- Where the labels of two accesses part, if the one was made below a child of a task and the other below the task. -/
theorem meet {first second : Entry} (logged : first ∈ s.log) (logged' : second ∈ s.log) {c : Nat}
    (kind : (s.runtime.task c).kind = .explicit) (low : s.runtime.Ancestor c first.task)
    (high : s.runtime.Ancestor (s.runtime.task c).parent second.task) : ∃ ra rb cm x z A y B,
      first.label = ra :: cm ++ x :: z :: A ∧ second.label = rb :: cm ++ y :: B ∧
      owner x = ⟨(s.runtime.task c).parent, none⟩ ∧ owner y = ⟨(s.runtime.task c).parent, none⟩ ∧ owner z = ⟨c, none⟩ ∧
      s.runtime.waits s.detector c = (s.detector.heap.objects x).getTaskwait := by
  obtain ⟨upper, x, z, A, split, mine, own, -, count⟩ := treed.child_split logged low kind
  obtain ⟨upper', y, B, split', mine'⟩ := treed.ancestor_split logged' high
  have isChild : c < s.runtime.tasks := by
    have isChild := (treed.strand_at logged (split.trans (List.append_cons upper x (z :: A)))).2.1
    rwa [own] at isChild
  have notRoot := (treed.flat.explicit c isChild kind).2.2.1
  obtain ⟨ra, rb, cm, rfl, rfl⟩ :=
    treed.same_level logged logged' split split' (mine.trans mine'.symm) (by rw [mine]; exact notRoot)
  exact ⟨ra, rb, cm, x, z, A, y, B, split, split', mine, mine', own, count⟩

theorem explicit_below {upper rest : Label} {y w : Nat} (split : entry.label = upper ++ y :: w :: rest)
    (notRoot : (owner y).task ≠ 0) : (s.runtime.task (owner w).task).kind = .explicit := by
  cases upper with
  | nil => exact absurd (congrArg Strand.task (treed.root_at logged split)) notRoot
  | cons root upper =>
    cases upper with
    | nil => exact treed.explicit_at logged (show entry.label = root :: y :: [] ++ w :: rest from split)
    | cons m upper => exact treed.explicit_at logged (split.trans (List.append_cons (root :: m :: upper) y (w :: rest)))

theorem next_child {upper rest : Label} {y x : Nat} (split : entry.label = upper ++ y :: rest)
    (ancestor : s.runtime.Ancestor x entry.task) (kind : (s.runtime.task x).kind = .explicit)
    (parent : (s.runtime.task x).parent = (owner y).task) : ∃ w B, rest = w :: B ∧ owner w = ⟨x, none⟩ := by
  obtain ⟨above, z, w, B, split', mine, own, -, -⟩ := treed.child_split logged ancestor kind
  have line := (treed.strand_at logged split).2.2.2
  have line' := (treed.strand_at logged split').2.2.2
  rw [mine, parent] at line'
  have length := congrArg List.length (line.symm.trans line')
  rw [List.length_map, List.length_map] at length
  obtain ⟨-, rest⟩ := List.append_inj (split.symm.trans split') length
  exact ⟨w, B, (List.cons.inj rest).2, own⟩

theorem waits_less {c y : Nat} {upper rest : Label} (isTask : c < s.runtime.tasks)
    (kind : (s.runtime.task c).kind = .explicit) (split : entry.label = upper ++ y :: rest)
    (own : owner y = ⟨(s.runtime.task c).parent, none⟩) (now : s.detector.label entry.task = some entry.label)
    (live : (s.runtime.task entry.task).ended = false) :
    s.runtime.waits s.detector c < (s.detector.heap.objects y).getTaskwait ↔ s.runtime.WaitedBefore c entry.task := by
  have there := (treed.strand_at logged split).1
  have notRoot := (treed.flat.explicit c isTask kind).2.2.1
  cases rest with
  | nil =>
    have self := (treed.split_end logged split).mp rfl
    rw [own] at self
    change entry.task = (s.runtime.task c).parent at self
    constructor
    · intro less
      obtain ⟨n, waited⟩ := Option.ne_none_iff_exists'.mp (treed.waits.passed c isTask kind y there own less)
      refine ⟨n, waited, fun x ancestor kind' parent => ?_⟩
      obtain ⟨w, B, none, -⟩ := treed.next_child logged split ancestor kind' (by rw [parent, own])
      cases none
    · rintro ⟨n, waited, -⟩
      exact treed.waits.behind c isTask kind (by rw [waited]; exact Option.some_ne_none n) (self ▸ live) _ (self ▸ now) y
        (by rw [split]; simp) own
  | cons w B =>
    have kind' := treed.explicit_below logged split (by rw [own]; exact notRoot)
    obtain ⟨-, parent, count⟩ := treed.link_at logged split kind'
    have split' := split.trans (List.append_cons upper y (w :: B))
    have isChild := (treed.strand_at logged split').2.1
    rw [own] at parent
    rw [← count, treed.waits.siblings c isTask kind _ isChild kind' parent.symm]
    constructor
    · rintro ⟨n, waited, before⟩
      refine ⟨n, waited, fun x ancestor kind'' same => ?_⟩
      obtain ⟨w', B', rest, self⟩ := treed.next_child logged split ancestor kind'' (by rw [same, own])
      rw [← (List.cons.inj rest).1] at self
      rwa [self] at before
    · rintro ⟨n, waited, before⟩
      exact ⟨n, waited, before _ (treed.split_ancestor logged split') kind' parent⟩

theorem links_marked {c z : Nat} {upper A : Label} (split : entry.label = upper ++ z :: A) (own : owner z = ⟨c, none⟩)
    (notRoot : c ≠ 0) (waited : s.runtime.AllWaited c entry.task) :
    ∀ w ∈ (z :: A).dropLast, (s.detector.heap.objects w).isTaskwaited = true := by
  intro w inside
  obtain ⟨p, w', q, parted⟩ := Trails.mem_dropLast inside
  rw [parted, ← List.append_assoc] at split
  have split' := split.trans (List.append_cons (upper ++ p) w (w' :: q))
  have above : ∀ u ∈ p ++ [w], owner u ∈ (s.runtime.task (owner w').task).line := by
    intro u member
    rw [(treed.strand_at logged split').2.2.2, List.append_assoc]
    exact List.mem_map_of_mem (List.mem_append_right upper member)
  have first : z ∈ p ++ [w] := by
    cases p with
    | nil => exact List.mem_singleton.mpr (List.cons.inj parted).1
    | cons u p =>
      rw [(List.cons.inj parted).1]
      exact List.mem_cons_self
  have notInitial : (owner w).task ≠ 0 := by
    intro root
    have line := (treed.strand_at logged split).2.2.2
    rw [root, treed.lineage.root] at line
    obtain ⟨-, rfl⟩ := List.append_eq_nil_iff.mp (List.map_eq_nil_iff.mp line.symm)
    rw [(List.cons.inj parted).1] at own
    rw [own] at root
    exact notRoot root
  have kind := treed.explicit_below logged split notInitial
  refine treed.link_marked logged split kind (waited _ ?_ (treed.split_ancestor logged split'))
  exact List.mem_append_left _ (own ▸ above z first)

omit logged in
/-- The verdict on an access made below a task, and one made after the task has been waited for. -/
theorem awaited_iff {first second : Entry} {a b : Nat} (found : s.log[a]? = some first) (found' : s.log[b]? = some second)
    (now : s.detector.label second.task = some second.label) (live : (s.runtime.task second.task).ended = false) {c : Nat}
    (kind : (s.runtime.task c).kind = .explicit) (low : s.runtime.Ancestor c first.task)
    (high : s.runtime.Ancestor (s.runtime.task c).parent second.task) (waited : s.runtime.AllWaited c first.task)
    (before : s.runtime.WaitedBefore c second.task) :
    s.verdict a b = .ok true ↔ s.start a < s.start b ∨ s.start a = s.start b ∧ (first.task = c ∨ s.EndsWaited a) := by
  have logged := List.mem_of_getElem? found
  have logged' := List.mem_of_getElem? found'
  obtain ⟨ra, rb, cm, x, z, A, y, B, split, split', mine, mine', own, count⟩ := treed.meet logged logged' kind low high
  have notRoot : c ≠ 0 := Advance.explicit_ne_zero treed.nested kind
  have below := split.trans (List.append_cons (ra :: cm) x (z :: A))
  have isTask : c < s.runtime.tasks := by
    have isTask := (treed.strand_at logged below).2.1
    rwa [own] at isTask
  have less := (treed.waits_less logged' isTask kind split' mine' now live).mpr before
  rw [count] at less
  have parts : Trails.Parts (cm ++ x :: z :: A) (cm ++ y :: B) cm x (z :: A) y B := by
    refine ⟨rfl, rfl, ?_⟩
    rintro rfl
    exact lt_irrefl _ less
  rw [treed.verdict_cases (A := cm ++ x :: z :: A) (B := cm ++ y :: B) found found' split split',
    Trails.leads_parts parts]
  have links := treed.links_marked logged below own notRoot waited
  obtain ⟨last, ends⟩ : ∃ last, (z :: A).getLast? = some last := ⟨_, List.getLast?_cons⟩
  have whole : first.label.getLast? = some last := by
    rw [below, List.getLast?_append, ends]
    rfl
  have single : (z :: A).length = 1 ↔ first.task = c := by
    rw [← show (owner z).task = c by rw [own], ← treed.split_end logged below]
    simp
  rw [Trails.all_iff_last ends links, single, System.endsWaited_iff found whole]
  simp [mine, mine', less]

end Treed

namespace Runtime

variable {R : Runtime} {t c x : Nat}

theorem access_kept (t x : Nat) : ∃ known, (R.after (.access t)).task x = { R.task x with known } := by
  have after : (R.after (.access t)).task x = if x = t then (R.task t).learn fun a => a == R.accesses else R.task x :=
    set_task ..
  rw [after]
  by_cases self : x = t
  · rw [if_pos self, self]
    exact ⟨_, rfl⟩
  · rw [if_neg self]
    exact ⟨_, rfl⟩

theorem ancestor_access : (R.after (.access t)).Ancestor c x ↔ R.Ancestor c x := by
  obtain ⟨known, same⟩ := access_kept (R := R) t x
  rw [Ancestor, Ancestor, same]
  rfl

theorem AllWaited.access (waited : R.AllWaited c x) : (R.after (.access t)).AllWaited c x := by
  intro y above below
  obtain ⟨known, same⟩ := access_kept (R := R) t y
  rw [same]
  exact waited y (ancestor_access.mp above) (ancestor_access.mp below)

theorem waitedBefore_access : (R.after (.access t)).WaitedBefore c x ↔ R.WaitedBefore c x := by
  have kept : ∀ y, ((R.after (.access t)).task y).waited = (R.task y).waited ∧
      ((R.after (.access t)).task y).kind = (R.task y).kind ∧ ((R.after (.access t)).task y).parent = (R.task y).parent := by
    intro y
    obtain ⟨known, same⟩ := access_kept (R := R) t y
    rw [same]
    exact ⟨rfl, rfl, rfl⟩
  simp only [WaitedBefore, ancestor_access, (kept _).1, (kept _).2.1, (kept _).2.2]

end Runtime

theorem Treed.accessed {s s' : System} (reached : System.Reachable TreeStep s) {t : Nat}
    (stepped : s.step (.access t) = some s') : ∃ owner fork below second, Treed s' owner fork below ∧
      (∀ (a : Nat) (first : Entry), s.log[a]? = some first → s'.log[a]? = some first) ∧
      s'.log[s.log.length]? = some second ∧
      second.task = t ∧ s'.detector.label t = some second.label ∧ (s'.runtime.task t).ended = false := by
  obtain ⟨enabled, -, runtime, -⟩ := System.step_cases stepped
  have permitted : TreeStep s (.access t) := ⟨trivial, id⟩
  obtain ⟨owner, fork, below, treed⟩ := (reached.step permitted stepped).treed
  obtain ⟨label, known, same, log⟩ := System.step_access stepped
  obtain ⟨isTask, runs⟩ := Runtime.running_lt enabled
  refine ⟨owner, fork, below, ⟨t, label, (s.runtime.task t).strands t, (s.runtime.task t).constructs⟩, treed,
    fun a first found => ?_, ?_, rfl, ?_, ?_⟩
  · rw [log, List.getElem?_append_left (List.getElem?_eq_some_iff.mp found).1, found]
  · rw [log]
    exact List.getElem?_concat_length ..
  · rw [same]
    exact known
  · obtain ⟨news, kept⟩ := Runtime.access_kept (R := s.runtime) t t
    rw [runtime, kept]
    exact (Task.running_iff.mp runs).2.1

/-- An access made below a task that has been waited for is ordered before another access of the task's parent, or of
    one of the tasks that the parent has created since: exactly if a barrier has come in between, or the first access
    was made by the task itself, or its label ends in a segment in which a task was created that has been waited for. -/
theorem awaited_ordered_iff {s s' : System} (reached : System.Reachable TreeStep s) {t a : Nat} {first : Entry}
    (stepped : s.step (.access t) = some s') (found : s.log[a]? = some first) {c : Nat}
    (kind : (s.runtime.task c).kind = .explicit) (low : s.runtime.Ancestor c first.task)
    (high : s.runtime.Ancestor (s.runtime.task c).parent t) (waited : s.runtime.AllWaited c first.task)
    (before : s.runtime.WaitedBefore c t) : s'.verdict a s.log.length = .ok true ↔
      s'.start a < s'.start s.log.length ∨
        s'.start a = s'.start s.log.length ∧ (first.task = c ∨ s'.EndsWaited a) := by
  obtain ⟨owner, fork, below, second, treed, kept, found', rfl, now, live⟩ := Treed.accessed reached stepped
  obtain ⟨-, -, runtime, -⟩ := System.step_cases stepped
  obtain ⟨known, same⟩ := Runtime.access_kept (R := s.runtime) second.task c
  have same' : s'.runtime.task c = { s.runtime.task c with known } := by rw [runtime, same]
  refine treed.awaited_iff (kept a first found) found' now live ?_ ?_ ?_ ?_ ?_
  · rw [same']
    exact kind
  · rw [runtime]
    exact Runtime.ancestor_access.mpr low
  · rw [same', runtime]
    exact Runtime.ancestor_access.mpr high
  · rw [runtime]
    exact waited.access
  · rw [runtime]
    exact Runtime.waitedBefore_access.mpr before

def awaitedChild : List Event :=
  [.parallelBegin 0 2, .implicitBegin 1, .taskCreate 1, .access 3, .taskComplete 3, .taskwaitEnd 1]

theorem awaited_ordered_iff_child : ∃ s s', System.runWhile (fun s e => decide (TreeStep s e)) awaitedChild = some s ∧
    s.step (.access 1) = some s' ∧ s'.verdict 0 s.log.length = .ok true := by
  obtain ⟨s, ran, ⟨first, found, three⟩, kind, low, high, waited, before, s', stepped, same⟩ :
      ∃ s, System.runWhile (fun s e => decide (TreeStep s e)) awaitedChild = some s ∧ (∃ first ∈ s.log[0]?, first.task = 3) ∧
        (s.runtime.task 3).kind = .explicit ∧ s.runtime.Ancestor 3 3 ∧ s.runtime.Ancestor (s.runtime.task 3).parent 1 ∧
        s.runtime.AllWaited 3 3 ∧ s.runtime.WaitedBefore 3 1 ∧
        ∃ s' ∈ s.step (.access 1), s'.start 0 = s'.start s.log.length :=
    exists_of_any (by decide)
  have reached : System.Reachable TreeStep s := .of_checked (fun _ _ => of_decide_eq_true) ran
  exact ⟨s, s', ran, stepped, (awaited_ordered_iff reached stepped found kind (three.symm ▸ low) high (three.symm ▸ waited)
    before).mpr (.inr ⟨same, .inl three⟩)⟩

def awaitedGrandchild : List Event :=
  [.parallelBegin 0 2, .implicitBegin 1, .taskCreate 1, .taskCreate 3, .access 4, .taskComplete 4, .taskwaitEnd 3,
    .taskComplete 3, .taskwaitEnd 1]

theorem awaited_unordered : ¬ ∀ s s' t a first c, System.Reachable TreeStep s → s.step (.access t) = some s' →
    s.log[a]? = some first → (s.runtime.task c).kind = .explicit → s.runtime.Ancestor c first.task →
    s.runtime.Ancestor (s.runtime.task c).parent t → s.runtime.AllWaited c first.task → s.runtime.WaitedBefore c t →
    s'.verdict a s.log.length = .ok true := by
  intro ordered
  obtain ⟨s, ran, ⟨first, found, four⟩, kind, low, high, waited, before, s', stepped, verdict⟩ :
      ∃ s, System.runWhile (fun s e => decide (TreeStep s e)) awaitedGrandchild = some s ∧
        (∃ first ∈ s.log[0]?, first.task = 4) ∧ (s.runtime.task 3).kind = .explicit ∧ s.runtime.Ancestor 3 4 ∧
        s.runtime.Ancestor (s.runtime.task 3).parent 1 ∧ s.runtime.AllWaited 3 4 ∧ s.runtime.WaitedBefore 3 1 ∧
        ∃ s' ∈ s.step (.access 1), s'.verdict 0 s.log.length = .ok false :=
    exists_of_any (by decide)
  have reached : System.Reachable TreeStep s := .of_checked (fun _ _ => of_decide_eq_true) ran
  have wrong := ordered s s' 1 0 first 3 reached stepped found kind (four.symm ▸ low) high (four.symm ▸ waited) before
  rw [verdict] at wrong
  cases wrong

end Romp
