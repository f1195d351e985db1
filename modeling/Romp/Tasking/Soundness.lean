import Romp.Tasking.Learned

namespace Romp

/-- An access below a single is ordered before none outside of it. -/
theorem analyzeSameTask_single {x y w : Segment} {hist cur : List Segment} (single : w.IsSingle)
    (below : ∀ s ∈ cur.head?, s.IsBelow) : analyzeSameTask (x :: w :: hist) (y :: cur) 0 = .ok false := by
  have holder : w.isPlaceHolder = false := w.isPlaceHolder_eq_isSection.trans single.marker
  cases cur with
  | nil => simp [analyzeSameTask, getKthSegment, bind, Except.bind, single.type, holder]
  | cons s' cur =>
    rcases (below s' rfl).typed with type' | type' <;>
    simp [analyzeSameTask, getKthSegment, bind, Except.bind, single.type, type', dispatchAnalysis, analyzeNextWorkExp,
      analyzeNextWorkWork, analyzeNextConcurrent]

theorem happensBeforeAt_mixed {x y : Segment} (below : x.IsBelow) (below' : y.IsBelow) (span : x.getSpan = 1)
    (span' : y.getSpan = 1) (differ : x.getType ≠ y.getType) (hist cur : List Segment) :
    happensBeforeAt (x :: hist) (y :: cur) 0 = .error "not expecting hist seg type != cur seg type" := by
  rcases below.typed with type | type <;> rcases below'.typed with type' | type'
  · exact absurd (type.trans type'.symm) differ
  · simp [happensBeforeAt, getKthSegment, bind, Except.bind, span, span', type, type']
  · simp [happensBeforeAt, getKthSegment, bind, Except.bind, span, span', type, type']
  · exact absurd (type.trans type'.symm) differ

theorem happensBeforeAt_singles {x y : Segment} (single : x.IsSingle) (single' : y.IsSingle) (hist cur : List Segment) :
    happensBeforeAt (x :: hist) (y :: cur) 0 = analyzeSameTask (x :: hist) (y :: cur) 0 := by
  simp [happensBeforeAt, getKthSegment, bind, Except.bind, single.type, single'.type, single.executor, single'.executor,
    single.span, single'.span]

namespace Versions

variable {R : Runtime} {d : Detector} {owner : Nat → Strand} (versions : Versions R d owner) {r : Nat}
  (there : r < d.heap.next)

include versions there

theorem single_segment {k : Nat} (inSingle : (owner r).body = some (.single k true)) : (d.heap.objects r).IsSingle := by
  obtain ⟨o, tc, tw, plain⟩ := versions.seeds r there
  have known : (Detector.workSegment .single true).plain =
      ⟨3, false, false, false, 0, 0, 0, 0, 1, 0, 0, 0, (Detector.workSegment .single true).workShareId⟩ := by decide
  simp only [Runtime.seed, inSingle, Construct.isIdle, Bool.not_true, Bool.not_false, known] at plain
  have type : (d.heap.objects r).contents.type = 3 := congrArg Contents.type plain
  have id : (d.heap.objects r).workShareId = (Detector.workSegment .single true).workShareId :=
    congrArg Contents.workShareId plain
  refine ⟨?_, congrArg Contents.marker plain, ?_, congrArg Contents.phase plain, congrArg Contents.offset plain,
    congrArg Contents.span plain, congrArg Contents.taskGroupLevel plain, congrArg Contents.taskGroupId plain⟩
  · rw [Segment.getType_contents, type]
    rfl
  · rw [Segment.isSingleExecutor, Segment.getWorkShareId, id]
    decide

end Versions

theorem Runtime.Flat.descends {R : Runtime} (flat : R.Flat) (nested : R.Nested) (lineage : R.Lineage) {t m : Nat}
    (isTask : t < R.tasks) (notRoot : m ≠ 0) (other : t ≠ m) {strand : Strand} (inside : strand ∈ (R.task t).strands t)
    (self : strand.task = m) :
    ∃ c < R.tasks, (R.task c).kind = .explicit ∧ (R.task c).parent = m ∧ R.Ancestor c t := by
  have inLine : strand ∈ (R.task t).line := by
    rcases List.mem_append.mp inside with above | here
    · exact above
    · rcases List.mem_cons.mp here with same | inBody
      · rw [same] at self
        exact absurd self other
      · obtain ⟨_, -, same⟩ := List.mem_map.mp inBody
        rw [← same] at self
        exact absurd self other
  clear inside
  induction t using Nat.strong_induction_on with
  | _ t ih =>
    have notInitial : t ≠ 0 := by
      rintro rfl
      rw [lineage.root] at inLine
      cases inLine
    obtain ⟨less, body, line⟩ := lineage.line t isTask notInitial
    have explicit : (R.task t).kind = .explicit := by
      cases kind : (R.task t).kind with
      | initial => exact absurd (nested.initial t isTask kind) notInitial
      | explicit => rfl
      | implicit r i =>
        rw [(flat.implicit t isTask r i kind).1, List.mem_singleton] at inLine
        rw [inLine] at self
        exact absurd self.symm notRoot
    by_cases parent : (R.task t).parent = m
    · exact ⟨t, isTask, explicit, parent, Runtime.ancestor_iff.mpr (.inl rfl)⟩
    · rw [line] at inLine
      have above : strand ∈ (R.task (R.task t).parent).line := by
        rcases List.mem_append.mp inLine with above | here
        · exact above
        · rcases List.mem_cons.mp here with same | inBody
          · rw [same] at self
            exact absurd self parent
          · obtain ⟨_, -, same⟩ := List.mem_map.mp inBody
            rw [← same] at self
            exact absurd self parent
      obtain ⟨c, isChild, kind, own, ancestor⟩ := ih _ less (less.trans isTask) parent above
      refine ⟨c, isChild, kind, own, Runtime.ancestor_iff.mpr (.inr ?_)⟩
      rw [line]
      rcases Runtime.ancestor_iff.mp ancestor with rfl | higher
      · simp
      · exact List.mem_append_left _ higher

/-- Two accesses that were made in or below two singles of one member, between which the member has counted nothing. -/
def Entry.Twins (first last : Entry) (m k k' : Nat) : Prop :=
  k ≠ k' ∧ ⟨m, some (.single k true)⟩ ∈ first.strands ∧ ⟨m, some (.single k' true)⟩ ∈ last.strands ∧
    first.label[1]? = last.label[1]?

/-- The second access was made in or below the strand of the first one, or in or below another single of its member. -/
def Entry.Meets (first last : Entry) : Prop :=
  (∃ x ∈ first.strands.getLast?, x ∈ last.strands) ∨ ∃ k k', first.Twins last first.task k k'

def System.CreatedLater (s : System) (a : Nat) (first last : Entry) : Prop :=
  ∀ c, (s.runtime.task c).kind = .explicit → (s.runtime.task c).parent = first.task → s.runtime.Ancestor c last.task →
    first.Meets last → a < (s.runtime.task c).born

def System.SamePhase (s : System) (first last : Entry) : Prop :=
  ∃ x ∈ first.label[0]?, ∃ y ∈ last.label[0]?, (s.detector.heap.objects x).equals (s.detector.heap.objects y) = true

/-- Where the two accesses were made below two singles of a member, the segments of the singles have counted different
    numbers of tasks and taskwaits, and that of the second access not more taskwaits if its single is the earlier one. -/
def System.SinglesApart (s : System) (first last : Entry) : Prop :=
  ∀ m k k', first.Twins last m k k' → s.SamePhase first last → first.task = m ∨ last.task = m ∨
    ∃ x ∈ first.label[2]?, ∃ y ∈ last.label[2]?, (s.detector.heap.objects x).equals (s.detector.heap.objects y) = false ∧
      (k < k' ∨ (s.detector.heap.objects y).getTaskwait ≤ (s.detector.heap.objects x).getTaskwait)

namespace Informed

variable {s : System} {owner : Nat → Strand} {fork : Nat → Contents} {below : Strand → Contents}
  (informed : Informed s owner fork below) {entry : Entry} (logged : entry ∈ s.log)

include informed logged

theorem strand_at {above rest : Label} {z : Nat} (split : entry.label = above ++ z :: rest) :
    z < s.detector.heap.next ∧ (owner z).task < s.runtime.tasks ∧
      ((owner z).body = none ∧ (s.runtime.task (owner z).task).line = above.map owner ∨
        (∃ r i, (s.runtime.task (owner z).task).kind = .implicit r i) ∧ (∃ k, (owner z).body = some (.single k true)) ∧
          above.map owner = (s.runtime.task (owner z).task).line ++ [⟨(owner z).task, none⟩]) := by
  obtain ⟨holds, mapped⟩ := informed.placed.logged.entry entry logged
  obtain ⟨isTask, body, strands⟩ := informed.placed.logged.task entry logged
  have there := holds z (by rw [split]; simp)
  refine ⟨there, (informed.origins.past z there).1, ?_⟩
  have inside : owner z ∈ entry.strands := by
    rw [← mapped, split]
    exact List.mem_map_of_mem (by simp)
  rw [split, List.map_append, List.map_cons, strands] at mapped
  cases own : (owner z).body with
  | none =>
    rw [show owner z = ⟨(owner z).task, none⟩ by rw [← own]] at mapped
    exact .inl ⟨rfl, informed.lineage.split_task isTask mapped.symm⟩
  | some c =>
    have self : owner z = ⟨(owner z).task, some c⟩ := by rw [← own]
    rw [self] at mapped inside
    obtain ⟨member, k, rfl⟩ := informed.bodies entry logged _ _ inside
    exact .inr ⟨member, ⟨k, rfl⟩, informed.lineage.split_body isTask mapped.symm⟩

theorem root_at {z : Nat} {rest : Label} (split : entry.label = z :: rest) : owner z = ⟨0, none⟩ := by
  obtain ⟨-, isTask, ⟨plain, line⟩ | ⟨-, -, line⟩⟩ := informed.strand_at logged (show entry.label = [] ++ z :: rest from split)
  · have root : (owner z).task = 0 := by
      by_contra notRoot
      obtain ⟨more, starts⟩ := informed.lineage.starts isTask notRoot
      rw [starts] at line
      cases line
    rw [← root, ← plain]
  · cases List.append_ne_nil_of_right_ne_nil _ (List.cons_ne_nil _ _) line.symm

theorem member_at {root z : Nat} {rest : Label} (split : entry.label = root :: z :: rest) :
    (owner z).body = none ∧ ∃ i, (s.runtime.task (owner z).task).kind = .implicit 0 i := by
  obtain ⟨-, isTask, ⟨plain, line⟩ | ⟨⟨r, i, kind⟩, -, line⟩⟩ :=
    informed.strand_at logged (show entry.label = [root] ++ z :: rest from split)
  · refine ⟨plain, ?_⟩
    have notRoot : (owner z).task ≠ 0 := by
      intro same
      rw [same, informed.lineage.root] at line
      cases line
    rcases informed.member_or_explicit isTask notRoot with ⟨i, isMember, self⟩ | kind
    · have one := informed.has_region isTask notRoot
      exact ⟨i, by rw [self, (informed.nested.kind 0 (by omega) i isMember).1]⟩
    · obtain ⟨upper, strand, parted, parent⟩ := informed.lineage.line_last isTask notRoot
      rw [line, List.map_singleton, informed.root_at logged split] at parted
      obtain ⟨-, same⟩ := List.append_inj' (show [] ++ [(⟨0, none⟩ : Strand)] = upper ++ [strand] from parted) rfl
      rw [← List.singleton_inj.mp same] at parent
      exact absurd parent.symm (informed.flat.explicit _ isTask kind).2.2.1
  · have length := congrArg List.length line
    simp [(informed.flat.implicit _ isTask r i kind).1] at length

theorem lower_at {root m z : Nat} {above rest : Label} (split : entry.label = root :: m :: above ++ z :: rest) :
    (owner z).body = none ∧ (s.runtime.task (owner z).task).kind = .explicit ∨
      above = [] ∧ ∃ k, owner z = ⟨(owner m).task, some (.single k true)⟩ := by
  obtain ⟨-, isTask, ⟨plain, line⟩ | ⟨⟨r, i, kind⟩, ⟨k, body⟩, line⟩⟩ := informed.strand_at logged split
  · refine .inl ⟨plain, ?_⟩
    have length := congrArg List.length line
    cases kind : (s.runtime.task (owner z).task).kind with
    | initial => simp [informed.nested.initial _ isTask kind, informed.lineage.root] at length
    | explicit => rfl
    | implicit r i => simp [(informed.flat.implicit _ isTask r i kind).1] at length
  · rw [(informed.flat.implicit _ isTask r i kind).1] at line
    have length := congrArg List.length line
    obtain rfl : above = [] := by
      apply List.eq_nil_of_length_eq_zero
      simp only [List.length_map, List.length_append, List.length_cons, List.length_nil] at length
      omega
    simp only [List.map_cons, List.map_nil, List.cons_append, List.nil_append, List.cons.injEq] at line
    exact .inr ⟨rfl, k, by rw [line.2.1, ← body]⟩

theorem tree_at {root m w : Nat} {above rest : Label} (split : entry.label = root :: m :: above ++ w :: rest)
    (plain : (owner w).body = none) : ∀ x ∈ s.detector.heap.read (w :: rest), x.IsTree := by
  intro x inside
  obtain ⟨z, member, rfl⟩ := List.mem_map.mp inside
  have segment : ∀ {above rest : Label} {z : Nat}, entry.label = root :: m :: above ++ z :: rest →
      (owner z).body = none → (s.detector.heap.objects z).IsTree := by
    intro above rest z split plain
    have explicit := (informed.lower_at logged split).resolve_right fun ⟨_, k, own⟩ => by
      rw [own] at plain
      cases plain
    exact (informed.versions.explicit_segment (informed.strand_at logged split).1 explicit.2 explicit.1).1
  rcases List.mem_cons.mp member with rfl | lower
  · exact segment split plain
  · obtain ⟨before, after, rfl⟩ := List.append_of_mem lower
    have parted : entry.label = root :: m :: (above ++ w :: before) ++ z :: after := by
      rw [split]
      simp
    refine segment parted ((informed.lower_at logged parted).resolve_right fun none => ?_).1
    cases List.append_ne_nil_of_right_ne_nil above (List.cons_ne_nil w before) none.1

theorem below_at {root m : Nat} {above rest : Label} (split : entry.label = root :: m :: above ++ rest) :
    ∀ x ∈ (s.detector.heap.read rest).head?, x.IsBelow := by
  intro x head
  cases rest with
  | nil => cases head
  | cons z rest =>
    obtain rfl : s.detector.heap.objects z = x := by
      simpa [Heap.read] using head
    rcases informed.lower_at logged split with ⟨plain, -⟩ | ⟨-, k, own⟩
    · exact .inl (informed.tree_at logged split plain _ (by simp [Heap.read]))
    · exact .inr (informed.versions.single_segment (informed.strand_at logged split).1 (k := k) (by rw [own]))

theorem end_at {above : Label} {z : Nat} (split : entry.label = above ++ [z]) :
    entry.strands.getLast? = some (owner z) ∧ (owner z).task = entry.task := by
  have mapped := (informed.placed.logged.entry entry logged).2
  obtain ⟨-, body, strands⟩ := informed.placed.logged.task entry logged
  have last : entry.strands.getLast? = some (owner z) := by
    rw [← mapped, split, List.map_append, List.map_singleton, List.getLast?_concat]
  refine ⟨last, ?_⟩
  rw [strands] at last
  cases body with
  | none =>
    rw [Option.toList_none, List.map_nil, List.getLast?_concat, Option.some.injEq] at last
    rw [← last]
  | some c =>
    rw [Option.toList_some, List.map_singleton, List.append_cons, List.getLast?_concat, Option.some.injEq] at last
    rw [← last]

theorem birth_at {above rest : Label} {z : Nat} (split : entry.label = above ++ z :: rest)
    (plain : (owner z).body = none) (kind : (s.runtime.task (owner z).task).kind = .explicit) :
    s.runtime.birth s.detector (owner z).task = above := by
  obtain ⟨-, isTask, ⟨-, line⟩ | ⟨⟨r, i, member⟩, -⟩⟩ := informed.strand_at logged split
  · have mapped := (informed.placed.logged.entry entry logged).2
    have inside : ⟨(owner z).task, none⟩ ∈ entry.strands := by
      rw [← mapped, split, ← plain]
      exact List.mem_map_of_mem (by simp)
    have begins := informed.placed.logged.birth entry logged _ isTask kind inside
    have length := informed.placed.lined.birth_length isTask (informed.nested.explicit _ isTask kind).2.1
    rw [line, List.length_map] at length
    have whole : above <+: entry.label := ⟨z :: rest, split.symm⟩
    exact (List.prefix_of_prefix_length_le begins whole length.le).eq_of_length length
  · cases member.symm.trans kind

theorem child_at {above rest : Label} {z w : Nat} (split : entry.label = above ++ z :: w :: rest)
    (plain : (owner w).body = none) (kind : (s.runtime.task (owner w).task).kind = .explicit) :
    s.runtime.birth s.detector (owner w).task = above ++ [z] ∧
      (s.runtime.task (owner w).task).line.getLast? = some (owner z) ∧
      (s.runtime.task (owner w).task).parent = (owner z).task ∧
      s.runtime.waits s.detector (owner w).task = (s.detector.heap.objects z).getTaskwait := by
  have split' := split.trans (List.append_cons above z (w :: rest))
  have birth := informed.birth_at logged split' plain kind
  have isTask := (informed.strand_at logged split').2.1
  obtain ⟨init, z', birth', -, line, parent⟩ := informed.placed.lined.birth_last informed.nested informed.lineage isTask kind
  rw [birth] at birth'
  obtain ⟨-, same⟩ := List.append_inj' birth' rfl
  rw [← List.singleton_inj.mp same] at line parent
  refine ⟨birth, by rw [line, List.getLast?_concat], parent.symm, ?_⟩
  rw [Runtime.waits, birth, List.getLast?_concat]
  rfl

theorem waited_at {above rest : Label} {z w : Nat} (split : entry.label = above ++ z :: w :: rest)
    (plain : (owner w).body = none) (kind : (s.runtime.task (owner w).task).kind = .explicit)
    (marked : (s.detector.heap.objects z).isTaskwaited = true) : (s.runtime.task (owner w).task).waited ≠ none := by
  have birth := (informed.child_at logged split plain kind).1
  have isTask := (informed.strand_at logged (split.trans (List.append_cons above z (w :: rest)))).2.1
  obtain ⟨c, isChild, kind', last, waited⟩ := (informed.versions.marks z (informed.strand_at logged split).1).mp marked
  have same := informed.birth_unique isChild kind' isTask kind last (by rw [birth, List.getLast?_concat])
  exact same ▸ waited

theorem known_above {root m w a : Nat} {rest : Label} (plain : (owner w).body = none)
    (marked : rest = [] ∨ ∀ z ∈ w :: rest, (s.detector.heap.objects z).isTaskwaited = true)
    (knows : (s.runtime.task entry.task).known a = true) : ∀ {above : Label},
    entry.label = root :: m :: above ++ w :: rest → (s.runtime.task (owner w).task).known a = true := by
  induction rest generalizing w with
  | nil =>
    intro above split
    rw [(informed.end_at logged split).2]
    exact knows
  | cons w' rest ih =>
    intro above split
    have all := marked.resolve_left (List.cons_ne_nil w' rest)
    have split' : entry.label = root :: m :: (above ++ [w]) ++ w' :: rest := by
      rw [split]
      simp
    have explicit := (informed.lower_at logged split').resolve_right fun none => by
      cases List.append_ne_nil_of_right_ne_nil above (List.cons_ne_nil w []) none.1
    have below := ih explicit.1 (.inr fun z inside => all z (List.mem_cons_of_mem w inside)) split'
    have isTask := (informed.strand_at logged split').2.1
    have waited := informed.waited_at logged split explicit.1 explicit.2 (all w List.mem_cons_self)
    have parent := (informed.child_at logged split explicit.1 explicit.2).2.2.1
    rw [← parent]
    exact (informed.knowing.waited _ isTask explicit.2 waited).2 a below

omit logged

/-- An access is known to the tasks below a segment that has counted more taskwaits than the one that the task above the
    access was created in. -/
theorem known_below {first second : Entry} (logged : first ∈ s.log) {a root x w y : Nat} {cm rest above lower : Label}
    (left : first.label = root :: cm ++ x :: w :: rest) (right : second.label = above ++ y :: lower)
    (explicit : (owner w).body = none ∧ (s.runtime.task (owner w).task).kind = .explicit)
    (upTo : (owner x).UpTo (owner y))
    (less : (s.detector.heap.objects x).getTaskwait < (s.detector.heap.objects y).getTaskwait)
    (marked : rest = [] ∨ ∀ z ∈ w :: rest, (s.detector.heap.objects z).isTaskwaited = true)
    (knows : (s.runtime.task first.task).known a = true) (running : s.runtime.running second.task = true)
    (now : s.detector.label second.task = some second.label) : (s.runtime.task second.task).known a = true := by
  obtain ⟨m, upper, deep⟩ := List.exists_cons_of_ne_nil (List.append_ne_nil_of_right_ne_nil cm (List.cons_ne_nil x []))
  have left' : first.label = root :: m :: upper ++ w :: rest := by
    rw [left, List.cons_append, List.append_cons, deep]
    rfl
  have below := informed.known_above logged explicit.1 marked knows left'
  have isTask := (informed.strand_at logged left').2.1
  obtain ⟨-, line, parent, count⟩ := informed.child_at logged left explicit.1 explicit.2
  obtain ⟨isActor, runs⟩ := Runtime.running_lt running
  obtain ⟨begun, live, -⟩ := Task.running_iff.mp runs
  have inside : y ∈ second.label := by
    rw [right]
    simp
  have there := (informed.placed.lined.place_length isActor begun now).2 y inside
  rw [← count] at less
  have notRoot := (informed.flat.explicit _ isTask explicit.2).2.2.1
  rcases informed.placed.lined.own_or_birth isActor begun live now inside with own | ⟨born, inLine⟩
  · have waited := informed.learned.passed _ isTask explicit.2 _ line y there upTo less
    have known := (informed.knowing.waited _ isTask explicit.2 waited).2 a below
    rwa [parent, upTo.1, own] at known
  · refine informed.learned.below _ isTask explicit.2 _ line _ isActor ?_ y born upTo less a below
    have notInitial : second.task ≠ 0 := by
      intro same
      rw [same, informed.lineage.root] at inLine
      cases inLine
    apply (informed.member_or_explicit isActor notInitial).resolve_left
    rintro ⟨i, isMember, self⟩
    have one := informed.has_region isActor notInitial
    have member := (informed.nested.kind 0 (by omega) i isMember).1
    rw [← self] at member
    rw [(informed.flat.implicit _ isActor 0 i member).1, List.mem_singleton] at inLine
    exact notRoot (parent.trans (upTo.1.trans (congrArg Strand.task inLine)))

theorem parted_at {first second : Entry} (logged : first ∈ s.log) (logged' : second ∈ s.log) {ra rb x w y : Nat}
    {cm A B : Label} (left : first.label = ra :: cm ++ x :: w :: A) (right : second.label = rb :: cm ++ y :: B)
    (strands : (owner x).body = none ∧ owner x = owner y ∨
      (∃ k, (owner x).body = some (.single k true)) ∧ ∃ k, (owner y).body = some (.single k true))
    (verdict : happensBeforeAt (s.detector.heap.objects x :: s.detector.heap.read (w :: A))
      (s.detector.heap.objects y :: s.detector.heap.read B) 0 = .ok true) :
    ((owner w).body = none ∧ (s.runtime.task (owner w).task).kind = .explicit) ∧
      (s.detector.heap.objects x).getTaskwait < (s.detector.heap.objects y).getTaskwait ∧
      (A = [] ∨ ∀ z ∈ w :: A, (s.detector.heap.objects z).isTaskwaited = true) := by
  obtain ⟨there, isTask, -⟩ := informed.strand_at logged left
  obtain ⟨there', -⟩ := informed.strand_at logged' right
  have deep : ∀ {entry : Entry} {root x : Nat} {rest : Label}, entry.label = root :: cm ++ x :: rest →
      ∃ m upper, entry.label = root :: m :: upper ++ rest := by
    intro entry root x rest split
    obtain ⟨m, upper, deep⟩ := List.exists_cons_of_ne_nil (List.append_ne_nil_of_right_ne_nil cm (List.cons_ne_nil x []))
    refine ⟨m, upper, ?_⟩
    rw [split, List.cons_append, List.append_cons, deep]
    rfl
  obtain ⟨m, upper, left'⟩ := deep left
  obtain ⟨m', upper', right'⟩ := deep right
  have next := informed.below_at logged' right'
  obtain ⟨same, level, id⟩ : happensBeforeAt (s.detector.heap.objects x :: s.detector.heap.read (w :: A))
      (s.detector.heap.objects y :: s.detector.heap.read B) 0 =
      analyzeSameTask (s.detector.heap.objects x :: s.detector.heap.read (w :: A))
        (s.detector.heap.objects y :: s.detector.heap.read B) 0 ∧
      (s.detector.heap.objects x).getTaskGroupLevel = 0 ∧
      (s.detector.heap.objects x).getTaskGroupId = (s.detector.heap.objects y).getTaskGroupId := by
    rcases strands with ⟨plain, own⟩ | ⟨⟨k, body⟩, k', body'⟩
    · have notRoot : (owner x).task ≠ 0 := by
        intro root
        rcases (informed.strand_at logged left).2.2 with ⟨-, line⟩ | ⟨-, ⟨k, body⟩, -⟩
        · rw [root, informed.lineage.root] at line
          cases line
        · cases plain.symm.trans body
      obtain ⟨span, offset, explicit, level, id⟩ :=
        informed.versions.same_strand informed.flat informed.nested there there' isTask own plain notRoot
      exact ⟨happensBeforeAt_versions span offset explicit _ _, level, id⟩
    · have single := informed.versions.single_segment there body
      have single' := informed.versions.single_segment there' body'
      exact ⟨happensBeforeAt_singles single single' _ _, single.level, single.id.trans single'.id.symm⟩
  rw [same] at verdict
  rcases informed.lower_at logged left' with explicit | ⟨-, k, own⟩
  · refine ⟨explicit, ?_⟩
    have trees := informed.tree_at logged left' explicit.1
    have leads := ((analyzeSameTask_tree trees next level id).mp verdict).resolve_left (List.cons_ne_nil _ _)
    refine ⟨leads.1, leads.2.imp (fun one => ?_) fun all z inside => all _ (List.mem_map_of_mem inside)⟩
    apply List.eq_nil_of_length_eq_zero
    rw [Heap.read, List.length_map, List.length_cons] at one
    omega
  · have single := informed.versions.single_segment (informed.strand_at logged left').1 (k := k) (by rw [own])
    rw [show s.detector.heap.read (w :: A) = s.detector.heap.objects w :: s.detector.heap.read A from rfl,
      analyzeSameTask_single single next] at verdict
    cases verdict

theorem inherits {a : Nat} {first second : Entry} (found : s.log[a]? = some first) (notRoot : first.task ≠ 0)
    (isTask : second.task < s.runtime.tasks) (strands : second.strands = (s.runtime.task second.task).strands second.task)
    {strand : Strand} (inside : strand ∈ second.strands) (self : strand.task = first.task)
    (early : ∀ c, (s.runtime.task c).kind = .explicit → (s.runtime.task c).parent = first.task →
      s.runtime.Ancestor c second.task → a < (s.runtime.task c).born) :
    (s.runtime.task second.task).known a = true := by
  by_cases same : second.task = first.task
  · rw [same]
    exact informed.knowing.own a first found
  · rw [strands] at inside
    obtain ⟨c, isChild, kind, parent, ancestor⟩ :=
      informed.flat.descends informed.nested informed.lineage isTask notRoot same inside self
    exact informed.knowing.inherited a first found c isChild parent (Advance.explicit_ne_zero informed.nested kind)
      (early c kind parent ancestor) _ isTask ancestor

/-- Two explicit tasks that were created in one segment are one. -/
theorem same_child {first second : Entry} (logged : first ∈ s.log) (logged' : second ∈ s.log) {ra rb m x y : Nat}
    {cm A B : Label} (left : first.label = ra :: m :: cm ++ x :: A) (right : second.label = rb :: m :: cm ++ y :: B)
    (explicit : (owner x).body = none ∧ (s.runtime.task (owner x).task).kind = .explicit)
    (explicit' : (owner y).body = none ∧ (s.runtime.task (owner y).task).kind = .explicit) : owner x = owner y := by
  have isTask := (informed.strand_at logged left).2.1
  have isTask' := (informed.strand_at logged' right).2.1
  have birth := informed.birth_at logged left explicit.1 explicit.2
  have birth' := informed.birth_at logged' right explicit'.1 explicit'.2
  have last : ∀ r : Nat, (r :: m :: cm).getLast? = some ((m :: cm).getLast (List.cons_ne_nil m cm)) := by
    intro r
    rw [List.getLast?_cons_cons, List.getLast?_eq_some_getLast]
  have task : (owner x).task = (owner y).task :=
    informed.birth_unique isTask explicit.2 isTask' explicit'.2 (birth ▸ last ra) (birth' ▸ last rb)
  rw [show owner x = ⟨(owner x).task, none⟩ by rw [← explicit.1], show owner y = ⟨(owner y).task, none⟩ by rw [← explicit'.1],
    task]

theorem twins_known {a : Nat} {first second : Entry} (found : s.log[a]? = some first) (logged' : second ∈ s.log)
    (notRoot : first.task ≠ 0) (running : s.runtime.running second.task = true)
    (now : s.detector.label second.task = some second.label)
    (strands : second.strands = (s.runtime.task second.task).strands second.task)
    (later : s.CreatedLater a first second) (singles : s.SinglesApart first second)
    {ra rb m x y k k' : Nat} {A B : Label} (left : first.label = ra :: m :: x :: A)
    (right : second.label = rb :: m :: y :: B)
    (roots : (s.detector.heap.objects ra).equals (s.detector.heap.objects rb) = true)
    (own : owner x = ⟨(owner m).task, some (.single k true)⟩) (own' : owner y = ⟨(owner m).task, some (.single k' true)⟩)
    (other : k ≠ k')
    (verdict : happensBefore (s.detector.heap.read first.label) (s.detector.heap.read second.label) = .ok true) :
    (s.runtime.task second.task).known a = true := by
  have logged := List.mem_of_getElem? found
  have mapped := (informed.placed.logged.entry first logged).2
  have mapped' := (informed.placed.logged.entry second logged').2
  have twins : first.Twins second (owner m).task k k' := by
    refine ⟨other, ?_, ?_, by rw [left, right]; rfl⟩
    · rw [← mapped, left, ← own]
      exact List.mem_map_of_mem (by simp)
    · rw [← mapped', right, ← own']
      exact List.mem_map_of_mem (by simp)
  obtain ⟨isTask, runs⟩ := Runtime.running_lt running
  by_cases self : first.task = (owner m).task
  · refine informed.inherits found notRoot isTask strands (show owner y ∈ second.strands from ?_) (by rw [own', self])
      fun c kind parent below => later c kind parent below (.inr ⟨k, k', self.symm ▸ twins⟩)
    rw [← mapped', right]
    exact List.mem_map_of_mem (by simp)
  · cases A with
    | nil =>
      have last := (informed.end_at logged (show first.label = [ra, m] ++ [x] from left)).2
      rw [own] at last
      exact absurd last.symm self
    | cons w A =>
      have stretch : SameStretch (s.detector.heap.read [ra, m]) (s.detector.heap.read [rb, m]) :=
        .cons roots (SameStretch.refl _)
      have inSingle : ∃ k, (owner x).body = some (.single k true) := ⟨k, by rw [own]⟩
      have inSingle' : ∃ k, (owner y).body = some (.single k true) := ⟨k', by rw [own']⟩
      have phase : s.SamePhase first second := ⟨ra, by rw [left]; rfl, rb, by rw [right]; rfl, roots⟩
      obtain ⟨unequal, apart⟩ : (s.detector.heap.objects x).equals (s.detector.heap.objects y) = false ∧
          (k < k' ∨ (s.detector.heap.objects y).getTaskwait ≤ (s.detector.heap.objects x).getTaskwait) := by
        rcases singles _ k k' twins phase with same | self' | ⟨x', here, y', here', distinct⟩
        · exact absurd same self
        · -- the second access is made in the single itself, which is the latest of the member
          have less : k < k' := by
            have inside : ⟨second.task, some (.single k' true)⟩ ∈ (s.runtime.task second.task).strands second.task := by
              rw [← strands, self']
              exact twins.2.2.1
            obtain ⟨k₁, number, works, -⟩ := (informed.origins.past x (informed.strand_at logged
              (show first.label = [ra, m] ++ x :: w :: A from left)).1).2.2 _ (by rw [own])
            cases number
            rw [own, ← self'] at works
            rcases Runtime.mem_strands inside with above | ⟨-, body⟩
            · exact absurd (informed.lineage.through isTask above).1 (lt_irrefl _)
            · have latest := informed.learned.latest _ isTask _
                (by rw [informed.lineage.body_units body]; exact List.mem_singleton_self _) k' rfl
              omega
          refine ⟨?_, .inl less⟩
          rw [← Bool.not_eq_true]
          intro equal
          have ends : B = [] := by
            rcases List.eq_nil_or_concat' B with empty | ⟨upper, z, rfl⟩
            · exact empty
            · have split : second.label = rb :: m :: (y :: upper) ++ [z] := by
                rw [right]
                rfl
              have last := (informed.end_at logged' split).2
              obtain ⟨-, i, kind⟩ := informed.member_at logged' right
              rw [self'] at last
              rcases informed.lower_at logged' split with explicit | ⟨none, -⟩
              · cases (last ▸ explicit.2).symm.trans kind
              · cases none
          subst ends
          rw [left, right] at verdict
          change happensBefore (s.detector.heap.read [ra, m, x] ++
            s.detector.heap.objects w :: s.detector.heap.read A) (s.detector.heap.read [rb, m, y]) = _ at verdict
          have longer : SameStretch (s.detector.heap.read [ra, m, x]) (s.detector.heap.read [rb, m, y]) :=
            .cons roots (.cons (Segment.equals_refl _) (.cons equal .nil))
          rw [happensBefore_longer longer] at verdict
          cases verdict
        · rw [left] at here
          rw [right] at here'
          cases here
          cases here'
          exact distinct
      rw [left, right] at verdict
      change happensBefore (s.detector.heap.read [ra, m] ++ s.detector.heap.objects x :: s.detector.heap.read (w :: A))
        (s.detector.heap.read [rb, m] ++ s.detector.heap.objects y :: s.detector.heap.read B) = _ at verdict
      rw [happensBefore_diff stretch unequal] at verdict
      have left' : first.label = ra :: [m] ++ x :: w :: A := left
      have right' : second.label = rb :: [m] ++ y :: B := right
      obtain ⟨explicit, waits, marked⟩ := informed.parted_at logged logged' left' right' (.inr ⟨inSingle, inSingle'⟩) verdict
      have less := apart.resolve_right (Nat.not_le.mpr waits)
      refine informed.known_below logged left' (show second.label = [rb, m] ++ y :: B from right) explicit
        ⟨by rw [own, own'], .inr ⟨k, k', less, by rw [own], by rw [own']⟩⟩ waits marked (informed.knowing.own a first found)
        running now

/-- Where the segments of the initial task are alike, the first access is known to whoever makes the second. -/
theorem ordered_known {a : Nat} {first second : Entry} (found : s.log[a]? = some first) (logged' : second ∈ s.log)
    (notRoot : first.task ≠ 0) (running : s.runtime.running second.task = true)
    (now : s.detector.label second.task = some second.label)
    (strands : second.strands = (s.runtime.task second.task).strands second.task)
    (later : s.CreatedLater a first second) (singles : s.SinglesApart first second)
    {ra rb : Nat} {A B : Label} (left : first.label = ra :: A) (right : second.label = rb :: B)
    (roots : (s.detector.heap.objects ra).equals (s.detector.heap.objects rb) = true)
    (verdict : happensBefore (s.detector.heap.read first.label) (s.detector.heap.read second.label) = .ok true) :
    (s.runtime.task second.task).known a = true := by
  have logged := List.mem_of_getElem? found
  have isTask := (Runtime.running_lt running).1
  have mapped' := (informed.placed.logged.entry second logged').2
  have stretch : ∀ cm : Label, SameStretch (s.detector.heap.read (ra :: cm)) (s.detector.heap.read (rb :: cm)) :=
    fun cm => .cons roots (SameStretch.refl _)
  have leaf : ∀ {upper : Label} {z z' : Nat}, first.label = upper ++ [z] → z' ∈ second.label → owner z = owner z' →
      (s.runtime.task second.task).known a = true := by
    intro upper z z' split inside same
    obtain ⟨last, self⟩ := informed.end_at logged split
    have above : owner z ∈ second.strands := by
      rw [same, ← mapped']
      exact List.mem_map_of_mem inside
    exact informed.inherits found notRoot isTask strands above self fun c kind parent below =>
      later c kind parent below (.inl ⟨owner z, last, above⟩)
  rcases Trails.cases A B with ⟨rest, rfl⟩ | ⟨z, rest, rfl⟩ | ⟨cm, x, A, y, B, parts⟩
  · rcases List.eq_nil_or_concat' A with rfl | ⟨upper, z, rfl⟩
    · exact absurd ((informed.end_at logged (show first.label = [] ++ [ra] from left)).2.symm.trans
        (by rw [informed.root_at logged left])) notRoot
    · exact leaf (show first.label = (ra :: upper) ++ [z] from left) (by rw [right]; simp) rfl
  · rw [left, right, ← List.cons_append, Heap.read_append] at verdict
    change happensBefore (_ ++ s.detector.heap.objects z :: s.detector.heap.read rest) _ = _ at verdict
    rw [happensBefore_longer (stretch B)] at verdict
    cases verdict
  · have split : first.label = (ra :: cm) ++ x :: A := by rw [left, parts.left]; rfl
    have split' : second.label = (rb :: cm) ++ y :: B := by rw [right, parts.right]; rfl
    obtain ⟨there, isOwner, place⟩ := informed.strand_at logged split
    obtain ⟨there', isOwner', place'⟩ := informed.strand_at logged' split'
    have decided : (s.detector.heap.objects x).equals (s.detector.heap.objects y) = false →
        happensBeforeAt (s.detector.heap.objects x :: s.detector.heap.read A)
          (s.detector.heap.objects y :: s.detector.heap.read B) 0 = .ok true := by
      intro unequal
      rw [split, split', Heap.read_append, Heap.read_append] at verdict
      rw [← happensBefore_diff (stretch cm) unequal]
      exact verdict
    have notInitial : (owner x).task ≠ 0 := by
      intro root
      rcases place with ⟨-, line⟩ | ⟨⟨r, i, kind⟩, -⟩
      · rw [root, informed.lineage.root] at line
        cases line
      · rw [root, informed.nested.root.1] at kind
        cases kind
    by_cases own : owner x = owner y
    · cases A with
      | nil => exact leaf split (by rw [split']; simp) own
      | cons w A =>
        have unequal := informed.versions.differ there there' own notInitial parts.differ
        have form : (owner x).body = none ∧ owner x = owner y ∨
            (∃ k, (owner x).body = some (.single k true)) ∧ ∃ k, (owner y).body = some (.single k true) := by
          rcases place with ⟨plain, -⟩ | ⟨-, single, -⟩
          · exact .inl ⟨plain, own⟩
          · exact .inr ⟨single, own ▸ single⟩
        obtain ⟨explicit, less, marked⟩ := informed.parted_at logged logged' split split' form (decided unequal)
        exact informed.known_below logged split split' explicit ⟨congrArg Strand.task own, .inl own⟩ less marked
          (informed.knowing.own a first found) running now
    · cases cm with
      | nil =>
        obtain ⟨plain, i, kind⟩ := informed.member_at logged split
        obtain ⟨plain', j, kind'⟩ := informed.member_at logged' split'
        obtain ⟨offset, span, -⟩ := informed.versions.member_segment there kind plain
        obtain ⟨offset', span', -⟩ := informed.versions.member_segment there' kind' plain'
        obtain ⟨isRegion, isMember, self⟩ := informed.nested.member _ isOwner 0 i kind
        obtain ⟨-, isMember', self'⟩ := informed.nested.member _ isOwner' 0 j kind'
        have apart : i ≠ j := by
          rintro rfl
          apply own
          rw [show owner x = ⟨(owner x).task, none⟩ by rw [← plain], show owner y = ⟨(owner y).task, none⟩ by rw [← plain'],
            self, self']
        have regions := informed.flat.regions
        have team := (informed.flat.forker (by omega)).2
        have concurrent := decided (differ_of_offset (by omega))
        rw [happensBeforeAt_team (span.trans span'.symm) (by omega) ?_
          (informed.below_at logged (show first.label = ra :: x :: [] ++ A from split))
          (informed.below_at logged' (show second.label = rb :: y :: [] ++ B from split'))] at concurrent
        · cases concurrent
        · rw [offset, offset', span', Nat.mod_eq_of_lt isMember, Nat.mod_eq_of_lt isMember']
          exact apart
      | cons m cm =>
        have mixed : (s.detector.heap.objects x).getType ≠ (s.detector.heap.objects y).getType →
            (s.detector.heap.objects x).IsBelow → (s.detector.heap.objects y).IsBelow →
            (s.detector.heap.objects x).getSpan = 1 → (s.detector.heap.objects y).getSpan = 1 → False := by
          intro types below below' span span'
          have unequal : (s.detector.heap.objects x).equals (s.detector.heap.objects y) = false := by
            rw [← Bool.not_eq_true]
            intro equal
            exact types (getType_of_plain (Segment.equals_plain equal).1.type)
          have aborts := decided unequal
          rw [happensBeforeAt_mixed below below' span span' types] at aborts
          cases aborts
        have tree : ∀ {z : Nat}, z < s.detector.heap.next → (owner z).body = none ∧
            (s.runtime.task (owner z).task).kind = .explicit → (s.detector.heap.objects z).IsTree ∧
            (s.detector.heap.objects z).getSpan = 1 := by
          intro z there explicit
          obtain ⟨tree, -, span, -⟩ := informed.versions.explicit_segment there explicit.2 explicit.1
          exact ⟨tree, span⟩
        rcases informed.lower_at logged split with explicit | ⟨rfl, k, own₁⟩
        · rcases informed.lower_at logged' split' with explicit' | ⟨-, k', own₂⟩
          · exact absurd (informed.same_child logged logged' split split' explicit explicit') own
          · have single := informed.versions.single_segment there' (k := k') (by rw [own₂])
            obtain ⟨tree, span⟩ := tree there explicit
            exact (mixed (by rw [tree.1, single.type]; simp) (.inl tree) (.inr single) span single.span).elim
        · have single := informed.versions.single_segment there (k := k) (by rw [own₁])
          rcases informed.lower_at logged' split' with explicit' | ⟨-, k', own₂⟩
          · obtain ⟨tree, span⟩ := tree there' explicit'
            exact (mixed (by rw [tree.1, single.type]; simp) (.inr single) (.inl tree) single.span span).elim
          · have other : k ≠ k' := by
              rintro rfl
              exact own (own₁.trans own₂.symm)
            exact informed.twins_known found logged' notRoot running now strands later singles split split' roots own₁ own₂ other
              verdict

theorem same_above {first second : Entry} (logged : first ∈ s.log) (logged' : second ∈ s.log) {upper above rest rest' : Label}
    {x y : Nat} (split : first.label = upper ++ x :: rest) (split' : second.label = above ++ y :: rest')
    (notRoot : (owner x).task ≠ 0) (same : owner x = owner y ∨ (owner x).task = (owner y).task ∧
      (owner x).body.isSome ∧ (owner y).body.isSome ∧ first.label[1]? = second.label[1]?) :
    ∃ ra rb cm, upper = ra :: cm ∧ above = rb :: cm := by
  obtain ⟨there, isTask, place⟩ := informed.strand_at logged split
  obtain ⟨there', isTask', place'⟩ := informed.strand_at logged' split'
  have own : (owner x).task = (owner y).task := by
    rcases same with same | ⟨same, -⟩
    · rw [same]
    · exact same
  cases kind : (s.runtime.task (owner x).task).kind with
  | initial => exact absurd (informed.nested.initial _ isTask kind) notRoot
  | explicit =>
    rcases place with ⟨plain, -⟩ | ⟨⟨r, i, member⟩, -⟩
    · have equal : owner x = owner y := by
        rcases same with same | ⟨-, none, -⟩
        · exact same
        · rw [plain] at none
          cases none
      have birth := informed.birth_at logged split plain kind
      rw [own, informed.birth_at logged' split' (equal ▸ plain) (own ▸ kind)] at birth
      subst birth
      cases above with
      | nil => exact absurd (informed.root_at logged split) fun root => notRoot (congrArg Strand.task root)
      | cons r cm => exact ⟨r, r, cm, rfl, rfl⟩
    · cases member.symm.trans kind
  | implicit r i =>
    have short := (informed.flat.implicit _ isTask r i kind).1
    rcases place with ⟨plain, line⟩ | ⟨-, ⟨k, body⟩, line⟩
    · rcases place' with ⟨-, line'⟩ | ⟨-, ⟨k, body⟩, -⟩
      · rw [← own] at line'
        obtain ⟨ra, rfl, -⟩ := List.map_eq_singleton_iff.mp (line.symm.trans short)
        obtain ⟨rb, rfl, -⟩ := List.map_eq_singleton_iff.mp (line'.symm.trans short)
        exact ⟨ra, rb, [], rfl, rfl⟩
      · rcases same with same | ⟨-, none, -⟩
        · rw [same, body] at plain
          cases plain
        · rw [plain] at none
          cases none
    · rcases place' with ⟨plain, -⟩ | ⟨-, ⟨k', body'⟩, line'⟩
      · rcases same with same | ⟨-, -, none, -⟩
        · rw [← same, body] at plain
          cases plain
        · rw [plain] at none
          cases none
      · rw [← own, short] at line'
        rw [short] at line
        obtain ⟨ra, tail, rfl, -, line⟩ := List.map_eq_cons_iff.mp line
        obtain ⟨m, rfl, member⟩ := List.map_eq_singleton_iff.mp line
        obtain ⟨rb, tail, rfl, -, line'⟩ := List.map_eq_cons_iff.mp line'
        obtain ⟨m', rfl, member'⟩ := List.map_eq_singleton_iff.mp line'
        suffices m = m' by rw [this]; exact ⟨ra, rb, [m'], rfl, rfl⟩
        rcases same with same | ⟨-, -, -, same⟩
        · -- the member has counted nothing while it was in the single
          have held : ∀ {entry : Entry} {r n z : Nat} {rest : Label}, entry ∈ s.log → entry.label = [r, n] ++ z :: rest →
              owner z = owner x → s.detector.plain n = below (owner x) := by
            intro entry r n z rest logged split self
            have chain := informed.chains entry logged
            rw [split] at chain
            have above := Advance.isChain_last chain (show [r, n].getLast? = some n from rfl)
            unfold Runtime.Above at above
            rw [self, body] at above
            exact above
          have plain := (held logged split rfl).trans (held logged' split' same.symm).symm
          have inside := (informed.strand_at logged (show first.label = [ra] ++ m :: x :: rest from split)).1
          have inside' := (informed.strand_at logged' (show second.label = [rb] ++ m' :: y :: rest' from split')).1
          rcases Nat.lt_trichotomy m m' with less | equal | more
          · have counts := (informed.versions.ordered m m' less inside' (member.trans member'.symm)
              (by rw [member]; exact notRoot)).2.2
            rw [plain] at counts
            exact absurd counts (lt_irrefl _)
          · exact equal
          · have counts := (informed.versions.ordered m' m more inside (member'.trans member.symm)
              (by rw [member']; exact notRoot)).2.2
            rw [plain] at counts
            exact absurd counts (lt_irrefl _)
        · rw [split, split'] at same
          exact Option.some.inj same

theorem leaf_verdict {first second : Entry} (logged : first ∈ s.log) (logged' : second ∈ s.log) {ra rb x y : Nat}
    {cm rest : Label} (left : first.label = ra :: cm ++ [x]) (right : second.label = rb :: cm ++ y :: rest)
    (roots : (s.detector.heap.objects ra).equals (s.detector.heap.objects rb) = true) (notRoot : (owner x).task ≠ 0)
    (strands : (owner x).body = none ∧ owner x = owner y ∨
      (∃ k, (owner x).body = some (.single k true)) ∧ ∃ k, (owner y).body = some (.single k true)) :
    happensBefore (s.detector.heap.read first.label) (s.detector.heap.read second.label) = .ok true := by
  obtain ⟨there, isTask, -⟩ := informed.strand_at logged left
  have there' := (informed.strand_at logged' right).1
  have stretch : SameStretch (s.detector.heap.read (ra :: cm)) (s.detector.heap.read (rb :: cm)) :=
    .cons roots (SameStretch.refl _)
  rw [left, right, Heap.read_append, Heap.read_append]
  change happensBefore (_ ++ [s.detector.heap.objects x]) (_ ++ s.detector.heap.objects y :: s.detector.heap.read rest) = _
  cases equal : (s.detector.heap.objects x).equals (s.detector.heap.objects y) with
  | true =>
    rw [List.append_cons (s.detector.heap.read (rb :: cm))]
    exact happensBefore_stretch (List.rel_append stretch (.cons equal .nil)) _
  | false =>
    have same : happensBeforeAt [s.detector.heap.objects x] (s.detector.heap.objects y :: s.detector.heap.read rest) 0 =
        analyzeSameTask [s.detector.heap.objects x] (s.detector.heap.objects y :: s.detector.heap.read rest) 0 := by
      rcases strands with ⟨plain, own⟩ | ⟨⟨k, body⟩, k', body'⟩
      · obtain ⟨span, offset, explicit, -⟩ :=
          informed.versions.same_strand informed.flat informed.nested there there' isTask own plain notRoot
        exact happensBeforeAt_versions span offset explicit _ _
      · exact happensBeforeAt_singles (informed.versions.single_segment there body)
          (informed.versions.single_segment there' body') _ _
    rw [happensBefore_diff stretch equal, same]
    rfl

omit logged in
theorem spread_known {t a : Nat} (spread : s.Spread a) (isTask : t < s.runtime.tasks) (notRoot : t ≠ 0)
    (live : (s.runtime.task t).ended = false) : (s.runtime.task t).known a = true := by
  rcases informed.member_or_explicit isTask notRoot with ⟨i, isMember, rfl⟩ | kind
  · exact spread.1 i isMember
  · exact spread.2 t isTask kind live

omit logged in
/-- Where two labels have counted the same barriers, the segments of the initial task are alike. -/
theorem roots_equal {first second : Entry} (logged : first ∈ s.log) (logged' : second ∈ s.log) {z : Contents}
    (current : s.Current z first.label) (current' : s.Current z second.label) :
    ∃ ra A rb B, first.label = ra :: A ∧ second.label = rb :: B ∧
      (s.detector.heap.objects ra).equals (s.detector.heap.objects rb) = true := by
  obtain ⟨ra, A, left, plain⟩ := current
  obtain ⟨rb, B, right, plain'⟩ := current'
  refine ⟨ra, A, rb, B, left, right, informed.root_equal ?_ ?_ (informed.root_at logged left) (informed.root_at logged' right)
    (congrArg Contents.offset (plain.trans plain'.symm))⟩
  · exact (informed.strand_at logged (show first.label = [] ++ ra :: A from left)).1
  · exact (informed.strand_at logged' (show second.label = [] ++ rb :: B from right)).1

omit logged in
/-- Who makes an access after a barrier, or where none has come since the first one, knows of the first one. -/
theorem verdict_known {a : Nat} {first second : Entry} (found : s.log[a]? = some first) (logged' : second ∈ s.log)
    (running : s.runtime.running second.task = true) (now : s.detector.label second.task = some second.label)
    (strands : second.strands = (s.runtime.task second.task).strands second.task) (later : s.CreatedLater a first second)
    (singles : s.SinglesApart first second)
    (verdict : happensBefore (s.detector.heap.read first.label) (s.detector.heap.read second.label) = .ok true) :
    (s.runtime.task second.task).known a = true := by
  obtain ⟨isTask, runs⟩ := Runtime.running_lt running
  obtain ⟨-, live, -, -, busy⟩ := Task.running_iff.mp runs
  by_cases root : first.task = 0
  · exact informed.phased.root a first found root _ isTask live
  by_cases root' : second.task = 0
  · rw [root'] at busy ⊢
    refine informed.phased.joined (informed.flat.root.resolve_right ?_) a first found
    rintro ⟨-, waits⟩
    cases busy _ _ waits
  rcases informed.phased.entries a first found root with spread | ⟨-, current⟩
  · exact informed.spread_known spread isTask root' live
  · obtain ⟨ra, A, rb, B, left, right, roots⟩ :=
      informed.roots_equal (List.mem_of_getElem? found) logged' current (informed.current informed.phased running root' now)
    exact informed.ordered_known found logged' root running now strands later singles left right roots verdict

omit logged in
/-- Where a task makes an access after it has created a child, the access is ordered before those below the child, who do
    not know of it. -/
theorem verdict_unknown {a : Nat} {first second : Entry} (found : s.log[a]? = some first) (logged' : second ∈ s.log)
    (running : s.runtime.running second.task = true) (now : s.detector.label second.task = some second.label)
    (meets : first.Meets second) {c : Nat} (kind : (s.runtime.task c).kind = .explicit)
    (parent : (s.runtime.task c).parent = first.task) (ancestor : s.runtime.Ancestor c second.task)
    (late : (s.runtime.task c).born ≤ a) : (s.runtime.task second.task).known a = false ∧
      happensBefore (s.detector.heap.read first.label) (s.detector.heap.read second.label) = .ok true := by
  have logged := List.mem_of_getElem? found
  obtain ⟨isTask, runs⟩ := Runtime.running_lt running
  have isChild := informed.lineage.ancestor_lt isTask ancestor
  have notRoot : first.task ≠ 0 := parent ▸ (informed.flat.explicit c isChild kind).2.2.1
  have unknown := informed.unaware a first found c isChild kind parent late second.task isTask ancestor
  refine ⟨unknown, ?_⟩
  have notRoot' : second.task ≠ 0 := by
    intro root
    rw [root] at ancestor
    rcases Runtime.ancestor_iff.mp ancestor with same | above
    · exact Advance.explicit_ne_zero informed.nested kind same
    · rw [informed.lineage.root] at above
      cases above
  have current := (informed.phased.entries a first found notRoot).resolve_left fun spread => by
    cases unknown.symm.trans (informed.spread_known spread isTask notRoot' (Task.running_iff.mp runs).2.1)
  obtain ⟨ra, A, rb, B, left, right, roots⟩ :=
    informed.roots_equal logged logged' current.2 (informed.current informed.phased running notRoot' now)
  have segment : ∀ {strand}, strand ∈ second.strands → ∃ above y rest, second.label = above ++ y :: rest ∧
      owner y = strand := by
    intro strand inside
    rw [← (informed.placed.logged.entry second logged').2] at inside
    obtain ⟨y, inLabel, own⟩ := List.mem_map.mp inside
    obtain ⟨above, rest, split⟩ := List.append_of_mem inLabel
    exact ⟨above, y, rest, split, own⟩
  obtain ⟨upper, z, split⟩ : ∃ upper z, first.label = upper ++ [z] :=
    ⟨_, _, (List.dropLast_concat_getLast (by rw [left]; exact List.cons_ne_nil ra A)).symm⟩
  obtain ⟨last, self⟩ := informed.end_at logged split
  have verdict : ∀ {above y rest}, second.label = above ++ y :: rest → (owner z = owner y ∨
      (owner z).task = (owner y).task ∧ (∃ k, (owner z).body = some (.single k true)) ∧
        (∃ k, (owner y).body = some (.single k true)) ∧ first.label[1]? = second.label[1]?) →
      happensBefore (s.detector.heap.read first.label) (s.detector.heap.read second.label) = .ok true := by
    intro above y rest split' same
    have notInitial : (owner z).task ≠ 0 := self ▸ notRoot
    obtain ⟨r, r', cm, rfl, rfl⟩ := informed.same_above logged logged' split split' notInitial (same.imp_right
      fun ⟨task, ⟨k, body⟩, ⟨k', body'⟩, member⟩ => ⟨task, by rw [body]; rfl, by rw [body']; rfl, member⟩)
    cases (List.cons.inj (left.symm.trans split)).1
    cases (List.cons.inj (right.symm.trans split')).1
    apply informed.leaf_verdict logged logged' split split' roots notInitial
    rcases same with own | ⟨-, single, single', -⟩
    · rcases (informed.strand_at logged split).2.2 with ⟨plain, -⟩ | ⟨-, single, -⟩
      · exact .inl ⟨plain, own⟩
      · exact .inr ⟨single, own ▸ single⟩
    · exact .inr ⟨single, single'⟩
  rcases meets with ⟨strand, leaf, inside⟩ | ⟨k, k', -, inside, inside', member⟩
  · obtain ⟨above, y, rest, split', own⟩ := segment inside
    rw [last] at leaf
    exact verdict split' (.inl ((Option.some.inj leaf).trans own.symm))
  · obtain ⟨above, y, rest, split', own⟩ := segment inside'
    obtain ⟨isActor, body, strands⟩ := informed.placed.logged.task first logged
    have mine : owner z = ⟨first.task, some (.single k true)⟩ := by
      rw [strands] at inside last
      rcases List.mem_append.mp inside with higher | here
      · exact absurd (informed.lineage.through isActor higher).1 (lt_irrefl _)
      · cases body with
        | none => simp at here
        | some c =>
          rw [Option.toList_some, List.map_singleton] at here last
          rw [List.append_cons, List.getLast?_concat, Option.some.injEq] at last
          have same : Construct.single k true = c := by simpa using here
          rw [← last, same]
    exact verdict split' (.inr ⟨by rw [mine, own], ⟨k, by rw [mine]⟩, ⟨k', by rw [own]⟩, member⟩)

end Informed

theorem System.access_same {s s' : System} {t a : Nat} (stepped : s.step (.access t) = some s')
    (early : a ≠ s.runtime.accesses) : s'.detector = s.detector ∧ (s'.runtime.task t).known a = (s.runtime.task t).known a ∧
      s'.runtime.running t = true ∧ ∀ first last, s'.CreatedLater a first last ↔ s.CreatedLater a first last := by
  obtain ⟨enabled, -, runtime, -⟩ := System.step_cases stepped
  obtain ⟨label, -, same, -⟩ := System.step_access stepped
  have kept : ∀ x, ∃ known, s'.runtime.task x = { s.runtime.task x with known } := by
    rw [runtime]
    exact Runtime.access_kept t
  refine ⟨same, ?_, ?_, fun first last => ?_⟩
  · rw [runtime]
    simp [Runtime.after, Task.learn, early]
  · obtain ⟨known, self⟩ := kept t
    obtain ⟨isTask, runs⟩ := Runtime.running_lt enabled
    have there : t < s'.runtime.tasks := by
      rw [runtime]
      exact isTask
    rw [Runtime.running, self]
    exact Bool.and_eq_true_iff.mpr ⟨decide_eq_true there, runs⟩
  · have origin : ∀ x, (s'.runtime.task x).kind = (s.runtime.task x).kind ∧
        (s'.runtime.task x).parent = (s.runtime.task x).parent ∧ (s'.runtime.task x).born = (s.runtime.task x).born := by
      intro x
      obtain ⟨known, same⟩ := kept x
      rw [same]
      exact ⟨rfl, rfl, rfl⟩
    simp only [System.CreatedLater, (origin _).1, (origin _).2.1, (origin _).2.2]
    rw [runtime]
    simp only [Runtime.ancestor_access]

/-- A verdict of true on an access, and on one that is made now, means that the task of the latter knows of the former:
    where no task above had made the first access after it created the child that the second one was made below, and
    the first access was not made below another single of a member without a trace of the creations and the
    taskwaits in between. The first of these has to hold. -/
theorem task_order_sound_iff {s s' : System} (reached : System.Reachable TaskStep s) {t a : Nat} {first last : Entry}
    (stepped : s.step (.access t) = some s') (found : s.log[a]? = some first) (made : s.entry t = some last) :
    (s.CreatedLater a first last ∧ s.SinglesApart first last →
      s'.verdict a s.log.length = .ok true → (s.runtime.task t).known a = true) ∧
    ((s'.verdict a s.log.length = .ok true → (s.runtime.task t).known a = true) → s.CreatedLater a first last) := by
  obtain ⟨owner, fork, below, informed⟩ := (reached.step (show TaskStep s (.access t) from trivial) stepped).informed
  obtain ⟨-, -, runtime, -⟩ := System.step_cases stepped
  obtain ⟨label, known, -, log⟩ := System.step_access stepped
  have isOld := (List.getElem?_eq_some_iff.mp found).1
  obtain ⟨owner₀, placed⟩ := reached.placed
  have early : a ≠ s.runtime.accesses := by
    rw [← placed.logged.length]
    exact Nat.ne_of_lt isOld
  obtain ⟨same, knows, running, later⟩ := System.access_same stepped early
  obtain rfl : last = ⟨t, label, (s.runtime.task t).strands t, (s.runtime.task t).constructs⟩ := by
    rw [System.entry, known] at made
    exact (Option.some.inj made).symm
  have found' : s'.log[a]? = some first := by rw [log, List.getElem?_append_left isOld, found]
  have last' : s'.log[s.log.length]? = some ⟨t, label, (s.runtime.task t).strands t, (s.runtime.task t).constructs⟩ := by
    rw [log, List.getElem?_concat_length]
  have now : s'.detector.label t = some label := by
    rw [same]
    exact known
  have strands : (s.runtime.task t).strands t = (s'.runtime.task t).strands t := by
    obtain ⟨known, kept⟩ := Runtime.access_kept (R := s.runtime) t t
    rw [runtime, kept]
    rfl
  rw [← knows, ← later, System.verdict, System.labelOf_found found', System.labelOf_found last']
  refine ⟨fun apart => ?_, fun sound c kind parent ancestor meets => ?_⟩
  · refine informed.verdict_known found' (List.mem_of_getElem? last') running now strands apart.1 ?_
    rw [System.SinglesApart, System.SamePhase, same]
    exact apart.2
  · by_contra late
    obtain ⟨unknown, verdict⟩ := informed.verdict_unknown found' (List.mem_of_getElem? last') running now meets kind parent
      ancestor (Nat.not_lt.mp late)
    cases unknown.symm.trans (sound verdict)

def createdAfter : List Event := [.parallelBegin 0 2, .implicitBegin 1, .access 1, .taskCreate 1]

theorem task_order_sound_iff_child : ∃ s s', System.runWhile (fun s e => decide (TaskStep s e)) createdAfter = some s ∧
    s.step (.access 3) = some s' ∧ s'.verdict 0 s.log.length = .ok true ∧ (s.runtime.task 3).known 0 = true := by
  obtain ⟨s, ran, ⟨first, found, plain⟩, ⟨last, made, three⟩, line, kinds, born, s', stepped, verdict⟩ :
      ∃ s, System.runWhile (fun s e => decide (TaskStep s e)) createdAfter = some s ∧
        (∃ first ∈ s.log[0]?, ∀ strand ∈ first.strands, strand.body = none) ∧ (∃ last ∈ s.entry 3, last.task = 3) ∧
        (s.runtime.task 3).line = [⟨0, none⟩, ⟨1, none⟩] ∧
        ((s.runtime.task 0).kind ≠ .explicit ∧ (s.runtime.task 1).kind ≠ .explicit) ∧ 0 < (s.runtime.task 3).born ∧
        ∃ s' ∈ s.step (.access 3), s'.verdict 0 s.log.length = .ok true :=
    exists_of_any (by decide)
  have reached : System.Reachable TaskStep s := .of_checked (fun _ _ => of_decide_eq_true) ran
  refine ⟨s, s', ran, stepped, verdict, (task_order_sound_iff reached stepped found made).1 ⟨fun c kind _ ancestor _ => ?_,
    fun m k k' twins => ?_⟩ verdict⟩
  · rw [three, Runtime.ancestor_iff, line] at ancestor
    simp only [List.mem_cons, List.not_mem_nil, Strand.mk.injEq, and_true, or_false] at ancestor
    rcases ancestor with rfl | rfl | rfl
    · exact born
    · exact absurd kind kinds.1
    · exact absurd kind kinds.2
  · cases plain _ twins.2.1

-- an access that the member makes after it has created the child is ordered before the child's, which does not know of it
example : ∃ s, System.runWhile (fun s e => decide (TaskStep s e))
    [.parallelBegin 0 2, .implicitBegin 1, .implicitBegin 2, .access 1, .taskCreate 1, .access 1] = some s ∧
      (s.runtime.task 3).known 1 = false ∧ ∃ s' ∈ s.step (.access 3), s'.verdict 1 s.log.length = .ok true :=
  exists_of_any (by decide)

end Romp
