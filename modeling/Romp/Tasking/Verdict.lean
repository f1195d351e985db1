import Romp.Core.Shift
import Romp.Order.Trails
import Romp.Runtime.Identity
import Romp.Tasking.Waits

namespace Romp

def Segment.IsTree (s : Segment) : Prop := s.getType = .ok .eExplicit ∧ s.getTaskGroupLevel = 0

structure Segment.IsSingle (s : Segment) : Prop where
  type : s.getType = .ok .eWorkShare
  marker : s.isSection = false
  executor : s.isSingleExecutor = true
  phase : s.getPhase = 0
  offset : s.getOffset = 0
  span : s.getSpan = 1
  level : s.getTaskGroupLevel = 0
  id : s.getTaskGroupId = 0

def Segment.IsBelow (s : Segment) : Prop := s.IsTree ∨ s.IsSingle

theorem Segment.IsBelow.typed {s : Segment} (below : s.IsBelow) :
    s.getType = .ok .eExplicit ∨ s.getType = .ok .eWorkShare := by
  rcases below with tree | single
  · exact .inl tree.1
  · exact .inr single.type

theorem syncChainFrom_tree {label : List Segment} (tree : ∀ s ∈ label, s.IsTree) :
    syncChainFrom label = .ok (label.all Segment.isTaskwaited) := by
  induction label with
  | nil => rfl
  | cons s rest ih =>
    obtain ⟨type, level⟩ := tree s List.mem_cons_self
    have below := ih fun s inside => tree s (List.mem_cons_of_mem _ inside)
    cases waited : s.isTaskwaited with
    | true => simp [syncChainFrom, bind, Except.bind, type, level, waited, below]
    | false => simp [syncChainFrom, bind, Except.bind, type, level, waited]

theorem analyzeSyncChain_tree {x : Segment} {hist : List Segment} (tree : ∀ s ∈ hist, s.IsTree) :
    analyzeSyncChain (x :: hist) 1 = .ok (decide (hist.length = 1) || hist.all Segment.isTaskwaited) := by
  by_cases one : hist.length = 1
  · simp [analyzeSyncChain, one]
  · have other : ¬1 + 1 = (x :: hist).length := by
      rw [List.length_cons]
      omega
    rw [analyzeSyncChain, if_neg other, List.drop_one, List.tail_cons, syncChainFrom_tree tree]
    simp [one]

theorem analyzeSameTask_tree {x y : Segment} {hist cur : List Segment} (tree : ∀ s ∈ hist, s.IsTree)
    (below : ∀ s ∈ cur.head?, s.IsBelow) (level : x.getTaskGroupLevel = 0) (id : x.getTaskGroupId = y.getTaskGroupId) :
    analyzeSameTask (x :: hist) (y :: cur) 0 = .ok true ↔
      hist = [] ∨ x.getTaskwait < y.getTaskwait ∧ (hist.length = 1 ∨ ∀ s ∈ hist, s.isTaskwaited = true) := by
  cases hist with
  | nil => simp [analyzeSameTask]
  | cons s hist =>
    have type := (tree s List.mem_cons_self).1
    have chain := analyzeSyncChain_tree (x := x) tree
    cases cur with
    | nil =>
      rcases Nat.lt_trichotomy x.getTaskwait y.getTaskwait with less | same | more
      · simp [analyzeSameTask, getKthSegment, bind, Except.bind, type, less, Nat.ne_of_gt less, Nat.not_lt.mpr less.le,
          chain]
      · simp [analyzeSameTask, getKthSegment, bind, Except.bind, type, same, level]
      · simp [analyzeSameTask, getKthSegment, bind, Except.bind, type, more, Nat.not_lt.mpr more.le]
    | cons s' cur =>
      have next : analyzeSameTask (x :: s :: hist) (y :: s' :: cur) 0 =
          analyzeNextExpExp (x :: s :: hist) (y :: s' :: cur) 0 := by
        rcases (below s' rfl).typed with type' | type' <;>
        simp [analyzeSameTask, getKthSegment, bind, Except.bind, type, type', dispatchAnalysis, analyzeNextExpWork]
      rw [next]
      rcases Nat.lt_trichotomy x.getTaskwait y.getTaskwait with less | same | more
      · simp [getKthSegment, bind, Except.bind, analyzeNextExpExp, analyzeTaskGroupSync, id, less, Nat.ne_of_lt less, chain]
      · simp [getKthSegment, bind, Except.bind, analyzeNextExpExp, analyzeTaskGroupSync, id, same]
      · simp [getKthSegment, bind, Except.bind, analyzeNextExpExp, analyzeTaskGroupSync, id, Nat.ne_of_gt more,
          Nat.not_lt.mpr more.le]

/-- Two versions of one segment are told apart by what is below them. -/
theorem happensBeforeAt_versions {x y : Segment} (span : x.getSpan = y.getSpan) (offset : x.getOffset = y.getOffset)
    (explicit : x.getSpan = 1 → x.getType = .ok .eExplicit ∧ y.getType = .ok .eExplicit) (hist cur : List Segment) :
    happensBeforeAt (x :: hist) (y :: cur) 0 = analyzeSameTask (x :: hist) (y :: cur) 0 := by
  by_cases single : y.getSpan = 1
  · obtain ⟨type, type'⟩ := explicit (span.trans single)
    simp [happensBeforeAt, getKthSegment, bind, Except.bind, span, single, type, type']
  · simp [happensBeforeAt, getKthSegment, bind, Except.bind, span, single, offset]

theorem happensBeforeAt_team {x y : Segment} (span : x.getSpan = y.getSpan) (team : y.getSpan ≠ 1)
    (apart : x.getOffset % y.getSpan ≠ y.getOffset % y.getSpan) {hist cur : List Segment}
    (below : ∀ s ∈ hist.head?, s.IsBelow) (below' : ∀ s ∈ cur.head?, s.IsBelow) :
    happensBeforeAt (x :: hist) (y :: cur) 0 = .ok false := by
  have differ : x.getOffset ≠ y.getOffset := fun same => apart (by rw [same])
  have siblings : analyzeSiblingImpTask (x :: hist) (y :: cur) 0 = .ok false := by
    cases hist with
    | nil => simp [analyzeSiblingImpTask]
    | cons s hist =>
      cases cur with
      | nil => simp [analyzeSiblingImpTask]
      | cons s' cur =>
        rcases below s rfl with tree | single
        · rcases (below' s' rfl).typed with type' | type' <;>
          simp [analyzeSiblingImpTask, getKthSegment, bind, Except.bind, tree.1, type']
        · rcases below' s' rfl with tree' | single'
          · simp [analyzeSiblingImpTask, getKthSegment, bind, Except.bind, single.type, tree'.1]
          · simp [analyzeSiblingImpTask, getKthSegment, bind, Except.bind, single.type, single'.type, single.marker,
              single'.marker, analyzeOrderedSection, Segment.isPlaceHolder_eq_isSection, single.phase, single'.phase,
              computeExitRank, computeEnterRank]
  simp [happensBeforeAt, getKthSegment, bind, Except.bind, span, team, differ, apart, siblings]

theorem happensBeforeAt_roots {x y : Segment} (span : x.getSpan = 1) (span' : y.getSpan = 1)
    (type : x.getType = .ok .eImplicit) (type' : y.getType = .ok .eImplicit) (hist cur : List Segment) :
    happensBeforeAt (x :: hist) (y :: cur) 0 = .ok true ↔ x.getOffset < y.getOffset := by
  by_cases less : x.getOffset < y.getOffset <;>
    simp [happensBeforeAt, getKthSegment, bind, Except.bind, span, span', type, type', less]

theorem happensBefore_longer {p q : List Segment} (same : SameStretch p q) (x : Segment) (hist : List Segment) :
    happensBefore (p ++ x :: hist) q = .error "cur Label -> hist label" := by
  have index : compareLabels (p ++ x :: hist) q = compareFrom p.length (x :: hist) [] := by
    have index := compareFrom_stretch same 0 (x :: hist) []
    rwa [List.append_nil, Nat.zero_add] at index
  rw [happensBefore, index]
  rfl

namespace Versions

variable {R : Runtime} {d : Detector} {owner : Nat → Strand} (versions : Versions R d owner) {r : Nat}
  (there : r < d.heap.next)

include versions there

theorem initial_segment (kind : (R.task (owner r).task).kind = .initial) (isStrand : (owner r).body = none) :
    (d.heap.objects r).getType = .ok .eImplicit ∧ (d.heap.objects r).getSpan = 1 := by
  obtain ⟨o, tc, tw, plain⟩ := versions.seeds r there
  simp only [Runtime.seed, isStrand, kind] at plain
  refine ⟨?_, congrArg Contents.span plain⟩
  have type : (d.heap.objects r).contents.type = 1 := congrArg Contents.type plain
  rw [Segment.getType_contents, type]
  rfl

theorem member_segment {ρ i : Nat} (kind : (R.task (owner r).task).kind = .implicit ρ i)
    (isStrand : (owner r).body = none) :
    (d.heap.objects r).getOffset = i ∧ (d.heap.objects r).getSpan = (R.region 0).size ∧
      (d.heap.objects r).getTaskGroupLevel = 0 ∧ (d.heap.objects r).getTaskGroupId = 0 := by
  obtain ⟨o, tc, tw, plain⟩ := versions.seeds r there
  simp only [Runtime.seed, isStrand, kind] at plain
  exact ⟨congrArg Contents.offset plain, congrArg Contents.span plain, congrArg Contents.taskGroupLevel plain,
    congrArg Contents.taskGroupId plain⟩

theorem explicit_segment (kind : (R.task (owner r).task).kind = .explicit) (isStrand : (owner r).body = none) :
    (d.heap.objects r).IsTree ∧ (d.heap.objects r).getOffset = 0 ∧ (d.heap.objects r).getSpan = 1 ∧
      (d.heap.objects r).getTaskGroupId = 0 := by
  obtain ⟨o, tc, tw, plain⟩ := versions.seeds r there
  simp only [Runtime.seed, isStrand, kind] at plain
  refine ⟨⟨?_, congrArg Contents.taskGroupLevel plain⟩, congrArg Contents.offset plain, congrArg Contents.span plain,
    congrArg Contents.taskGroupId plain⟩
  have type : (d.heap.objects r).contents.type = 2 := congrArg Contents.type plain
  rw [Segment.getType_contents, type]
  rfl

omit there in
theorem differ {x y : Nat} (there : x < d.heap.next) (there' : y < d.heap.next) (same : owner x = owner y)
    (notRoot : (owner x).task ≠ 0) (other : x ≠ y) : (d.heap.objects x).equals (d.heap.objects y) = false := by
  rw [← Bool.not_eq_true]
  intro equal
  have alike := (Segment.equals_plain equal).1
  have create : (d.plain x).taskcreate = (d.plain y).taskcreate := alike.counts.1
  have wait : (d.plain x).taskwait = (d.plain y).taskwait := by
    unfold Contents.Alike at alike
    rw [Contents.mk.injEq] at alike
    exact alike.2.2.2.2.2.2.2.1
  rcases Nat.lt_or_gt_of_ne other with less | more
  · have counts := (versions.ordered x y less there' same notRoot).2.2
    omega
  · have counts := (versions.ordered y x more there same.symm (same ▸ notRoot)).2.2
    omega

omit there in
theorem same_strand (flat : R.Flat) (nested : R.Nested) {x y : Nat} (there : x < d.heap.next) (there' : y < d.heap.next)
    (isTask : (owner x).task < R.tasks) (same : owner x = owner y) (isStrand : (owner x).body = none)
    (notRoot : (owner x).task ≠ 0) : (d.heap.objects x).getSpan = (d.heap.objects y).getSpan ∧
      (d.heap.objects x).getOffset = (d.heap.objects y).getOffset ∧
      ((d.heap.objects x).getSpan = 1 →
        (d.heap.objects x).getType = .ok .eExplicit ∧ (d.heap.objects y).getType = .ok .eExplicit) ∧
      (d.heap.objects x).getTaskGroupLevel = 0 ∧ (d.heap.objects x).getTaskGroupId =
      (d.heap.objects y).getTaskGroupId := by
  cases kind : (R.task (owner x).task).kind with
  | initial => exact absurd (nested.initial _ isTask kind) notRoot
  | explicit =>
    obtain ⟨tree, offset, span, id⟩ := versions.explicit_segment there kind isStrand
    obtain ⟨tree', offset', span', id'⟩ := versions.explicit_segment there' (same ▸ kind) (same ▸ isStrand)
    exact ⟨span.trans span'.symm, offset.trans offset'.symm, fun _ => ⟨tree.1, tree'.1⟩, tree.2, id.trans id'.symm⟩
  | implicit r i =>
    obtain ⟨offset, span, level, id⟩ := versions.member_segment there kind isStrand
    obtain ⟨offset', span', -, id'⟩ := versions.member_segment there' (same ▸ kind) (same ▸ isStrand)
    refine ⟨span.trans span'.symm, offset.trans offset'.symm, fun single => ?_, level, id.trans id'.symm⟩
    have regions := flat.regions
    have isRegion := (nested.member _ isTask r i kind).1
    have team := (flat.forker (by omega)).2
    omega

end Versions

theorem Tasked.root_equal {s : System} {owner : Nat → Strand} {fork : Nat → Contents} {below : Strand → Contents}
    (tasked : Tasked s owner fork below) {ra rb : Nat} (there : ra < s.detector.heap.next) (there' : rb < s.detector.heap.next)
    (own : owner ra = ⟨0, none⟩) (own' : owner rb = ⟨0, none⟩)
    (same : (s.detector.heap.objects ra).getOffset = (s.detector.heap.objects rb).getOffset) :
    (s.detector.heap.objects ra).equals (s.detector.heap.objects rb) = true := by
  have plain : ∀ {r}, r < s.detector.heap.next → owner r = ⟨0, none⟩ →
      (s.detector.heap.objects r).contents = .base 1 (s.detector.heap.objects r).getOffset 1 := by
    intro r there own
    have unmarked := tasked.versions.unmarked_root tasked.placed.lined tasked.nested tasked.lineage tasked.flat there (by rw [own])
    obtain ⟨o, tc, tw, plain⟩ := tasked.versions.seeds r there
    obtain ⟨-, create, wait⟩ := tasked.versions.root r there (by rw [own])
    have offset : (s.detector.heap.objects r).getOffset = (s.detector.plain r).offset := rfl
    rw [Segment.contents_unmarked unmarked (tasked.versions.unsynced r there)]
    change s.detector.plain r = _
    rw [offset, plain, own] at *
    simp only [Runtime.seed, tasked.nested.root.1, Contents.counted] at create wait ⊢
    rw [create, wait]
    rfl
  rw [Segment.equals_iff, Segment.word, Segment.word, plain there own, plain there' own', same]
  exact ⟨rfl, .inl (congrArg Contents.workShareId (plain there own))⟩

namespace Treed

variable {s : System} {owner : Nat → Strand} {fork : Nat → Contents} {below : Strand → Contents}
  (treed : Treed s owner fork below) {entry : Entry} (logged : entry ∈ s.log)

include treed logged

theorem strand_at {above rest : Label} {z : Nat} (split : entry.label = above ++ z :: rest) :
    z < s.detector.heap.next ∧ (owner z).task < s.runtime.tasks ∧ (owner z).body = none ∧
      (s.runtime.task (owner z).task).line = above.map owner := by
  obtain ⟨holds, mapped⟩ := treed.placed.logged.entry entry logged
  obtain ⟨isTask, body, strands⟩ := treed.placed.logged.task entry logged
  have there := holds z (by rw [split]; simp)
  have plain := treed.origins.undivided treed.undivided there
  refine ⟨there, (treed.origins.past z there).1, plain, ?_⟩
  rw [split, List.map_append, List.map_cons, strands, show owner z = ⟨(owner z).task, none⟩ by rw [← plain]] at mapped
  exact treed.lineage.split_task isTask mapped.symm

theorem root_at {z : Nat} {rest : Label} (split : entry.label = z :: rest) : owner z = ⟨0, none⟩ := by
  obtain ⟨-, isTask, plain, line⟩ := treed.strand_at logged (show entry.label = [] ++ z :: rest from split)
  have root : (owner z).task = 0 := by
    by_contra notRoot
    obtain ⟨more, starts⟩ := treed.lineage.starts isTask notRoot
    rw [starts] at line
    cases line
  rw [← root, ← plain]

theorem member_at {root z : Nat} {rest : Label} (split : entry.label = root :: z :: rest) :
    ∃ i, (s.runtime.task (owner z).task).kind = .implicit 0 i := by
  obtain ⟨-, isTask, plain, line⟩ := treed.strand_at logged (show entry.label = [root] ++ z :: rest from split)
  have notRoot : (owner z).task ≠ 0 := by
    intro same
    rw [same, treed.lineage.root] at line
    cases line
  cases kind : (s.runtime.task (owner z).task).kind with
  | initial => exact absurd (treed.nested.initial _ isTask kind) notRoot
  | explicit =>
    obtain ⟨upper, strand, parted, parent⟩ := treed.lineage.line_last isTask notRoot
    rw [line, List.map_singleton, treed.root_at logged split] at parted
    obtain ⟨-, same⟩ := List.append_inj' (show [] ++ [(⟨0, none⟩ : Strand)] = upper ++ [strand] from parted) rfl
    rw [← List.singleton_inj.mp same] at parent
    exact absurd parent.symm (treed.flat.explicit _ isTask kind).2.2.1
  | implicit r i =>
    have one := treed.flat.regions
    have isRegion := (treed.nested.member _ isTask r i kind).1
    obtain rfl : r = 0 := by omega
    exact ⟨i, rfl⟩

theorem explicit_at {root m z : Nat} {above rest : Label} (split : entry.label = root :: m :: above ++ z :: rest) :
    (s.runtime.task (owner z).task).kind = .explicit := by
  obtain ⟨-, isTask, plain, line⟩ := treed.strand_at logged split
  cases kind : (s.runtime.task (owner z).task).kind with
  | initial =>
    have length := congrArg List.length line
    simp [treed.nested.initial _ isTask kind, treed.lineage.root] at length
  | explicit => rfl
  | implicit r i =>
    have length := congrArg List.length line
    simp [(treed.flat.implicit _ isTask r i kind).1] at length

theorem birth_at {above rest : Label} {z : Nat} (split : entry.label = above ++ z :: rest)
    (kind : (s.runtime.task (owner z).task).kind = .explicit) :
    s.runtime.birth s.detector (owner z).task = above := by
  obtain ⟨there, isTask, plain, line⟩ := treed.strand_at logged split
  obtain ⟨-, mapped⟩ := treed.placed.logged.entry entry logged
  have inside : ⟨(owner z).task, none⟩ ∈ entry.strands := by
    rw [← mapped, split, ← plain]
    exact List.mem_map_of_mem (by simp)
  have begins := treed.placed.logged.birth entry logged _ isTask kind inside
  have length := treed.placed.lined.birth_length isTask (treed.nested.explicit _ isTask kind).2.1
  rw [line, List.length_map] at length
  have whole : above <+: entry.label := ⟨z :: rest, split.symm⟩
  exact (List.prefix_of_prefix_length_le begins whole length.le).eq_of_length length

theorem tree_at {root m : Nat} {above rest : Label} (split : entry.label = root :: m :: above ++ rest) :
    ∀ x ∈ s.detector.heap.read rest, x.IsTree := by
  intro x inside
  obtain ⟨z, member, rfl⟩ := List.mem_map.mp inside
  obtain ⟨before, after, rfl⟩ := List.append_of_mem member
  have parted : entry.label = root :: m :: (above ++ before) ++ z :: after := by
    rw [split]
    simp
  obtain ⟨there, -, plain, -⟩ := treed.strand_at logged parted
  exact (treed.versions.explicit_segment there (treed.explicit_at logged parted) plain).1

omit logged in
theorem same_child {first second : Entry} (logged : first ∈ s.log) (logged' : second ∈ s.log) {ra rb m x y : Nat}
    {cm A B : Label} (left : first.label = ra :: m :: cm ++ x :: A) (right : second.label = rb :: m :: cm ++ y :: B) :
    owner x = owner y := by
  have kind := treed.explicit_at logged left
  have kind' := treed.explicit_at logged' right
  obtain ⟨-, isTask, plain, -⟩ := treed.strand_at logged left
  obtain ⟨-, isTask', plain', -⟩ := treed.strand_at logged' right
  have last : ∀ r : Nat, (r :: m :: cm).getLast? = some ((m :: cm).getLast (List.cons_ne_nil m cm)) := by
    intro r
    rw [List.getLast?_cons_cons, List.getLast?_eq_some_getLast]
  have task : (owner x).task = (owner y).task :=
    treed.birth_unique isTask kind isTask' kind' (treed.birth_at logged left kind ▸ last ra)
      (treed.birth_at logged' right kind' ▸ last rb)
  rw [show owner x = ⟨(owner x).task, none⟩ by rw [← plain], show owner y = ⟨(owner y).task, none⟩ by rw [← plain'], task]

omit logged in
/-- Where the segments of the initial task have one offset, the verdict depends on what is below them. -/
theorem verdict_iff {first second : Entry} (logged : first ∈ s.log) (logged' : second ∈ s.log) {ra rb : Nat} {A B : Label}
    (left : first.label = ra :: A) (right : second.label = rb :: B)
    (same : (s.detector.heap.objects ra).getOffset = (s.detector.heap.objects rb).getOffset) :
    happensBefore (s.detector.heap.read first.label) (s.detector.heap.read second.label) = .ok true ↔
      Trails.Leads (fun x y => owner x = owner y) (fun r => (s.detector.heap.objects r).getTaskwait)
        (fun r => (s.detector.heap.objects r).isTaskwaited = true) A B := by
  have roots := treed.root_equal (treed.strand_at logged (show first.label = [] ++ ra :: A from left)).1
    (treed.strand_at logged' (show second.label = [] ++ rb :: B from right)).1 (treed.root_at logged left)
    (treed.root_at logged' right) same
  have stretch : ∀ cm : Label, SameStretch (s.detector.heap.read (ra :: cm)) (s.detector.heap.read (rb :: cm)) :=
    fun cm => .cons roots (SameStretch.refl _)
  rcases Trails.cases A B with ⟨rest, rfl⟩ | ⟨z, rest, rfl⟩ | ⟨cm, x, A', y, B', parts⟩
  · rw [left, right, ← List.cons_append, Heap.read_append, happensBefore_stretch (stretch A)]
    exact iff_of_true rfl (.inl (List.prefix_append A rest))
  · rw [left, right, ← List.cons_append, Heap.read_append]
    refine iff_of_false ?_ (Trails.not_leads_longer rfl)
    change happensBefore (_ ++ s.detector.heap.objects z :: s.detector.heap.read rest) _ ≠ _
    rw [happensBefore_longer (stretch B)]
    intro verdict
    cases verdict
  · have split : first.label = (ra :: cm) ++ x :: A' := by rw [left, parts.left]; rfl
    have split' : second.label = (rb :: cm) ++ y :: B' := by rw [right, parts.right]; rfl
    obtain ⟨there, isTask, plain, -⟩ := treed.strand_at logged split
    obtain ⟨there', isTask', plain', -⟩ := treed.strand_at logged' split'
    rw [Trails.leads_parts parts, split, split', Heap.read_append, Heap.read_append]
    change happensBefore (_ ++ s.detector.heap.objects x :: s.detector.heap.read A')
      (_ ++ s.detector.heap.objects y :: s.detector.heap.read B') = _ ↔ _
    have trees : (∀ z ∈ s.detector.heap.read A', z.IsTree) ∧ ∀ z ∈ s.detector.heap.read B', z.IsTree := by
      cases cm with
      | nil =>
        exact ⟨treed.tree_at logged (show first.label = ra :: x :: [] ++ A' from split),
          treed.tree_at logged' (show second.label = rb :: y :: [] ++ B' from split')⟩
      | cons m cm =>
        rw [List.cons_append, List.cons_append, List.append_cons] at split split'
        exact ⟨treed.tree_at logged split, treed.tree_at logged' split'⟩
    have next : ∀ z ∈ (s.detector.heap.read B').head?, z.IsBelow := fun z head =>
      .inl (trees.2 z (List.mem_of_mem_head? head))
    have notRoot : (owner x).task ≠ 0 := by
      intro root
      have line := (treed.strand_at logged split).2.2.2
      rw [root, treed.lineage.root] at line
      cases line
    by_cases own : owner x = owner y
    · have unequal := treed.versions.differ there there' own notRoot parts.differ
      obtain ⟨span, offset, explicit, level, id⟩ :=
        treed.versions.same_strand treed.flat treed.nested there there' isTask own plain notRoot
      rw [happensBefore_diff (stretch cm) unequal, happensBeforeAt_versions span offset explicit,
        analyzeSameTask_tree trees.1 next level id]
      simp [own, Heap.read]
    · refine iff_of_false ?_ fun leads => own leads.1
      cases cm with
      | cons m cm => exact absurd (treed.same_child logged logged' split split') own
      | nil =>
        obtain ⟨i, kind⟩ := treed.member_at logged split
        obtain ⟨j, kind'⟩ := treed.member_at logged' split'
        obtain ⟨offset, span, -⟩ := treed.versions.member_segment there kind plain
        obtain ⟨offset', span', -⟩ := treed.versions.member_segment there' kind' plain'
        obtain ⟨isRegion, isMember, self⟩ := treed.nested.member _ isTask 0 i kind
        obtain ⟨-, isMember', self'⟩ := treed.nested.member _ isTask' 0 j kind'
        have apart : i ≠ j := by
          rintro rfl
          apply own
          rw [show owner x = ⟨(owner x).task, none⟩ by rw [← plain],
            show owner y = ⟨(owner y).task, none⟩ by rw [← plain'], self, self']
        have regions := treed.flat.regions
        have team := (treed.flat.forker (by omega)).2
        rw [happensBefore_diff (stretch []) (differ_of_offset (by omega)),
          happensBeforeAt_team (span.trans span'.symm) (by omega) ?_
            (fun z head => .inl (trees.1 z (List.mem_of_mem_head? head))) next]
        · intro verdict
          cases verdict
        · rw [offset, offset', span', Nat.mod_eq_of_lt isMember, Nat.mod_eq_of_lt isMember']
          exact apart

omit logged in
/-- Where the offsets differ, they alone decide. -/
theorem verdict_starts {first second : Entry} (logged : first ∈ s.log) (logged' : second ∈ s.log) {ra rb : Nat}
    {A B : Label}
    (left : first.label = ra :: A) (right : second.label = rb :: B)
    (differ : (s.detector.heap.objects ra).getOffset ≠ (s.detector.heap.objects rb).getOffset) :
    happensBefore (s.detector.heap.read first.label) (s.detector.heap.read second.label) = .ok true ↔
      (s.detector.heap.objects ra).getOffset < (s.detector.heap.objects rb).getOffset := by
  have segment : ∀ {entry : Entry} {r : Nat} {rest : Label}, entry ∈ s.log → entry.label = r :: rest →
      (s.detector.heap.objects r).getType = .ok .eImplicit ∧ (s.detector.heap.objects r).getSpan = 1 := by
    intro entry r rest logged split
    obtain ⟨there, -, plain, -⟩ := treed.strand_at logged (show entry.label = [] ++ r :: rest from split)
    refine treed.versions.initial_segment there ?_ plain
    rw [treed.root_at logged split]
    exact treed.nested.root.1
  obtain ⟨type, span⟩ := segment logged left
  obtain ⟨type', span'⟩ := segment logged' right
  have decided := happensBefore_diff (SameStretch.refl []) (differ_of_offset differ) (s.detector.heap.read A)
    (s.detector.heap.read B)
  rw [left, right, ← happensBeforeAt_roots span span' type type', ← decided]
  rfl

end Treed

/-- The offset of the initial task's segment in the label of an access. -/
def System.start (s : System) (a : Nat) : Nat := ((s.labelOf a).head?.map Segment.getOffset).getD 0

/-- The last segment of the label of an access has the mark of a taskwait. -/
def System.EndsWaited (s : System) (a : Nat) : Prop := ∃ x ∈ (s.labelOf a).getLast?, x.isTaskwaited = true

theorem System.labelOf_found {s : System} {a : Nat} {entry : Entry} (found : s.log[a]? = some entry) :
    s.labelOf a = s.detector.heap.read entry.label := by
  rw [System.labelOf, found]

theorem System.endsWaited_iff {s : System} {a z : Nat} {entry : Entry} (found : s.log[a]? = some entry)
    (ends : entry.label.getLast? = some z) : s.EndsWaited a ↔ (s.detector.heap.objects z).isTaskwaited = true := by
  rw [System.EndsWaited, System.labelOf_found found, Heap.read, List.getLast?_map, ends]
  simp

/-- The verdict on two accesses of a program of `TreeStep`s. -/
theorem Treed.verdict_cases {s : System} {owner : Nat → Strand} {fork : Nat → Contents}
    {below : Strand → Contents}
    (treed : Treed s owner fork below) {a b : Nat} {first second : Entry} (found : s.log[a]? = some first)
    (found' : s.log[b]? = some second) {ra rb : Nat} {A B : Label} (left : first.label = ra :: A)
    (right : second.label = rb :: B) : s.verdict a b = .ok true ↔ s.start a < s.start b ∨
      s.start a = s.start b ∧ Trails.Leads (fun x y => owner x = owner y)
      (fun r => (s.detector.heap.objects r).getTaskwait)
        (fun r => (s.detector.heap.objects r).isTaskwaited = true) A B := by
  have logged := List.mem_of_getElem? found
  have logged' := List.mem_of_getElem? found'
  have start : ∀ {a entry r rest}, s.log[a]? = some entry → entry.label = r :: rest →
      s.start a = (s.detector.heap.objects r).getOffset := by
    intro a entry r rest found split
    rw [System.start, System.labelOf_found found, split]
    rfl
  rw [System.verdict, System.labelOf_found found, System.labelOf_found found', start found left, start found' right]
  by_cases same : (s.detector.heap.objects ra).getOffset = (s.detector.heap.objects rb).getOffset
  · rw [treed.verdict_iff logged logged' left right same]
    simp [same]
  · rw [treed.verdict_starts logged logged' left right same]
    simp [same]

end Romp
