import Romp.Tasking.Awaited

namespace Romp

namespace Treed

variable {s : System} {owner : Nat → Strand} {fork : Nat → Contents} {below : Strand → Contents}
  (treed : Treed s owner fork below) {first middle last : Entry} (logged : first ∈ s.log)

include treed logged

theorem passed_marked {r : Nat} {A : Label} (split : first.label = r :: A) : ∀ u ∈ A.dropLast, ∀ v < s.detector.heap.next,
    owner u = owner v → (s.detector.heap.objects u).getTaskwait < (s.detector.heap.objects v).getTaskwait →
    (s.detector.heap.objects u).isTaskwaited = true := by
  intro u inside v there same later
  obtain ⟨p, w, q, parted⟩ := Trails.mem_dropLast inside
  have split' : first.label = (r :: p) ++ u :: w :: q := by
    rw [split, parted]
    rfl
  have notRoot : (owner u).task ≠ 0 := by
    intro root
    have line := (treed.strand_at logged split').2.2.2
    rw [root, treed.lineage.root] at line
    cases line
  have kind := treed.explicit_below logged split' notRoot
  obtain ⟨-, parent, count⟩ := treed.link_at logged split' kind
  have isChild := (treed.strand_at logged (split'.trans (List.append_cons (r :: p) u (w :: q)))).2.1
  have plain := (treed.strand_at logged split').2.2.1
  refine treed.link_marked logged split' kind (treed.waits.passed _ isChild kind v there ?_ ?_)
  · rw [parent, ← same, ← plain]
  · rw [count]
    exact later

/-- The labels of two accesses, of which the one leads to a third access and the other comes from it, are related as
    soon as the task of the one is awaited by what the other descends from. -/
theorem leads_awaited (logged' : last ∈ s.log) {ra rc : Nat} {A C : Label} (left : first.label = ra :: A)
    (right : last.label = rc :: C) (now : s.detector.label last.task = some last.label)
    (live : (s.runtime.task last.task).ended = false) {z : Nat} (ends : first.label.getLast? = some z)
    (chain : ∀ cm x A' y C', Trails.Parts A C cm x A' y C' → A'.length ≠ 1 →
      ∀ u ∈ A'.dropLast, (s.detector.heap.objects u).isTaskwaited = true) :
    Trails.Leads (fun x y => owner x = owner y) (fun r => (s.detector.heap.objects r).getTaskwait)
        (fun r => (s.detector.heap.objects r).isTaskwaited = true) A C ↔
      s.runtime.Ancestor first.task last.task ∨ ∃ c, (s.runtime.task c).kind = .explicit ∧
        s.runtime.Ancestor c first.task ∧ s.runtime.Ancestor (s.runtime.task c).parent last.task ∧
        s.runtime.WaitedBefore c last.task ∧ (first.task = c ∨ (s.detector.heap.objects z).isTaskwaited = true) := by
  obtain ⟨upper, split⟩ := List.getLast?_eq_some_iff.mp ends
  have self := (treed.split_end logged split).mp rfl
  constructor
  · rintro (⟨rest, begins⟩ | ⟨cm, x, A', y, C', parts, same, leads⟩)
    · left
      rw [self]
      cases upper with
      | nil =>
        rw [treed.root_at logged split, ← treed.root_at logged' right]
        exact treed.split_ancestor logged' (show last.label = [] ++ rc :: C from right)
      | cons r upper =>
        have tail : A = upper ++ [z] := (List.cons.inj (left.symm.trans split)).2
        have split' : last.label = (rc :: upper) ++ z :: rest := by
          rw [right, ← begins, tail, List.append_assoc]
          rfl
        exact treed.split_ancestor logged' split'
    · have low : first.label = (ra :: cm) ++ x :: A' := by rw [left, parts.left]; rfl
      have high : last.label = (rc :: cm) ++ y :: C' := by rw [right, parts.right]; rfl
      have ancestor := treed.split_ancestor logged' high
      rw [← same] at ancestor
      cases A' with
      | nil =>
        rw [(treed.split_end logged low).mp rfl]
        exact .inl ancestor
      | cons w A' =>
        obtain ⟨less, shape⟩ := leads.resolve_left (List.cons_ne_nil w A')
        have notRoot : (owner x).task ≠ 0 := by
          intro root
          have line := (treed.strand_at logged low).2.2.2
          rw [root, treed.lineage.root] at line
          cases line
        have kind := treed.explicit_below logged low notRoot
        obtain ⟨-, parent, count⟩ := treed.link_at logged low kind
        have below := low.trans (List.append_cons (ra :: cm) x (w :: A'))
        have isChild := (treed.strand_at logged below).2.1
        have own : owner y = ⟨(s.runtime.task (owner w).task).parent, none⟩ := by
          rw [parent, ← same, ← (treed.strand_at logged low).2.2.1]
        refine .inr ⟨(owner w).task, kind, treed.split_ancestor logged below, parent ▸ ancestor,
          (treed.waits_less logged' isChild kind high own now live).mp (count ▸ less), shape.imp (fun one => ?_) fun all => ?_⟩
        · refine (treed.split_end logged below).mp (List.eq_nil_of_length_eq_zero ?_)
          rw [List.length_cons] at one
          omega
        · refine all z (List.mem_of_getLast? ?_)
          rw [below, List.getLast?_append, List.getLast?_cons] at ends
          rw [List.getLast?_cons]
          exact ends
  · rintro (ancestor | ⟨c, kind, low, high, before, shape⟩)
    · obtain ⟨above, y, rest, split', own⟩ := treed.ancestor_split logged' ancestor
      have mine : owner z = owner y := by
        rw [own, self, ← (treed.strand_at logged split).2.2.1]
      by_cases root : (owner z).task = 0
      · have line := (treed.strand_at logged split).2.2.2
        rw [root, treed.lineage.root] at line
        rw [List.map_eq_nil_iff.mp line.symm, left] at split
        rw [(List.cons.inj split).2]
        exact .inl List.nil_prefix
      · obtain ⟨r, r', cm, rfl, rfl⟩ := treed.same_level logged logged' split split' mine root
        obtain rfl : A = cm ++ [z] := (List.cons.inj (left.symm.trans split)).2
        obtain rfl : C = cm ++ y :: rest := (List.cons.inj (right.symm.trans split')).2
        by_cases same : z = y
        · subst same
          exact .inl ⟨rest, by rw [List.append_assoc]; rfl⟩
        · exact .inr ⟨cm, z, [], y, rest, ⟨rfl, rfl, same⟩, mine, .inl rfl⟩
    · obtain ⟨r, r', cm, x, w, A', y, C', split₁, split₂, mine, mine', own, count⟩ := treed.meet logged logged' kind low high
      have below := split₁.trans (List.append_cons (r :: cm) x (w :: A'))
      have isTask : c < s.runtime.tasks := by
        have isTask := (treed.strand_at logged below).2.1
        rwa [own] at isTask
      have less := (treed.waits_less logged' isTask kind split₂ mine' now live).mpr before
      rw [count] at less
      have parts : Trails.Parts A C cm x (w :: A') y C' := by
        refine ⟨(List.cons.inj (left.symm.trans split₁)).2, (List.cons.inj (right.symm.trans split₂)).2, ?_⟩
        rintro rfl
        exact lt_irrefl _ less
      refine (Trails.leads_parts parts).mpr ⟨mine.trans mine'.symm, .inr ⟨less, ?_⟩⟩
      by_cases one : (w :: A').length = 1
      · exact .inl one
      · have marked := shape.resolve_left fun same => one (by
          rw [← show (owner w).task = c by rw [own]] at same
          rw [(treed.split_end logged below).mpr same]
          rfl)
        rw [below, List.getLast?_append, List.getLast?_cons] at ends
        refine .inr ((Trails.all_iff_last ?_ (chain _ _ _ _ _ parts one)).mpr marked)
        rw [List.getLast?_cons]
        exact ends

omit logged in
/-- The verdict on the first and the third of three accesses that are ordered one by one. -/
theorem chain_iff {a b c : Nat} (found : s.log[a]? = some first) (found' : s.log[b]? = some middle)
    (found'' : s.log[c]? = some last) (now : s.detector.label last.task = some last.label)
    (live : (s.runtime.task last.task).ended = false) (ordered : s.verdict a b = .ok true)
    (ordered' : s.verdict b c = .ok true) : s.verdict a c = .ok true ↔ s.start a < s.start c ∨
      s.start a = s.start c ∧ (s.runtime.Ancestor first.task last.task ∨ ∃ c, (s.runtime.task c).kind = .explicit ∧
        s.runtime.Ancestor c first.task ∧ s.runtime.Ancestor (s.runtime.task c).parent last.task ∧
        s.runtime.WaitedBefore c last.task ∧ (first.task = c ∨ s.EndsWaited a)) := by
  have logged := List.mem_of_getElem? found
  have logged' := List.mem_of_getElem? found'
  have logged'' := List.mem_of_getElem? found''
  obtain ⟨ra, A, left⟩ := treed.label_cons logged
  obtain ⟨rb, B, between⟩ := treed.label_cons logged'
  obtain ⟨rc, C, right⟩ := treed.label_cons logged''
  obtain ⟨z, ends⟩ : ∃ z, first.label.getLast? = some z := by
    rw [left]
    exact ⟨_, List.getLast?_cons⟩
  rw [treed.verdict_cases found found' left between] at ordered
  rw [treed.verdict_cases found' found'' between right] at ordered'
  rw [treed.verdict_cases found found'' left right]
  by_cases same : s.start a = s.start c
  · have leads := ordered.resolve_left fun less => by
      rcases ordered' with less' | ⟨equal, -⟩ <;> omega
    have leads' := ordered'.resolve_left fun less => by omega
    refine or_congr_right (and_congr_right fun _ => ?_)
    rw [treed.leads_awaited logged logged'' left right now live ends fun cm x A' y C' parts long =>
      leads.2.chain leads'.2 parts long fun u inside v member same later => ?_]
    · simp only [System.endsWaited_iff found ends]
    · refine treed.passed_marked logged left u inside v ?_ same later
      exact (treed.placed.logged.entry middle logged').1 v (by rw [between]; exact List.mem_cons_of_mem _ member)
  · simp [same]

end Treed

/-- Where the verdicts order one access before another, and that one before a third, the first is ordered before the
    third: exactly if a barrier has come in between, or the task of the third access is that of the first or descends
    from it, or the first access was made below a task that has been waited for in time, and either by that task itself
    or with a label that ends in a segment in which a task was created that has been waited for. -/
theorem ordered_chain_iff {s s' : System} (reached : System.Reachable TreeStep s) {t a b : Nat} {first middle : Entry}
    (stepped : s.step (.access t) = some s') (found : s.log[a]? = some first) (found' : s.log[b]? = some middle)
    (ordered : s'.verdict a b = .ok true) (ordered' : s'.verdict b s.log.length = .ok true) :
    s'.verdict a s.log.length = .ok true ↔ s'.start a < s'.start s.log.length ∨
      s'.start a = s'.start s.log.length ∧ (s.runtime.Ancestor first.task t ∨ ∃ c, (s.runtime.task c).kind = .explicit ∧
        s.runtime.Ancestor c first.task ∧ s.runtime.Ancestor (s.runtime.task c).parent t ∧ s.runtime.WaitedBefore c t ∧
        (first.task = c ∨ s'.EndsWaited a)) := by
  obtain ⟨owner, fork, below, last, treed, kept, found'', rfl, now, live⟩ := Treed.accessed reached stepped
  obtain ⟨-, -, runtime, -⟩ := System.step_cases stepped
  have origin : ∀ x, (s'.runtime.task x).kind = (s.runtime.task x).kind ∧
      (s'.runtime.task x).parent = (s.runtime.task x).parent := by
    intro x
    obtain ⟨known, same⟩ := Runtime.access_kept (R := s.runtime) last.task x
    rw [runtime, same]
    exact ⟨rfl, rfl⟩
  rw [treed.chain_iff (kept a first found) (kept b middle found') found'' now live ordered ordered']
  simp only [(origin _).1, (origin _).2]
  rw [runtime]
  simp only [Runtime.ancestor_access, Runtime.waitedBefore_access]

def awaitedOnce : List Event :=
  [.parallelBegin 0 2, .implicitBegin 1, .taskCreate 1, .access 3, .taskComplete 3, .taskwaitEnd 1, .access 1]

theorem ordered_chain_iff_child : ∃ s s', System.runWhile (fun s e => decide (TreeStep s e)) awaitedOnce = some s ∧
    s.step (.access 1) = some s' ∧ s'.verdict 0 s.log.length = .ok true := by
  obtain ⟨s, ran, ⟨first, found, three⟩, ⟨middle, found'⟩, kind, low, high, before, s', stepped, same, ordered, ordered'⟩ :
      ∃ s, System.runWhile (fun s e => decide (TreeStep s e)) awaitedOnce = some s ∧ (∃ first ∈ s.log[0]?, first.task = 3) ∧
        (∃ middle ∈ s.log[1]?, middle.task = 1) ∧ (s.runtime.task 3).kind = .explicit ∧ s.runtime.Ancestor 3 3 ∧
        s.runtime.Ancestor (s.runtime.task 3).parent 1 ∧ s.runtime.WaitedBefore 3 1 ∧ ∃ s' ∈ s.step (.access 1),
          s'.start 0 = s'.start s.log.length ∧ s'.verdict 0 1 = .ok true ∧ s'.verdict 1 s.log.length = .ok true :=
    exists_of_any (by decide)
  have reached : System.Reachable TreeStep s := .of_checked (fun _ _ => of_decide_eq_true) ran
  exact ⟨s, s', ran, stepped, (ordered_chain_iff reached stepped found found'.1 ordered ordered').mpr
    (.inr ⟨same, .inr ⟨3, kind, three.symm ▸ low, high, before, .inl three⟩⟩)⟩

def awaitedTwice : List Event :=
  [.parallelBegin 0 2, .implicitBegin 1, .taskCreate 1, .taskCreate 3, .access 4, .taskComplete 4, .taskwaitEnd 3,
    .access 3, .taskComplete 3, .taskwaitEnd 1]

theorem chain_unordered : ¬ ∀ s s' t a b first middle, System.Reachable TreeStep s → s.step (.access t) = some s' →
    s.log[a]? = some first → s.log[b]? = some middle → s'.verdict a b = .ok true →
    s'.verdict b s.log.length = .ok true → s'.verdict a s.log.length = .ok true := by
  intro chained
  obtain ⟨s, ran, ⟨first, found⟩, ⟨middle, found'⟩, s', stepped, ordered, ordered', verdict⟩ :
      ∃ s, System.runWhile (fun s e => decide (TreeStep s e)) awaitedTwice = some s ∧ (∃ first ∈ s.log[0]?, first.task = 4) ∧
        (∃ middle ∈ s.log[1]?, middle.task = 3) ∧ ∃ s' ∈ s.step (.access 1), s'.verdict 0 1 = .ok true ∧
          s'.verdict 1 s.log.length = .ok true ∧ s'.verdict 0 s.log.length = .ok false :=
    exists_of_any (by decide)
  have reached : System.Reachable TreeStep s := .of_checked (fun _ _ => of_decide_eq_true) ran
  have wrong := chained s s' 1 0 1 first middle reached stepped found.1 found'.1 ordered ordered'
  rw [verdict] at wrong
  cases wrong

end Romp
