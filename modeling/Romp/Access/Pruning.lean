import Romp.Access.Coverage

open Covering

namespace Romp

/-- The order decided between the first `n` accesses is a transitive order that agrees with the
    order of execution, and treats accesses of equal labels alike. -/
structure DecidedOrder (acc : Nat → Access) (n : Nat) (before : Nat → Nat → Bool) : Prop where
  decided : ∀ i j, i < j → j < n → Decides (acc j).context (acc j).record (acc i).record ∧
    before i j = orderedBefore (acc j).context (acc i).record (acc j).record
  trans : ∀ i j k, i < j → j < k → k < n → before i j → before j k → before i k
  alike : ∀ i j, i < j → j < n → sameLabel (acc j).context (acc i).record (acc j).record →
    (∀ k, j < k → k < n → before i k = before j k) ∧ ∀ k, k < i → before k i = before k j

structure Access.Plain (a : Access) : Prop where
  noHwLock : a.info.hwLock = false
  shared : a.info.dataSharingType ≠ .eThreadPrivateBelowExit ∧
    a.info.dataSharingType ≠ .eStaticThreadPrivate
  calm : (a.context.tasks a.info.taskPtr).inReduction = false

def Race (acc : Nat → Access) (before : Nat → Nat → Bool) (i j : Nat) : Prop :=
  before i j = false ∧ ¬ CommonLock (acc i).record (acc j).record ∧
    ((acc i).info.isWrite ∨ (acc j).info.isWrite)

/-- `k` stands for `r` from the access `m` on: what races with `r` later races with `k`. -/
def Covers (acc : Nat → Access) (n m : Nat) (k r : Record) : Prop :=
  (r.isWrite → k.isWrite) ∧ heldLocks k.lockSet ⊆ heldLocks r.lockSet ∧
    ∀ x, m ≤ x → x < n → orderedBefore (acc x).context k (acc x).record →
      orderedBefore (acc x).context r (acc x).record

def Handed (acc : Nat → Access) (m : Nat) (r : Record) : Prop := ∃ i < m, r = (acc i).record

/-- The invariant of a history in which no race has been found yet. -/
structure Pruned (acc : Nat → Access) (n m : Nat) (h : AccessHistory) : Prop where
  notRecycled : h.memIsRecycled = false
  inside : ∀ r ∈ h.records, Handed acc m r
  covered : Covered (Covers acc n m) h.records (Handed acc m)

section Covers

variable {acc : Nat → Access} {n m : Nat}

theorem Covers.refl (r : Record) : Covers acc n m r r :=
  ⟨id, List.Subset.refl _, fun _ _ _ h => h⟩

theorem Covers.trans (a b c : Record) (first : Covers acc n m a b) (second : Covers acc n m b c) :
    Covers acc n m a c :=
  ⟨first.1 ∘ second.1, fun _ member => second.2.1 (first.2.1 member),
    fun x later bound h => second.2.2 x later bound (first.2.2 x later bound h)⟩

theorem Covers.later (a b : Record) (covers : Covers acc n m a b) : Covers acc n (m + 1) a b :=
  ⟨covers.1, covers.2.1, fun x later => covers.2.2 x (by omega)⟩

theorem Covers.racy {k r : Record} {x : Nat} (covers : Covers acc n m k r) (later : m ≤ x) (bound : x < n)
    (racy : Racy (acc x).context r (acc x).record) : Racy (acc x).context k (acc x).record := by
  obtain ⟨unordered, apart, write⟩ := racy
  refine ⟨?_, ?_, write.imp covers.1 id⟩
  · rw [← Bool.not_eq_true] at unordered ⊢
    exact fun ordered => unordered (covers.2.2 x later bound ordered)
  · rintro ⟨lock, left, right⟩
    exact apart ⟨lock, covers.2.1 left, right⟩

variable {before : Nat → Nat → Bool}

theorem covers_deleted (order : DecidedOrder acc n before) (bound : m < n) {r : Record}
    (handed : Handed acc m r) (deleted : Deleted (acc m).context r (acc m).record) :
    Covers acc n (m + 1) (acc m).record r := by
  obtain ⟨i, earlier, rfl⟩ := handed
  obtain ⟨write, ordered, subset⟩ := deleted
  refine ⟨write, isSubset_sound subset, fun x later inside next => ?_⟩
  rw [← (order.decided i m earlier bound).2] at ordered
  rw [← (order.decided m x later inside).2] at next
  rw [← (order.decided i x (by omega) inside).2]
  exact order.trans i m x earlier later inside ordered next

theorem covers_skipped (order : DecidedOrder acc n before) (bound : m < n) {r : Record}
    (handed : Handed acc m r) (stands : StandsFor (acc m).context r (acc m).record) :
    Covers acc n (m + 1) r (acc m).record := by
  obtain ⟨i, earlier, rfl⟩ := handed
  obtain ⟨write, same, subset⟩ := stands
  refine ⟨write, isSubset_sound subset, fun x later inside ordered => ?_⟩
  rw [← (order.decided i x (by omega) inside).2] at ordered
  rw [← (order.decided m x later inside).2, ← (order.alike i m earlier bound same).1 x later inside]
  exact ordered

end Covers

theorem handed_succ (acc : Nat → Access) (m : Nat) (r : Record) :
    Handed acc (m + 1) r ↔ Handed acc m r ∨ r = (acc m).record := by
  constructor
  · rintro ⟨i, bound, rfl⟩
    rcases Nat.lt_succ_iff_lt_or_eq.mp bound with earlier | rfl
    · exact .inl ⟨i, earlier, rfl⟩
    · exact .inr rfl
  · rintro (⟨i, bound, rfl⟩ | rfl)
    · exact ⟨i, by omega, rfl⟩
    · exact ⟨m, by omega, rfl⟩

/-- One call keeps the invariant, or finds a race; and it finds one if the current access races
    with any access handed before, kept or not. -/
theorem checkDataRace_pruned {acc : Nat → Access} {n m : Nat} {before : Nat → Nat → Bool}
    (flags : ReportFlags) (order : DecidedOrder acc n before) (bound : m < n)
    (checked : (acc m).Plain) {h : AccessHistory} (reports : RaceReports)
    (clean : h.dataRaceFound = false) (pruned : Pruned acc n m h)
    (harmless : StaleHarmless (acc m).context (acc m).record
      (false, (acc m).uninitialised.diffIndex) h.records) :
    ∃ done, checkDataRace flags h (acc m) reports = .ok done ∧
      (done.history.dataRaceFound ∨ Pruned acc n (m + 1) done.history) ∧
      ((∃ i < m, Race acc before i m) → done.history.dataRaceFound) := by
  have kind : ¬ ((acc m).info.dataSharingType = .eThreadPrivateBelowExit ∨
      (acc m).info.dataSharingType = .eStaticThreadPrivate) := not_or.mpr checked.shared
  have seen : Handed acc (m + 1) = fun r => Handed acc m r ∨ r = (acc m).record :=
    funext fun r => propext (handed_succ acc m r)
  simp only [checkDataRace, checked.noHwLock, kind, clean, pruned.notRecycled, Bool.false_eq_true,
    if_false]
  by_cases fresh : h.records = []
  · have first : ∀ r, ¬ Handed acc m r := by
      intro r handed
      obtain ⟨k, member, -⟩ := pruned.covered r handed
      rw [fresh] at member
      cases member
    rw [if_pos fresh]
    refine ⟨_, rfl, .inr ⟨pruned.notRecycled, ?_, ?_⟩, ?_⟩
    · intro r member
      exact ⟨m, by omega, List.mem_singleton.mp member⟩
    · rw [seen]
      rintro r (handed | rfl)
      · exact absurd handed (first r)
      · exact ⟨_, List.mem_singleton_self _, Covers.refl _⟩
    · rintro ⟨i, earlier, -⟩
      exact absurd ⟨i, earlier, rfl⟩ (first (acc i).record)
  · rw [if_neg fresh]
    have decides : ∀ r ∈ h.records, Decides (acc m).context (acc m).record r := by
      intro r member
      obtain ⟨i, earlier, rfl⟩ := pruned.inside r member
      exact (order.decided i m earlier bound).1
    obtain ⟨scan, kept, scanned, inside, covered, skips, races, -, recycled⟩ :=
      scanRecords_spec flags (acc m).info ⟨false, (acc m).uninitialised.diffIndex, false, h.state,
        (acc m).context.taskDepGraph, reports⟩ checked.calm decides rfl harmless
    simp only [scanned, bind, Except.bind]
    refine ⟨_, rfl, .inr ⟨recycled.trans pruned.notRecycled, ?_, ?_⟩, ?_⟩
    · intro r member
      rw [handed_succ]
      have cases : r ∈ kept ∨ r = (acc m).record := by
        cases skipped : scan.skipAddCur <;> simp only [skipped, Bool.false_eq_true, if_false, if_true,
          List.mem_append, List.mem_singleton] at member
        · exact member
        · exact .inl member
      exact cases.imp (fun member => pruned.inside r (inside r member)) id
    · rw [seen]
      apply (pruned.covered.mono Covers.later).step Covers.trans
      · intro k member
        rcases covered k member with still | gone
        · refine .inl ⟨k, ?_, Covers.refl k⟩
          split
          · exact still
          · exact List.mem_append_left _ still
        · exact .inr (covers_deleted order bound (pruned.inside k member) gone)
      · by_cases skipped : scan.skipAddCur = true
        · obtain ⟨r, member, stands⟩ := (skips skipped).resolve_left (by simp)
          refine ⟨r, by simpa [skipped] using member, ?_⟩
          exact covers_skipped order bound (pruned.inside r (inside r member)) stands
        · exact ⟨_, by simp [skipped], Covers.refl _⟩
    · rintro ⟨i, earlier, unordered, apart, write⟩
      obtain ⟨k, member, covers⟩ := pruned.covered (acc i).record ⟨i, earlier, rfl⟩
      refine races ⟨k, member, covers.racy (le_refl m) bound ⟨?_, apart, ?_⟩⟩
      · rw [← (order.decided i m earlier bound).2]
        exact unordered
      · simpa [Access.record] using write

/-- The whole run: every call meets the condition on stale out-parameters. -/
theorem checkAll_pruned {acc : Nat → Access} {n : Nat} {before : Nat → Nat → Bool}
    {flags : ReportFlags} (order : DecidedOrder acc n before) (checked : ∀ m < n, (acc m).Plain)
    (harmless : ∀ m < n, ∀ done, checkAll flags acc m = .ok done →
      done.history.dataRaceFound = false → StaleHarmless (acc m).context (acc m).record
        (false, (acc m).uninitialised.diffIndex) done.history.records)
    {m : Nat} (within : m ≤ n) :
    ∃ done, checkAll flags acc m = .ok done ∧
      (done.history.dataRaceFound ∨ Pruned acc n m done.history) ∧
      ((∃ i j, i < j ∧ j < m ∧ Race acc before i j) → done.history.dataRaceFound) := by
  induction m with
  | zero =>
    refine ⟨_, rfl, .inr ⟨rfl, by simp [AccessHistory.new], ?_⟩, ?_⟩
    · rintro r ⟨i, none, -⟩
      omega
    · rintro ⟨i, j, -, none, -⟩
      omega
  | succ m ih =>
    obtain ⟨done, ran, state, races⟩ := ih (by omega)
    have calls : checkAll flags acc (m + 1) =
        checkDataRace flags done.history (acc m) done.reports := by
      simp only [checkAll, ran, bind, Except.bind]
    rw [calls]
    by_cases found : done.history.dataRaceFound = true
    · have kind := not_or.mpr (checked m (by omega)).shared
      refine ⟨⟨{ done.history with records := [] }, done.reports, (acc m).context.taskDepGraph⟩, ?_,
        .inl found, fun _ => found⟩
      simp only [checkDataRace, (checked m (by omega)).noHwLock, kind, found, Bool.false_eq_true,
        if_false, if_true]
    · have clean : done.history.dataRaceFound = false := by simpa using found
      have pruned := state.resolve_left found
      obtain ⟨next, checks, state', now⟩ := checkDataRace_pruned flags order (by omega)
        (checked m (by omega)) done.reports clean pruned (harmless m (by omega) done ran clean)
      refine ⟨next, checks, state', ?_⟩
      rintro ⟨i, j, less, bound, race⟩
      rcases Nat.lt_succ_iff_lt_or_eq.mp bound with earlier | rfl
      · exact absurd (races ⟨i, j, less, earlier, race⟩) found
      · exact now ⟨i, less, race⟩

/-- Pruning loses no race in a run in which the stale out-parameters do no harm. -/
theorem race_found {acc : Nat → Access} {n : Nat} {before : Nat → Nat → Bool} {flags : ReportFlags}
    (order : DecidedOrder acc n before) (checked : ∀ m < n, (acc m).Plain)
    (harmless : ∀ m < n, ∀ done, checkAll flags acc m = .ok done →
      done.history.dataRaceFound = false → StaleHarmless (acc m).context (acc m).record
        (false, (acc m).uninitialised.diffIndex) done.history.records)
    (race : ∃ i j, i < j ∧ j < n ∧ Race acc before i j) :
    ∃ done, checkAll flags acc n = .ok done ∧ done.history.dataRaceFound = true := by
  obtain ⟨done, ran, -, races⟩ := checkAll_pruned order checked harmless (le_refl n)
  exact ⟨done, ran, races race⟩

def siblingsHeap : Except Abort Heap := do
  let (h, root) ← genInitTaskLabel Heap.empty
  let (h, label) ← genImpTaskLabel h root 0 2
  let (h, _) ← genExpTaskLabel h label
  let (h, label) ← mutateParentTaskCreate h label
  let (h, _) ← genExpTaskLabel h label
  .ok h

def siblings : Context where
  heap := siblingsHeap.toOption.getD Heap.empty
  tasks := fun task => { TaskData.new with isExplicitTask := task ≠ 1 }
  taskDepGraph := some TaskDepGraph.empty

def siblingAccess (task : Nat) (label : Label) (locks : Option SmallLockSet) : Access where
  context := siblings
  label := label
  lockSet := locks
  info := ⟨task, 0, true, false, 0, .eNonThreadPrivate⟩
  uninitialised := ⟨0, 0⟩

def oneLock : SmallLockSet := ⟨[7], by decide⟩

def lostRace : Nat → Access
  | 0 => siblingAccess 1 [0, 1] none
  | 1 => siblingAccess 2 [0, 1, 2] (some oneLock)
  | 2 => siblingAccess 3 [0, 3, 4] (some oneLock)
  | _ => siblingAccess 3 [0, 3, 4] none

def lostRaceOrder (i _j : Nat) : Bool := i != 1

theorem pairs_below_four {i j : Nat} (less : i < j) (bound : j < 4) :
    (i = 0 ∧ j = 1) ∨ (i = 0 ∧ j = 2) ∨ (i = 0 ∧ j = 3) ∨ (i = 1 ∧ j = 2) ∨ (i = 1 ∧ j = 3) ∨ (i = 2 ∧ j = 3) := by
  omega

theorem lostRace_order : DecidedOrder lostRace 4 lostRaceOrder where
  decided := by
    intro i j less bound
    rcases pairs_below_four less bound with ⟨rfl, rfl⟩ | ⟨rfl, rfl⟩ | ⟨rfl, rfl⟩ | ⟨rfl, rfl⟩ | ⟨rfl, rfl⟩ | ⟨rfl, rfl⟩
    · exact ⟨decides_of_ok (true, siblings.taskDepGraph) rfl (.inr rfl), rfl⟩
    · exact ⟨decides_of_ok (true, siblings.taskDepGraph) rfl (.inr rfl), rfl⟩
    · exact ⟨decides_of_ok (true, siblings.taskDepGraph) rfl (.inr rfl), rfl⟩
    · exact ⟨decides_of_ok (false, siblings.taskDepGraph) rfl (.inl (by decide)), rfl⟩
    · exact ⟨decides_of_ok (false, siblings.taskDepGraph) rfl (.inl (by decide)), rfl⟩
    · exact ⟨decides_of_ok (true, siblings.taskDepGraph) rfl (.inr rfl), rfl⟩
  trans := fun _ _ _ _ _ _ first _ => first
  alike := by
    intro i j less bound same
    rcases pairs_below_four less bound with ⟨rfl, rfl⟩ | ⟨rfl, rfl⟩ | ⟨rfl, rfl⟩ | ⟨rfl, rfl⟩ | ⟨rfl, rfl⟩ | ⟨rfl, rfl⟩
    · exact absurd same (by decide)
    · exact absurd same (by decide)
    · exact absurd same (by decide)
    · exact absurd same (by decide)
    · exact absurd same (by decide)
    · exact ⟨fun _ _ _ => rfl, fun _ _ => rfl⟩

theorem siblingAccess_plain (task : Nat) (label : Label) (locks : Option SmallLockSet) :
    (siblingAccess task label locks).Plain :=
  ⟨rfl, by simp [siblingAccess], rfl⟩

theorem lostRace_plain (m : Nat) : (lostRace m).Plain := by
  match m with
  | 0 => exact siblingAccess_plain ..
  | 1 => exact siblingAccess_plain ..
  | 2 => exact siblingAccess_plain ..
  | m + 3 => exact siblingAccess_plain ..

/-- The second child's first write deletes the record of the first child, with which it shares the
    lock, on the strength of the verdict about the parent: its second write then races unseen. -/
theorem race_lost : ¬ ∀ (acc : Nat → Access) (n : Nat) (before : Nat → Nat → Bool)
    (flags : ReportFlags), DecidedOrder acc n before → (∀ m < n, (acc m).Plain) →
      (∃ i j, i < j ∧ j < n ∧ Race acc before i j) →
        ∃ done, checkAll flags acc n = .ok done ∧ done.history.dataRaceFound = true := by
  intro found
  have race : Race lostRace lostRaceOrder 1 3 :=
    ⟨rfl, fun ⟨_, _, held⟩ => (by cases held), .inl rfl⟩
  obtain ⟨done, ran, flag⟩ := found lostRace 4 lostRaceOrder ⟨true, false⟩ lostRace_order
    (fun m _ => lostRace_plain m) ⟨1, 3, by decide, by decide, race⟩
  have missed : (checkAll ⟨true, false⟩ lostRace 4).map (fun c => c.history.dataRaceFound) = .ok false := rfl
  rw [ran] at missed
  simp only [Except.map, Except.ok.injEq, flag] at missed
  cases missed

def foundRace : Nat → Access
  | 0 => siblingAccess 2 [0, 1, 2] none
  | _ => siblingAccess 3 [0, 3, 4] none

def twoLocks : SmallLockSet := ⟨[7, 8], by decide⟩

/-- The parent writes under a lock, and again without it, which deletes the first record. The children write with a lock
    in common, so that the second one skips the record of the first, and then the second one without a lock. -/
def prunedRace : Nat → Access
  | 0 => siblingAccess 1 [0, 1] (some oneLock)
  | 1 => siblingAccess 1 [0, 1] none
  | 2 => siblingAccess 2 [0, 1, 2] (some oneLock)
  | 3 => siblingAccess 3 [0, 3, 4] (some twoLocks)
  | _ => siblingAccess 3 [0, 3, 4] none

def prunedRaceOrder (i _j : Nat) : Bool := i != 2

theorem prunedRace_before {i j : Nat} (less : i < j) (bound : j < 5) :
    Decides (prunedRace j).context (prunedRace j).record (prunedRace i).record ∧
      prunedRaceOrder i j = orderedBefore (prunedRace j).context (prunedRace i).record (prunedRace j).record := by
  have cases : (i = 0 ∧ j = 1) ∨ (i = 0 ∧ j = 2) ∨ (i = 0 ∧ j = 3) ∨ (i = 0 ∧ j = 4) ∨ (i = 1 ∧ j = 2) ∨ (i = 1 ∧ j = 3) ∨
      (i = 1 ∧ j = 4) ∨ (i = 2 ∧ j = 3) ∨ (i = 2 ∧ j = 4) ∨ (i = 3 ∧ j = 4) := by omega
  rcases cases with ⟨rfl, rfl⟩ | ⟨rfl, rfl⟩ | ⟨rfl, rfl⟩ | ⟨rfl, rfl⟩ | ⟨rfl, rfl⟩ | ⟨rfl, rfl⟩ | ⟨rfl, rfl⟩ | ⟨rfl, rfl⟩ |
    ⟨rfl, rfl⟩ | ⟨rfl, rfl⟩
  case inr.inr.inr.inr.inr.inr.inr.inl => exact ⟨decides_of_ok (false, siblings.taskDepGraph) rfl (.inl (by decide)), rfl⟩
  case inr.inr.inr.inr.inr.inr.inr.inr.inl =>
    exact ⟨decides_of_ok (false, siblings.taskDepGraph) rfl (.inl (by decide)), rfl⟩
  all_goals exact ⟨decides_of_ok (true, siblings.taskDepGraph) rfl (.inr rfl), rfl⟩

theorem prunedRace_order : DecidedOrder prunedRace 5 prunedRaceOrder where
  decided := fun _ _ => prunedRace_before
  trans := fun _ _ _ _ _ _ first _ => first
  alike := by
    intro i j less bound same
    refine ⟨fun k later within => ?_, fun _ _ => rfl⟩
    have apart : i ≠ 2 ∧ j ≠ 2 := by
      have cases : (i = 0 ∧ j = 2) ∨ (i = 1 ∧ j = 2) ∨ (i = 2 ∧ j = 3) ∨ i ≠ 2 ∧ j ≠ 2 := by omega
      rcases cases with ⟨rfl, rfl⟩ | ⟨rfl, rfl⟩ | ⟨rfl, rfl⟩ | apart
      · exact absurd same (by decide)
      · exact absurd same (by decide)
      · exact absurd same (by decide)
      · exact apart
    rw [prunedRaceOrder, prunedRaceOrder, bne_iff_ne.mpr apart.1, bne_iff_ne.mpr apart.2]

theorem prunedRace_plain (m : Nat) : (prunedRace m).Plain := by
  match m with
  | 0 => exact siblingAccess_plain ..
  | 1 => exact siblingAccess_plain ..
  | 2 => exact siblingAccess_plain ..
  | 3 => exact siblingAccess_plain ..
  | m + 4 => exact siblingAccess_plain ..

theorem race_found_children :
    ∃ done, checkAll ⟨true, false⟩ prunedRace 5 = .ok done ∧ done.history.dataRaceFound = true := by
  refine race_found prunedRace_order (fun m _ => prunedRace_plain m) ?_ ⟨2, 4, by decide, by decide, ?_⟩
  · intro m bound done ran _
    match m, bound with
    | 0, _ =>
      obtain rfl : done = ⟨AccessHistory.new, RaceReports.none, none⟩ := by cases ran; rfl
      trivial
    | 1, _ =>
      obtain rfl : done = ⟨⟨0, [(prunedRace 0).record]⟩, RaceReports.none, siblings.taskDepGraph⟩ := by
        cases ran; rfl
      trivial
    | 2, _ =>
      obtain rfl : done = ⟨⟨0, [(prunedRace 1).record]⟩, RaceReports.none, siblings.taskDepGraph⟩ := by
        cases ran; rfl
      trivial
    | 3, _ =>
      obtain rfl : done = ⟨⟨0, [(prunedRace 1).record, (prunedRace 2).record]⟩, RaceReports.none,
        siblings.taskDepGraph⟩ := by cases ran; rfl
      exact ⟨by decide, by decide, .inl ⟨7, by decide, by decide⟩, trivial⟩
    | 4, _ =>
      obtain rfl : done = ⟨⟨0, [(prunedRace 1).record, (prunedRace 2).record, (prunedRace 3).record]⟩, RaceReports.none,
        siblings.taskDepGraph⟩ := by cases ran; rfl
      trivial
  · exact ⟨rfl, fun ⟨_, _, held⟩ => (by cases held), .inl rfl⟩

end Romp
