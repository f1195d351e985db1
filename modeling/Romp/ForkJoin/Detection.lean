import Romp.ForkJoin.Plain
import Romp.ForkJoin.Scan

open ForkJoin

namespace Romp

/-- What holds of the program under test and of the order of its accesses, in every state of a run. -/
structure Subject.Ordered (p : Subject) (V W : Nat → Path) : Prop where
  tracked : Tracked p.system V W
  guarded : ∀ t, (p.system.detector.data t).Guarded (p.guards t)
  fresh : ∀ t, (t < p.system.runtime.tasks → (p.system.runtime.task t).begun = false) → p.guards t = .bare
  count : p.made.length = p.system.runtime.accesses
  decided : ∀ i j, i < j → j < p.made.length →
    comparePaths (W i) (W j) ≠ .bad ∧ (p.past j i = true ↔ comparePaths (W i) (W j) = .before)
  headed : ∀ a < p.made.length, Headed (W a)

structure Subject.Onward (p p' : Subject) (W W' : Nat → Path) : Prop where
  made : ∃ more, p'.made = p.made ++ more
  heap : p.system.detector.heap.Extends p'.system.detector.heap
  held : ∀ a < p.made.length, p'.held a = p.held a
  past : ∀ a < p.made.length, p'.past a = p.past a
  paths : ∀ a < p.made.length, W' a = W a

section Judged

variable (p : Subject) (slot : Slot) (W : Nat → Path)

structure RecordOf (r : Record) (k : Nat) : Prop where
  holds : p.system.detector.heap.Holds r.label
  encodes : Encodes (p.system.detector.heap.read r.label) (W k)
  locks : lockBag r.lockSet = (p.held k).locks
  touched : ∃ u, p.made[k]? = some u ∧ u.slot = slot ∧ ¬u.Unchecked ∧ r.isWrite = u.isWrite ∧ r.instnAddr = u.instnAddr

/-- The accesses that the history has to account for: those of the initial task come before or after all others. -/
structure Checks (k : Nat) (u : Touch) : Prop where
  made : p.made[k]? = some u
  slot : u.slot = slot
  checked : ¬u.Unchecked
  long : 2 ≤ (W k).length

def Bare : Prop := ∀ k u, p.made[k]? = some u → u.slot = slot → p.held k = .bare

/-- Records that tell of the first `n` accesses, between which there is no race. -/
structure Accounted (n : Nat) (records : List Record) : Prop where
  apart : ∀ i j u v, p.Race i j u v → u.slot = slot → ¬j < n
  covered : ∀ i < n, ∀ u, Checks p slot W i u → ∃ r ∈ records, ∃ k < n, RecordOf p slot W r k ∧
    comparePaths (W i) (W k) = .before ∧ (u.isWrite = true → r.isWrite = true)

/-- What a history tells of the first `n` accesses. It tells of all of them where nothing protects them. -/
structure Judged (n : Nat) (h : AccessHistory) : Prop where
  fresh : h.memIsRecycled = false
  inside : ∀ r ∈ h.records, ∃ k < n, RecordOf p slot W r k
  found : h.dataRaceFound = true → ∃ i j u v, p.Race i j u v ∧ u.slot = slot ∧ j < n
  clean : Bare p slot → h.dataRaceFound = false → Accounted p slot W n h.records

def Precedes (n : Nat) (r : Record) : Prop := ∃ k < n, RecordOf p slot W r k ∧ comparePaths (W k) (W n) = .before

/-- The loop for access `n`, whose record is `cur`, when it has `done` with some records and has kept some of these. -/
structure Thorough (n : Nat) (cur : Record) (skips : Bool) (done kept records : List Record) (h : AccessHistory) :
    Prop where
  started : Accounted p slot W n (done ++ records)
  clean : h.dataRaceFound = false → ∀ r ∈ done, r.isWrite = true ∨ cur.isWrite = true → Precedes p slot W n r
  deleted : ∀ r ∈ done, r ∈ kept ∨ Precedes p slot W n r ∧ (r.isWrite = true → cur.isWrite = true)
  skipped : skips = true → ∃ r ∈ kept, ∃ k < n, RecordOf p slot W r k ∧ W k = W n ∧
    (cur.isWrite = true → r.isWrite = true)

structure Underway (n : Nat) (cur : Record) (skips : Bool) (done kept records : List Record) (h : AccessHistory) :
    Prop where
  own : RecordOf p slot W cur n
  fresh : h.memIsRecycled = false
  within : ∀ r ∈ done ++ records, ∃ k < n, RecordOf p slot W r k
  inside : ∀ r ∈ kept, r ∈ done
  found : h.dataRaceFound = true → ∃ i u v, p.Race i n u v
  thorough : Bare p slot → Thorough p slot W n cur skips done kept records h

end Judged

section Onward

variable {p p' : Subject} {slot : Slot} {V W W' : Nat → Path} {n m : Nat} {r : Record} {h : AccessHistory}

theorem Subject.Race.slots {i j : Nat} {u v : Touch} (race : p.Race i j u v) : u.slot = v.slot :=
  (slot_default_iff _ _).mpr race.sameByte

theorem Subject.Race.made {i j : Nat} {u v : Touch} (race : p.Race i j u v) : j < p.made.length :=
  (List.getElem?_eq_some_iff.mp race.second).1

theorem RecordOf.made (stands : RecordOf p slot W r n) : n < p.made.length := by
  obtain ⟨u, made, -⟩ := stands.touched
  exact (List.getElem?_eq_some_iff.mp made).1

theorem Checks.bound {u : Touch} (checks : Checks p slot W n u) : n < p.made.length :=
  (List.getElem?_eq_some_iff.mp checks.made).1

theorem Subject.Ordered.race (ordered : p.Ordered V W) {i j : Nat} {u v : Touch} (race : p.Race i j u v) :
    2 ≤ (W i).length ∧ 2 ≤ (W j).length := by
  obtain ⟨decided, order⟩ := ordered.decided i j race.order race.made
  have apart : comparePaths (W i) (W j) = .concurrent := by
    cases verdict : comparePaths (W i) (W j) with
    | before => exact absurd (race.unordered.symm.trans (order.mpr verdict)) Bool.false_ne_true
    | bad => exact absurd verdict decided
    | concurrent => rfl
  exact (ordered.headed i (race.order.trans race.made)).concurrent (ordered.headed j race.made) apart

theorem Subject.Ordered.race_checks (ordered : p.Ordered V W) {i j : Nat} {u v : Touch} (race : p.Race i j u v)
    (here : u.slot = slot) : Checks p slot W i u ∧ Checks p slot W j v :=
  ⟨⟨race.first, here, race.checked.1, (ordered.race race).1⟩,
    ⟨race.second, race.slots.symm.trans here, race.checked.2, (ordered.race race).2⟩⟩

theorem Subject.Ordered.race_iff (ordered : p.Ordered V W) {i j : Nat} (order : i < j) {u v : Touch}
    (first : p.made[i]? = some u) (second : p.made[j]? = some v) (same : u.slot = v.slot)
    (checked : ¬u.Unchecked ∧ ¬v.Unchecked) (write : u.isWrite = true ∨ v.isWrite = true)
    (exposed : ∀ lock ∈ (p.held i).locks.getD 0, lock ∉ (p.held j).locks.getD 0) (calm : (p.held j).reduces = false) :
    p.Race i j u v ↔ comparePaths (W i) (W j) ≠ .before := by
  have before := (ordered.decided i j order (List.getElem?_eq_some_iff.mp second).1).2
  rw [ne_eq, ← before, Bool.not_eq_true]
  exact ⟨Subject.Race.unordered, fun unordered =>
    ⟨order, first, second, unordered, (slot_default_iff _ _).mp same, checked, write, exposed, calm⟩⟩

theorem Subject.Onward.refl (p : Subject) (W : Nat → Path) : p.Onward p W W :=
  ⟨⟨[], (List.append_nil _).symm⟩, .refl _, fun _ _ => rfl, fun _ _ => rfl, fun _ _ => rfl⟩

namespace Subject.Onward

variable (onward : p.Onward p' W W')

include onward

theorem length : p.made.length ≤ p'.made.length := by
  obtain ⟨more, made⟩ := onward.made
  rw [made, List.length_append]
  omega

theorem made_eq {k : Nat} (bound : k < p.made.length) : p'.made[k]? = p.made[k]? := by
  obtain ⟨more, made⟩ := onward.made
  rw [made, List.getElem?_append_left bound]

theorem race_iff {i j : Nat} (bound : j < p.made.length) {u v : Touch} : p'.Race i j u v ↔ p.Race i j u v := by
  constructor
  · intro race
    have first := onward.made_eq (race.order.trans bound)
    have second := onward.made_eq bound
    have held := onward.held i (race.order.trans bound)
    have held' := onward.held j bound
    exact ⟨race.order, first ▸ race.first, second ▸ race.second, onward.past j bound ▸ race.unordered, race.sameByte,
      race.checked, race.write, held' ▸ held ▸ race.exposed, held' ▸ race.calm⟩
  · intro race
    have first := onward.made_eq (race.order.trans bound)
    have second := onward.made_eq bound
    have held := onward.held i (race.order.trans bound)
    have held' := onward.held j bound
    exact ⟨race.order, first ▸ race.first, second ▸ race.second, onward.past j bound ▸ race.unordered, race.sameByte,
      race.checked, race.write, held' ▸ held ▸ race.exposed, held' ▸ race.calm⟩

theorem bare (bare : Bare p' slot) : Bare p slot := by
  intro k u made here
  have bound := (List.getElem?_eq_some_iff.mp made).1
  rw [← onward.held k bound]
  exact bare k u ((onward.made_eq bound).trans made) here

theorem race {i j : Nat} {u v : Touch} (race : p.Race i j u v) : p'.Race i j u v := (onward.race_iff race.made).mpr race

theorem recordOf (stands : RecordOf p slot W r n) : RecordOf p' slot W' r n := by
  refine ⟨stands.holds.extend onward.heap, ?_, ?_, ?_⟩
  · rw [stands.holds.read onward.heap, onward.paths n stands.made]
    exact stands.encodes
  · rw [onward.held n stands.made]
    exact stands.locks
  · rw [onward.made_eq stands.made]
    exact stands.touched

theorem checks {u : Touch} (bound : n < p.made.length) (checks : Checks p' slot W' n u) : Checks p slot W n u :=
  ⟨onward.made_eq bound ▸ checks.made, checks.slot, checks.checked, onward.paths n bound ▸ checks.long⟩

theorem precedes (bound : n < p.made.length) (precedes : Precedes p slot W n r) : Precedes p' slot W' n r := by
  obtain ⟨k, before, stands, order⟩ := precedes
  refine ⟨k, before, onward.recordOf stands, ?_⟩
  rwa [onward.paths k stands.made, onward.paths n bound]

theorem accounted (ordered : p'.Ordered V W') {records : List Record} (accounted : Accounted p slot W n records)
    (seen : n ≤ p.made.length) (more : n ≤ m) (idle : ∀ k u, n ≤ k → k < m → ¬Checks p' slot W' k u) :
    Accounted p' slot W' m records := by
  have old : ∀ k u, k < m → Checks p' slot W' k u → k < n := by
    intro k u bound checks
    by_contra late
    exact idle k u (by omega) bound checks
  refine ⟨fun i j u v race here bound => ?_, fun i bound u checks => ?_⟩
  · have before := old j v bound (ordered.race_checks race here).2
    exact accounted.apart i j u v ((onward.race_iff (by omega)).mp race) here before
  · have before := old i u bound checks
    obtain ⟨r, member, k, early, stands, order, write⟩ :=
      accounted.covered i before u (onward.checks (by omega) checks)
    refine ⟨r, member, k, by omega, onward.recordOf stands, ?_, write⟩
    rwa [onward.paths i (by omega), onward.paths k stands.made]

theorem judged (ordered : p'.Ordered V W') (judged : Judged p slot W n h) (seen : n ≤ p.made.length) (more : n ≤ m)
    (idle : ∀ k u, n ≤ k → k < m → ¬Checks p' slot W' k u) : Judged p' slot W' m h := by
  refine ⟨judged.fresh, fun r member => ?_, fun found => ?_, fun bare clean => ?_⟩
  · obtain ⟨k, before, stands⟩ := judged.inside r member
    exact ⟨k, by omega, onward.recordOf stands⟩
  · obtain ⟨i, j, u, v, race, here, bound⟩ := judged.found found
    exact ⟨i, j, u, v, onward.race race, here, by omega⟩
  · exact onward.accounted ordered (judged.clean (onward.bare bare) clean) seen more idle

theorem thorough (ordered : p'.Ordered V W') (bound : n < p.made.length) {cur : Record} {skips : Bool}
    {done kept records : List Record} (thorough : Thorough p slot W n cur skips done kept records h) :
    Thorough p' slot W' n cur skips done kept records h := by
  have precedes : ∀ r, Precedes p slot W n r → Precedes p' slot W' n r := fun r => onward.precedes bound
  refine ⟨?_, fun clean r member write => precedes r (thorough.clean clean r member write),
    fun r member => (thorough.deleted r member).imp_right (And.imp_left (precedes r)), fun skips => ?_⟩
  · exact onward.accounted ordered thorough.started (by omega) (le_refl n) fun k u late early => by omega
  · obtain ⟨r, stays, k, early, stands, same, write⟩ := thorough.skipped skips
    refine ⟨r, stays, k, early, onward.recordOf stands, ?_, write⟩
    rw [onward.paths k stands.made, onward.paths n bound, same]

theorem underway (ordered : p'.Ordered V W') {cur : Record} {skips : Bool} {done kept records : List Record}
    (underway : Underway p slot W n cur skips done kept records h) :
    Underway p' slot W' n cur skips done kept records h := by
  refine ⟨onward.recordOf underway.own, underway.fresh, fun r member => ?_, underway.inside, fun found => ?_,
    fun bare => onward.thorough ordered underway.own.made (underway.thorough (onward.bare bare))⟩
  · obtain ⟨k, early, stands⟩ := underway.within r member
    exact ⟨k, early, onward.recordOf stands⟩
  · obtain ⟨i, u, v, race⟩ := underway.found found
    exact ⟨i, u, v, onward.race race⟩

end Subject.Onward

end Onward

section Loop

variable {p : Subject} {slot : Slot} {V W : Nat → Path} {n : Nat} {cur r : Record} {skips : Bool}
  {done kept records : List Record} {h : AccessHistory} (ordered : p.Ordered V W)

theorem RecordOf.path {i k : Nat} (stands : RecordOf p slot W r i) (stands' : RecordOf p slot W r k) : W i = W k :=
  stands.encodes.unique stands'.encodes

theorem Underway.start (judged : Judged p slot W n h) (clean : h.dataRaceFound = false) (own : RecordOf p slot W cur n) :
    Underway p slot W n cur false [] [] h.records h := by
  refine ⟨own, judged.fresh, judged.inside, fun r none => absurd none List.not_mem_nil, fun found => ?_, fun bare => ?_⟩
  · exact absurd (clean.symm.trans found) Bool.false_ne_true
  · refine ⟨judged.clean bare clean, fun _ r none => ?_, fun r none => ?_, fun skips => ?_⟩
    · exact absurd none List.not_mem_nil
    · exact absurd none List.not_mem_nil
    · exact absurd skips Bool.false_ne_true

namespace Underway

include ordered

theorem judges {ctx : Context} (heap : ctx.heap = p.system.detector.heap) (own : RecordOf p slot W cur n) {k : Nat}
    (stands : RecordOf p slot W r k) (early : k < n) : Judges ctx cur r (decide (comparePaths (W k) (W n) = .before)) := by
  rw [Judges, heap]
  exact happensBefore_paths stands.encodes own.encodes (ordered.decided k n early own.made).1

theorem real_race (own : RecordOf p slot W cur n) {k : Nat} (stands : RecordOf p slot W r k) (early : k < n)
    (conflicts : conflict cur r (decide (comparePaths (W k) (W n) = .before)) = true) {ctx : Context}
    (met : ¬Spared ctx cur r) (calm : (p.held n).reduces = (ctx.tasks cur.taskPtr).inReduction) {u : Touch}
    (made : p.made[n]? = some u) : ∃ v, p.Race k n v u ∧ r.instnAddr = v.instnAddr := by
  obtain ⟨v, made', here', checked', write', address⟩ := stands.touched
  obtain ⟨u', made'', here, checked, write, -⟩ := own.touched
  obtain rfl : u' = u := Option.some.inj (made''.symm.trans made)
  have exposed := not_spared_locks met
  rw [stands.locks, own.locks] at exposed
  have quiet := Bool.eq_false_iff.mpr (not_or.mp met).2
  rw [conflict, Bool.and_eq_true, Bool.not_eq_true', decide_eq_false_iff_not, Bool.or_eq_true, write, write'] at conflicts
  refine ⟨v, ?_, address⟩
  exact (ordered.race_iff early made' made (here'.trans here.symm) ⟨checked', checked⟩ conflicts.2 exposed
    (calm.trans quiet)).mpr conflicts.1

omit ordered in
theorem bare_record (own : RecordOf p slot W cur n) (bare : Bare p slot) {ctx : Context}
    (calm : (p.held n).reduces = (ctx.tasks cur.taskPtr).inReduction) : cur.Bare ctx := by
  obtain ⟨u, made, here, -⟩ := own.touched
  have held := bare n u made here
  have locks := own.locks
  rw [held] at locks calm
  exact ⟨Option.map_eq_none_iff.mp locks, calm.symm⟩

theorem scan (underway : Underway p slot W n cur skips done kept (r :: records) h) {ctx : Context}
    {checkInfo : CheckInfo} {k : Nat} (stands : RecordOf p slot W r k) (early : k < n) {scan scan' : Scan}
    {stays races : Bool}
    (scanned : Scanned ctx checkInfo cur r (decide (comparePaths (W k) (W n) = .before)) scan scan' stays races)
    (heap : ctx.heap = p.system.detector.heap) (calm : (p.held n).reduces = (ctx.tasks cur.taskPtr).inReduction)
    (state : scan.state = h.state) (skipAddCur : scan.skipAddCur = skips) :
    Underway p slot W n cur scan'.skipAddCur (done ++ [r]) (if stays then kept ++ [r] else kept) records
      ⟨scan'.state, (if stays then kept ++ [r] else kept) ++ records⟩ := by
  have found : scan'.found = (h.dataRaceFound || races) := by
    rw [scanned.found, Scan.found, state]
    rfl
  have stay : ∀ x ∈ kept, x ∈ (if stays then kept ++ [r] else kept) := by
    intro x member
    split
    · exact List.mem_append_left _ member
    · exact member
  have whole : (done ++ [r]) ++ records = done ++ r :: records := List.append_assoc ..
  refine ⟨underway.own, ?_, ?_, fun x member => ?_, fun raced => ?_, fun bare => ?_⟩
  · apply scanned.recycled.trans
    rw [Scan.recycled, state]
    exact underway.fresh
  · rw [whole]
    exact underway.within
  · split at member
    · rcases List.mem_append.mp member with old | new
      · exact List.mem_append_left _ (underway.inside x old)
      · exact List.mem_append_right _ new
    · exact List.mem_append_left _ (underway.inside x member)
  · rcases Bool.or_eq_true_iff.mp (found.symm.trans raced) with earlier | now
    · exact underway.found earlier
    · obtain ⟨conflicts, met⟩ := scanned.real now
      obtain ⟨u, made, -⟩ := underway.own.touched
      obtain ⟨v, race, -⟩ := real_race ordered underway.own stands early conflicts met calm made
      exact ⟨k, v, u, race⟩
  · have exposed := bare_record underway.own bare calm
    have thorough := underway.thorough bare
    refine ⟨whole ▸ thorough.started, fun clean x member write => ?_, fun x member => ?_, fun skipped => ?_⟩
    · obtain ⟨earlier, quiet⟩ := Bool.or_eq_false_iff.mp (found.symm.trans clean)
      rcases List.mem_append.mp member with old | new
      · exact thorough.clean earlier x old write
      · obtain rfl := List.mem_singleton.mp new
        refine ⟨k, early, stands, ?_⟩
        by_contra unordered
        rw [scanned.misses exposed, conflict, decide_eq_false unordered, Bool.not_false, Bool.true_and,
          Bool.or_eq_false_iff] at quiet
        rcases write with wrote | writes
        · exact absurd (quiet.1.symm.trans wrote) Bool.false_ne_true
        · exact absurd (quiet.2.symm.trans writes) Bool.false_ne_true
    · rcases List.mem_append.mp member with old | new
      · exact (thorough.deleted x old).imp_left (stay x)
      · obtain rfl := List.mem_singleton.mp new
        cases remains : stays with
        | true => exact .inl (List.mem_append_right _ (List.mem_singleton_self x))
        | false =>
          obtain ⟨before, write⟩ := scanned.deleted exposed remains
          exact .inr ⟨⟨k, early, stands, of_decide_eq_true before⟩, write⟩
    · rcases scanned.skips exposed skipped with earlier | ⟨remains, same, write⟩
      · obtain ⟨x, member, rest⟩ := thorough.skipped (skipAddCur.symm.trans earlier)
        exact ⟨x, stay x member, rest⟩
      · refine ⟨r, ?_, k, early, stands, ?_, write⟩
        · rw [remains, if_pos rfl]
          exact List.mem_append_right _ (List.mem_singleton_self r)
        · rw [sameLabel, heap] at same
          exact path_of_sameLabel stands.encodes underway.own.encodes same

omit ordered in
/-- A record of the access, or of one with its label, is left. -/
theorem stands_for (own : RecordOf p slot W cur n) (thorough : Thorough p slot W n cur skips done kept [] h) :
    ∃ r ∈ (if skips then kept else kept ++ [cur]), ∃ k < n + 1, RecordOf p slot W r k ∧
      comparePaths (W n) (W k) = .before ∧ (cur.isWrite = true → r.isWrite = true) := by
  have self : comparePaths (W n) (W n) = .before := by simpa using comparePaths_self (W n) []
  cases leaves : skips with
  | true =>
    obtain ⟨r, member, k, early, stands, same, write⟩ := thorough.skipped leaves
    exact ⟨r, member, k, by omega, stands, same ▸ self, write⟩
  | false => exact ⟨cur, List.mem_append_right _ (List.mem_singleton_self cur), n, by omega, own, self, id⟩

theorem finish (underway : Underway p slot W n cur skips done kept [] h) :
    Judged p slot W (n + 1) { h with records := if skips then kept else kept ++ [cur] } := by
  obtain ⟨u, made, here, checked, write, -⟩ := underway.own.touched
  have stay : ∀ r ∈ kept, r ∈ (if skips then kept else kept ++ [cur]) := by
    intro r member
    split
    · exact member
    · exact List.mem_append_left _ member
  have old : ∀ r ∈ kept, ∃ k < n + 1, RecordOf p slot W r k := by
    intro r member
    obtain ⟨k, early, stands⟩ := underway.within r (List.mem_append_left _ (underway.inside r member))
    exact ⟨k, by omega, stands⟩
  refine ⟨underway.fresh, fun r member => ?_, fun found => ?_, fun bare clean => ?_⟩
  · split at member
    · exact old r member
    · rcases List.mem_append.mp member with kept | new
      · exact old r kept
      · rw [List.mem_singleton.mp new]
        exact ⟨n, Nat.lt_succ_self n, underway.own⟩
  · obtain ⟨i, v, v', race⟩ := underway.found found
    obtain rfl : v' = u := Option.some.inj (race.second.symm.trans made)
    exact ⟨i, n, v, v', race, race.slots.trans here, Nat.lt_succ_self n⟩
  · have thorough := underway.thorough bare
    have started := thorough.started
    rw [List.append_nil] at started
    obtain ⟨cover, present, k, early, stands, after, writes⟩ := stands_for underway.own thorough
    refine ⟨fun i j v v' race here' bound => ?_, fun i bound v checks => ?_⟩
    · -- a record covers the earlier access of the race, and comes before the later one
      have last : j = n := by
        by_contra other
        exact started.apart i j v v' race here' (by omega)
      subst last
      obtain rfl : v' = u := Option.some.inj (race.second.symm.trans made)
      obtain ⟨r, member, k', -, stands', chain, kept'⟩ :=
        started.covered i race.order v (ordered.race_checks race here').1
      obtain ⟨k'', -, stands'', order⟩ := thorough.clean clean r member (race.write.imp kept' fun w => write.trans w)
      refine (ordered.race_iff race.order race.first race.second race.slots race.checked race.write race.exposed
        race.calm).mp race ?_
      rw [stands'.path stands''] at chain
      exact comparePaths_trans chain order
    · by_cases last : i = n
      · subst last
        obtain rfl : v = u := Option.some.inj (checks.made.symm.trans made)
        exact ⟨cover, present, k, early, stands, after, fun w => writes (write.trans w)⟩
      · obtain ⟨r, member, k', early', stands', chain, kept'⟩ := started.covered i (by omega) v checks
        rcases thorough.deleted r member with stays | ⟨⟨k'', -, stands'', order⟩, wrote⟩
        · exact ⟨r, stay r stays, k', by omega, stands', chain, kept'⟩
        · rw [stands'.path stands''] at chain
          exact ⟨cover, present, k, early, stands, comparePaths_trans (comparePaths_trans chain order) after,
            fun w => writes (wrote (kept' w))⟩

end Underway

end Loop

end Romp
