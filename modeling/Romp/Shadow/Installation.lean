import Romp.Shadow.Pages

open Ownership

namespace Romp

namespace Pages

variable {Thread α : Type} {m : ShadowMemory} {zero : α} {s s' : Pages Thread α} {t : Thread}

def At (m : ShadowMemory) (s : Pages Thread α) : PageCall → Prop
  | .idle | .testL1 _ | .getL1Page _ | .casL1 .. => True
  | .saveL1Page a _ | .readL1 a | .getShadowPage a | .locate a _ => s.pageTable (m.getL1PageIndex a) ≠ none
  | .testL2 a table | .casL2 a table _ => s.pageTable (m.getL1PageIndex a) = some table
  | .saveShadowPage a _ | .reread a => s.entry (m.getL1PageIndex a) (m.getL2PageIndex a) ≠ none
  | .result a table => s.pageTable (m.getL1PageIndex a) = some table ∧ s.l1Page table (m.getL2PageIndex a) ≠ none

/-- A page that is in no entry of a table is as it was made, and each call is where the tables let it be. -/
structure Installed (m : ShadowMemory) (zero : α) (s : Pages Thread α) : Prop where
  l1 : s.l1Depot.Sound
  shadow : s.shadowDepot.Sound
  blank : ∀ q, (∀ i, s.pageTable i ≠ some q) → ∀ j, s.l1Page q j = none
  zero : ∀ p, (∀ q j, s.l1Page q j ≠ some p) → ∀ k, s.shadowPage p k = zero
  calls : ∀ t, s.At m (s.call t)
  returned : ∀ t a r, (a, r) ∈ s.returned t → r ≠ none ∧ s.entry (m.getL1PageIndex a) (m.getL2PageIndex a) = r

structure Grows (s s' : Pages Thread α) : Prop where
  tables : ∀ i p, s.pageTable i = some p → s'.pageTable i = some p
  pages : ∀ q j p, s.l1Page q j = some p → s'.l1Page q j = some p

theorem Grows.entry (grows : s.Grows s') {i j : BitVec 64} {p : Nat} (filled : s.entry i j = some p) :
    s'.entry i j = some p := by
  obtain ⟨table, known, filled⟩ := Option.bind_eq_some_iff.mp filled
  rw [Pages.entry, grows.tables i table known]
  exact grows.pages table j p filled

theorem ne_none_of_some {β : Type} {x y : Option β} (kept : ∀ b, x = some b → y = some b) (some : x ≠ none) :
    y ≠ none := by
  obtain ⟨b, found⟩ := Option.ne_none_iff_exists'.mp some
  rw [kept b found]
  exact Option.some_ne_none b

theorem Grows.at (grows : s.Grows s') {c : PageCall} (at_ : s.At m c) : s'.At m c := by
  cases c with
  | idle | testL1 | getL1Page | casL1 => trivial
  | saveL1Page | readL1 | getShadowPage | locate => exact ne_none_of_some (grows.tables _) at_
  | testL2 | casL2 => exact grows.tables _ _ at_
  | saveShadowPage | reread => exact ne_none_of_some (fun p filled => grows.entry filled) at_
  | result => exact ⟨grows.tables _ _ at_.1, ne_none_of_some (grows.pages _ _) at_.2⟩

theorem Installed.unmade (installed : s.Installed m zero) {q : Nat} (unmade : s.l1Pages ≤ q) (j : BitVec 64) :
    s.l1Page q j = none :=
  installed.blank q (fun i filled => absurd (installed.l1.bound (.entry i) q filled) (Nat.not_lt.mpr unmade)) j

variable [DecidableEq Thread]

theorem l1Depot_goto (s : Pages Thread α) (t : Thread) (c : PageCall) : (s.goto t c).l1Depot =
    { s.l1Depot with hand := Function.update s.l1Depot.hand t c.freshL1Page } := by
  ext1
  · rfl
  · rfl
  · funext x
    by_cases self : x = t <;> simp [l1Depot, goto, self]
  · rfl

theorem shadowDepot_goto (s : Pages Thread α) (t : Thread) (c : PageCall) : (s.goto t c).shadowDepot =
    { s.shadowDepot with hand := Function.update s.shadowDepot.hand t c.freshShadowPage } := by
  ext1
  · rfl
  · rfl
  · funext x
    by_cases self : x = t <;> simp [shadowDepot, goto, self]
  · rfl

theorem l1Depot_still {c : PageCall} (same : c.freshL1Page = (s.call t).freshL1Page) :
    (s.goto t c).l1Depot = s.l1Depot := by
  rw [l1Depot_goto, same, show (s.call t).freshL1Page = s.l1Depot.hand t from rfl, Function.update_eq_self]

theorem shadowDepot_still {c : PageCall} (same : c.freshShadowPage = (s.call t).freshShadowPage) :
    (s.goto t c).shadowDepot = s.shadowDepot := by
  rw [shadowDepot_goto, same, show (s.call t).freshShadowPage = s.shadowDepot.hand t from rfl, Function.update_eq_self]

theorem Installed.go_moves (installed : s.Installed m zero) (stepped : s.go m zero t = some s') :
    s.l1Depot.Move t s'.l1Depot ∧ s.shadowDepot.Move t s'.shadowDepot := by
  have l1Hand : s.l1Depot.hand t = (s.call t).freshL1Page := rfl
  have shadowHand : s.shadowDepot.hand t = (s.call t).freshShadowPage := rfl
  have l1Free := installed.l1.free t
  have shadowFree := installed.shadow.free t
  have still : ∀ {c : PageCall}, some (s.goto t c) = some s' → c.freshL1Page = (s.call t).freshL1Page →
      c.freshShadowPage = (s.call t).freshShadowPage →
      s.l1Depot.Move t s'.l1Depot ∧ s.shadowDepot.Move t s'.shadowDepot := by
    rintro c ⟨⟩ first second
    rw [l1Depot_still first, shadowDepot_still second]
    exact ⟨.still, .still⟩
  unfold go at stepped
  cases call : s.call t with
  | idle =>
    rw [call] at stepped
    cases stepped
  | testL1 a =>
    rw [call] at stepped still
    simp only at stepped
    split at stepped <;> exact still stepped rfl rfl
  | getL1Page a =>
    rw [call] at stepped l1Hand
    simp only at stepped
    split at stepped
    · rename_i page cached
      cases stepped
      rw [l1Depot_goto, shadowDepot_still (by rw [show _ = s.call t from rfl, call]; rfl)]
      exact ⟨.take l1Hand cached, .still⟩
    · rename_i cached
      cases stepped
      have same : Function.update s.l1Page s.l1Pages (fun _ => none) = s.l1Page := by
        rw [Function.update_eq_iff]
        exact ⟨(funext (installed.unmade (Nat.le_refl _))).symm, fun _ _ => rfl⟩
      rw [l1Depot_goto, shadowDepot_still (by rw [show _ = s.call t from rfl, call]; rfl), same]
      exact ⟨.make l1Hand cached, .still⟩
  | casL1 a page =>
    rw [call] at stepped l1Hand still
    simp only at stepped
    split at stepped
    · rename_i empty
      cases stepped
      rw [l1Depot_goto, shadowDepot_still (by rw [show _ = s.call t from rfl, call]; rfl)]
      exact ⟨.install l1Hand empty, .still⟩
    · exact still stepped rfl rfl
  | saveL1Page a page =>
    rw [call] at stepped l1Hand
    simp only at stepped
    have free : s.cachedL1Page t = none := l1Free (by rw [l1Hand]; exact Option.some_ne_none _)
    rw [free] at stepped
    cases stepped
    rw [l1Depot_goto, shadowDepot_still (by rw [show _ = s.call t from rfl, call]; rfl)]
    exact ⟨.save l1Hand free, .still⟩
  | readL1 a =>
    rw [call] at stepped still
    obtain ⟨table, -, stepped⟩ := Option.map_eq_some_iff.mp stepped
    exact still (congrArg some stepped) rfl rfl
  | testL2 a table =>
    rw [call] at stepped still
    simp only at stepped
    split at stepped <;> exact still stepped rfl rfl
  | getShadowPage a =>
    rw [call] at stepped shadowHand
    simp only at stepped
    split at stepped
    · rename_i page cached
      cases stepped
      rw [shadowDepot_goto, l1Depot_still (by rw [show _ = s.call t from rfl, call]; rfl)]
      exact ⟨.still, .take shadowHand cached⟩
    · rename_i cached
      cases stepped
      rw [shadowDepot_goto, l1Depot_still (by rw [show _ = s.call t from rfl, call]; rfl)]
      exact ⟨.still, .make shadowHand cached⟩
  | locate a page =>
    rw [call] at stepped still
    obtain ⟨table, -, stepped⟩ := Option.map_eq_some_iff.mp stepped
    exact still (congrArg some stepped) rfl rfl
  | casL2 a table page =>
    rw [call] at stepped shadowHand still
    simp only at stepped
    split at stepped
    · rename_i empty
      cases stepped
      have filled : ∀ e : Nat × BitVec 64, Function.update s.l1Page table
          (Function.update (s.l1Page table) (m.getL2PageIndex a) (some page)) e.1 e.2 =
            Function.update (fun e : Nat × BitVec 64 => s.l1Page e.1 e.2) (table, m.getL2PageIndex a) (some page) e := by
        rintro ⟨q, j⟩
        by_cases first : q = table
        · subst first
          by_cases second : j = m.getL2PageIndex a <;> simp [second]
        · simp [first]
      rw [shadowDepot_goto, l1Depot_still (by rw [show _ = s.call t from rfl, call]; rfl)]
      have moved := Depot.Move.install (d := s.shadowDepot) (t := t) (e := (table, m.getL2PageIndex a)) shadowHand empty
      rw [show s.shadowDepot.entry = fun e : Nat × BitVec 64 => s.l1Page e.1 e.2 from rfl, ← funext filled] at moved
      exact ⟨.still, moved⟩
    · exact still stepped rfl rfl
  | saveShadowPage a page =>
    rw [call] at stepped shadowHand
    simp only at stepped
    have free : s.cachedShadowPage t = none := shadowFree (by rw [shadowHand]; exact Option.some_ne_none _)
    rw [free] at stepped
    cases stepped
    rw [shadowDepot_goto, l1Depot_still (by rw [show _ = s.call t from rfl, call]; rfl)]
    exact ⟨.still, .save shadowHand free⟩
  | reread a =>
    rw [call] at stepped still
    obtain ⟨table, -, stepped⟩ := Option.map_eq_some_iff.mp stepped
    exact still (congrArg some stepped) rfl rfl
  | result a table =>
    rw [call] at stepped
    cases stepped
    rw [l1Depot_still (by rw [show _ = s.call t from rfl, call]; rfl),
      shadowDepot_still (by rw [show _ = s.call t from rfl, call]; rfl)]
    exact ⟨.still, .still⟩

theorem Grows.of_moves (l1 : s.l1Depot.Move t s'.l1Depot) (shadow : s.shadowDepot.Move t s'.shadowDepot) : s.Grows s' :=
  ⟨fun _ _ filled => l1.entry_kept filled, fun q j _ filled => shadow.entry_kept (e := (q, j)) filled⟩

structure Writes (zero : α) (s s' : Pages Thread α) (t : Thread) : Prop where
  calls : ∀ x, x ≠ t → s'.call x = s.call x
  entries : ∀ q j, s'.l1Page q j = s.l1Page q j ∨ s'.l1Page q j = none ∨ ∃ i, s.pageTable i = some q
  slots : ∀ p k, s'.shadowPage p k = s.shadowPage p k ∨ s'.shadowPage p k = zero
  results : ∀ x, x ≠ t → s'.returned x = s.returned x

theorem Writes.of_goto {c : PageCall} (s₁ : Pages Thread α) (calls : s₁.call = s.call)
    (results : s₁.returned = s.returned)
    (entries : ∀ q j, s₁.l1Page q j = s.l1Page q j ∨ s₁.l1Page q j = none ∨ ∃ i, s.pageTable i = some q)
    (slots : ∀ p k, s₁.shadowPage p k = s.shadowPage p k ∨ s₁.shadowPage p k = zero) :
    Writes zero s (s₁.goto t c) t ∧ (s₁.goto t c).call t = c ∧ (s₁.goto t c).returned t = s.returned t :=
  ⟨⟨fun x other => by rw [← calls]; exact Function.update_of_ne other _ _, entries, slots, fun x _ => congrFun results x⟩,
    Function.update_self .., congrFun results t⟩

def Lands (m : ShadowMemory) (zero : α) (s s' : Pages Thread α) (t : Thread) : Prop :=
  Writes zero s s' t ∧ s'.At m (s'.call t) ∧ ∀ a r, (a, r) ∈ s'.returned t → (a, r) ∈ s.returned t ∨
    r ≠ none ∧ s.entry (m.getL1PageIndex a) (m.getL2PageIndex a) = r

theorem Lands.of_goto {c : PageCall} (s₁ : Pages Thread α) (calls : s₁.call = s.call) (results : s₁.returned = s.returned)
    (entries : ∀ q j, s₁.l1Page q j = s.l1Page q j ∨ s₁.l1Page q j = none ∨ ∃ i, s.pageTable i = some q)
    (slots : ∀ p k, s₁.shadowPage p k = s.shadowPage p k ∨ s₁.shadowPage p k = zero) (at_ : (s₁.goto t c).At m c) :
    Lands m zero s (s₁.goto t c) t := by
  obtain ⟨writes, call, returned⟩ := Writes.of_goto (t := t) (c := c) s₁ calls results entries slots
  refine ⟨writes, by rw [call]; exact at_, fun a r member => .inl ?_⟩
  rwa [returned] at member

theorem Installed.go_lands (installed : s.Installed m zero) (stepped : s.go m zero t = some s') :
    Lands m zero s s' t := by
  have at_ := installed.calls t
  have same : ∀ q j, s.l1Page q j = s.l1Page q j ∨ s.l1Page q j = none ∨ ∃ i, s.pageTable i = some q :=
    fun _ _ => .inl rfl
  have still : ∀ p k, s.shadowPage p k = s.shadowPage p k ∨ s.shadowPage p k = zero := fun _ _ => .inl rfl
  unfold go at stepped
  cases call : s.call t with
  | idle =>
    rw [call] at stepped
    cases stepped
  | testL1 a =>
    rw [call] at stepped
    simp only at stepped
    split at stepped
    · cases stepped
      exact .of_goto s rfl rfl same still trivial
    · rename_i found
      cases stepped
      refine .of_goto s rfl rfl same still ?_
      exact Option.ne_none_iff_exists'.mpr ⟨_, found⟩
  | getL1Page a =>
    rw [call] at stepped
    simp only at stepped
    split at stepped
    · cases stepped
      exact .of_goto { s with cachedL1Page := _ } rfl rfl same still trivial
    · cases stepped
      refine .of_goto { s with l1Page := _, l1Pages := _ } rfl rfl (fun q j => ?_) still trivial
      by_cases new : q = s.l1Pages
      · exact .inr (.inl (by simp [new]))
      · exact .inl (by simp [new])
  | casL1 a page =>
    rw [call] at stepped
    simp only at stepped
    split at stepped
    · cases stepped
      refine .of_goto { s with pageTable := _ } rfl rfl same still ?_
      simp [At, goto]
    · rename_i found
      cases stepped
      refine .of_goto s rfl rfl same still ?_
      exact Option.ne_none_iff_exists'.mpr ⟨_, found⟩
  | saveL1Page a page =>
    rw [call] at stepped at_
    simp only at stepped
    split at stepped
    · cases stepped
      exact .of_goto s rfl rfl same still at_
    · cases stepped
      exact .of_goto { s with cachedL1Page := _ } rfl rfl same still at_
  | readL1 a =>
    rw [call] at stepped
    obtain ⟨table, found, rfl⟩ := Option.map_eq_some_iff.mp stepped
    exact .of_goto s rfl rfl same still found
  | testL2 a table =>
    rw [call] at stepped at_
    have known : s.pageTable (m.getL1PageIndex a) = some table := at_
    simp only at stepped
    split at stepped
    · cases stepped
      refine .of_goto s rfl rfl same still ?_
      exact Option.ne_none_iff_exists'.mpr ⟨_, known⟩
    · rename_i page found
      cases stepped
      refine .of_goto s rfl rfl same still (Option.ne_none_iff_exists'.mpr ⟨page, ?_⟩)
      exact Option.bind_eq_some_iff.mpr ⟨_, known, found⟩
  | getShadowPage a =>
    rw [call] at stepped at_
    simp only at stepped
    split at stepped
    · cases stepped
      exact .of_goto { s with cachedShadowPage := _ } rfl rfl same still at_
    · cases stepped
      refine .of_goto { s with shadowPage := _, shadowPages := _ } rfl rfl same (fun p k => ?_) at_
      by_cases new : p = s.shadowPages
      · exact .inr (by simp [new])
      · exact .inl (by simp [new])
  | locate a page =>
    rw [call] at stepped
    obtain ⟨table, found, rfl⟩ := Option.map_eq_some_iff.mp stepped
    exact .of_goto s rfl rfl same still found
  | casL2 a table page =>
    rw [call] at stepped at_
    have known : s.pageTable (m.getL1PageIndex a) = some table := at_
    simp only at stepped
    split at stepped
    · cases stepped
      refine .of_goto { s with l1Page := _ } rfl rfl (fun q j => ?_) still
        (Option.ne_none_iff_exists'.mpr ⟨page, Option.bind_eq_some_iff.mpr ⟨table, known, ?_⟩⟩)
      · by_cases here : q = table
        · exact .inr (.inr ⟨_, here ▸ known⟩)
        · exact .inl (by simp [here])
      · simp [goto]
    · rename_i other found
      cases stepped
      refine .of_goto s rfl rfl same still (Option.ne_none_iff_exists'.mpr ⟨other, ?_⟩)
      exact Option.bind_eq_some_iff.mpr ⟨_, known, found⟩
  | saveShadowPage a page =>
    rw [call] at stepped at_
    simp only at stepped
    split at stepped
    · cases stepped
      exact .of_goto s rfl rfl same still at_
    · cases stepped
      exact .of_goto { s with cachedShadowPage := _ } rfl rfl same still at_
  | reread a =>
    rw [call] at stepped at_
    obtain ⟨table, found, rfl⟩ := Option.map_eq_some_iff.mp stepped
    obtain ⟨page, filled⟩ := Option.ne_none_iff_exists'.mp at_
    obtain ⟨table', found', filled⟩ := Option.bind_eq_some_iff.mp filled
    rw [found, Option.some.injEq] at found'
    subst found'
    exact .of_goto s rfl rfl same still ⟨found, Option.ne_none_iff_exists'.mpr ⟨page, filled⟩⟩
  | result a table =>
    rw [call] at stepped at_
    cases stepped
    refine ⟨⟨fun x other => Function.update_of_ne other _ _, same, still, fun x other => Function.update_of_ne other _ _⟩,
      by simp [goto, At], fun b r member => ?_⟩
    simp only [goto, Function.update_self, List.mem_append, List.mem_singleton, Prod.mk.injEq] at member
    rcases member with old | ⟨rfl, rfl⟩
    · exact .inl old
    · refine .inr ⟨at_.2, ?_⟩
      rw [entry, at_.1, Option.bind_some]

theorem Installed.of_lands (installed : s.Installed m zero) (l1 : s.l1Depot.Move t s'.l1Depot)
    (shadow : s.shadowDepot.Move t s'.shadowDepot) (lands : Lands m zero s s' t) : s'.Installed m zero := by
  have grows : s.Grows s' := .of_moves l1 shadow
  obtain ⟨writes, at_, returned⟩ := lands
  have kept : ∀ a r, r ≠ none ∧ s.entry (m.getL1PageIndex a) (m.getL2PageIndex a) = r →
      r ≠ none ∧ s'.entry (m.getL1PageIndex a) (m.getL2PageIndex a) = r := by
    rintro a r ⟨some, same⟩
    obtain ⟨p, rfl⟩ := Option.ne_none_iff_exists'.mp some
    exact ⟨some, grows.entry same⟩
  refine ⟨installed.l1.move l1, installed.shadow.move shadow, fun q unused j => ?_, fun p unused k => ?_, fun x => ?_,
    fun x a r member => ?_⟩
  · have before : ∀ i, s.pageTable i ≠ some q := fun i filled => unused i (grows.tables i q filled)
    rcases writes.entries q j with same | none | ⟨i, filled⟩
    · rw [same]
      exact installed.blank q before j
    · exact none
    · exact absurd filled (before i)
  · have before : ∀ q j, s.l1Page q j ≠ some p := fun q j filled => unused q j (grows.pages q j p filled)
    rcases writes.slots p k with same | clean
    · rw [same]
      exact installed.zero p before k
    · exact clean
  · by_cases self : x = t
    · rw [self]
      exact at_
    · rw [writes.calls x self]
      exact grows.at (installed.calls x)
  · by_cases self : x = t
    · rw [self] at member
      rcases returned a r member with old | new
      · exact kept a r (installed.returned t a r old)
      · exact kept a r new
    · rw [writes.results x self] at member
      exact kept a r (installed.returned x a r member)

/-- A step of a thread keeps what is in place, and moves pages between the tables, the calls and the caches. -/
theorem Installed.step (installed : s.Installed m zero) {action : PageAction α}
    (stepped : s.step m zero t action = some s') :
    s'.Installed m zero ∧ s.l1Depot.Move t s'.l1Depot ∧ s.shadowDepot.Move t s'.shadowDepot := by
  cases action with
  | go =>
    obtain ⟨l1, shadow⟩ := installed.go_moves stepped
    exact ⟨installed.of_lands l1 shadow (installed.go_lands stepped), l1, shadow⟩
  | call a =>
    simp only [Pages.step] at stepped
    split at stepped
    · rename_i call
      cases stepped
      have l1 : s.l1Depot.Move t (s.goto t (.testL1 a)).l1Depot := by
        rw [l1Depot_still (by rw [call]; rfl)]
        exact .still
      have shadow : s.shadowDepot.Move t (s.goto t (.testL1 a)).shadowDepot := by
        rw [shadowDepot_still (by rw [call]; rfl)]
        exact .still
      have lands : Lands m zero s (s.goto t (.testL1 a)) t :=
        .of_goto s rfl rfl (fun _ _ => .inl rfl) (fun _ _ => .inl rfl) trivial
      exact ⟨installed.of_lands l1 shadow lands, l1, shadow⟩
    · cases stepped
  | write page index value =>
    simp only [Pages.step] at stepped
    split at stepped
    · rename_i got
      cases stepped
      obtain ⟨⟨a, r⟩, member, same⟩ := List.any_eq_true.mp got
      obtain ⟨-, filled⟩ := installed.returned t a r member
      have equal : r = some page := beq_iff_eq.mp same
      rw [equal] at filled
      obtain ⟨table, -, filled⟩ := Option.bind_eq_some_iff.mp filled
      refine ⟨⟨installed.l1, installed.shadow, installed.blank, fun p unused k => ?_, installed.calls, installed.returned⟩,
        .still, .still⟩
      have other : p ≠ page := by
        rintro rfl
        exact unused _ _ filled
      exact (congrFun (Function.update_of_ne other _ _) k).trans (installed.zero p unused k)
    · cases stepped

omit [DecidableEq Thread] in
theorem installed_new : (new zero : Pages Thread α).Installed m zero := by
  have empty : ∀ {E : Type} (h : Holder E Thread) p,
      (⟨fun _ => none, fun _ => none, fun _ => none, 0⟩ : Depot E Thread).held h ≠ some p := by
    intro E h p holds
    cases h <;> cases holds
  refine ⟨⟨fun h _ p holds => absurd holds (empty h p), fun h p holds => absurd holds (empty h p), fun _ _ => rfl⟩,
    ⟨fun h _ p holds => absurd holds (empty h p), fun h p holds => absurd holds (empty h p), fun _ _ => rfl⟩,
    fun _ _ _ => rfl, fun _ _ _ => rfl, fun _ => trivial, fun _ _ _ none => by cases none⟩

theorem Reachable.installed (reached : Reachable m zero s) : s.Installed m zero := by
  induction reached with
  | start => exact installed_new
  | step _ stepped ih => exact (ih.step stepped).1

theorem Leads.grows (installed : s.Installed m zero) (leads : s.Leads m zero s') : s.Grows s' ∧ s'.Installed m zero := by
  induction leads with
  | refl => exact ⟨⟨fun _ _ filled => filled, fun _ _ _ filled => filled⟩, installed⟩
  | step _ stepped ih =>
    obtain ⟨grows, installed'⟩ := ih
    obtain ⟨next, l1, shadow⟩ := installed'.step stepped
    have more := Grows.of_moves l1 shadow
    exact ⟨⟨fun i p filled => more.tables i p (grows.tables i p filled),
      fun q j p filled => more.pages q j p (grows.pages q j p filled)⟩, next⟩

end Pages

end Romp
