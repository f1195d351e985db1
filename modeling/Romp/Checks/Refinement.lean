import Romp.Checks.Paged

namespace Romp

def PageCall.address : PageCall → Option (BitVec 64)
  | .idle => none
  | .testL1 a | .getL1Page a | .casL1 a _ | .saveL1Page a _ | .readL1 a | .testL2 a _ | .getShadowPage a | .locate a _
  | .casL2 a .. | .saveShadowPage a _ | .reread a | .result a _ => some a

namespace Pages

variable {Thread α : Type} [DecidableEq Thread] {m : ShadowMemory} {zero : α} {s s' : Pages Thread α} {t : Thread}

theorem go_result {a : BitVec 64} {table : Nat} (call : s.call t = .result a table)
    (stepped : s.go m zero t = some s') :
    s'.call t = .idle ∧ s'.returned t = s.returned t ++ [(a, s.l1Page table (m.getL2PageIndex a))] := by
  unfold go at stepped
  rw [call] at stepped
  cases stepped
  exact ⟨Function.update_self .., Function.update_self ..⟩

theorem go_address (stepped : s.go m zero t = some s') (early : ∀ a table, s.call t ≠ .result a table) :
    (s'.call t).address = (s.call t).address ∧ s'.returned t = s.returned t := by
  unfold go at stepped
  cases call : s.call t with
  | idle =>
    rw [call] at stepped
    cases stepped
  | testL1 | getL1Page | casL1 | saveL1Page | testL2 | getShadowPage | casL2 | saveShadowPage =>
    rw [call] at stepped
    simp only at stepped
    split at stepped <;> (cases stepped; exact ⟨by simp [goto, PageCall.address], rfl⟩)
  | readL1 | locate | reread =>
    rw [call] at stepped
    obtain ⟨table, -, rfl⟩ := Option.map_eq_some_iff.mp stepped
    exact ⟨by simp [goto, PageCall.address], rfl⟩
  | result a table => exact absurd call (early a table)

theorem go_others (stepped : s.go m zero t = some s') {x : Thread} (other : x ≠ t) :
    s'.call x = s.call x ∧ s'.returned x = s.returned x := by
  unfold go at stepped
  cases call : s.call t with
  | idle =>
    rw [call] at stepped
    cases stepped
  | testL1 | getL1Page | casL1 | saveL1Page | testL2 | getShadowPage | casL2 | saveShadowPage =>
    rw [call] at stepped
    simp only at stepped
    split at stepped <;> (cases stepped; exact ⟨Function.update_of_ne other _ _, rfl⟩)
  | readL1 | locate | reread =>
    rw [call] at stepped
    obtain ⟨table, -, rfl⟩ := Option.map_eq_some_iff.mp stepped
    exact ⟨Function.update_of_ne other _ _, rfl⟩
  | result =>
    rw [call] at stepped
    cases stepped
    exact ⟨Function.update_of_ne other _ _, Function.update_of_ne other _ _⟩

end Pages

namespace Paged

variable {flags : ReportFlags} {permits : System → Event → Prop} {s s' : Paged} {t : Nat}

/-- What holds of the threads and the pages in every state: a thread has a pointer from the time that it asks for the
    lock until it has freed it, and the pointer leads to the page of its byte. -/
structure Sound (s : Paged) : Prop where
  installed : s.pages.Installed .default AccessHistory.new
  found : ∀ t page, s.accessHistory t = some page → s.pages.call t = .idle ∧
    ∃ u, (s.calls t).touch = some u ∧ (u.byteAddress, some page) ∈ s.pages.returned t
  getting : ∀ t, s.pages.call t ≠ .idle → ∃ u left, s.calls t = .locking u left ∧
    (s.pages.call t).address = some u.byteAddress
  pointed : ∀ t, (s.calls t).slot ≠ none → s.accessHistory t ≠ none

theorem Sound.start {system : System} : (Paged.start system).Sound where
  installed := Pages.installed_new
  found := fun _ _ found => by cases found
  getting := fun _ busy => absurd rfl busy
  pointed := fun _ locked => absurd rfl locked

theorem get_cases (got : s.get t = some s') : ∃ u left, s.calls t = .locking u left ∧ s.accessHistory t = none ∧
    (s.pages.call t = .idle ∧ s' = { s with pages := s.pages.goto t (.testL1 u.byteAddress) } ∨
    (∃ a table pages, s.pages.call t = .result a table ∧ s.pages.go .default .new t = some pages ∧
      s' = { s with
        pages
        accessHistory := Function.update s.accessHistory t ((pages.returned t).getLast?.bind Prod.snd) }) ∨
    s.pages.call t ≠ .idle ∧ (∀ a table, s.pages.call t ≠ .result a table) ∧
      ∃ pages, s.pages.go .default .new t = some pages ∧ s' = { s with pages }) := by
  unfold get at got
  split at got
  · rename_i u left calls none
    refine ⟨u, left, calls, none, ?_⟩
    split at got
    · rename_i idle
      simp only [Pages.step, idle] at got
      cases got
      exact .inl ⟨idle, rfl⟩
    · rename_i a table result
      obtain ⟨pages, went, same⟩ := Option.map_eq_some_iff.mp got
      exact .inr (.inl ⟨a, table, pages, result, went, same.symm⟩)
    · rename_i busy early
      obtain ⟨pages, went, same⟩ := Option.map_eq_some_iff.mp got
      exact .inr (.inr ⟨busy, early, pages, went, same.symm⟩)
  · cases got

theorem check_cases (checked : s.check flags t = some s') : ∃ u page h call, (s.calls t).touch = some u ∧
    s.accessHistory t = some page ∧
    s.pages.step .default .new t (.write page (ShadowMemory.default.getPageIndex u.byteAddress) h) = some s'.pages ∧
    s'.calls = Function.update s.calls t call ∧ (s.calls t).Goes call ∧
    s'.accessHistory = Function.update s.accessHistory t (if call.slot = none then none else some page) := by
  unfold Paged.check at checked
  split at checked
  · rename_i u page touch pointed
    obtain ⟨c, stepped, checked⟩ := Option.bind_eq_some_iff.mp checked
    obtain ⟨pages, written, same⟩ := Option.bind_eq_some_iff.mp checked
    cases same
    obtain ⟨call, calls, goes⟩ := Crew.check_calls stepped
    have calls : c.calls = Function.update s.calls t call := calls
    have here : c.calls t = call := by rw [calls, Function.update_self]
    refine ⟨u, page, _, call, touch, pointed, written, calls, goes, ?_⟩
    simp only [here]
    split
    · rfl
    · exact (Function.update_eq_self_iff.mpr pointed.symm).symm
  · cases checked

theorem left_busy (none : s.accessHistory t = none) (busy : s.pages.call t ≠ .idle) :
    s.left t = (s.pages.call t).left := by
  unfold left
  rw [none]
  cases call : s.pages.call t with
  | idle => exact absurd call busy
  | _ => rfl

theorem left_of_call_eq (pointer : s'.accessHistory t = s.accessHistory t) (call : s'.pages.call t = s.pages.call t) :
    s'.left t = s.left t := by
  unfold left
  rw [pointer, call]

namespace Sound

variable (sound : s.Sound)

include sound

theorem result {u : Touch} {left : List Touch} {a : BitVec 64} {table : Nat} {pages : Pages Nat AccessHistory}
    (calls : s.calls t = .locking u left) (call : s.pages.call t = .result a table)
    (went : s.pages.go .default .new t = some pages) :
    ∃ page, (pages.returned t).getLast?.bind Prod.snd = some page ∧ (u.byteAddress, some page) ∈ pages.returned t := by
  obtain ⟨-, returned⟩ := Pages.go_result call went
  obtain ⟨v, rest, calls', address⟩ := sound.getting t (by simp [call])
  have at_ := sound.installed.calls t
  rw [call] at at_ address
  obtain ⟨page, filled⟩ := Option.ne_none_iff_exists'.mp at_.2
  obtain ⟨rfl, rfl⟩ := Call.locking.inj (calls.symm.trans calls')
  obtain rfl : a = u.byteAddress := Option.some.inj address
  rw [returned, filled]
  exact ⟨page, by simp, by simp⟩

theorem of_others (installed : s'.pages.Installed .default AccessHistory.new)
    (others : ∀ x, x ≠ t → s'.calls x = s.calls x ∧ s'.accessHistory x = s.accessHistory x ∧
      s'.pages.call x = s.pages.call x ∧ s'.pages.returned x = s.pages.returned x)
    (found : ∀ page, s'.accessHistory t = some page → s'.pages.call t = .idle ∧
      ∃ u, (s'.calls t).touch = some u ∧ (u.byteAddress, some page) ∈ s'.pages.returned t)
    (getting : s'.pages.call t ≠ .idle → ∃ u left, s'.calls t = .locking u left ∧
      (s'.pages.call t).address = some u.byteAddress)
    (pointed : (s'.calls t).slot ≠ none → s'.accessHistory t ≠ none) : s'.Sound := by
  refine ⟨installed, fun x => ?_, fun x => ?_, fun x => ?_⟩
  all_goals by_cases self : x = t
  · exact self ▸ found
  · obtain ⟨calls, pointer, call, returned⟩ := others x self
    rw [calls, pointer, call, returned]
    exact sound.found x
  · exact self ▸ getting
  · obtain ⟨calls, -, call, -⟩ := others x self
    rw [calls, call]
    exact sound.getting x
  · exact self ▸ pointed
  · obtain ⟨calls, pointer, -, -⟩ := others x self
    rw [calls, pointer]
    exact sound.pointed x

theorem get (got : s.get t = some s') :
    s'.Sound ∧ s'.view = s.view ∧ s'.left t < s.left t ∧ ∀ x, x ≠ t → s'.left x = s.left x := by
  obtain ⟨u, left, calls, none, ⟨idle, rfl⟩ | ⟨a, table, pages, call, went, rfl⟩ | ⟨busy, early, pages, went, rfl⟩⟩ :=
    get_cases got
  · have unlocked : (s.calls t).slot = Option.none := by rw [calls]; rfl
    have called : s.pages.step .default AccessHistory.new t (.call u.byteAddress) =
        some (s.pages.goto t (.testL1 u.byteAddress)) := by simp only [Pages.step, idle]
    have others : ∀ x, x ≠ t → (s.pages.goto t (.testL1 u.byteAddress)).call x = s.pages.call x :=
      fun x other => Function.update_of_ne other _ _
    have here : (s.pages.goto t (.testL1 u.byteAddress)).call t = .testL1 u.byteAddress := Function.update_self ..
    refine ⟨sound.of_others (t := t) (sound.installed.step called).1 (fun x other => ?_) (fun page has => ?_)
      (fun _ => ?_) fun locked => absurd unlocked locked, rfl, ?_, fun x other => left_of_call_eq rfl (others x other)⟩
    · exact ⟨rfl, rfl, others x other, rfl⟩
    · cases none.symm.trans has
    · exact ⟨u, left, calls, congrArg PageCall.address here⟩
    · unfold Paged.left
      simp [none, idle, here, PageCall.left]
  · have unlocked : (s.calls t).slot = Option.none := by rw [calls]; rfl
    obtain ⟨page, last, member⟩ := sound.result calls call went
    obtain ⟨idle, -⟩ := Pages.go_result call went
    have pointer : Function.update s.accessHistory t ((pages.returned t).getLast?.bind Prod.snd) t = some page := by
      rw [Function.update_self, last]
    have installed : pages.Installed .default AccessHistory.new :=
      (sound.installed.step (show s.pages.step .default AccessHistory.new t .go = some pages from went)).1
    refine ⟨sound.of_others (t := t) installed (fun x other => ?_) (fun p has => ?_) (fun busy => absurd idle busy)
      fun locked => absurd unlocked locked, ?_, ?_, fun x other => ?_⟩
    · obtain ⟨same, same'⟩ := Pages.go_others went other
      exact ⟨rfl, Function.update_of_ne other _ _, same, same'⟩
    · obtain rfl : page = p := Option.some.inj (pointer.symm.trans has)
      exact ⟨idle, u, by rw [calls]; rfl, member⟩
    · exact congrArg s.crew (sound.installed.contents_go went)
    · simp [Paged.left, none, last, call, PageCall.left]
    · exact left_of_call_eq (Function.update_of_ne other _ _) (Pages.go_others went other).1
  · have unlocked : (s.calls t).slot = Option.none := by rw [calls]; rfl
    obtain ⟨next, went', less⟩ := sound.installed.returns busy
    obtain rfl : next = pages := Option.some.inj (went'.symm.trans went)
    obtain ⟨address, returned⟩ := Pages.go_address went early
    have installed : next.Installed .default AccessHistory.new :=
      (sound.installed.step (show s.pages.step .default AccessHistory.new t .go = some next from went)).1
    refine ⟨sound.of_others (t := t) installed (fun x other => ?_) (fun p has => ?_) (fun _ => ?_)
      fun locked => absurd unlocked locked, ?_, ?_, fun x other => left_of_call_eq rfl (Pages.go_others went other).1⟩
    · obtain ⟨same, same'⟩ := Pages.go_others went other
      exact ⟨rfl, rfl, same, same'⟩
    · cases none.symm.trans has
    · rw [address]
      exact sound.getting t busy
    · exact congrArg s.crew (sound.installed.contents_go went)
    · obtain ⟨v, rest, -, known⟩ := sound.getting t busy
      have busy' : next.call t ≠ .idle := by
        intro idle
        rw [idle, known] at address
        cases address
      rw [left_busy none busy, left_busy (s := { s with pages := next }) none busy']
      exact less

theorem pointer {page : Nat} (pointed : s.accessHistory t = some page) :
    ∃ u, (s.calls t).touch = some u ∧ s.pages.call t = .idle ∧
      s.pages.shadowPage page (ShadowMemory.default.getPageIndex u.byteAddress) = s.pages.contents .new u.slot ∧
      ∀ h, ∃ pages, s.pages.step .default .new t
          (.write page (ShadowMemory.default.getPageIndex u.byteAddress) h) = some pages ∧
        pages.Installed .default AccessHistory.new ∧ pages.call = s.pages.call ∧ pages.returned = s.pages.returned ∧
        pages.contents .new = Function.update (s.pages.contents .new) u.slot h := by
  obtain ⟨idle, u, touch, member⟩ := sound.found t page pointed
  refine ⟨u, touch, idle, ?_, fun h => ?_⟩
  · have filled := (sound.installed.returned t _ _ member).2
    simp only [Touch.slot, ShadowMemory.slot, Pages.contents, filled]
  · have got : (s.pages.returned t).any (fun result => result.2 == some page) = true :=
      List.any_eq_true.mpr ⟨_, member, beq_iff_eq.mpr rfl⟩
    have written : s.pages.step .default AccessHistory.new t
        (.write page (ShadowMemory.default.getPageIndex u.byteAddress) h) = some _ := if_pos got
    exact ⟨_, written, (sound.installed.step written).1, rfl, rfl, sound.installed.contents_write member written⟩

/-- On the pages a thread checks its access as it does on the slots. -/
theorem check_eq {page : Nat} (pointed : s.accessHistory t = some page) :
    (s.check flags t).map view = s.view.check flags t := by
  obtain ⟨u, touch, -, same, writes⟩ := sound.pointer pointed
  have here : (s.view.calls t).touch = some u := touch
  unfold Paged.check
  rw [Crew.check_local here, touch, pointed]
  simp only [same]
  change _ = ((s.crew fun _ => s.pages.contents .new u.slot).check flags t).map _
  cases (s.crew fun _ => s.pages.contents .new u.slot).check flags t with
  | none => rfl
  | some c =>
    obtain ⟨pages, written, -, -, -, contents⟩ := writes (c.shadowMemory u.slot)
    simp only [Option.bind_eq_bind, Option.bind_some, written, Option.map_some, view, crew, follow, contents]

theorem check (stepped : s.check flags t = some s') : s'.Sound := by
  obtain ⟨u, page, h, call, touch, pointed, written, calls, goes, pointer⟩ := check_cases stepped
  obtain ⟨v, touch', idle, -, writes⟩ := sound.pointer pointed
  obtain rfl : u = v := Option.some.inj (touch.symm.trans touch')
  obtain ⟨pages, written', installed, page_call, returned, -⟩ := writes h
  obtain rfl : pages = s'.pages := Option.some.inj (written'.symm.trans written)
  obtain ⟨-, w, touch'', member⟩ := sound.found t page pointed
  obtain rfl : u = w := Option.some.inj (touch.symm.trans touch'')
  have here : s'.calls t = call := by rw [calls, Function.update_self]
  have idle' : s'.pages.call t = .idle := (congrFun page_call t).trans idle
  have pointed' : s'.accessHistory t = if call.slot = none then none else some page := by
    rw [pointer, Function.update_self]
  refine sound.of_others (t := t) installed (fun x other => ⟨?_, ?_, congrFun page_call x, congrFun returned x⟩)
    (fun p has => ?_) (fun working => absurd idle' working) fun locked => ?_
  · rw [calls, Function.update_of_ne other]
  · rw [pointer, Function.update_of_ne other]
  · rw [pointed'] at has
    split at has
    · cases has
    · rename_i locked
      cases has
      exact ⟨idle', u, (congrArg Call.touch here).trans ((goes.touch locked).trans touch), returned ▸ member⟩
  · rw [pointed', if_neg (here ▸ locked)]
    exact Option.some_ne_none page

theorem act {a : Crew.Move} {c : Crew} (other : ∀ t, a ≠ .check t)
    (stepped : (s.crew fun _ => .new).step flags a = some c) :
    (s.follow c).Sound := by
  rcases Crew.step_calls other stepped with calls | ⟨t, r, -, idle, calls⟩
  · have calls : (s.follow c).calls = s.calls := calls
    refine ⟨sound.installed, fun x page has => ?_, fun x busy => ?_, fun x locked => ?_⟩
    · rw [calls]
      exact sound.found x page has
    · rw [calls]
      exact sound.getting x busy
    · exact sound.pointed x (calls ▸ locked)
  · have idle : s.calls t = .idle := idle
    have calls : (s.follow c).calls = Function.update s.calls t (.next r.touches) := calls
    refine sound.of_others (t := t) sound.installed (fun x other => ⟨?_, rfl, rfl, rfl⟩) (fun page has => ?_)
      (fun busy => ?_) fun locked => ?_
    · rw [calls, Function.update_of_ne other]
    · obtain ⟨-, u, touch, -⟩ := sound.found t page has
      rw [idle] at touch
      cases touch
    · obtain ⟨u, left, locking, -⟩ := sound.getting t busy
      cases idle.symm.trans locking
    · rw [calls, Function.update_self] at locked
      cases touches : r.touches <;> exact absurd (by rw [touches]; rfl) locked

end Sound

theorem step_of_other {a : Crew.Move} (other : ∀ t, a ≠ .check t) :
    s.step flags (.act a) = ((s.crew fun _ => .new).step flags a).map s.follow := by
  cases a with
  | check t => exact absurd rfl (other t)
  | _ => rfl

theorem Sound.act_view (sound : s.Sound) (flags : ReportFlags) {a : Crew.Move}
    (ready : ∀ t, a = .check t → s.calls t ≠ .idle → s.accessHistory t ≠ none) :
    (s.step flags (.act a)).map view = s.view.step flags a := by
  by_cases other : ∀ t, a ≠ .check t
  · have same := Crew.step_local flags (c := s.crew fun _ => .new) other s.holder (s.pages.contents .new)
    rw [step_of_other other, Option.map_map]
    refine Eq.trans ?_ same.symm
    cases stepped : (s.crew fun _ => .new).step flags a with
    | none => rfl
    | some c =>
      have holder : c.holder = s.holder := Crew.step_holder other stepped
      rw [Option.map_some, Option.map_some, ← holder]
      rfl
  · obtain ⟨t, check⟩ := not_forall_not.mp other
    subst check
    change (s.check flags t).map view = s.view.check flags t
    by_cases called : s.calls t = .idle
    · have called' : s.view.calls t = .idle := called
      unfold Paged.check Crew.check
      rw [called, called']
      rfl
    · obtain ⟨page, pointed⟩ := Option.ne_none_iff_exists'.mp (ready t rfl called)
      exact sound.check_eq pointed

theorem Sound.step (sound : s.Sound) {a : Crew.Move} (stepped : s.step flags (.act a) = some s') :
    s'.Sound ∧ s.view.step flags a = some s'.view := by
  by_cases other : ∀ t, a ≠ .check t
  · have viewed := sound.act_view flags fun t same => absurd same (other t)
    rw [stepped] at viewed
    rw [step_of_other other] at stepped
    obtain ⟨c, went, rfl⟩ := Option.map_eq_some_iff.mp stepped
    exact ⟨sound.act other went, viewed.symm⟩
  · obtain ⟨t, check⟩ := not_forall_not.mp other
    subst check
    have checked : s.check flags t = some s' := stepped
    have pointed : s.accessHistory t ≠ none := by
      unfold Paged.check at checked
      split at checked
      · rename_i pointed
        rw [pointed]
        exact Option.some_ne_none _
      · cases checked
    have viewed := sound.act_view flags (a := .check t) fun x same _ => by
      cases same
      exact pointed
    rw [stepped] at viewed
    exact ⟨sound.check checked, viewed.symm⟩

theorem Reached.refines (reached : Reached flags permits s) : s.Sound ∧ Crew.Reached flags permits s.view := by
  induction reached with
  | start begun => exact ⟨.start, .start begun⟩
  | @step s s' a _ permitted stepped ih =>
    obtain ⟨sound, ih⟩ := ih
    cases a with
    | act a =>
      obtain ⟨sound', viewed⟩ := sound.step stepped
      exact ⟨sound', .step ih (fun e event => permitted e (congrArg Move.act event)) viewed⟩
    | getShadowMemorySlot t =>
      obtain ⟨sound', same, -⟩ := sound.get stepped
      exact ⟨sound', same ▸ ih⟩

theorem Sound.gets (sound : s.Sound) (called : s.calls t ≠ .idle) (none : s.accessHistory t = none) :
    ∃ s', s.get t = some s' := by
  have unlocked : (s.calls t).slot = Option.none := by
    by_contra locked
    exact sound.pointed t locked none
  obtain ⟨u, left, calls⟩ : ∃ u left, s.calls t = .locking u left := by
    cases place : s.calls t with
    | idle => exact absurd place called
    | locking u left => exact ⟨u, left, rfl⟩
    | holding | scanning =>
      rw [place] at unlocked
      cases unlocked
  unfold Paged.get
  rw [calls, none]
  cases call : s.pages.call t with
  | idle => exact ⟨_, by simp only [Pages.step, call, Option.map_some]; rfl⟩
  | _ =>
    obtain ⟨pages, went, -⟩ := sound.installed.returns (t := t) (by simp [call])
    exact ⟨_, by simp only [Pages.step, went, Option.map_some]; rfl⟩

/-- A thread in a call gets its pointer, and no slot has changed when it has it. -/
theorem Sound.points (sound : s.Sound) (called : s.calls t ≠ .idle) :
    ∃ s', s.Gets s' ∧ s'.Sound ∧ s'.view = s.view ∧ s'.accessHistory t ≠ none := by
  induction bound : s.left t using Nat.strong_induction_on generalizing s with
  | _ n ih =>
    by_cases none : s.accessHistory t = none
    · obtain ⟨next, got⟩ := sound.gets called none
      obtain ⟨sound', same, less, -⟩ := sound.get got
      have calls : next.calls = s.calls := congrArg Crew.calls same
      obtain ⟨s', gets, ends, viewed, pointed⟩ := ih _ (bound ▸ less) sound' (calls ▸ called) rfl
      exact ⟨s', gets.head ⟨t, got⟩, ends, viewed.trans same, pointed⟩
    · exact ⟨s, .refl, sound, rfl, none⟩

/-- What the threads can do on the slots they can do on the pages when those that lack it have got their pointer. -/
theorem Sound.completes (sound : s.Sound) {a : Crew.Move} {c : Crew} (stepped : s.view.step flags a = some c) :
    ∃ s₁ s₂, s.Gets s₁ ∧ s₁.step flags (.act a) = some s₂ ∧ s₂.view = c := by
  obtain ⟨next, gets, sound', viewed, ready⟩ : ∃ next, s.Gets next ∧ next.Sound ∧ next.view = s.view ∧
      ∀ t, a = .check t → next.calls t ≠ .idle → next.accessHistory t ≠ none := by
    by_cases waits : ∃ t, a = .check t ∧ s.calls t ≠ .idle
    · obtain ⟨t, check, called⟩ := waits
      obtain ⟨next, gets, sound', viewed, pointed⟩ := sound.points called
      refine ⟨next, gets, sound', viewed, fun x same _ => ?_⟩
      obtain rfl : t = x := Crew.Move.check.inj (check.symm.trans same)
      exact pointed
    · exact ⟨s, .refl, sound, rfl, fun t check called => absurd ⟨t, check, called⟩ waits⟩
  have same := sound'.act_view flags ready
  rw [viewed, stepped] at same
  obtain ⟨s', goes, ends⟩ := Option.map_eq_some_iff.mp same
  exact ⟨next, s', gets, goes, ends⟩

/-- With the pages, which the threads install by compare and swap, a byte has one history as on a memory of slots: a
    thread that has a pointer has it to the page of its byte; the steps of `getShadowMemorySlot` change no slot, and
    bring the thread nearer to its pointer whatever the others do; every other step is one on the slots; and every step
    on the slots is one on the pages when the thread has its pointer. -/
theorem paged_refines (reached : Reached flags permits s) :
    Crew.Reached flags permits s.view ∧
    (∀ t page, s.accessHistory t = some page → ∃ u, (s.calls t).touch = some u ∧
      s.pages.entry (ShadowMemory.default.getL1PageIndex u.byteAddress)
        (ShadowMemory.default.getL2PageIndex u.byteAddress) = some page) ∧
    (∀ t s', s.get t = some s' → s'.view = s.view ∧ s'.left t < s.left t ∧ ∀ x, x ≠ t → s'.left x = s.left x) ∧
    (∀ a s', s.step flags (.act a) = some s' → s.view.step flags a = some s'.view) ∧
    ∀ a c, s.view.step flags a = some c → ∃ s₁ s₂, s.Gets s₁ ∧ s₁.step flags (.act a) = some s₂ ∧ s₂.view = c := by
  obtain ⟨sound, viewed⟩ := reached.refines
  refine ⟨viewed, fun t page pointed => ?_, fun t s' got => (sound.get got).2,
    fun a s' stepped => (sound.step stepped).2, fun a c stepped => sound.completes stepped⟩
  obtain ⟨-, u, touch, member⟩ := sound.found t page pointed
  exact ⟨u, touch, (sound.installed.returned t _ _ member).2⟩

/-- Two threads ask for the page of a common byte in turn. The second loses both races, and checks its access on the
    page that the first has installed. -/
def contended : List Move :=
  [.act (.event (.parallelBegin 0 2)), .act (.event (.implicitBegin 1)), .act (.event (.implicitBegin 2)),
    .act (.enter 1 ⟨0x7fff5a10, 1, 0x401000, false, true, none, 0, fun _ => ⟨0, 0⟩⟩),
    .act (.enter 2 ⟨0x7fff5a10, 1, 0x401004, false, true, none, 0, fun _ => ⟨0, 0⟩⟩)] ++
  (List.replicate 11 [.getShadowMemorySlot 1, .getShadowMemorySlot 2]).flatten ++
  [.getShadowMemorySlot 2, .getShadowMemorySlot 2, .act (.check 1), .act (.check 1), .act (.check 2), .act (.check 2)]

theorem paged_refines_pair : ∃ s, Paged.run ⟨true, false⟩ contended = some s ∧ s.pages.cachedShadowPage 2 = some 1 ∧
    Crew.Reached ⟨true, false⟩ (fun _ _ => True) s.view ∧
    ∃ u, (s.calls 2).touch = some u ∧ s.pages.entry (ShadowMemory.default.getL1PageIndex u.byteAddress)
      (ShadowMemory.default.getL2PageIndex u.byteAddress) = some 0 := by
  obtain ⟨s, ran, cached, pointed⟩ : ∃ s, Paged.run ⟨true, false⟩ contended = some s ∧
      s.pages.cachedShadowPage 2 = some 1 ∧ s.accessHistory 2 = some 0 := exists_of_any (by decide)
  have reached : Reached ⟨true, false⟩ (fun _ _ => True) s := .of_run (fun _ _ _ => trivial) ran
  have refined := paged_refines reached
  exact ⟨s, ran, cached, refined.1, refined.2.1 2 0 pointed⟩

end Paged

end Romp
