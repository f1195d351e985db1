import Romp.Checks.Holders

namespace Romp

namespace Locked

variable {flags : ReportFlags} {permits : System → Event → Prop} {s s' : Locked} {p : Paged} {t : Nat} {u : Touch}
  {place : Place} {holder : Slot → Option Nat}

/-- The slots are held by the threads behind their locks. -/
def Held (calls : Nat → Call) (holder : Slot → Option Nat) : Prop :=
  ∀ slot t, holder slot = some t ↔ (calls t).slot = some slot

def Stands (s : Locked) (t : Nat) (place : Place) (call : McsCall Nat) : Prop :=
  if s.unlocking t = some place then call.owns = true
  else if s.place t = some place then
    if (s.calls t).slot = none then call = .outside ∨ call.locking = true else call = .holding t
  else call = .outside

structure Sound (s : Locked) : Prop where
  locks : ∀ place, ∃ h, (s.lock place).Reached h
  own : ∀ place t n, ((s.lock place).call t).me = some n → n = t
  stands : ∀ t place, s.Stands t place ((s.lock place).call t)
  away : ∀ t, s.unlocking t ≠ none → s.place t = none

theorem Sound.start {system : System} : (Locked.start system).Sound where
  locks := fun _ => ⟨_, .start _⟩
  own := fun _ _ _ own => by cases own
  stands := fun _ _ => by simp [Stands, Locked.start, Locked.place, Paged.start, McsLock.mcsInit]
  away := fun _ unlocking => absurd rfl unlocking

theorem place_eq (calls : s'.calls t = s.calls t) (pointer : s'.accessHistory t = s.accessHistory t) :
    s'.place t = s.place t := by
  unfold Locked.place
  rw [calls, pointer]

theorem Held.check (held : Held s.calls holder) (checked : s.unheld.check flags t = some p)
    (free : ∀ u, (s.calls t).touch = some u → (s.calls t).slot = none → holder u.slot = none) :
    ∃ holder', (s.paged holder).check flags t = some { p with holder := holder' } ∧ Held p.calls holder' := by
  obtain ⟨u, page, h, call, touch, pointed, -, calls, goes, pointer⟩ := Paged.check_cases checked
  have touch : (s.calls t).touch = some u := touch
  have fits : holder u.slot = if (s.calls t).slot = none then none else some t := by
    split
    · rename_i waits
      exact free u touch waits
    · rename_i locked
      exact (held u.slot t).mpr (Call.slot_of_touch touch locked)
  have same : (s.paged holder).check flags t = _ := Paged.check_holder flags (s := s.unheld) touch rfl fits
  rw [checked] at same
  refine ⟨_, same, fun slot x => ?_⟩
  have calls : p.calls = Function.update s.calls t call := calls
  have here : p.calls t = call := by rw [calls, Function.update_self]
  have busy : call.slot ≠ none → call.touch = some u := fun locked => (goes.touch locked).trans touch
  have elsewhere : ∀ x, x ≠ t → p.calls x = s.calls x := fun x other => by rw [calls, Function.update_of_ne other]
  rw [here]
  by_cases own : slot = u.slot
  · rw [own, Function.update_self]
    by_cases self : x = t
    · rw [self, here]
      by_cases leaves : call.slot = none
      · simp [leaves]
      · simp [Call.slot_of_touch (busy leaves) leaves]
    · have apart : ¬(s.calls x).slot = some u.slot := by
        intro taken
        have taken := fits.symm.trans ((held u.slot x).mpr taken)
        split at taken
        · cases taken
        · exact self (Option.some.inj taken).symm
      rw [elsewhere x self]
      split <;> simp [apart, Ne.symm self]
  · rw [Function.update_of_ne own, held]
    by_cases self : x = t
    · rw [self, here]
      refine ⟨fun locked => ?_, fun locked => ?_⟩
      · have slot_eq := Call.slot_of_touch touch (by rw [locked]; exact Option.some_ne_none _)
        exact absurd (Option.some.inj (locked.symm.trans slot_eq)) own
      · have locks : call.slot ≠ none := by
          rw [locked]
          exact Option.some_ne_none _
        exact absurd (Option.some.inj (locked.symm.trans (Call.slot_of_touch (busy locks) locks))) own
    · rw [elsewhere x self]

/-- Two threads with pointers to the histories of one slot have the same pointer. -/
theorem place_unique (paged : (s.paged holder).Sound) {x : Nat} {v : Touch} (touch : (s.calls t).touch = some u)
    (touch' : (s.calls x).touch = some v) (same : v.slot = u.slot) (pointed : s.accessHistory t ≠ none)
    (pointed' : s.accessHistory x ≠ none) : s.place x = s.place t := by
  obtain ⟨page, pointer⟩ := Option.ne_none_iff_exists'.mp pointed
  obtain ⟨page', pointer'⟩ := Option.ne_none_iff_exists'.mp pointed'
  obtain ⟨-, w, known, member⟩ := paged.found t page pointer
  obtain ⟨-, w', known', member'⟩ := paged.found x page' pointer'
  obtain rfl : u = w := Option.some.inj (touch.symm.trans known)
  obtain rfl : v = w' := Option.some.inj (touch'.symm.trans known')
  have filled := (paged.installed.returned t _ _ member).2
  have filled' := (paged.installed.returned x _ _ member').2
  simp only [Touch.slot, ShadowMemory.slot, Prod.mk.injEq] at same
  obtain ⟨l1, l2, index⟩ := same
  rw [l1, l2, filled] at filled'
  unfold Locked.place
  rw [touch, touch', pointer, pointer', Option.some.inj filled', Option.bind_some, Option.bind_some, Option.map_some,
    Option.map_some, index]

namespace Sound

variable (sound : s.Sound)

include sound

theorem pointer_away (pointed : s.place t ≠ none) : s.unlocking t = none := by
  by_contra unlocking
  exact pointed (sound.away t unlocking)

theorem of_others (locks : ∀ place, ∃ h, (s'.lock place).Reached h)
    (others : ∀ x, x ≠ t → s'.unlocking x = s.unlocking x ∧ s'.calls x = s.calls x ∧
      s'.accessHistory x = s.accessHistory x ∧ ∀ place, (s'.lock place).call x = (s.lock place).call x)
    (own : ∀ place n, ((s'.lock place).call t).me = some n → n = t)
    (stands : ∀ place, s'.Stands t place ((s'.lock place).call t))
    (away : s'.unlocking t ≠ none → s'.place t = none) : s'.Sound := by
  refine ⟨locks, fun place x n => ?_, fun x place => ?_, fun x => ?_⟩
  all_goals by_cases self : x = t
  · exact self ▸ own place n
  · rw [(others x self).2.2.2 place]
    exact sound.own place x n
  · exact self ▸ stands place
  · obtain ⟨unlocking, calls, pointer, call⟩ := others x self
    unfold Stands
    rw [unlocking, place_eq calls pointer, calls, call place]
    exact sound.stands x place
  · exact self ▸ away
  · obtain ⟨unlocking, calls, pointer, -⟩ := others x self
    rw [unlocking, place_eq calls pointer]
    exact sound.away x

theorem at_place (here : s.place t = some place) (waits : (s.calls t).slot = none) :
    (s.lock place).call t = .outside ∨ ((s.lock place).call t).locking = true := by
  have stands := sound.stands t place
  have free : s.unlocking t = none := sound.pointer_away (by rw [here]; exact Option.some_ne_none _)
  unfold Stands at stands
  rwa [free, if_neg (by simp), if_pos here, if_pos waits] at stands

theorem behind_lock (here : s.place t = some place) (locked : (s.calls t).slot ≠ none) :
    (s.lock place).call t = .holding t := by
  have stands := sound.stands t place
  have free : s.unlocking t = none := sound.pointer_away (by rw [here]; exact Option.some_ne_none _)
  unfold Stands at stands
  rwa [free, if_neg (by simp), if_pos here, if_neg locked] at stands

theorem owns (leaves : s.unlocking t = some place) : ((s.lock place).call t).owns = true := by
  have stands := sound.stands t place
  unfold Stands at stands
  rwa [if_pos leaves] at stands

theorem elsewhere (leaves : s.unlocking t ≠ some place) (apart : s.place t ≠ some place) :
    (s.lock place).call t = .outside := by
  have stands := sound.stands t place
  unfold Stands at stands
  rwa [if_neg leaves, if_neg apart] at stands

theorem acquire (here : s.place t = some place) (waits : (s.calls t).slot = none) (storage : McsNode Nat) :
    (s.lock place).Enabled t (s.acquiring t place storage) ∧
      (∀ x, x ≠ t → (s.acquire t place storage).call x = (s.lock place).call x) ∧
      (∀ n, ((s.acquire t place storage).call t).me = some n → n = t) ∧
      ((s.acquire t place storage).call t = .holding t ∨ ((s.acquire t place storage).call t).locking = true) := by
  unfold Locked.acquire Locked.acquiring
  refine ⟨?_, fun x other => McsLock.after_other _ _ other, fun n own => ?_, ?_⟩
  · split
    · rename_i outside
      refine ⟨outside, fun x own => ?_⟩
      rw [← sound.own place x t own, outside] at own
      cases own
    · rename_i inside
      refine ⟨inside, fun me holding => ?_⟩
      rcases sound.at_place here waits with outside | locking
      · exact inside outside
      · rw [holding] at locking
        cases locking
  · split at own
    · rw [McsLock.after, McsLock.goto_self] at own
      exact (Option.some.inj own).symm
    · rcases McsLock.go_me (s.lock place) t with same | outside
      · exact sound.own place t n (same.symm.trans own)
      · rw [McsLock.after, outside] at own
        cases own
  · split
    · rw [McsLock.after, McsLock.goto_self]
      exact .inr rfl
    · rename_i inside
      have locking := (sound.at_place here waits).resolve_left inside
      rcases McsLock.go_locking (s.lock place) t locking with locking' | ⟨me, holding⟩
      · exact .inr locking'
      · rcases McsLock.go_me (s.lock place) t with same | outside
        · rw [holding] at same
          rw [sound.own place t me same.symm] at holding
          exact .inl holding
        · cases holding.symm.trans outside

theorem release (leaves : s.unlocking t = some place) :
    (s.lock place).Enabled t (s.releasing t place) ∧
      (∀ x, x ≠ t → (s.release t place).call x = (s.lock place).call x) ∧
      (∀ n, ((s.release t place).call t).me = some n → n = t) ∧
      ((s.release t place).call t = .outside ∨ ((s.release t place).call t).owns = true) := by
  have owns := sound.owns leaves
  unfold Locked.release Locked.releasing
  refine ⟨?_, fun x other => McsLock.after_other _ _ other, fun n own => ?_, ?_⟩
  · split
    · rename_i holding
      exact ⟨t, holding⟩
    · rename_i goes
      refine ⟨fun outside => ?_, fun me holding => ?_⟩
      · rw [outside] at owns
        cases owns
      · have same := sound.own place t me (by rw [holding]; rfl)
        exact goes (same ▸ holding)
  · split at own
    · rename_i holding
      simp only [McsLock.after, holding, McsLock.goto_self] at own
      exact (Option.some.inj own).symm
    · rcases McsLock.go_me (s.lock place) t with same | outside
      · exact sound.own place t n (same.symm.trans own)
      · rw [McsLock.after, outside] at own
        cases own
  · split
    · rename_i holding
      simp only [McsLock.after, holding, McsLock.goto_self]
      exact .inr rfl
    · exact (McsLock.go_owns (s.lock place) t owns).symm

theorem of_lock {action : McsAction Nat} (enabled : (s.lock place).Enabled t action)
    (changed : s'.lock = Function.update s.lock place ((s.lock place).after t action))
    (own : ∀ n, (((s.lock place).after t action).call t).me = some n → n = t)
    (others : ∀ x, x ≠ t → s'.unlocking x = s.unlocking x ∧ s'.calls x = s.calls x ∧
      s'.accessHistory x = s.accessHistory x)
    (stands : ∀ place', s'.Stands t place' ((s'.lock place').call t))
    (away : s'.unlocking t ≠ none → s'.place t = none) : s'.Sound := by
  refine sound.of_others (t := t) (fun place' => ?_) (fun x other => ?_) (fun place' n mine => ?_) stands away
  · rw [changed]
    by_cases same : place' = place
    · rw [same, Function.update_self]
      obtain ⟨h, reached⟩ := sound.locks place
      exact ⟨_, .step reached enabled⟩
    · rw [Function.update_of_ne same]
      exact sound.locks place'
  · obtain ⟨unlocking, calls, pointer⟩ := others x other
    refine ⟨unlocking, calls, pointer, fun place' => ?_⟩
    rw [changed]
    by_cases same : place' = place
    · rw [same, Function.update_self]
      exact McsLock.after_other _ _ other
    · rw [Function.update_of_ne same]
  · rw [changed] at mine
    by_cases same : place' = place
    · rw [same, Function.update_self] at mine
      exact own n mine
    · rw [Function.update_of_ne same] at mine
      exact sound.own place' t n mine

theorem mcsUnlock (stepped : s.mcsUnlock t = some s') : s'.Sound ∧ ∀ holder, s'.paged holder = s.paged holder := by
  obtain ⟨place, leaves, rfl⟩ := Option.map_eq_some_iff.mp stepped
  obtain ⟨enabled, -, own, ends⟩ := sound.release leaves
  have gone : s.place t = none := sound.away t (by rw [leaves]; exact Option.some_ne_none _)
  refine ⟨sound.of_lock enabled rfl own (fun x other => ⟨?_, rfl, rfl⟩) (fun place' => ?_)
    fun _ => gone, fun _ => rfl⟩
  · simp only
    split
    · exact Function.update_of_ne other _ _
    · rfl
  · have nowhere : ∀ place', place' ≠ place → (s.lock place').call t = .outside := by
      intro place' other
      refine sound.elsewhere ?_ (by rw [gone]; simp)
      rw [leaves]
      exact fun same => other (Option.some.inj same).symm
    have apart : ∀ unlocking, Locked.place { s.setLock place (s.release t place) with unlocking } t = none :=
      fun _ => gone
    simp only [Locked.setLock] at apart ⊢
    unfold Stands
    by_cases same : place' = place
    · subst same
      rw [Function.update_self]
      simp only
      by_cases outside : (s.release t place').call t = .outside
      · simp [outside, apart]
      · simp [outside, leaves, ends.resolve_left outside]
    · rw [Function.update_of_ne same, nowhere place' same]
      simp only
      by_cases outside : (s.release t place).call t = .outside
      · simp [outside, apart]
      · simp [outside, leaves, apart, Ne.symm same]

theorem get (free : s.unlocking t = none) (got : s.unheld.get t = some p) :
    (s.follow p).Sound ∧ p.calls = s.calls ∧
      ∀ holder, (s.paged holder).get t = some ((s.follow p).paged holder) := by
  have frame : p.calls = s.calls ∧ s.accessHistory t = none ∧ (s.calls t).slot = none ∧
      ∀ x, x ≠ t → p.accessHistory x = s.accessHistory x := by
    obtain ⟨u, left, calls, none, ⟨-, rfl⟩ | ⟨a, table, pages, -, -, rfl⟩ | ⟨-, -, pages, -, rfl⟩⟩ :=
      Paged.get_cases got
    · exact ⟨rfl, none, by rw [show s.calls t = _ from calls]; rfl, fun _ _ => rfl⟩
    · exact ⟨rfl, none, by rw [show s.calls t = _ from calls]; rfl, fun x other => Function.update_of_ne other _ _⟩
    · exact ⟨rfl, none, by rw [show s.calls t = _ from calls]; rfl, fun _ _ => rfl⟩
  obtain ⟨calls, none, waits, pointers⟩ := frame
  refine ⟨sound.of_others (t := t) sound.locks (fun x other => ⟨rfl, congrFun calls x, pointers x other, fun _ => rfl⟩)
    (fun place n => sound.own place t n) (fun place => ?_) fun leaves => absurd free leaves, calls,
    fun holder => ?_⟩
  · have outside : (s.lock place).call t = .outside := by
      apply sound.elsewhere (by rw [free]; simp)
      unfold Locked.place
      rw [none]
      cases (s.calls t).touch <;> simp
    have waits' : ((s.follow p).calls t).slot = Option.none := (congrArg Call.slot (congrFun calls t)).trans waits
    change (s.follow p).Stands t place ((s.lock place).call t)
    unfold Stands
    rw [show (s.follow p).unlocking t = Option.none from free, if_neg (by simp), waits', outside]
    split
    · rw [if_pos rfl]
      exact .inl rfl
    · rfl
  · have same : (s.paged holder).get t = _ := Paged.get_holder (s := s.unheld) holder
    rw [got] at same
    exact same

theorem check (held : Held s.calls holder) (stepped : s.check flags t = some s') : s'.Sound ∧
    ∃ holder', (s.paged holder).check flags t = some (s'.paged holder') ∧ Held s'.calls holder' := by
  unfold Locked.check at stepped
  split at stepped
  · cases stepped
  · rename_i locked
    obtain ⟨p, checked, rfl⟩ := Option.map_eq_some_iff.mp stepped
    obtain ⟨holder', same, held'⟩ := held.check checked fun u touch waits => absurd waits locked
    obtain ⟨u, page, h, call, touch, pointed, -, calls, goes, pointer⟩ := Paged.check_cases checked
    have calls : p.calls = Function.update s.calls t call := calls
    have pointer : p.accessHistory = Function.update s.accessHistory t (if call.slot = none then none else some page) :=
      pointer
    have here : p.calls t = call := by rw [calls, Function.update_self]
    have stood : s.place t = some (page, ShadowMemory.default.getPageIndex u.byteAddress) := by
      unfold Locked.place
      rw [show (s.calls t).touch = _ from touch, show s.accessHistory t = _ from pointed]
      rfl
    have free : s.unlocking t = none := sound.pointer_away (by rw [stood]; exact Option.some_ne_none _)
    have stays : ∀ unlocking, Locked.place
        ⟨p.subject, p.calls, p.reports, p.pages, p.accessHistory, s.lock, unlocking⟩ t =
          if call.slot = none then none else s.place t := by
      intro unlocking
      rw [stood]
      unfold Locked.place
      simp only [here, pointer, Function.update_self]
      split
      · cases call.touch <;> rfl
      · rename_i stays
        rw [(goes.touch stays).trans touch]
        rfl
    refine ⟨sound.of_others (t := t) sound.locks (fun x other => ⟨?_, ?_, ?_, fun _ => rfl⟩)
      (fun place n => sound.own place t n) (fun place => ?_) fun leaves => ?_, holder', same, held'⟩
    · simp only
      split
      · exact Function.update_of_ne other _ _
      · rfl
    · exact (congrFun calls x).trans (Function.update_of_ne other _ _)
    · exact (congrFun pointer x).trans (Function.update_of_ne other _ _)
    · have nowhere : s.place t ≠ some place → (s.lock place).call t = .outside :=
        fun apart => sound.elsewhere (by rw [free]; simp) apart
      unfold Stands
      simp only [Locked.follow, here, stays]
      by_cases leaves : call.slot = none
      · rw [if_pos leaves, if_pos leaves, Function.update_self]
        by_cases same : s.place t = some place
        · rw [if_pos same, sound.behind_lock same locked]
          rfl
        · rw [if_neg same, nowhere same, if_neg (by simp)]
      · rw [if_neg leaves, if_neg leaves, if_neg leaves, free, if_neg (by simp)]
        by_cases same : s.place t = some place
        · rw [if_pos same, sound.behind_lock same locked]
        · rw [if_neg same, nowhere same]
    · simp only [here] at leaves
      apply (stays _).trans
      split at leaves
      · rename_i ends
        rw [if_pos ends]
      · exact absurd free leaves

/-- No thread is behind the lock of a slot when another one gets it. -/
theorem exclusive (paged : (s.paged holder).Sound) (held : Held s.calls holder) (touch : (s.calls t).touch = some u)
    (here : s.place t = some place) (waits : (s.calls t).slot = none) {storage : McsNode Nat}
    (got : (s.acquire t place storage).call t = .holding t) : holder u.slot = none := by
  by_contra taken
  obtain ⟨x, taken⟩ := Option.ne_none_iff_exists'.mp taken
  have locked := (held u.slot x).mp taken
  have behind : (s.calls x).slot ≠ none := by
    rw [locked]
    exact Option.some_ne_none _
  have other : x ≠ t := by
    rintro rfl
    exact behind waits
  obtain ⟨enabled, others, -⟩ := sound.acquire here waits storage
  obtain ⟨h, reached⟩ := sound.locks place
  obtain ⟨page, pointer⟩ := Option.ne_none_iff_exists'.mp (paged.pointed x behind)
  obtain ⟨-, v, touch', -⟩ := paged.found x page pointer
  have same : v.slot = u.slot := Option.some.inj ((Call.slot_of_touch touch' behind).symm.trans locked)
  have pointed : s.accessHistory t ≠ none := by
    intro none
    unfold Locked.place at here
    rw [touch, none] at here
    cases here
  have there := (place_unique paged touch touch' same pointed (paged.pointed x behind)).trans here
  obtain ⟨q, queue, -⟩ := (reached.step enabled).queue
  refine other (queue.owner_unique (s := s.acquire t place storage) ?_ ?_)
  · rw [others x other, sound.behind_lock there behind]
    rfl
  · rw [got]
    rfl

theorem mcsLock (paged : (s.paged holder).Sound) (held : Held s.calls holder) {storage : McsNode Nat}
    (stepped : s.mcsLock flags t storage = some s') : s'.Sound ∧
    (s'.calls = s.calls ∧ s'.paged holder = s.paged holder ∨
      ∃ holder', (s.paged holder).check flags t = some (s'.paged holder') ∧ Held s'.calls holder') := by
  unfold Locked.mcsLock at stepped
  split at stepped
  · rename_i place free here
    split at stepped
    · rename_i waits
      obtain ⟨enabled, -, own, gets⟩ := sound.acquire here waits storage
      have nowhere : ∀ place', place' ≠ place → (s.lock place').call t = .outside :=
        fun place' other => sound.elsewhere (by rw [free]; simp) fun same =>
          other (Option.some.inj (same.symm.trans here))
      simp only at stepped
      split at stepped
      · rename_i got
        obtain ⟨p, checked, rfl⟩ := Option.map_eq_some_iff.mp stepped
        obtain ⟨holder', same, held'⟩ :=
          held.check checked fun u touch waits => sound.exclusive paged held touch here waits got
        obtain ⟨u, page, h, call, touch, pointed, -, calls, goes, pointer⟩ := Paged.check_cases checked
        have calls : p.calls = Function.update s.calls t call := calls
        have locks : call.slot ≠ none := goes.locks waits
        have here' : p.calls t = call := by rw [calls, Function.update_self]
        have pointer : p.accessHistory = s.accessHistory := by
          rw [pointer, if_neg locks]
          exact Function.update_eq_self_iff.mpr pointed.symm
        have stays : ((s.setLock place (s.acquire t place storage)).follow p).place t = some place := by
          rw [← here]
          unfold Locked.place
          simp only [Locked.follow, here', pointer]
          rw [goes.touch locks]
          rfl
        refine ⟨sound.of_lock enabled rfl own (fun x other => ⟨rfl, ?_, congrFun pointer x⟩)
          (fun place' => ?_) fun leaves => absurd free leaves, .inr ⟨holder', same, held'⟩⟩
        · exact (congrFun calls x).trans (Function.update_of_ne other _ _)
        · unfold Stands
          rw [stays, show ((s.setLock place (s.acquire t place storage)).follow p).unlocking t = none from free]
          simp only [Locked.follow, Locked.setLock, here', if_neg locks]
          rw [if_neg (by simp)]
          by_cases same : place' = place
          · rw [if_pos (congrArg some same.symm), same, Function.update_self, got]
          · rw [if_neg fun eq => same (Option.some.inj eq).symm, Function.update_of_ne same, nowhere place' same]
      · rename_i waiting
        cases stepped
        refine ⟨sound.of_lock enabled rfl own (fun x other => ⟨rfl, rfl, rfl⟩)
          (fun place' => ?_) fun leaves => absurd free leaves, .inl ⟨rfl, rfl⟩⟩
        unfold Stands
        rw [show (s.setLock place (s.acquire t place storage)).unlocking t = none from free,
          show (s.setLock place (s.acquire t place storage)).place t = some place from here,
          show ((s.setLock place (s.acquire t place storage)).calls t).slot = none from waits, if_neg (by simp)]
        simp only [Locked.setLock]
        by_cases same : place' = place
        · rw [if_pos (congrArg some same.symm), if_pos trivial, same, Function.update_self]
          exact .inr (gets.resolve_left waiting)
        · rw [if_neg fun eq => same (Option.some.inj eq).symm, Function.update_of_ne same, nowhere place' same]
    · cases stepped
  · cases stepped

theorem act (paged : (s.paged holder).Sound) (held : Held s.calls holder) {a : Crew.Move} (other : ∀ t, a ≠ .check t)
    (gate : (a.actor.all fun t => (s.unlocking t).isNone) = true) (stepped : s.unheld.step flags (.act a) = some p) :
    (s.follow p).Sound ∧ (s.paged holder).step flags (.act a) = some ((s.follow p).paged holder) ∧
      Held p.calls holder := by
  have same : (s.paged holder).step flags (.act a) = _ := Paged.step_holder (s := s.unheld) other holder
  rw [stepped] at same
  rw [Paged.step_of_other other] at stepped
  obtain ⟨c, went, rfl⟩ := Option.map_eq_some_iff.mp stepped
  rcases Crew.step_calls other went with calls | ⟨t, r, rfl, idle, calls⟩
  · have calls : c.calls = s.calls := calls
    have places : ∀ x, (s.follow (s.unheld.follow c)).place x = s.place x := fun x => place_eq (congrFun calls x) rfl
    refine ⟨⟨sound.locks, sound.own, fun x place => ?_, fun x leaves => ?_⟩, same, ?_⟩
    · unfold Stands
      rw [places, show (s.follow (s.unheld.follow c)).calls = s.calls from calls]
      exact sound.stands x place
    · rw [places]
      exact sound.away x leaves
    · rw [show (s.unheld.follow c).calls = s.calls from calls]
      exact held
  · have idle : s.calls t = .idle := idle
    have calls : c.calls = Function.update s.calls t (.next r.touches) := calls
    have free : s.unlocking t = none := by simpa [Crew.Move.actor] using gate
    have pointer : s.accessHistory t = none := by
      by_contra pointed
      obtain ⟨page, found⟩ := Option.ne_none_iff_exists'.mp pointed
      obtain ⟨-, u, touch, -⟩ := paged.found t page found
      rw [show (s.paged holder).calls t = _ from idle] at touch
      cases touch
    have nowhere : ∀ s' : Locked, s'.accessHistory t = none → s'.place t = none := by
      intro s' none
      unfold Locked.place
      rw [none]
      cases (s'.calls t).touch <;> rfl
    refine ⟨sound.of_others (t := t) sound.locks (fun x other => ⟨rfl, ?_, rfl, fun _ => rfl⟩)
      (fun place n => sound.own place t n) (fun place => ?_) fun _ => nowhere _ pointer, same, fun slot x => ?_⟩
    · exact (congrFun calls x).trans (Function.update_of_ne other _ _)
    · unfold Stands
      rw [nowhere (s.follow (s.unheld.follow c)) pointer,
        show (s.follow (s.unheld.follow c)).unlocking t = none from free, if_neg (by simp), if_neg (by simp)]
      exact sound.elsewhere (by rw [free]; simp) (by rw [nowhere s pointer]; simp)
    · rw [held slot x, show (s.unheld.follow c).calls = _ from calls]
      by_cases self : x = t
      · rw [self, Function.update_self, idle, Call.next_slot]
        rfl
      · rw [Function.update_of_ne self]

end Sound

theorem step_of_other {a : Crew.Move} (other : ∀ t, a ≠ .check t) (stepped : s.step flags (.act a) = some s') :
    (a.actor.all fun t => (s.unlocking t).isNone) = true ∧
      ∃ p, s.unheld.step flags (.act a) = some p ∧ s.follow p = s' := by
  have gated : ∀ next : Option Locked, (if (a.actor.all fun t => (s.unlocking t).isNone) = true then next else none) =
      some s' → (a.actor.all fun t => (s.unlocking t).isNone) = true ∧ next = some s' := by
    intro next stepped
    split at stepped
    · exact ⟨‹_›, stepped⟩
    · cases stepped
  cases a with
  | check t => exact absurd rfl (other t)
  | _ => exact (gated _ stepped).imp_right Option.map_eq_some_iff.mp

/-- The threads that use the queue locks are in states of those whose locks are one step. -/
theorem Reached.refines (reached : Reached flags permits s) :
    s.Sound ∧ ∃ holder, Held s.calls holder ∧ Paged.Reached flags permits (s.paged holder) := by
  induction reached with
  | @start system begun =>
    refine ⟨.start, fun _ => none, fun slot t => ⟨fun held => ?_, fun locked => ?_⟩, .start begun⟩
    · cases held
    · cases locked
  | @step s s' a _ permitted stepped ih =>
    obtain ⟨sound, holder, held, paged⟩ := ih
    cases a with
    | getShadowMemorySlot t =>
      simp only [Locked.step] at stepped
      split at stepped
      · rename_i free
        obtain ⟨p, got, rfl⟩ := Option.map_eq_some_iff.mp stepped
        obtain ⟨sound', calls, gets⟩ := sound.get (by simpa using free) got
        have next : (s.paged holder).step flags (.getShadowMemorySlot t) = some ((s.follow p).paged holder) :=
          gets holder
        have held' : Held p.calls holder := calls.symm ▸ held
        exact ⟨sound', holder, held', .step paged (fun e event => by cases event) next⟩
      · cases stepped
    | mcsLock t storage =>
      obtain ⟨sound', ⟨calls, same⟩ | ⟨holder', checked, held'⟩⟩ := sound.mcsLock paged.refines.1 held stepped
      · exact ⟨sound', holder, calls.symm ▸ held, same.symm ▸ paged⟩
      · have next : (s.paged holder).step flags (.act (.check t)) = some (s'.paged holder') := checked
        exact ⟨sound', holder', held', .step paged (fun e event => by cases event) next⟩
    | mcsUnlock t =>
      obtain ⟨sound', same⟩ := sound.mcsUnlock stepped
      have calls : s'.calls = s.calls := congrArg Paged.calls (same holder)
      exact ⟨sound', holder, calls.symm ▸ held, (same holder).symm ▸ paged⟩
    | act a =>
      by_cases other : ∀ t, a ≠ .check t
      · obtain ⟨gate, p, went, rfl⟩ := step_of_other other stepped
        obtain ⟨sound', next, held'⟩ := sound.act paged.refines.1 held other gate went
        have permitted' : ∀ e, Paged.Move.act a = .act (.event e) → permits s.subject.system e :=
          fun e event => permitted e (congrArg Move.act (Paged.Move.act.inj event))
        exact ⟨sound', holder, held', .step paged permitted' next⟩
      · obtain ⟨t, check⟩ := not_forall_not.mp other
        subst check
        obtain ⟨sound', holder', checked, held'⟩ := sound.check held stepped
        have next : (s.paged holder).step flags (.act (.check t)) = some (s'.paged holder') := checked
        exact ⟨sound', holder', held', .step paged (fun e event => by cases event) next⟩

theorem mcsLock_waits {storage : McsNode Nat} (stepped : s.mcsLock flags t storage = some s') :
    (s.calls t).slot = none := by
  unfold Locked.mcsLock at stepped
  split at stepped
  · split at stepped
    · rename_i waits
      exact waits
    · cases stepped
  · cases stepped

theorem contents_changed (reached : Reached flags permits s) {a : Move} (stepped : s.step flags a = some s')
    {slot : Slot} (changed : s'.pages.contents .new slot ≠ s.pages.contents .new slot) :
    ∃ t, a = .act (.check t) ∧ (s.calls t).slot = some slot := by
  obtain ⟨sound, holder, held, paged⟩ := reached.refines
  have checks : ∀ {t holder'}, (s.paged holder).check flags t = some (s'.paged holder') →
      (s.calls t).slot = some slot := by
    intro t holder' checked
    obtain ⟨-, viewed⟩ := paged.refines.1.step (show (s.paged holder).step flags (.act (.check t)) = _ from checked)
    exact Crew.check_memory viewed changed
  cases a with
  | getShadowMemorySlot t =>
    simp only [Locked.step] at stepped
    split at stepped
    · rename_i free
      obtain ⟨p, got, rfl⟩ := Option.map_eq_some_iff.mp stepped
      obtain ⟨-, -, gets⟩ := sound.get (by simpa using free) got
      obtain ⟨-, same, -⟩ := paged.refines.1.get (gets holder)
      exact absurd (congrFun (congrArg Crew.shadowMemory same) slot) changed
    · cases stepped
  | mcsLock t storage =>
    obtain ⟨-, ⟨-, same⟩ | ⟨holder', checked, -⟩⟩ := sound.mcsLock paged.refines.1 held stepped
    · exact absurd (congrFun (congrArg Crew.shadowMemory (congrArg Paged.view same)) slot) changed
    · cases (mcsLock_waits stepped).symm.trans (checks checked)
  | mcsUnlock t =>
    obtain ⟨-, same⟩ := sound.mcsUnlock stepped
    exact absurd (congrFun (congrArg Crew.shadowMemory (congrArg Paged.view (same holder))) slot) changed
  | act a =>
    by_cases other : ∀ t, a ≠ .check t
    · obtain ⟨-, p, went, rfl⟩ := step_of_other other stepped
      rw [Paged.step_of_other other] at went
      obtain ⟨c, -, rfl⟩ := Option.map_eq_some_iff.mp went
      exact absurd rfl changed
    · obtain ⟨t, check⟩ := not_forall_not.mp other
      subst check
      obtain ⟨-, holder', checked, -⟩ := sound.check held stepped
      exact ⟨t, rfl, checks checked⟩

/-- With the queue locks and the pages the threads check as with locks that are one step and a memory of slots: each
    lock is used as it has to be; a thread is in the functions of one lock at a time; it is alone behind the lock in the
    slot of its byte; and a history is changed by the thread that has its lock. -/
theorem locked_refines (reached : Reached flags permits s) :
    (∃ holder, Crew.Reached flags permits (s.paged holder).view ∧
      ∀ slot t, holder slot = some t ↔ (s.calls t).slot = some slot) ∧
    (∀ place, ∃ h, (s.lock place).Reached h) ∧
    (∀ t place place', (s.lock place).call t ≠ .outside → (s.lock place').call t ≠ .outside → place = place') ∧
    (∀ t, (s.calls t).slot ≠ none → ∃ place, s.place t = some place ∧ (s.lock place).call t = .holding t ∧
      ∀ x, ((s.lock place).call x).owns = true → x = t) ∧
    ∀ a s' slot, s.step flags a = some s' → s'.pages.contents .new slot ≠ s.pages.contents .new slot →
      ∃ t, a = .act (.check t) ∧ (s.calls t).slot = some slot := by
  obtain ⟨sound, holder, held, paged⟩ := reached.refines
  refine ⟨⟨holder, paged.refines.2, held⟩, sound.locks, fun t place place' inside inside' => ?_, fun t locked => ?_,
    fun a s' slot stepped changed => contents_changed reached stepped changed⟩
  · have one : ∀ place, (s.lock place).call t ≠ .outside →
        s.unlocking t = some place ∨ s.unlocking t = none ∧ s.place t = some place := by
      intro place inside
      by_cases leaves : s.unlocking t = some place
      · exact .inl leaves
      · by_cases here : s.place t = some place
        · exact .inr ⟨sound.pointer_away (by rw [here]; exact Option.some_ne_none _), here⟩
        · exact absurd (sound.elsewhere leaves here) inside
    rcases one place inside with leaves | ⟨free, here⟩ <;> rcases one place' inside' with leaves' | ⟨free', here'⟩
    · exact Option.some.inj (leaves.symm.trans leaves')
    · cases leaves.symm.trans free'
    · cases free.symm.trans leaves'
    · exact Option.some.inj (here.symm.trans here')
  · obtain ⟨page, pointer⟩ := Option.ne_none_iff_exists'.mp (paged.refines.1.pointed t locked)
    obtain ⟨-, u, touch, -⟩ := paged.refines.1.found t page pointer
    have here : s.place t = some (page, ShadowMemory.default.getPageIndex u.byteAddress) := by
      unfold Locked.place
      rw [show (s.calls t).touch = _ from touch, show s.accessHistory t = _ from pointer]
      rfl
    have holding := sound.behind_lock here locked
    obtain ⟨h, used⟩ := sound.locks (page, ShadowMemory.default.getPageIndex u.byteAddress)
    obtain ⟨q, queue, -⟩ := used.queue
    refine ⟨_, here, holding, fun x owns => queue.owner_unique owns ?_⟩
    rw [holding]
    rfl

/-- Two threads write to one byte. The second one asks for the lock while the first one has it, waits in the queue, and
    finds the record of the first when it has got the lock. -/
def queued : List Move :=
  [.act (.event (.parallelBegin 0 2)), .act (.event (.implicitBegin 1)), .act (.event (.implicitBegin 2)),
    .act (.enter 1 ⟨0x7fff5a10, 1, 0x401000, false, true, none, 0, fun _ => ⟨0, 0⟩⟩),
    .act (.enter 2 ⟨0x7fff5a10, 1, 0x401004, false, true, none, 0, fun _ => ⟨0, 0⟩⟩)] ++
  (List.replicate 11 [.getShadowMemorySlot 1, .getShadowMemorySlot 2]).flatten ++
  [.getShadowMemorySlot 2, .getShadowMemorySlot 2] ++
  (List.replicate 3 [.mcsLock 1 ⟨none, false⟩, .mcsLock 2 ⟨none, false⟩]).flatten ++
  [.mcsLock 2 ⟨none, false⟩, .mcsLock 2 ⟨none, false⟩, .mcsLock 2 ⟨none, false⟩, .act (.check 1), .mcsUnlock 1,
    .mcsUnlock 1, .mcsUnlock 1, .mcsLock 2 ⟨none, false⟩, .act (.check 2)]

theorem locked_refines_queued : ∃ s, Locked.run ⟨true, false⟩ queued = some s ∧ s.unlocking 1 = none ∧
    (∃ holder, Crew.Reached ⟨true, false⟩ (fun _ _ => True) (s.paged holder).view ∧
      ∀ slot t, holder slot = some t ↔ (s.calls t).slot = some slot) ∧
    ∃ place, s.place 2 = some place ∧ (s.lock place).call 2 = .holding 2 := by
  obtain ⟨s, ran, freed, locked⟩ : ∃ s, Locked.run ⟨true, false⟩ queued = some s ∧ s.unlocking 1 = none ∧
      (s.calls 2).slot ≠ none := exists_of_any (by decide)
  have reached : Reached ⟨true, false⟩ (fun _ _ => True) s := .of_run (fun _ _ _ => trivial) ran
  have refined := locked_refines reached
  obtain ⟨place, here, holding, -⟩ := refined.2.2.2.1 2 locked
  exact ⟨s, ran, freed, refined.1, place, here, holding⟩

end Locked

end Romp
