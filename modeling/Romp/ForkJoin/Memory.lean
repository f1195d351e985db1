import Romp.ForkJoin.Guards

open ForkJoin

namespace Romp

theorem Call.idle_of_isIdle {call : Call} (idle : call.isIdle = true) : call = .idle := by
  cases call with
  | idle => rfl
  | _ => cases idle

def Last (p : Subject) (slot : Slot) (W : Nat → Path) (n : Nat) : Prop := ∀ k u, n < k → ¬Checks p slot W k u

def Call.Sound (p : Subject) (V W : Nat → Path) (shadowMemory : Histories) (t : Nat) : Call → Prop
  | .idle | .locking .. => True
  | .holding n u _ =>
    p.made[n]? = some u ∧ p.held n = p.guards t ∧ Last p u.slot W n ∧ W n = V t ∧
      Judged p u.slot W n (shadowMemory u.slot)
  | .scanning n u _ cur locals kept records =>
    p.made[n]? = some u ∧ p.held n = p.guards t ∧ Last p u.slot W n ∧ cur.taskPtr = t ∧
      ∃ done, Underway p u.slot W n cur locals.skipAddCur done kept records (shadowMemory u.slot)

/-- What holds of the threads, the histories and the reports in every state of a run. -/
structure Crew.Sound (c : Crew) (V W : Nat → Path) : Prop where
  ordered : c.subject.Ordered V W
  busy : ∀ t, c.calls t ≠ .idle →
    c.subject.system.runtime.running t = true ∧ (c.subject.system.runtime.task t).kind ≠ .initial
  held : ∀ slot t, c.holder slot = some t ↔ (c.calls t).slot = some slot
  free : ∀ slot, c.holder slot = none → Judged c.subject slot W c.subject.made.length (c.shadowMemory slot)
  calls : ∀ t, (c.calls t).Sound c.subject V W c.shadowMemory t
  flagged : c.reports.gDataRaceFound = true ↔ ∃ slot, (c.shadowMemory slot).dataRaceFound = true
  told : ∀ info, c.reports.Tells info →
    ∃ i j u v, c.subject.Race i j u v ∧ info = ⟨u.instnAddr, v.instnAddr, v.byteAddress⟩

section Frames

variable {c : Crew} {p' : Subject} {V V' W W' : Nat → Path} {t : Nat}

theorem Call.Sound.congr {p : Subject} {shadowMemory shadowMemory' : Histories} {call : Call}
    (sound : call.Sound p V W shadowMemory t)
    (same : ∀ slot, call.slot = some slot → shadowMemory' slot = shadowMemory slot) :
    call.Sound p V W shadowMemory' t := by
  cases call with
  | idle | locking => trivial
  | holding n u left =>
    rw [Call.Sound, same _ rfl]
    exact sound
  | scanning n u left cur locals kept records =>
    rw [Call.Sound, same _ rfl]
    exact sound

theorem Call.Sound.onward {p : Subject} {shadowMemory : Histories} {call : Call} (onward : p.Onward p' W W')
    (ordered : p'.Ordered V' W') (sound : call.Sound p V W shadowMemory t)
    (same : call ≠ .idle → V' t = V t ∧ p'.guards t = p.guards t)
    (idle : ∀ slot, call.slot = some slot → ∀ k u, p.made.length ≤ k → ¬Checks p' slot W' k u) :
    call.Sound p' V' W' shadowMemory t := by
  have last : ∀ slot n, call.slot = some slot → n < p.made.length → Last p slot W n → Last p' slot W' n := by
    intro slot n here bound last k u late checks
    by_cases old : k < p.made.length
    · exact last k u late (onward.checks old checks)
    · exact idle slot here k u (by omega) checks
  cases call with
  | idle | locking => trivial
  | holding n u left =>
    obtain ⟨made, held, final, path, judged⟩ := sound
    have bound := (List.getElem?_eq_some_iff.mp made).1
    obtain ⟨stays, guard⟩ := same (by simp)
    refine ⟨(onward.made_eq bound).trans made, ?_, last _ n rfl bound final, ?_, ?_⟩
    · rw [onward.held n bound, held, guard]
    · rw [onward.paths n bound, path, stays]
    · exact onward.judged ordered judged (by omega) (le_refl n) fun k u late early => by omega
  | scanning n u left cur locals kept records =>
    obtain ⟨made, held, final, task, done, underway⟩ := sound
    have bound := (List.getElem?_eq_some_iff.mp made).1
    refine ⟨(onward.made_eq bound).trans made, ?_, last _ n rfl bound final, task, done,
      onward.underway ordered underway⟩
    rw [onward.held n bound, held, (same (by simp)).2]

namespace Crew.Sound

variable (sound : c.Sound V W)

include sound

theorem free_onward (onward : c.subject.Onward p' W W') (ordered : p'.Ordered V' W') {slot : Slot}
    (idle : ∀ k u, c.subject.made.length ≤ k → ¬Checks p' slot W' k u) (free : c.holder slot = none) :
    Judged p' slot W' p'.made.length (c.shadowMemory slot) :=
  onward.judged ordered (sound.free slot free) (le_refl _) onward.length fun k u late _ => idle k u late

theorem told_onward (onward : c.subject.Onward p' W W') (info : DataRaceInfo) (told : c.reports.Tells info) :
    ∃ i j u v, p'.Race i j u v ∧ info = ⟨u.instnAddr, v.instnAddr, v.byteAddress⟩ := by
  obtain ⟨i, j, u, v, race, same⟩ := sound.told info told
  exact ⟨i, j, u, v, onward.race race, same⟩

theorem onward (onward : c.subject.Onward p' W W') (ordered : p'.Ordered V' W')
    (kept : ∀ t, c.calls t ≠ .idle → p'.system.runtime.running t = true ∧
      (p'.system.runtime.task t).kind = (c.subject.system.runtime.task t).kind ∧
      V' t = V t ∧ p'.guards t = c.subject.guards t)
    (idle : ∀ slot k u, c.subject.made.length ≤ k → ¬Checks p' slot W' k u) :
    { c with subject := p' : Crew }.Sound V' W' := by
  refine ⟨ordered, fun t called => ?_, sound.held, fun slot => ?_, fun t => ?_, sound.flagged, sound.told_onward onward⟩
  · obtain ⟨runs, kind, -⟩ := kept t called
    exact ⟨runs, fun initial => (sound.busy t called).2 (kind.symm.trans initial)⟩
  · exact sound.free_onward onward ordered (idle slot)
  · exact (sound.calls t).onward onward ordered (fun called => (kept t called).2.2) fun slot _ => idle slot

theorem turn (holder : Option Nat) {s : Slot} (mine : c.holder s = some t) {c' : Crew} {call : Call} {h : AccessHistory}
    (subject : c'.subject = c.subject) (calls : c'.calls = Function.update c.calls t call)
    (holders : c'.holder = Function.update c.holder s holder)
    (shadowMemory : c'.shadowMemory = Function.update c.shadowMemory s h)
    (place : holder = some t ∧ call.slot = some s ∨
      holder = none ∧ call.slot = none ∧ Judged c.subject s W c.subject.made.length h)
    (called : call.Sound c.subject V W (Function.update c.shadowMemory s h) t)
    (kept : (c.shadowMemory s).dataRaceFound = true → h.dataRaceFound = true)
    (flagged : c'.reports.gDataRaceFound = true ↔ c.reports.gDataRaceFound = true ∨ h.dataRaceFound = true)
    (told : ∀ info, c'.reports.Tells info → c.reports.Tells info ∨
      ∃ i j u v, c.subject.Race i j u v ∧ info = ⟨u.instnAddr, v.instnAddr, v.byteAddress⟩) : c'.Sound V W := by
  have entered := (sound.held s t).mp mine
  have active : c.calls t ≠ .idle := by
    intro idle
    rw [idle] at entered
    cases entered
  have others : ∀ x slot, x ≠ t → (c.calls x).slot = some slot → slot ≠ s := by
    rintro x _ other locked rfl
    exact other (Option.some.inj (((sound.held _ x).mpr locked).symm.trans mine))
  have self : c'.calls t = call := by rw [calls, Function.update_self]
  have rest : ∀ x, x ≠ t → c'.calls x = c.calls x := fun x other => by rw [calls, Function.update_of_ne other]
  refine ⟨subject ▸ sound.ordered, fun x entered => ?_, fun slot x => ?_, fun slot none => ?_, fun x => ?_, ?_,
    fun info tells => ?_⟩
  · rw [subject]
    by_cases other : x = t
    · exact other ▸ sound.busy t active
    · exact sound.busy x (rest x other ▸ entered)
  · rw [holders]
    by_cases here : slot = s
    · rw [here, Function.update_self]
      by_cases other : x = t
      · rw [other, self]
        rcases place with ⟨same, locked⟩ | ⟨same, locked, -⟩ <;> simp [same, locked]
      · rw [rest x other]
        have elsewhere : ¬(c.calls x).slot = some s := fun locked => others x s other locked rfl
        rcases place with ⟨same, -⟩ | ⟨same, -, -⟩
        · simp [same, elsewhere, Ne.symm other]
        · simp [same, elsewhere]
    · rw [Function.update_of_ne here, sound.held]
      by_cases other : x = t
      · rw [other, self, entered]
        rcases place with ⟨-, locked⟩ | ⟨-, locked, -⟩ <;> simp [locked, Ne.symm here]
      · rw [rest x other]
  · rw [subject, shadowMemory]
    rw [holders] at none
    by_cases here : slot = s
    · rw [here, Function.update_self] at none ⊢
      rcases place with ⟨same, -⟩ | ⟨-, -, judged⟩
      · cases same.symm.trans none
      · exact judged
    · rw [Function.update_of_ne here] at none ⊢
      exact sound.free slot none
  · rw [subject, shadowMemory]
    by_cases other : x = t
    · rw [other, self]
      exact called
    · rw [rest x other]
      exact (sound.calls x).congr fun slot locked => Function.update_of_ne (others x slot other locked) _ _
  · rw [flagged, sound.flagged, shadowMemory]
    constructor
    · rintro (⟨slot, found⟩ | found)
      · refine ⟨slot, ?_⟩
        by_cases here : slot = s
        · rw [here, Function.update_self]
          exact kept (here ▸ found)
        · rwa [Function.update_of_ne here]
      · exact ⟨s, by rwa [Function.update_self]⟩
    · rintro ⟨slot, found⟩
      by_cases here : slot = s
      · rw [here, Function.update_self] at found
        exact .inr found
      · rw [Function.update_of_ne here] at found
        exact .inl ⟨slot, found⟩
  · rw [subject]
    exact (told info tells).elim (sound.told info) id

end Crew.Sound

end Frames

section Steps

variable {flags : ReportFlags} {c c' : Crew} {p' : Subject} {V W : Nat → Path} {t n : Nat} {u : Touch} {left : List Touch}

namespace Crew.Sound

variable (sound : c.Sound V W)

include sound

theorem event {e : Event} (permitted : ForkJoinStep c.subject.system e) (happened : c.event e = some c') :
    ∃ V', c'.Sound V' W := by
  have quiet : ∀ t, e ≠ .access t := by
    rintro t rfl
    cases happened
  obtain ⟨free, s', stepped, rfl⟩ : e.actor.all (fun t => (c.calls t).isIdle) = true ∧
      ∃ s', c.subject.system.step e = some s' ∧ { c with subject := { c.subject with system := s' } } = c' := by
    unfold Crew.event at happened
    split at happened
    · cases happened
    · split at happened
      · rename_i free
        obtain ⟨s', stepped, same⟩ := Option.map_eq_some_iff.mp happened
        exact ⟨free, s', stepped, same⟩
      · cases happened
  obtain ⟨V', ordered, onward, kept⟩ := sound.ordered.event permitted stepped quiet
  refine ⟨V', sound.onward onward ordered (fun x called => ?_) fun slot k u late checks => ?_⟩
  · obtain ⟨runs, kind, path⟩ := kept x (sound.busy x called).1 fun actor => by
      rw [actor] at free
      exact called (Call.idle_of_isIdle free)
    exact ⟨runs, kind, path, rfl⟩
  · exact absurd checks.bound (by simpa using late)

theorem protect {told : Except Abort Detector} {guard : Guard} (did : c.protect t told guard = some c')
    (reguards : ∀ d, told = .ok d → c.subject.system.detector.Reguards d t guard) : c'.Sound V W := by
  unfold Crew.protect at did
  simp only at did
  split at did
  · rename_i able
    obtain ⟨idle, runs⟩ := able
    cases done : told with
    | error text =>
      rw [done] at did
      cases did
    | ok d =>
      rw [done] at did
      cases did
      obtain ⟨ordered, onward⟩ := sound.ordered.protect runs (reguards d done)
      refine sound.onward onward ordered (fun x called => ?_) fun slot k u late checks => ?_
      · have other : x ≠ t := by
          rintro rfl
          exact called (Call.idle_of_isIdle idle)
        exact ⟨(sound.busy x called).1, rfl, rfl, Function.update_of_ne other _ _⟩
      · exact absurd checks.bound (by simpa using late)
  · cases did

theorem pass (passed : c.pass t u = some c') : ∃ W', c'.Sound V W' := by
  unfold Crew.pass at passed
  split at passed
  · rename_i initial
    obtain ⟨p', made, rfl⟩ := Option.map_eq_some_iff.mp passed
    obtain ⟨ordered, onward, makes⟩ := sound.ordered.access made
    refine ⟨_, sound.onward onward ordered (fun x called => ?_) fun slot k v late checks => ?_⟩
    · exact ⟨(makes.running x).trans (sound.busy x called).1, makes.kind x, rfl, congrFun makes.guards x⟩
    · have bound := checks.bound
      rw [makes.made, List.length_append, List.length_singleton] at bound
      obtain rfl : k = c.subject.made.length := by omega
      have long := checks.long
      rw [Function.update_self] at long
      exact absurd initial (((sound.ordered.tracked.headed makes.runs).2).mpr long)
  · cases passed

theorem enter {r : Reference} (entered : c.enter t r = some c') : c'.Sound V W := by
  unfold Crew.enter at entered
  simp only at entered
  split at entered
  · rename_i able
    obtain ⟨idle, runs, kind⟩ := able
    cases entered
    have before : (c.calls t).slot = none := by
      rw [Call.idle_of_isIdle idle]
      rfl
    have after : (Call.next r.touches).slot = none ∧
        (Call.next r.touches).Sound c.subject V W c.shadowMemory t := by
      cases r.touches <;> exact ⟨rfl, trivial⟩
    refine ⟨sound.ordered, fun x called => ?_, fun slot x => ?_, sound.free, fun x => ?_, sound.flagged, sound.told⟩
    · by_cases other : x = t
      · subst other
        exact ⟨runs, kind⟩
      · exact sound.busy x (by simpa [setCall, Function.update_of_ne other] using called)
    · apply (sound.held slot x).trans
      by_cases other : x = t
      · simp [setCall, other, before, after.1]
      · simp [setCall, Function.update_of_ne other]
    · by_cases other : x = t
      · simpa [setCall, other] using after.2
      · simpa [setCall, Function.update_of_ne other] using sound.calls x
  · cases entered

theorem access (u : Touch) (runs : c.subject.system.runtime.running t = true) :
    ∃ p', c.subject.access t u = some p' := by
  obtain ⟨isTask, running⟩ := Runtime.running_lt runs
  obtain ⟨label, known, -⟩ := sound.ordered.tracked.labelled.running sound.ordered.tracked.forking isTask running
  have enabled : c.subject.system.runtime.enabled (.access t) = true := runs
  apply Option.isSome_iff_exists.mp
  rw [Subject.access, System.step, if_pos enabled]
  simp [Detector.handle, System.entry, known]

theorem lock (entered : c.calls t = .locking u left) (free : c.holder u.slot = none) :
    ∃ c' W', c.check flags t = some c' ∧ c'.Sound V W' := by
  obtain ⟨runs, kind⟩ := sound.busy t (by simp [entered])
  obtain ⟨p', made⟩ := sound.access u runs
  obtain ⟨ordered, onward, makes⟩ := sound.ordered.access made
  have size : p'.made.length = c.subject.made.length + 1 := by simp [makes.made]
  have own : p'.made[c.subject.made.length]? = some u := by simp [makes.made]
  have elsewhere : ∀ slot, slot ≠ u.slot → ∀ k v, c.subject.made.length ≤ k →
      ¬Checks p' slot (Function.update W c.subject.made.length (V t)) k v := by
    intro slot other k v late checks
    have bound := checks.bound
    obtain rfl : k = c.subject.made.length := by omega
    exact other (Option.some.inj (own.symm.trans checks.made) ▸ checks.slot.symm)
  refine ⟨({ c with subject := p' }.setHolder u.slot (some t)).setCall t (.holding c.subject.made.length u left), _, ?_,
    ordered, fun x called => ?_, fun slot x => ?_, fun slot none => ?_, fun x => ?_, sound.flagged,
    sound.told_onward onward⟩
  · unfold Crew.check
    rw [entered]
    simp only [Crew.lock, free, made, Option.isSome_none, Bool.false_eq_true, if_false, Option.map_some]
  · change p'.system.runtime.running x = true ∧ (p'.system.runtime.task x).kind ≠ .initial
    rw [makes.running, makes.kind]
    by_cases other : x = t
    · exact other ▸ ⟨runs, kind⟩
    · exact sound.busy x (by simpa [setHolder, setCall, Function.update_of_ne other] using called)
  · by_cases here : slot = u.slot
    · by_cases other : x = t
      · simp [setHolder, setCall, here, other, Call.slot]
      · have apart : ¬(c.calls x).slot = some u.slot := fun locked =>
          absurd (free.symm.trans ((sound.held _ x).mpr locked)) (by simp)
        simp [setHolder, setCall, here, other, Ne.symm other, apart]
    · refine (show _ ↔ c.holder slot = some x by simp [setHolder, setCall, here]).trans ((sound.held slot x).trans ?_)
      by_cases other : x = t
      · simp [setHolder, setCall, other, entered, Call.slot, Ne.symm here]
      · simp [setHolder, setCall, other]
  · have here : slot ≠ u.slot := by
      rintro rfl
      simp [setHolder, setCall] at none
    apply sound.free_onward onward ordered (elsewhere slot here)
    simpa [setHolder, setCall, here] using none
  · by_cases other : x = t
    · subst other
      change Call.Sound p' V _ c.shadowMemory x (Function.update c.calls x _ x)
      rw [Function.update_self]
      refine ⟨own, makes.held.trans (congrFun makes.guards x).symm, fun k v late checks => ?_,
        Function.update_self .., ?_⟩
      · have bound := checks.bound
        omega
      · exact onward.judged ordered (sound.free _ free) (le_refl _) (le_refl _) fun k v late early => by omega
    · change Call.Sound p' V _ c.shadowMemory x (Function.update c.calls t _ x)
      rw [Function.update_of_ne other]
      refine (sound.calls x).onward onward ordered (fun _ => ⟨rfl, congrFun makes.guards x⟩) fun slot locked =>
        elsewhere slot ?_
      rintro rfl
      exact absurd (free.symm.trans ((sound.held _ x).mpr locked)) (by simp)

theorem leave {h : AccessHistory} (mine : c.holder u.slot = some t)
    (judged : Judged c.subject u.slot W c.subject.made.length h)
    (same : h.dataRaceFound = (c.shadowMemory u.slot).dataRaceFound) : (c.leave t u left h).Sound V W := by
  have after : (Call.next left).slot = none ∧
      (Call.next left).Sound c.subject V W (Function.update c.shadowMemory u.slot h) t := by
    cases left <;> exact ⟨rfl, trivial⟩
  refine sound.turn none mine rfl rfl rfl rfl (.inr ⟨rfl, after.1, judged⟩) after.2 (fun found => same.trans found) ?_
    fun info told => .inl told
  refine ⟨.inl, fun found => found.elim id fun found => ?_⟩
  exact sound.flagged.mpr ⟨u.slot, same.symm.trans found⟩

/-- A history that tells of all accesses up to the last one tells of all of them. -/
theorem settled {slot : Slot} {m : Nat} {h : AccessHistory} (judged : Judged c.subject slot W m h)
    (seen : m ≤ c.subject.made.length) (last : ∀ k v, m ≤ k → ¬Checks c.subject slot W k v) :
    Judged c.subject slot W c.subject.made.length h :=
  (Subject.Onward.refl c.subject W).judged sound.ordered judged seen seen fun k v late _ => last k v late

theorem look (flags : ReportFlags) (entered : c.calls t = .holding n u left) :
    ∃ c', c.check flags t = some c' ∧ c'.Sound V W := by
  have mine : c.holder u.slot = some t := (sound.held u.slot t).mpr (by rw [entered, Call.slot])
  have called := sound.calls t
  rw [entered] at called
  obtain ⟨made, held, last, path, judged⟩ := called
  have bound := (List.getElem?_eq_some_iff.mp made).1
  have looks : c.check flags t = c.look t n u left := by
    unfold Crew.check
    rw [entered]
  rw [looks]
  unfold Crew.look
  simp only
  by_cases turned : u.Unchecked
  · refine ⟨_, if_pos turned, sound.leave mine (sound.settled judged (by omega) fun k v late checks => ?_) rfl⟩
    by_cases self : k = n
    · rw [self] at checks
      exact checks.checked (Option.some.inj (made.symm.trans checks.made) ▸ turned)
    · exact last k v (by omega) checks
  · rw [if_neg turned]
    by_cases found : (c.shadowMemory u.slot).dataRaceFound = true
    · refine ⟨_, if_pos found, sound.leave mine ⟨judged.fresh, fun r none => ?_, fun _ => ?_, fun _ clean => ?_⟩ rfl⟩
      · exact absurd none List.not_mem_nil
      · obtain ⟨i, j, v, v', race, here, -⟩ := judged.found found
        exact ⟨i, j, v, v', race, here, race.made⟩
      · exact absurd (clean.symm.trans found) Bool.false_ne_true
    · have clean : (c.shadowMemory u.slot).dataRaceFound = false := Bool.eq_false_iff.mpr found
      obtain ⟨runs, -⟩ := sound.busy t (by simp [entered])
      obtain ⟨label, known, holds, encodes⟩ := sound.ordered.tracked.labelled.running sound.ordered.tracked.forking
        (Runtime.running_lt runs).1 (Runtime.running_lt runs).2
      have own : RecordOf c.subject u.slot W (c.subject.system.call t label u).record n :=
        ⟨holds, path ▸ encodes, (sound.ordered.guarded t).lockSet.trans (congrArg Guard.locks held.symm), u, made, rfl,
          turned, Record.make_isWrite .., rfl⟩
      have underway := Underway.start judged clean own
      rw [if_neg found, judged.fresh, if_neg Bool.false_ne_true, known, Option.map_some]
      by_cases empty : (c.shadowMemory u.slot).records = []
      · rw [empty] at underway
        refine ⟨_, congrArg some (if_pos empty), sound.leave mine ?_ rfl⟩
        exact sound.settled (underway.finish sound.ordered) bound fun k v late => last k v late
      · refine ⟨_, congrArg some (if_neg empty), ?_⟩
        refine sound.turn (some t) (s := u.slot) (h := c.shadowMemory u.slot) mine rfl rfl ?_ ?_
          (.inl ⟨rfl, rfl⟩) ?_ id ?_ fun info told => .inl told
        · rw [← mine, Function.update_eq_self]
          rfl
        · rw [Function.update_eq_self]
          rfl
        · rw [Function.update_eq_self]
          exact ⟨made, held, last, rfl, [], underway⟩
        · exact ⟨.inl, fun told => told.elim id fun found => sound.flagged.mpr ⟨_, found⟩⟩

theorem finish (flags : ReportFlags) {cur : Record} {locals : Locals} {kept : List Record}
    (entered : c.calls t = .scanning n u left cur locals kept []) : ∃ c', c.check flags t = some c' ∧ c'.Sound V W := by
  have mine : c.holder u.slot = some t := (sound.held u.slot t).mpr (by rw [entered, Call.slot])
  have called := sound.calls t
  rw [entered] at called
  obtain ⟨made, held, last, task, done, underway⟩ := called
  have bound := (List.getElem?_eq_some_iff.mp made).1
  have judged := sound.settled (underway.finish sound.ordered) bound fun k v late => last k v late
  have checked : c.check flags t = some (c.leave t u left
      { c.shadowMemory u.slot with records := if locals.skipAddCur then kept else kept ++ [cur] }) := by
    unfold Crew.check
    rw [entered]
  exact ⟨_, checked, sound.leave mine judged rfl⟩

theorem scan (flags : ReportFlags) {cur r : Record} {locals : Locals} {kept records : List Record}
    (entered : c.calls t = .scanning n u left cur locals kept (r :: records)) :
    ∃ c', c.check flags t = some c' ∧ c'.Sound V W := by
  have mine : c.holder u.slot = some t := (sound.held u.slot t).mpr (by rw [entered, Call.slot])
  have called := sound.calls t
  rw [entered] at called
  obtain ⟨made, held, last, task, done, underway⟩ := called
  obtain ⟨k, early, stands⟩ := underway.within r (by simp)
  have guarded := sound.ordered.guarded t
  have calm : (c.subject.held n).reduces = (c.subject.system.detector.data cur.taskPtr).inReduction := by
    rw [held, task]
    exact guarded.inReduction.symm
  have implicit : ((c.subject.system.context t).tasks cur.taskPtr).isExplicitTask = false :=
    task ▸ guarded.isExplicitTask
  obtain ⟨scan', stays, races, scanned, what⟩ := scanRecord_scanned flags (u.info t) implicit
    (Underway.judges sound.ordered rfl underway.own stands early) (c.scanOf t u locals)
  have checked : c.check flags t =
      some (({ c with reports := scan'.reports }.setHistory u.slot
        ⟨scan'.state, (if stays then kept ++ [r] else kept) ++ records⟩).setCall t
          (.scanning n u left cur ⟨scan'.isHistBeforeCurrent, scan'.diffIndex, scan'.skipAddCur⟩
            (if stays then kept ++ [r] else kept) records)) := by
    unfold Crew.check
    rw [entered]
    simp only [Crew.scan, scanned, Except.toOption, Option.bind_eq_bind, Option.bind_some, what.graph]
    rw [show (c.scanOf t u locals).taskDepGraph = c.subject.system.taskDepGraph t from rfl, System.setGraph_self]
  have found : AccessHistory.dataRaceFound ⟨scan'.state, (if stays then kept ++ [r] else kept) ++ records⟩ =
      ((c.shadowMemory u.slot).dataRaceFound || races) :=
    what.found
  refine ⟨_, checked, sound.turn (some t) (s := u.slot) mine rfl rfl ?_ rfl (.inl ⟨rfl, rfl⟩) ?_ ?_ ?_
    fun info told => ?_⟩
  · rw [← mine, Function.update_eq_self]
    rfl
  · refine ⟨made, held, last, task, done ++ [r], ?_⟩
    rw [Function.update_self]
    exact underway.scan sound.ordered stands early what rfl calm rfl rfl
  · intro earlier
    rw [found, earlier, Bool.true_or]
  · change scan'.reports.gDataRaceFound = true ↔ _
    rw [what.flagged, found, Bool.or_eq_true, Bool.or_eq_true]
    refine ⟨Or.imp_right .inr, fun flag => flag.elim .inl (Or.imp_left fun earlier => ?_)⟩
    exact sound.flagged.mpr ⟨u.slot, earlier⟩
  · refine (what.told info told).imp_right fun found => ?_
    obtain ⟨real, same⟩ := found
    obtain ⟨conflicts, met⟩ := what.real real
    obtain ⟨v, race, address⟩ := Underway.real_race sound.ordered underway.own stands early conflicts met calm made
    obtain ⟨u', made', -, -, -, address'⟩ := underway.own.touched
    obtain rfl : u' = u := Option.some.inj (made'.symm.trans made)
    refine ⟨k, n, v, u', race, ?_⟩
    rw [same, address, address']
    rfl

theorem check (flags : ReportFlags) (t : Nat) (called : c.calls t ≠ .idle) :
    (∃ c' W', c.check flags t = some c' ∧ c'.Sound V W') ∨
      ∃ u left t', c.calls t = .locking u left ∧ c.holder u.slot = some t' := by
  cases entered : c.calls t with
  | idle => exact absurd entered called
  | locking u left =>
    cases holder : c.holder u.slot with
    | none => exact .inl (sound.lock entered holder)
    | some t' => exact .inr ⟨u, left, t', rfl, holder⟩
  | holding n u left =>
    obtain ⟨c', checked, sound'⟩ := sound.look flags entered
    exact .inl ⟨c', W, checked, sound'⟩
  | scanning n u left cur locals kept records =>
    cases records with
    | nil =>
      obtain ⟨c', checked, sound'⟩ := sound.finish flags entered
      exact .inl ⟨c', W, checked, sound'⟩
    | cons r records =>
      obtain ⟨c', checked, sound'⟩ := sound.scan flags entered
      exact .inl ⟨c', W, checked, sound'⟩

theorem holder_goes {slot : Slot} (flags : ReportFlags) (mine : c.holder slot = some t) :
    (c.check flags t).isSome = true := by
  have locked := (sound.held slot t).mp mine
  have called : c.calls t ≠ .idle := by
    intro idle
    rw [idle] at locked
    cases locked
  rcases sound.check flags t called with ⟨c', W', checked, -⟩ | ⟨u, left, t', waits, -⟩
  · rw [checked]
    rfl
  · rw [waits] at locked
    cases locked

theorem found {slot : Slot} (raced : (c.shadowMemory slot).dataRaceFound = true) :
    ∃ i j u v, c.subject.Race i j u v ∧ u.slot = slot := by
  cases holder : c.holder slot with
  | none =>
    obtain ⟨i, j, u, v, race, here, -⟩ := (sound.free slot holder).found raced
    exact ⟨i, j, u, v, race, here⟩
  | some t =>
    have locked := (sound.held slot t).mp holder
    have called := sound.calls t
    cases place : c.calls t with
    | idle | locking =>
      rw [place] at locked
      cases locked
    | holding n u left =>
      rw [place] at locked called
      cases locked
      obtain ⟨i, j, u, v, race, here, -⟩ := called.2.2.2.2.found raced
      exact ⟨i, j, u, v, race, here⟩
    | scanning n u left cur locals kept records =>
      rw [place] at locked called
      cases locked
      obtain ⟨made, -, -, -, done, underway⟩ := called
      obtain ⟨i, v, v', race⟩ := underway.found raced
      obtain rfl : v' = u := Option.some.inj (race.second.symm.trans made)
      exact ⟨i, n, v, v', race, race.slots⟩

theorem marked {slot : Slot} (free : c.holder slot = none) (bare : Bare c.subject slot) {i j : Nat} {u v : Touch}
    (race : c.subject.Race i j u v) (here : u.slot = slot) : (c.shadowMemory slot).dataRaceFound = true := by
  by_contra missed
  exact ((sound.free slot free).clean bare (Bool.eq_false_iff.mpr missed)).apart i j u v race here race.made

end Crew.Sound

end Steps

section Run

variable {flags : ReportFlags} {c : Crew}

theorem System.initial_accesses {s : System} (begun : System.initial = .ok s) : s.runtime.accesses = 0 := by
  unfold System.initial at begun
  obtain ⟨d, -, begun⟩ := ok_of_bind begun
  cases begun
  rfl

theorem Crew.Sound.start {s : System} (begun : System.initial = .ok s) :
    (Crew.start s).Sound (fun _ => [(0, 1)]) fun _ => [] := by
  have clean : AccessHistory.new.dataRaceFound = false := by decide
  have empty : ∀ k, ¬k < (Crew.start s).subject.made.length := fun k bound => absurd bound (Nat.not_lt_zero k)
  refine ⟨⟨Tracked.initial begun, Detector.initial_guarded begun, fun _ _ => rfl, (System.initial_accesses begun).symm,
    ?_, ?_⟩, fun t called => absurd rfl called, ?_, fun slot _ => ⟨?_, ?_, ?_, fun _ _ => ⟨?_, ?_⟩⟩, fun t => trivial,
    ?_, ?_⟩
  · exact fun i j _ bound => absurd bound (empty j)
  · exact fun a bound => absurd bound (empty a)
  · simp [Crew.start, Call.slot]
  · exact (by decide : AccessHistory.new.memIsRecycled = false)
  · exact fun r member => absurd member List.not_mem_nil
  · exact fun found => absurd (clean.symm.trans found) (by decide)
  · exact fun i j u v race _ => absurd race.made (empty j)
  · exact fun i bound => absurd bound (empty i)
  · constructor
    · exact fun found => absurd found Bool.false_ne_true
    · rintro ⟨slot, found⟩
      exact absurd (clean.symm.trans found) (by decide)
  · exact fun info told => by rcases told with told | told <;> cases told

theorem Crew.Sound.step {c' : Crew} {V W : Nat → Path} (sound : c.Sound V W) {a : Crew.Move}
    (permitted : ∀ e, a = .event e → ForkJoinStep c.subject.system e) (stepped : c.step flags a = some c') :
    ∃ V' W', c'.Sound V' W' := by
  have guarded := sound.ordered.guarded
  cases a with
  | event e =>
    obtain ⟨V', sound'⟩ := sound.event (permitted e rfl) stepped
    exact ⟨V', W, sound'⟩
  | acquire t lock => exact ⟨V, W, sound.protect stepped fun _ done => reguards_acquired (guarded t) done⟩
  | release t lock => exact ⟨V, W, sound.protect stepped fun _ done => reguards_released (guarded t) done⟩
  | reduce t endPoint =>
    refine ⟨V, W, sound.protect stepped fun d done => ?_⟩
    cases done
    exact reguards_reduction (guarded t) endPoint
  | pass t u =>
    obtain ⟨W', sound'⟩ := sound.pass stepped
    exact ⟨V, W', sound'⟩
  | enter t r => exact ⟨V, W, sound.enter stepped⟩
  | check t =>
    change c.check flags t = some c' at stepped
    have called : c.calls t ≠ .idle := by
      intro idle
      unfold Crew.check at stepped
      rw [idle] at stepped
      cases stepped
    rcases sound.check flags t called with ⟨next, W', checked, sound'⟩ | ⟨u, left, t', waits, holder⟩
    · obtain rfl : next = c' := Option.some.inj (checked.symm.trans stepped)
      exact ⟨V, W', sound'⟩
    · unfold Crew.check at stepped
      rw [waits] at stepped
      simp only [Crew.lock, holder, Option.isSome_some, if_true] at stepped
      cases stepped

theorem Crew.Reached.sound (reached : Crew.Reached flags ForkJoinStep c) : ∃ V W, c.Sound V W := by
  induction reached with
  | start begun => exact ⟨_, _, .start begun⟩
  | step _ permitted stepped ih =>
    obtain ⟨V, W, sound⟩ := ih
    exact sound.step permitted stepped

/-- In a program made of parallel regions and team barriers, with locks and reductions, however the threads that check
    its accesses interleave: no check aborts, and no thread waits for one that cannot go on; the detector marks a byte,
    and tells of a race, only where two accesses have raced; and it marks every byte on which accesses have raced that
    is not being checked, and whose accesses were made by tasks that had held no lock and were in no reduction. -/
theorem forkJoin_detects (reached : Crew.Reached flags ForkJoinStep c) :
    (∀ t, c.calls t ≠ .idle → (c.check flags t).isSome = true ∨
      ∃ u left t', c.calls t = .locking u left ∧ c.holder u.slot = some t' ∧ (c.check flags t').isSome = true) ∧
    (∀ byte : BitVec 64, (c.shadowMemory (ShadowMemory.default.slot byte)).dataRaceFound = true →
      ∃ i j u v, c.subject.Race i j u v ∧ u.byteAddress.toNat % 2 ^ 48 = byte.toNat % 2 ^ 48) ∧
    (∀ byte : BitVec 64, c.holder (ShadowMemory.default.slot byte) = none →
      (∀ k u, c.subject.made[k]? = some u → u.byteAddress.toNat % 2 ^ 48 = byte.toNat % 2 ^ 48 →
        c.subject.held k = .bare) →
      (∃ i j u v, c.subject.Race i j u v ∧ u.byteAddress.toNat % 2 ^ 48 = byte.toNat % 2 ^ 48) →
      (c.shadowMemory (ShadowMemory.default.slot byte)).dataRaceFound = true) ∧
    (c.reports.gDataRaceFound = true ↔
      ∃ byte : BitVec 64, (c.shadowMemory (ShadowMemory.default.slot byte)).dataRaceFound = true) ∧
    ∀ info, c.reports.Tells info →
      ∃ i j u v, c.subject.Race i j u v ∧ info = ⟨u.instnAddr, v.instnAddr, v.byteAddress⟩ := by
  obtain ⟨V, W, sound⟩ := reached.sound
  refine ⟨fun t called => ?_, fun byte raced => ?_, fun byte free bare race => ?_, ?_, sound.told⟩
  · rcases sound.check flags t called with ⟨c', W', checked, -⟩ | ⟨u, left, t', waits, holder⟩
    · exact .inl (by rw [checked, Option.isSome_some])
    · exact .inr ⟨u, left, t', waits, holder, sound.holder_goes flags holder⟩
  · obtain ⟨i, j, u, v, race, here⟩ := sound.found raced
    exact ⟨i, j, u, v, race, (slot_default_iff _ _).mp here⟩
  · obtain ⟨i, j, u, v, race, here⟩ := race
    refine sound.marked free (fun k w made same => ?_) race ((slot_default_iff _ _).mpr here)
    exact bare k w made ((slot_default_iff _ _).mp same)
  · rw [sound.flagged]
    constructor
    · rintro ⟨slot, raced⟩
      obtain ⟨i, j, u, v, race, rfl⟩ := sound.found raced
      exact ⟨u.byteAddress, raced⟩
    · rintro ⟨byte, raced⟩
      exact ⟨_, raced⟩

end Run

def overlapping (address : BitVec 64) : Reference :=
  ⟨address, 2, 0x401000, false, true, none, 0, fun _ => ⟨0, 0⟩⟩

def interleaved : List Crew.Move :=
  [.event (.parallelBegin 0 2), .event (.implicitBegin 1), .event (.implicitBegin 2), .enter 1 (overlapping 0x7fff5a10),
    .enter 2 (overlapping 0x7fff5a11), .check 1, .check 2, .check 1, .check 2, .check 1, .check 2, .check 1, .check 2,
    .check 1, .check 1]

theorem forkJoin_detects_pair : ∃ c, Crew.run ⟨true, false⟩ interleaved = some c ∧
    (∃ i j u v, c.subject.Race i j u v ∧ u.byteAddress.toNat % 2 ^ 48 = (0x7fff5a11 : BitVec 64).toNat % 2 ^ 48) ∧
    ¬∃ i j u v, c.subject.Race i j u v ∧ u.byteAddress.toNat % 2 ^ 48 = (0x7fff5a10 : BitVec 64).toNat % 2 ^ 48 := by
  obtain ⟨c, ran, found, free, clean, bare⟩ : ∃ c, Crew.run ⟨true, false⟩ interleaved = some c ∧
      (c.shadowMemory (ShadowMemory.default.slot 0x7fff5a11)).dataRaceFound = true ∧
      c.holder (ShadowMemory.default.slot 0x7fff5a10) = none ∧
      (c.shadowMemory (ShadowMemory.default.slot 0x7fff5a10)).dataRaceFound = false ∧
      ∀ k < c.subject.made.length, (c.subject.held k).locks = none ∧ (c.subject.held k).reduces = false :=
    exists_of_any (by decide)
  have permitted : ∀ e, .event e ∈ interleaved → ∀ s, ForkJoinStep s e := by
    simp [interleaved, ForkJoinStep]
  have detected := forkJoin_detects (Crew.Reached.of_run permitted ran)
  refine ⟨c, ran, detected.2.1 _ found, fun race => ?_⟩
  have unprotected : ∀ k u, c.subject.made[k]? = some u →
      u.byteAddress.toNat % 2 ^ 48 = (0x7fff5a10 : BitVec 64).toNat % 2 ^ 48 → c.subject.held k = .bare := by
    intro k u made _
    obtain ⟨locks, reduces⟩ := bare k (List.getElem?_eq_some_iff.mp made).1
    cases guard : c.subject.held k
    simp_all [Guard.bare]
  exact absurd (clean.symm.trans (detected.2.2.1 _ free unprotected race)) (by decide)

end Romp
