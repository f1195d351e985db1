import Mathlib.Logic.Relation
import Romp.Checks.Threads

namespace Romp

namespace System

variable {s : System} {t : Nat} {graph graph' : Option TaskDepGraph}

theorem setGraph_context : (s.setGraph t graph).context t =
    { s.context t with taskDepGraph := (s.setGraph t graph).taskDepGraph t } := by
  simp only [context, setGraph]
  split <;> rfl

theorem setGraph_taskDepGraph (fits : graph.isSome = (s.taskDepGraph t).isSome) :
    (s.setGraph t graph).taskDepGraph t = graph := by
  cases region : (s.runtime.task t).region with
  | none =>
    simp only [taskDepGraph, region, Option.map_none, Option.isSome_none, Option.isSome_eq_false_iff,
      Option.isNone_iff_eq_none] at fits
    simp only [setGraph, taskDepGraph, region, Option.map_none, fits]
  | some r =>
    simp only [taskDepGraph, region, Option.map_some, Option.isSome_some, Option.isSome_iff_exists] at fits
    obtain ⟨g, rfl⟩ := fits
    simp only [setGraph, taskDepGraph, region, Option.map_some, Function.update_self]

theorem setGraph_twice (fits : graph'.isSome = graph.isSome) :
    (s.setGraph t graph).setGraph t graph' = s.setGraph t graph' := by
  cases region : (s.runtime.task t).region with
  | none => simp only [setGraph, region]
  | some r =>
    cases graph with
    | none =>
      cases graph' with
      | none => simp only [setGraph, region]
      | some g => cases fits
    | some g =>
      cases graph' with
      | none => cases fits
      | some g' => simp only [setGraph, region, Function.update_self, Function.update_idem]

end System

theorem decideOrder_graph {ctx : Context} {hist cur : Record} {order : Bool} {graph : Option TaskDepGraph}
    (decided : decideOrder ctx hist cur = .ok (order, graph)) : graph.isSome = ctx.taskDepGraph.isSome := by
  unfold decideOrder at decided
  obtain ⟨before, -, decided⟩ := ok_of_bind decided
  split at decided
  · cases decided
    rfl
  · split at decided
    · split at decided
      · rename_i absent
        cases decided
        rw [absent]
      · rename_i g present
        split at decided
        all_goals
          cases decided
          simp only [present, Option.isSome_some]
    · cases decided
      rfl

theorem scanRecord_graph {ctx : Context} {flags : ReportFlags} {checkInfo : CheckInfo} {cur r : Record}
    {scan scan' : Scan} {stays : Bool} (scanned : scanRecord ctx flags checkInfo cur r scan = .ok (scan', stays)) :
    scan'.taskDepGraph.isSome = scan.taskDepGraph.isSome := by
  obtain ⟨analysis, analyzed, scanned⟩ := ok_of_bind scanned
  cases scanned
  unfold analyzeRaceCondition at analyzed
  split at analyzed
  · cases analyzed
    rfl
  · split at analyzed
    · cases analyzed
      rfl
    · obtain ⟨⟨order, graph⟩, decided, analyzed⟩ := ok_of_bind analyzed
      cases analyzed
      exact decideOrder_graph decided

namespace Crew

variable {flags : ReportFlags} {c : Crew} {t number : Nat} {u : Touch} {left : List Touch} {cur : Record}

abbrev Alone (flags : ReportFlags) (t : Nat) : Crew → Crew → Prop :=
  Relation.ReflTransGen fun c c' => c.check flags t = some c'

def within (c : Crew) (t number : Nat) (u : Touch) (left : List Touch) (cur : Record) (scan : Scan)
    (kept records : List Record) : Crew :=
  (({ c with
      subject := { c.subject with system := c.subject.system.setGraph t scan.taskDepGraph }
      reports := scan.reports }).setHistory u.slot ⟨scan.state, kept ++ records⟩).setCall t
    (.scanning number u left cur ⟨scan.isHistBeforeCurrent, scan.diffIndex, scan.skipAddCur⟩ kept records)

theorem within_scanOf {scan : Scan} {kept records : List Record}
    (fits : scan.taskDepGraph.isSome = (c.subject.system.taskDepGraph t).isSome) :
    (c.within t number u left cur scan kept records).scanOf t u
      ⟨scan.isHistBeforeCurrent, scan.diffIndex, scan.skipAddCur⟩ = scan := by
  simp only [scanOf, within, setHistory, setCall, Function.update_self, System.setGraph_taskDepGraph fits]

theorem within_check {scan next : Scan} {kept records : List Record} {r : Record} {stays : Bool}
    (fits : scan.taskDepGraph.isSome = (c.subject.system.taskDepGraph t).isSome)
    (scanned : scanRecord (c.subject.system.context t) flags (u.info t) cur r scan = .ok (next, stays)) :
    (c.within t number u left cur scan kept (r :: records)).check flags t =
      some (c.within t number u left cur next (if stays then kept ++ [r] else kept) records) := by
  have here : (c.within t number u left cur scan kept (r :: records)).calls t =
      .scanning number u left cur ⟨scan.isHistBeforeCurrent, scan.diffIndex, scan.skipAddCur⟩ kept (r :: records) :=
    Function.update_self ..
  have same : scanRecord ((c.within t number u left cur scan kept (r :: records)).subject.system.context t) flags
      (u.info t) cur r scan = .ok (next, stays) := by
    rw [← scanned]
    exact (congrArg (scanRecord · flags (u.info t) cur r scan) System.setGraph_context).trans rfl
  unfold check
  rw [here]
  simp only [Crew.scan, within_scanOf fits, same]
  simp only [within, setHistory, setCall, Except.toOption, Option.bind_eq_bind, Option.bind_some, Function.update_idem,
    System.setGraph_twice (scanRecord_graph scanned)]

theorem alone_records {records kept rest : List Record} {scan scan' : Scan}
    (fits : scan.taskDepGraph.isSome = (c.subject.system.taskDepGraph t).isSome)
    (scanned : scanRecords (c.subject.system.context t) flags (u.info t) cur records scan = .ok (scan', rest)) :
    Alone flags t (c.within t number u left cur scan kept records)
      (c.within t number u left cur scan' (kept ++ rest) []) := by
  induction records generalizing scan kept rest with
  | nil =>
    cases scanned
    rw [List.append_nil]
  | cons r records ih =>
    obtain ⟨⟨next, stays⟩, first, scanned⟩ := ok_of_bind scanned
    obtain ⟨⟨last, others⟩, more, scanned⟩ := ok_of_bind scanned
    cases scanned
    have whole : kept ++ (if stays = true then r :: others else others) =
        (if stays then kept ++ [r] else kept) ++ others := by
      cases stays <;> simp
    rw [whole]
    exact .head (within_check fits first) (ih ((scanRecord_graph first).trans fits) more)

theorem within_start (c : Crew) (t number : Nat) (u : Touch) (left : List Touch) (cur : Record) (label : Label) :
    c.within t number u left cur ((c.subject.system.call t label u).scan (c.shadowMemory u.slot) c.reports) []
        (c.shadowMemory u.slot).records =
      c.setCall t (.scanning number u left cur ⟨false, u.uninitialised.diffIndex, false⟩ []
        (c.shadowMemory u.slot).records) := by
  simp only [within, Access.scan, System.call, System.context, System.setGraph_self, setHistory, List.nil_append,
    Function.update_eq_self]

theorem look_alone {label : Label} {done : Checked} (calls : c.calls t = .holding number u left)
    (known : (c.subject.system.detector.data t).label = some label)
    (checked : checkDataRace flags (c.shadowMemory u.slot) (c.subject.system.call t label u) c.reports = .ok done) :
    Alone flags t c
      (({ c with
          subject := { c.subject with system := c.subject.system.setGraph t done.taskDepGraph }
          reports := done.reports }).leave t u left done.history) := by
  have looks : c.check flags t = c.look t number u left := by
    unfold check
    rw [calls]
  have quiet : ∀ h, c.look t number u left = some (c.leave t u left h) →
      done = ⟨h, c.reports, c.subject.system.taskDepGraph t⟩ → Alone flags t c
        (({ c with
            subject := { c.subject with system := c.subject.system.setGraph t done.taskDepGraph }
            reports := done.reports }).leave t u left done.history) := by
    intro h looked same
    rw [same, System.setGraph_self]
    exact .single (looks.trans looked)
  by_cases turned : u.Unchecked
  · rw [checkDataRace_unchecked (a := c.subject.system.call t label u) turned] at checked
    apply quiet (c.shadowMemory u.slot)
    · rw [look, if_pos turned]
    · exact (Except.ok.inj checked).symm
  · by_cases found : (c.shadowMemory u.slot).dataRaceFound = true
    · rw [checkDataRace_found (a := c.subject.system.call t label u) turned found] at checked
      apply quiet { c.shadowMemory u.slot with records := [] }
      · rw [look, if_neg turned, if_pos found]
      · exact (Except.ok.inj checked).symm
    · have clean : (c.shadowMemory u.slot).dataRaceFound = false := by simpa using found
      by_cases recycled : (c.shadowMemory u.slot).memIsRecycled = true
      · rw [checkDataRace_recycled (a := c.subject.system.call t label u) turned clean recycled] at checked
        apply quiet { (c.shadowMemory u.slot).clearFlags with records := [] }
        · rw [look, if_neg turned, if_neg found, if_pos recycled]
        · exact (Except.ok.inj checked).symm
      · have fresh : (c.shadowMemory u.slot).memIsRecycled = false := by simpa using recycled
        by_cases empty : (c.shadowMemory u.slot).records = []
        · rw [checkDataRace_first (a := c.subject.system.call t label u) turned clean fresh empty] at checked
          apply quiet { c.shadowMemory u.slot with records := [(c.subject.system.call t label u).record] }
          · rw [look, if_neg turned, if_neg found, if_neg recycled, known, Option.map_some, if_pos empty]
          · exact (Except.ok.inj checked).symm
        · rw [checkDataRace_scan (a := c.subject.system.call t label u) turned clean fresh empty] at checked
          obtain ⟨⟨scan, kept⟩, scanned, checked⟩ := ok_of_bind checked
          have entered : c.check flags t =
              some (c.within t number u left (c.subject.system.call t label u).record
                ((c.subject.system.call t label u).scan (c.shadowMemory u.slot) c.reports) []
                (c.shadowMemory u.slot).records) := by
            rw [looks, within_start, look, if_neg turned, if_neg found, if_neg recycled, known, Option.map_some,
              if_neg empty]
          refine .head entered (.tail (alone_records rfl scanned) ?_)
          rw [← Except.ok.inj checked]
          unfold check
          simp only [within, setCall, Function.update_self, setHistory, leave, setHolder, Function.update_idem,
            List.nil_append]

/-- A check of a byte in which no other thread comes between is `checkDataRace`. -/
theorem check_alone {p : Subject} {label : Label} {done : Checked} (calls : c.calls t = .locking u left)
    (free : c.holder u.slot = none) (made : c.subject.access t u = some p)
    (known : (p.system.detector.data t).label = some label)
    (checked : checkDataRace flags (c.shadowMemory u.slot) (p.system.call t label u) c.reports = .ok done) :
    Alone flags t c
      ⟨{ p with system := p.system.setGraph t done.taskDepGraph }, Function.update c.calls t (.next left), c.holder,
        Function.update c.shadowMemory u.slot done.history, done.reports⟩ := by
  have locked : c.check flags t =
      some (({ c with subject := p }.setHolder u.slot (some t)).setCall t (.holding c.subject.made.length u left)) := by
    unfold check
    rw [calls]
    simp only [lock, free, made, Option.isSome_none, Bool.false_eq_true, if_false, Option.map_some]
  have unlocked : Function.update c.holder u.slot none = c.holder := by rw [← free, Function.update_eq_self]
  have looked := look_alone (c := ({ c with subject := p }.setHolder u.slot (some t)).setCall t
    (.holding c.subject.made.length u left)) (Function.update_self ..) known checked
  refine .head locked ?_
  simpa only [leave, setHistory, setHolder, setCall, Function.update_idem, unlocked] using looked

def firstWrite : List Move :=
  [.event (.parallelBegin 0 2), .event (.implicitBegin 1), .event (.implicitBegin 2),
    .enter 1 ⟨0x7fff5a10, 1, 0x401000, false, true, none, 0, fun _ => ⟨0, 0⟩⟩, .check 1, .check 1]

def secondWrite : Touch := ⟨true, false, 0x401004, 0x7fff5a10, .eUndefined, ⟨0, 0⟩⟩

theorem check_alone_race : ∃ c c', Crew.run ⟨true, false⟩ firstWrite = some c ∧
    Alone ⟨true, false⟩ 2 (c.setCall 2 (.locking secondWrite [])) c' ∧
      (c'.shadowMemory secondWrite.slot).dataRaceFound = true := by
  obtain ⟨c, ran, free, p, made, label, known, done, checked, found⟩ :
      ∃ c, Crew.run ⟨true, false⟩ firstWrite = some c ∧ c.holder secondWrite.slot = none ∧
        ∃ p ∈ c.subject.access 2 secondWrite, ∃ label ∈ (p.system.detector.data 2).label,
          ∃ done ∈ (checkDataRace ⟨true, false⟩ (c.shadowMemory secondWrite.slot) (p.system.call 2 label secondWrite)
              c.reports).toOption, done.history.dataRaceFound = true :=
    exists_of_any (by decide)
  have checked' : checkDataRace ⟨true, false⟩ (c.shadowMemory secondWrite.slot) (p.system.call 2 label secondWrite)
      c.reports = .ok done := by
    generalize checkDataRace _ _ _ _ = result at checked
    cases result with
    | error text => cases checked
    | ok done' => rw [Option.some.inj checked]
  have calls : (c.setCall 2 (.locking secondWrite [])).calls 2 = .locking secondWrite [] := by
    simp only [setCall, Function.update_self]
  have alone := check_alone (c := c.setCall 2 (.locking secondWrite [])) calls free made known checked'
  refine ⟨c, _, ran, alone, ?_⟩
  simp only [Function.update_self, found]

end Crew

end Romp
