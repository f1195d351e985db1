import Romp.Access.Calls
import Romp.Runtime.System

namespace Romp

/-- The records of which `analyzeRaceCondition` reads the task, in the order in which the loop comes to
    them: those that no lock excludes and that `happensBefore` does not order before the access. -/
def unorderedRecords (heap : Heap) (cur : Record) : List Record → List Record
  | [] => []
  | hist :: rest =>
    if analyzeMutualExclusion hist cur then unorderedRecords heap cur rest
    else match happensBefore (heap.read hist.label) (heap.read cur.label) with
      | .error _ => []
      | .ok true => unorderedRecords heap cur rest
      | .ok false => hist :: unorderedRecords heap cur rest

def Access.dereferences (a : Access) (h : AccessHistory) : List Record :=
  let cur := a.context.tasks a.info.taskPtr
  if !cur.inReduction && cur.isExplicitTask then unorderedRecords a.context.heap a.record (a.consults h) else []

structure ByteAccess where
  task : Nat
  byte : BitVec 64
  instnAddr : BitVec 64
  isWrite : Bool
  hwLock : Bool
  dataSharingType : DataSharingType
  uninitialised : Uninitialised

/-- The program and the detector, and what lies in memory: the address that a task has in
    `taskData->ptr`, the task whose `TaskData` is at an address, and the shadow memory. The pointer in a
    record is given as the number of the task whose `TaskData` it was made for. -/
structure Machine where
  system : System
  address : Nat → Nat
  owner : Nat → Option Nat
  shadow : BitVec 64 → AccessHistory
  reports : RaceReports

/-- What happens next: `place` is where the allocator puts a new `TaskData`, if the event makes one. -/
inductive Action where
  | event (e : Event) (place : Nat)
  | access (a : ByteAccess)
  | recycle (byte : BitVec 64)

namespace Machine

/-- `new TaskData()`: any place that is free, also one where another task's data has been. -/
def new (m : Machine) (t place : Nat) : Option Machine :=
  if m.owner place = none then
    some { m with address := Function.update m.address t place, owner := Function.update m.owner place (some t) }
  else none

def delete (m : Machine) (t : Nat) : Machine :=
  { m with owner := Function.update m.owner (m.address t) none }

def allocate (m : Machine) (place : Nat) : Event → Option Machine
  | .implicitBegin t => m.new t place
  | .taskCreate _ => m.new m.system.runtime.tasks place
  | .implicitEnd t => some (m.delete t)
  | _ => some m

/-- What a task pointer that was made for `t` points to is still the data of `t`. -/
def Refers (m : Machine) (t : Nat) : Prop := m.owner (m.address t) = some t

instance (m : Machine) (t : Nat) : Decidable (m.Refers t) := inferInstanceAs (Decidable (_ = _))

def check (m : Machine) (a : ByteAccess) : Option Access :=
  let d := m.system.detector
  (d.data a.task).label.map fun label =>
    { context := ⟨d.heap, d.data, (m.system.runtime.task a.task).region.map fun r => (d.regions r).taskDepGraph⟩
      label
      lockSet := (d.data a.task).lockSet
      info := ⟨a.task, a.instnAddr, a.isWrite, a.hwLock, a.byte, a.dataSharingType⟩
      uninitialised := a.uninitialised }

def dereferences (m : Machine) (a : ByteAccess) : List Record :=
  match m.check a with
  | none => []
  | some access => access.dereferences (m.shadow a.byte)

def storeGraph (d : Detector) (region : Option Nat) (graph : Option TaskDepGraph) : Detector :=
  match region, graph with
  | some r, some taskDepGraph =>
    { d with regions := Function.update d.regions r { d.regions r with taskDepGraph } }
  | _, _ => d

/-- Once a check has read through a pointer whose target is gone, the behaviour of the tool is undefined:
    there is no step. -/
def checkAccess (flags : ReportFlags) (m : Machine) (a : ByteAccess) : Option Machine := do
  let system ← m.system.step (.access a.task)
  let access ← m.check a
  if ∀ r ∈ m.dereferences a, m.Refers r.taskPtr then
    match checkDataRace flags (m.shadow a.byte) access m.reports with
    | .error _ => none
    | .ok checked =>
      let region := (m.system.runtime.task a.task).region
      some { m with
        system := { system with detector := storeGraph system.detector region checked.taskDepGraph }
        shadow := Function.update m.shadow a.byte checked.history
        reports := checked.reports }
  else none

def step (flags : ReportFlags) (m : Machine) : Action → Option Machine
  | .event (.access _) _ => none
  | .event e place => do
    let system ← m.system.step e
    let m ← m.allocate place e
    some { m with system }
  | .access a => m.checkAccess flags a
  | .recycle byte =>
    some { m with shadow := Function.update m.shadow byte ((m.shadow byte).setFlag .eMemoryRecycled) }

def start (place : Nat) : Option Machine :=
  match System.initial with
  | .error _ => none
  | .ok system =>
    some ⟨system, fun _ => place, Function.update (fun _ => none) place (some 0), fun _ => AccessHistory.new,
      RaceReports.none⟩

def runFrom (flags : ReportFlags) (m : Machine) (actions : List Action) : Option Machine :=
  actions.foldlM (step flags) m

def run (flags : ReportFlags) (place : Nat) (actions : List Action) : Option Machine := do
  let m ← start place
  m.runFrom flags actions

end Machine

section Reads

variable {flags : ReportFlags} {ctx : Context} {tasks : Nat → TaskData} {cur hist : Record}

theorem analyzeRaceCondition_reads (ctx : Context) (before : Bool) (diffIndex : Int)
    (current : tasks cur.taskPtr = ctx.tasks cur.taskPtr)
    (other : analyzeMutualExclusion hist cur = false → (ctx.tasks cur.taskPtr).inReduction = false →
      happensBefore (ctx.heap.read hist.label) (ctx.heap.read cur.label) = .ok false →
      (ctx.tasks cur.taskPtr).isExplicitTask = true → tasks hist.taskPtr = ctx.tasks hist.taskPtr) :
    analyzeRaceCondition { ctx with tasks } hist cur before diffIndex =
    analyzeRaceCondition ctx hist cur before diffIndex := by
  unfold analyzeRaceCondition
  cases excluded : analyzeMutualExclusion hist cur with
  | true => rfl
  | false =>
    simp only [current]
    cases reduction : (ctx.tasks cur.taskPtr).inReduction with
    | true => rfl
    | false =>
      have order : decideOrder { ctx with tasks } hist cur = decideOrder ctx hist cur := by
        unfold decideOrder
        cases verdict : happensBefore (ctx.heap.read hist.label) (ctx.heap.read cur.label) with
        | error text => simp [bind, Except.bind]
        | ok ordered =>
          cases ordered with
          | true => simp [bind, Except.bind]
          | false =>
            cases explicit : (ctx.tasks cur.taskPtr).isExplicitTask with
            | false => simp [current, explicit, bind, Except.bind]
            | true => simp [current, explicit, other excluded reduction verdict explicit, bind, Except.bind]
      simp only [order]

theorem scanRecord_reads {checkInfo : CheckInfo} (scan : Scan) (current : tasks cur.taskPtr = ctx.tasks cur.taskPtr)
    (other : analyzeMutualExclusion hist cur = false → (ctx.tasks cur.taskPtr).inReduction = false →
      happensBefore (ctx.heap.read hist.label) (ctx.heap.read cur.label) = .ok false →
      (ctx.tasks cur.taskPtr).isExplicitTask = true → tasks hist.taskPtr = ctx.tasks hist.taskPtr) :
    scanRecord { ctx with tasks } flags checkInfo cur hist scan = scanRecord ctx flags checkInfo cur hist scan := by
  have same := analyzeRaceCondition_reads { ctx with taskDepGraph := scan.taskDepGraph } scan.isHistBeforeCurrent
    scan.diffIndex current other
  unfold scanRecord
  rw [← same]

theorem scanRecord_aborts {checkInfo : CheckInfo} (scan : Scan) {text : Abort}
    (excluded : analyzeMutualExclusion hist cur = false) (reduction : (ctx.tasks cur.taskPtr).inReduction = false)
    (verdict : happensBefore (ctx.heap.read hist.label) (ctx.heap.read cur.label) = .error text) :
    scanRecord ctx flags checkInfo cur hist scan = .error text := by
  simp [scanRecord, analyzeRaceCondition, decideOrder, excluded, reduction, verdict, bind, Except.bind]

theorem scanRecords_reads {checkInfo : CheckInfo} (current : tasks cur.taskPtr = ctx.tasks cur.taskPtr)
    (records : List Record) (scan : Scan)
    (others : (ctx.tasks cur.taskPtr).inReduction = false → (ctx.tasks cur.taskPtr).isExplicitTask = true →
      ∀ r ∈ unorderedRecords ctx.heap cur records, tasks r.taskPtr = ctx.tasks r.taskPtr) :
    scanRecords { ctx with tasks } flags checkInfo cur records scan =
    scanRecords ctx flags checkInfo cur records scan := by
  induction records generalizing scan with
  | nil => rfl
  | cons hist rest ih =>
    have first : scanRecord { ctx with tasks } flags checkInfo cur hist scan =
        scanRecord ctx flags checkInfo cur hist scan := by
      refine scanRecord_reads scan current fun excluded reduction verdict explicit => others reduction explicit hist ?_
      rw [unorderedRecords, if_neg (by simp [excluded]), verdict]
      exact List.mem_cons_self
    rw [scanRecords, scanRecords, first]
    cases reduction : (ctx.tasks cur.taskPtr).inReduction with
    | true =>
      have later := fun scan => ih scan fun none => by rw [reduction] at none; cases none
      simp only [later]
    | false =>
      by_cases aborts : ∃ text, analyzeMutualExclusion hist cur = false ∧
          happensBefore (ctx.heap.read hist.label) (ctx.heap.read cur.label) = .error text
      · obtain ⟨text, excluded, verdict⟩ := aborts
        rw [scanRecord_aborts scan excluded reduction verdict]
        rfl
      · have later := fun scan => ih scan fun reduction explicit r inside => others reduction explicit r (by
          rw [unorderedRecords]
          split
          · exact inside
          · rename_i excluded
            split
            · rename_i text verdict
              exact absurd ⟨text, by simpa using excluded, verdict⟩ aborts
            · exact inside
            · exact List.mem_cons_of_mem _ inside)
        simp only [later]

end Reads

theorem checkDataRace_reads {flags : ReportFlags} {h : AccessHistory} {reports : RaceReports} (a : Access)
    {tasks : Nat → TaskData} (current : tasks a.info.taskPtr = a.context.tasks a.info.taskPtr)
    (others : ∀ r ∈ a.dereferences h, tasks r.taskPtr = a.context.tasks r.taskPtr) :
    checkDataRace flags h { a with context := { a.context with tasks } } reports = checkDataRace flags h a reports := by
  let b : Access := { a with context := { a.context with tasks } }
  by_cases unchecked : a.Unchecked
  · have unchecked' : b.Unchecked := unchecked
    exact (checkDataRace_unchecked unchecked').trans (checkDataRace_unchecked unchecked).symm
  have checked : ¬b.Unchecked := unchecked
  cases found : h.dataRaceFound with
  | true => exact (checkDataRace_found checked found).trans (checkDataRace_found unchecked found).symm
  | false =>
    cases recycled : h.memIsRecycled with
    | true => exact (checkDataRace_recycled checked found recycled).trans (checkDataRace_recycled unchecked found recycled).symm
    | false =>
      by_cases empty : h.records = []
      · exact (checkDataRace_first checked found recycled empty).trans (checkDataRace_first unchecked found recycled empty).symm
      · have consults : a.consults h = h.records := by
          rw [Access.consults, if_neg (by simp [unchecked, found, recycled])]
        have same : scanRecords b.context flags b.info b.record h.records (b.scan h reports) =
            scanRecords a.context flags a.info a.record h.records (a.scan h reports) := by
          refine scanRecords_reads current h.records _ fun reduction explicit r inside => others r ?_
          change (a.context.tasks a.info.taskPtr).inReduction = false at reduction
          change (a.context.tasks a.info.taskPtr).isExplicitTask = true at explicit
          rw [Access.dereferences, consults]
          simp only [reduction, explicit, Bool.not_false, Bool.and_self, if_true]
          exact inside
        apply (checkDataRace_scan checked found recycled empty).trans
        rw [same]
        exact (checkDataRace_scan unchecked found recycled empty).symm

end Romp
