import Romp.Core.RaceCondition

namespace Romp

structure ReportFlags where
  gReportLineInfo : Bool
  gReportAtRuntime : Bool

/-- The global counters and the list of races found so far; `runtimeReports` are the calls of
    `reportDataRace`. -/
structure RaceReports where
  gDataRaceFound : Bool
  gNumDataRace : Nat
  gDataRaceRecords : List DataRaceInfo
  runtimeReports : List DataRaceInfo

def RaceReports.none : RaceReports := ⟨false, 0, [], []⟩

/-- The locals of `checkDataRace` that live across the iterations of its loop, with what the loop
    changes outside: the flags of the history, the dependence graph and the reports. -/
structure Scan where
  isHistBeforeCurrent : Bool
  diffIndex : Int
  skipAddCur : Bool
  state : BitVec 64
  taskDepGraph : Option TaskDepGraph
  reports : RaceReports

def reportRace (flags : ReportFlags) (histRecord curRecord : Record) (checkInfo : CheckInfo)
    (reports : RaceReports) : RaceReports :=
  let info : DataRaceInfo := ⟨histRecord.instnAddr, curRecord.instnAddr, checkInfo.byteAddress⟩
  { gDataRaceFound := true
    gNumDataRace := reports.gNumDataRace + 1
    gDataRaceRecords :=
      if flags.gReportLineInfo then reports.gDataRaceRecords ++ [info] else reports.gDataRaceRecords
    runtimeReports :=
      if !flags.gReportLineInfo && flags.gReportAtRuntime then reports.runtimeReports ++ [info]
      else reports.runtimeReports }

/-- One iteration, and whether the iterator moves past the record or the record is erased. -/
def scanRecord (ctx : Context) (flags : ReportFlags) (checkInfo : CheckInfo)
    (curRecord histRecord : Record) (scan : Scan) : Except Abort (Scan × Bool) := do
  let analysis ← analyzeRaceCondition { ctx with taskDepGraph := scan.taskDepGraph } histRecord
    curRecord scan.isHistBeforeCurrent scan.diffIndex
  let decision := manageAccessRecord histRecord curRecord analysis.isHistBeforeCur analysis.diffIndex
  let scan' : Scan :=
    { isHistBeforeCurrent := analysis.isHistBeforeCur
      diffIndex := analysis.diffIndex
      skipAddCur := scan.skipAddCur || decision = .eSkipAddCur
      state := if analysis.race then scan.state ||| AccessHistoryFlag.eDataRaceFound.code else scan.state
      taskDepGraph := analysis.taskDepGraph
      reports :=
        if analysis.race then reportRace flags histRecord curRecord checkInfo scan.reports
        else scan.reports }
  .ok (scan', decision ≠ .eDelHist)

def scanRecords (ctx : Context) (flags : ReportFlags) (checkInfo : CheckInfo) (curRecord : Record) :
    List Record → Scan → Except Abort (Scan × List Record)
  | [], scan => .ok (scan, [])
  | histRecord :: rest, scan => do
    let (scan, kept) ← scanRecord ctx flags checkInfo curRecord histRecord scan
    let (scan, records) ← scanRecords ctx flags checkInfo curRecord rest scan
    .ok (scan, if kept then histRecord :: records else records)

/-- What the stack holds where the source reads a variable that it has not set. -/
structure Uninitialised where
  recordState : BitVec 8
  diffIndex : Int

/-- A call of `checkDataRace` on a history: its arguments and the state it runs in. -/
structure Access where
  context : Context
  label : Label
  lockSet : Option SmallLockSet
  info : CheckInfo
  uninitialised : Uninitialised

def Access.record (a : Access) : Record :=
  Record.make a.uninitialised.recordState a.info.isWrite a.label a.lockSet a.info.taskPtr
    a.info.instnAddr

/-- A history after a call, the reports, and the graph with the entries that the searches left. -/
structure Checked where
  history : AccessHistory
  reports : RaceReports
  taskDepGraph : Option TaskDepGraph

def checkDataRace (flags : ReportFlags) (accessHistory : AccessHistory) (access : Access)
    (reports : RaceReports) : Except Abort Checked := do
  let ctx := access.context
  if access.info.hwLock then .ok ⟨accessHistory, reports, ctx.taskDepGraph⟩
  else if access.info.dataSharingType = .eThreadPrivateBelowExit ∨
      access.info.dataSharingType = .eStaticThreadPrivate then
    .ok ⟨accessHistory, reports, ctx.taskDepGraph⟩
  else if accessHistory.dataRaceFound then
    .ok ⟨{ accessHistory with records := [] }, reports, ctx.taskDepGraph⟩
  else if accessHistory.memIsRecycled then
    .ok ⟨{ accessHistory.clearFlags with records := [] }, reports, ctx.taskDepGraph⟩
  else
    let curRecord := access.record
    if accessHistory.records = [] then
      .ok ⟨{ accessHistory with records := [curRecord] }, reports, ctx.taskDepGraph⟩
    else
      let (scan, records) ← scanRecords ctx flags access.info curRecord
        accessHistory.records
        { isHistBeforeCurrent := false
          diffIndex := access.uninitialised.diffIndex
          skipAddCur := false
          state := accessHistory.state
          taskDepGraph := ctx.taskDepGraph
          reports }
      let records := if scan.skipAddCur then records else records ++ [curRecord]
      .ok ⟨⟨scan.state, records⟩, scan.reports, scan.taskDepGraph⟩

def checkEach (flags : ReportFlags) (h : AccessHistory) (reports : RaceReports) :
    List Access → Except Abort (AccessHistory × RaceReports)
  | [] => .ok (h, reports)
  | access :: rest => do
    let done ← checkDataRace flags h access reports
    checkEach flags done.history done.reports rest

def checkAll (flags : ReportFlags) (acc : Nat → Access) : Nat → Except Abort Checked
  | 0 => .ok ⟨AccessHistory.new, RaceReports.none, none⟩
  | n + 1 => do
    let done ← checkAll flags acc n
    checkDataRace flags done.history (acc n) done.reports

end Romp
