import Romp.Label.Label

namespace Romp

def getKthSegment (label : List Segment) (k : Nat) : Except Abort Segment :=
  match label[k]? with
  | none => .error "index out of bound"
  | some segment => .ok segment

def computeExitRank (phase : Nat) : Nat := phase - phase % 2
def computeEnterRank (phase : Nat) : Nat := phase + phase % 2

def syncChainFrom : List Segment → Except Abort Bool
  | [] => .ok true
  | seg :: rest => do
    match ← seg.getType with
    | .eImplicit => .ok true
    | .eExplicit =>
      if seg.getTaskGroupLevel > 0 then .ok true
      else if !seg.isTaskwaited then .ok false
      else syncChainFrom rest
    | .eWorkShare => syncChainFrom rest

def analyzeSyncChain (label : List Segment) (startIndex : Nat) : Except Abort Bool :=
  if startIndex + 1 = label.length then .ok true
  else syncChainFrom (label.drop startIndex)

def analyzeOrderedDescendents (histLabel : List Segment) (startIndex histPhase : Nat) :
    Except Abort Bool := do
  let nextSeg ← getKthSegment histLabel (startIndex + 1)
  match ← nextSeg.getType with
  | .eImplicit => .ok true
  | .eWorkShare =>
    .error "does not expect next segment of workshare seg to be workshare segment"
  | .eExplicit =>
    let curSeg ← getKthSegment histLabel startIndex
    let taskGroupLevel := curSeg.getTaskGroupLevel
    let phase := curSeg.getPhase
    if taskGroupLevel > 0 ∧ phase % 2 = 0 ∧ nextSeg.isTaskGroupSync ∧
        nextSeg.getTaskGroupPhase ≤ histPhase then .ok true
    else if taskGroupLevel > 0 ∧ phase % 2 = 1 then .ok true
    else if nextSeg.isTaskwaited ∧ nextSeg.getTaskwaitPhase ≤ histPhase then
      analyzeSyncChain histLabel (startIndex + 1)
    else .ok false

/-- The source also reads both workshare ids here, and compares neither. -/
def analyzeOrderedSection (histLabel curLabel : List Segment) (startIndex : Nat) :
    Except Abort Bool := do
  let histSegment ← getKthSegment histLabel startIndex
  let curSegment ← getKthSegment curLabel startIndex
  if histSegment.isPlaceHolder || curSegment.isPlaceHolder then .ok false
  else
    let histPhase := histSegment.getPhase
    let curPhase := curSegment.getPhase
    if computeExitRank histPhase < computeEnterRank curPhase then
      if startIndex + 1 = histLabel.length then .ok true
      else analyzeOrderedDescendents histLabel startIndex histPhase
    else .ok false

def analyzeSiblingImpTask (histLabel curLabel : List Segment) (diffIndex : Nat) :
    Except Abort Bool :=
  if diffIndex + 1 = histLabel.length ∨ diffIndex + 1 = curLabel.length then .ok false
  else do
    let histNextSeg ← getKthSegment histLabel (diffIndex + 1)
    let curNextSeg ← getKthSegment curLabel (diffIndex + 1)
    let histNextSegType ← histNextSeg.getType
    let curNextSegType ← curNextSeg.getType
    if histNextSegType = .eWorkShare ∧ curNextSegType = .eWorkShare then
      if histNextSeg.isSection || curNextSeg.isSection then .ok false
      else
        let histSeg ← getKthSegment histLabel diffIndex
        let curSeg ← getKthSegment curLabel diffIndex
        if histSeg.getLoopCount = curSeg.getLoopCount then
          analyzeOrderedSection histLabel curLabel (diffIndex + 1)
        else .ok false
    else .ok false

def analyzeTaskGroupSync (histLabel curLabel : List Segment) (diffIndex : Nat) :
    Except Abort Bool := do
  let histSeg ← getKthSegment histLabel diffIndex
  let curSeg ← getKthSegment curLabel diffIndex
  .ok (histSeg.getTaskGroupId < curSeg.getTaskGroupId ∧
    histSeg.getTaskGroupLevel ≥ curSeg.getTaskGroupLevel)

def analyzeNextExpExp (histLabel curLabel : List Segment) (diffIndex : Nat) :
    Except Abort Bool := do
  if ← analyzeTaskGroupSync histLabel curLabel diffIndex then .ok true
  else
    let histSeg ← getKthSegment histLabel diffIndex
    let curSeg ← getKthSegment curLabel diffIndex
    let histTaskwait := histSeg.getTaskwait
    let curTaskwait := curSeg.getTaskwait
    if histTaskwait = curTaskwait then .ok false
    else if histTaskwait < curTaskwait then analyzeSyncChain histLabel (diffIndex + 1)
    else .error "not expecting hist taskwait to be larger than cur taskwait"

def analyzeNextExpWork : List Segment → List Segment → Nat → Except Abort Bool := analyzeNextExpExp

/-- The remaining analyses of two next segments look at nothing: outside a DEBUG_CORE build
    each of them is `return false`. -/
def analyzeNextConcurrent (_histLabel _curLabel : List Segment) (_diffIndex : Nat) :
    Except Abort Bool := .ok false

def analyzeNextImpExp := analyzeNextConcurrent
def analyzeNextImpWork := analyzeNextConcurrent
def analyzeNextExpImp := analyzeNextConcurrent
def analyzeNextWorkImp := analyzeNextConcurrent
def analyzeNextWorkExp := analyzeNextConcurrent
def analyzeNextWorkWork := analyzeNextConcurrent

def dispatchAnalysis (histType curType : SegmentType) (hist cur : List Segment) (diffIndex : Nat) :
    Except Abort Bool :=
  match histType, curType with
  | .eImplicit, .eImplicit => .error "not expected case: imp-imp"
  | .eImplicit, .eExplicit => analyzeNextImpExp hist cur diffIndex
  | .eImplicit, .eWorkShare => analyzeNextImpWork hist cur diffIndex
  | .eExplicit, .eImplicit => analyzeNextExpImp hist cur diffIndex
  | .eExplicit, .eExplicit => analyzeNextExpExp hist cur diffIndex
  | .eExplicit, .eWorkShare => analyzeNextExpWork hist cur diffIndex
  | .eWorkShare, .eImplicit => analyzeNextWorkImp hist cur diffIndex
  | .eWorkShare, .eExplicit => analyzeNextWorkExp hist cur diffIndex
  | .eWorkShare, .eWorkShare => analyzeNextWorkWork hist cur diffIndex

def analyzeSameTask (histLabel curLabel : List Segment) (diffIndex : Nat) : Except Abort Bool :=
  if diffIndex + 1 = histLabel.length then .ok true
  else if diffIndex + 1 = curLabel.length then do
    let histNextSeg ← getKthSegment histLabel (diffIndex + 1)
    match ← histNextSeg.getType with
    | .eImplicit => .error "not expecting next level task to be implicit task"
    | .eExplicit =>
      let histSeg ← getKthSegment histLabel diffIndex
      let histTaskwait := histSeg.getTaskwait
      let curSeg ← getKthSegment curLabel diffIndex
      let curTaskwait := curSeg.getTaskwait
      if curTaskwait < histTaskwait then
        .error "not expecting hist taskwait to be larger than cur taskwait"
      else if curTaskwait = histTaskwait then
        .ok (histSeg.getTaskGroupLevel > 0 && histNextSeg.isTaskGroupSync)
      else analyzeSyncChain histLabel (diffIndex + 1)
    | .eWorkShare => .ok histNextSeg.isPlaceHolder
  else do
    let histNextSeg ← getKthSegment histLabel (diffIndex + 1)
    let curNextSeg ← getKthSegment curLabel (diffIndex + 1)
    let histNextType ← histNextSeg.getType
    let curNextType ← curNextSeg.getType
    if histNextType = .eImplicit ∧ curNextType = .eImplicit then
      .error "not expecting next level tasks are sibling implicit tasks"
    else dispatchAnalysis histNextType curNextType histLabel curLabel diffIndex

def happensBeforeAt (histLabel curLabel : List Segment) (diffIndex : Nat) : Except Abort Bool := do
  let histSegment ← getKthSegment histLabel diffIndex
  let curSegment ← getKthSegment curLabel diffIndex
  let histOffset := histSegment.getOffset
  let curOffset := curSegment.getOffset
  let histSpan := histSegment.getSpan
  let curSpan := curSegment.getSpan
  if histSpan ≠ curSpan then .error "left span != right span"
  else if histSpan = 1 then
    let histType ← histSegment.getType
    let curType ← curSegment.getType
    if histType ≠ curType then .error "not expecting hist seg type != cur seg type"
    else match histType with
    | .eImplicit =>
      if histOffset < curOffset then .ok true else .error "not expecting hist offset >= cur offset"
    | .eWorkShare =>
      if histSegment.isSingleExecutor && curSegment.isSingleExecutor then
        analyzeSameTask histLabel curLabel diffIndex
      else analyzeOrderedSection histLabel curLabel diffIndex
    | .eExplicit => analyzeSameTask histLabel curLabel diffIndex
  else if histOffset ≠ curOffset then
    if histOffset % histSpan = curOffset % histSpan then
      if histOffset < curOffset then .ok true
      else .error "not expecting history access joined before current access"
    else analyzeSiblingImpTask histLabel curLabel diffIndex
  else analyzeSameTask histLabel curLabel diffIndex

/-- The out-parameter `diffIndex` of the source is `compareLabels histLabel curLabel`. -/
def happensBefore (histLabel curLabel : List Segment) : Except Abort Bool :=
  let diffIndex := compareLabels histLabel curLabel
  if diffIndex < 0 then
    if diffIndex = eSameLabel then .ok true
    else if diffIndex = eLeftIsPrefix then .ok true
    else if diffIndex = eRightIsPrefix then .error "cur Label -> hist label"
    else .error "unknown label compare result"
  else happensBeforeAt histLabel curLabel diffIndex.toNat

end Romp
