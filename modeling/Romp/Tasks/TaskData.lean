import Romp.Access.LockSet
import Romp.Label.Label

namespace Romp

/-- A pointer to a `TaskData` is the number of the task. -/
structure TaskData where
  label : Option Label
  lockSet : Option SmallLockSet
  inReduction : Bool
  childExpTaskData : List Nat
  exitFrame : Nat
  expLocalId : Int
  isMutexTask : Bool
  isExplicitTask : Bool

def TaskData.new : TaskData := ⟨none, none, false, [], 0, 0, false, false⟩

end Romp
