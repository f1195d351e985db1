import Romp.Bits.Field
import Romp.Bits.Counter
import Romp.Label.Segment
import Romp.Label.Contents
import Romp.Label.Setters
import Romp.Label.SharedBits
import Romp.Label.Label
import Romp.Label.Heap
import Romp.Label.Version
import Romp.Core.HappensBefore
import Romp.Core.Shift
import Romp.Core.Units
import Romp.Graph.Search
import Romp.Access.LockSet
import Romp.Access.Record
import Romp.Tasks.TaskData
import Romp.Tasks.TaskDepGraph
import Romp.Tasks.DepOrder
import Romp.Tasks.Queries
import Romp.Core.RaceCondition
import Romp.Access.CheckDataRace
import Romp.Order.Covering
import Romp.Order.Trails
import Romp.Access.Coverage
import Romp.Access.Pruning
import Romp.Access.Calls
import Romp.Access.Analyses
import Romp.Access.Recycling
import Romp.Access.Storage
import Romp.Access.Lifetimes
import Romp.Access.Reporting
import Romp.Access.Repeats
import Romp.Access.HardwareLocks
import Romp.Locks.LockArray
import Romp.Locks.Inclusion
import Romp.Locks.SharedLocks
import Romp.Callbacks.Detector
import Romp.Callbacks.Delivery
import Romp.Runtime.Rules
import Romp.Runtime.System
import Romp.Runtime.Steps
import Romp.Runtime.Nesting
import Romp.Runtime.Lives
import Romp.Runtime.Lineage
import Romp.Order.ForkJoin
import Romp.Core.Paths
import Romp.Core.Counters
import Romp.Core.Separation
import Romp.ForkJoin.Nesting
import Romp.ForkJoin.Tracing
import Romp.ForkJoin.Labels
import Romp.ForkJoin.Reports
import Romp.ForkJoin.Exactness
import Romp.Access.DataSharing
import Romp.Checks.Threads
import Romp.Checks.Alone
import Romp.Checks.Paged
import Romp.Checks.Refinement
import Romp.Checks.Locked
import Romp.Checks.Holders
import Romp.Checks.Exclusion
import Romp.ForkJoin.Scan
import Romp.ForkJoin.Plain
import Romp.ForkJoin.Detection
import Romp.ForkJoin.Guards
import Romp.ForkJoin.Memory
import Romp.Callbacks.Effects
import Romp.Callbacks.Frame
import Romp.Callbacks.Shape
import Romp.Callbacks.WellFormed
import Romp.Tasks.Siblings
import Romp.Tasks.CreationOrder
import Romp.Tasks.MutexSets
import Romp.Runtime.Placement
import Romp.Runtime.Labels
import Romp.Runtime.Closing
import Romp.Runtime.Turns
import Romp.Runtime.Origins
import Romp.Runtime.Offsets
import Romp.Runtime.Units
import Romp.Runtime.Identity
import Romp.Runtime.Marks
import Romp.Runtime.Stacks
import Romp.Runtime.UnitCodes
import Romp.Runtime.Iterations
import Romp.Runtime.Brackets
import Romp.Runtime.Onward
import Romp.Runtime.Worksharing
import Romp.Runtime.WellNested
import Romp.Runtime.Synced
import Romp.Runtime.Taskgroups
import Romp.Runtime.Restored
import Romp.Tasking.Rules
import Romp.Tasking.Turns
import Romp.Tasking.Versions
import Romp.Tasking.Waits
import Romp.Tasking.Verdict
import Romp.Tasking.Awaited
import Romp.Tasking.Chains
import Romp.Tasking.Events
import Romp.Tasking.Knowledge
import Romp.Tasking.Phases
import Romp.Tasking.Learned
import Romp.Tasking.Soundness
import Romp.Ownership.Depot
import Romp.Shadow.ShadowMemory
import Romp.Shadow.Pages
import Romp.Shadow.Installation
import Romp.Shadow.Safety
import Romp.Shadow.Slots
import Romp.Shadow.Histories
import Romp.Shadow.RecycleRange
import Romp.Mcs.McsLock
import Romp.Mcs.Queue
import Romp.Mcs.Turns
import Romp.Mcs.Exclusion
import Romp.Order.Fairness
import Romp.Mcs.Progress
