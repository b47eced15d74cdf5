import Footstone.Lib.Runs
import Footstone.Lib.Deal
import Footstone.Lib.HeapOrder
import Footstone.Lib.Handoff
import Footstone.Lib.Ring
import Footstone.Lib.StableSort
import Footstone.Lib.LinkedList
import Footstone.Lib.Linearizable
import Footstone.Lib.While
import Footstone.TaskRunner
import Footstone.Clearing
import Footstone.Queues
import Footstone.Deadlines
import Footstone.TopDelay
import Footstone.Worker
import Footstone.Retaining
import Footstone.GetNextTask
import Footstone.IdleTasks
import Footstone.Waiting
import Footstone.Sorting
import Footstone.Stranding
import Footstone.WorkerManager
import Footstone.Step
import Footstone.Charging
import Footstone.RunLoop
import Footstone.Placement
import Footstone.Growing
import Footstone.Shrinking
import Footstone.Resizing
import Footstone.EvenLoad
import Footstone.WellFormed
import Footstone.RoundRobin
import Footstone.Conservation
import Footstone.Groups
import Footstone.BackPointer
import Footstone.Stacking
import Footstone.Exclusion
import Footstone.Cursor
import Footstone.Handout
import Footstone.Specific
import Footstone.TearDown
import Footstone.Target
import Footstone.Unschedulable
import Footstone.Affinity
import Footstone.Migration
import Footstone.SpscQueue
import Footstone.MpmcQueue
import Footstone.MpmcCommit
import Footstone.MpmcReuse
import Footstone.MpmcEmpty
import Footstone.MpmcHandshake
import Footstone.Pool
import Footstone.MpmcList
import Footstone.MpmcListShape
import Footstone.Base64
import Footstone.BaseTimer
import Footstone.Timers
import Footstone.TimerDelays
import Footstone.IdleTimer
import Footstone.OneShot
import Footstone.MpmcListOrder
import Footstone.Base64Loops
import Footstone.SpscCalls
import Footstone.SpscEviction
import Footstone.MpmcCalls
import Footstone.Agreement
import Footstone.PushUntilSuccess
import Footstone.UnicodeStringView
import Footstone.ViewLifetime
import Footstone.ViewOrder
import Footstone.ViewKey
import Footstone.Lib.Jobs
import Footstone.ThreadPool
import Footstone.PoolOwners
import Footstone.PoolDestructor
import Footstone.Lib.Variant
import Footstone.Lib.LockFree
import Footstone.ThreadPoolProgress
import Footstone.ThreadWorker
import Footstone.ThreadLoop
import Footstone.Lib.Locked
import Footstone.Lib.Onlooker
import Footstone.Lib.RingEnds
import Footstone.ThreadSafeQueue
import Footstone.Consuming
import Footstone.RingEmpty
import Footstone.MpmcLockFree
import Footstone.MpmcListLockFree
import Footstone.Fetching
import Footstone.Delivery
import Footstone.Lib.FairShare
import Footstone.Fairness
