import Benedias.Interleaving
import Benedias.AtomicObject
import Benedias.Composition
import Benedias.LinkedChain
import Benedias.BinarySearch
import Benedias.FutexMachine
import Benedias.Gate
import Benedias.BinarySemaphore
import Benedias.OneBitSemaphore
import Benedias.FuLock
import Benedias.FuUnlock
import Benedias.RwControl
import Benedias.RwInvariant
import Benedias.RwExclusion
import Benedias.RwProgress
import Benedias.RwObject
import Benedias.RwClient
import Benedias.RwLockTest
import Benedias.RwRecursion
import Benedias.ModifiableLock
import Benedias.HazardPointerList
import Benedias.HazardPointerPool
import Benedias.HazardPointerCollect
import Benedias.HazardPointerRuns
import Benedias.CollectExact
import Benedias.CollectResult
import Benedias.NodeConservation
import Benedias.ListDestructor
import Benedias.Recycle
import Benedias.HazardPointerMove
import Benedias.HazardPointerPatch
import Benedias.Reentrant
import Benedias.ReentrantInvariant
import Benedias.ReentrantCollect
import Benedias.SharedList
import Benedias.SharedListPlaces
import Benedias.SharedListInvariant
import Benedias.SharedListRuns
import Benedias.SharedListIntegrity
import Benedias.NonBlocking
import Benedias.CollectCalls
import Benedias.NodeDemand
import Benedias.FixedList
import Benedias.NodeFields
import Benedias.Reclamation
import Benedias.ReclamationSteps
import Benedias.ReclamationSafety
import Benedias.CallDiscipline
import Benedias.CollectComplete
import Benedias.QueuedObjects
import Benedias.GuardedObjects
import Benedias.ReclamationHistory
import Benedias.ListTermination
import Benedias.CollectorThread
import Benedias.CollectorInvariant
import Benedias.CollectorLifetime
import Benedias.ClientNumbers
import Benedias.CollectorPass
import Benedias.CollectorRun
import Benedias.Shutdown
import Benedias.PendingGarbage
import Benedias.CollectedLists
import Benedias.CollectorTurns
import Benedias.CollectorProgress
import Benedias.Registration
