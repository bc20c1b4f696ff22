import Walstream.Group.Bounds
import Walstream.Group.Generations
import Walstream.Group.Ghosts
import Walstream.Group.OffsetRegister
import Walstream.Group.Refusals
import Walstream.Group.OffsetFetching
import Walstream.Log.IndexSafety
import Walstream.Log.GarbageSafety
import Walstream.Log.Retries
import Walstream.Log.Topics
import Walstream.Log.MaintenanceBudget
import Walstream.Log.ProducerIds
import Walstream.Log.ProducerScan
import Walstream.Log.Rejecting
import Walstream.Log.SideEffects
import Walstream.Wire.FetchResponse
import Walstream.Wire.RawRecords
import Walstream.Wire.Requests
import Walstream.Group.Fencing
