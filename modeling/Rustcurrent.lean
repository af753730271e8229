import Rustcurrent.HashMap.AtomicMarkable
import Rustcurrent.HashMap.Machine
import Rustcurrent.HashMap.Tags
import Rustcurrent.HashMap.Retry
import Rustcurrent.HashMap.Reclaim
import Rustcurrent.HashMap.Capacity
import Rustcurrent.SegQueue.Machine
import Rustcurrent.SegQueue.Shape
import Rustcurrent.SegQueue.History
import Rustcurrent.SegQueue.Invariant
import Rustcurrent.SegQueue.Relaxation
import Rustcurrent.SegQueue.Conservation
import Rustcurrent.SegQueue.Representation
import Rustcurrent.SegQueue.Solo
import Rustcurrent.SegQueue.Pending
import Rustcurrent.SegQueue.Sequential
import Rustcurrent.SegQueue.Reuse
import Rustcurrent.SegQueue.Emptiness
import Rustcurrent.SegQueue.Progress
import Rustcurrent.SegQueue.Values
import Rustcurrent.SegQueue.Tail
