import Nsync.Mu.Handshake
import Nsync.Mu.Conservation
import Nsync.Mu.Wakeups
import Nsync.Mu.LongWait
import Nsync.Cv.Select
import Nsync.Cv.WakeSplit
import Nsync.Mu.Misuse
import Nsync.Mu.Skip
import Nsync.Mu.ScanSpec
import Nsync.Mu.WaitRelease
import Nsync.Mu.WaitResult
import Nsync.Mu.Rings
import Nsync.Mu.RwLock
import Nsync.Mu.Lifetime
import Nsync.Counter.Correct
import Nsync.Pool.Correct
import Nsync.Wait.Waitable
import Nsync.Once
import Nsync.Dll
import Nsync.TimePoint
import Nsync.Semaphore
import Nsync.Emit
import Nsync.Note.Meaning
import Nsync.Wait.Notified
