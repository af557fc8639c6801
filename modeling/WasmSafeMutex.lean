import WasmSafeMutex.Lib.Run
import WasmSafeMutex.Mutex.Exclusion
import WasmSafeMutex.Mutex.Sections
import WasmSafeMutex.Mutex.Wakeup
import WasmSafeMutex.Mutex.TimedLock
import WasmSafeMutex.Mutex.LeftBehind
import WasmSafeMutex.Spinlock
import WasmSafeMutex.RwLock.Wakeup
import WasmSafeMutex.Invariants
import WasmSafeMutex.Condvar.Release
import WasmSafeMutex.Condvar.NotifyOne
import WasmSafeMutex.Condvar.Spin
import WasmSafeMutex.Condvar.Async
import WasmSafeMutex.Condvar.Cancel
import WasmSafeMutex.Condvar.Block
import WasmSafeMutex.Condvar.While
import WasmSafeMutex.Channel.Fifo
import WasmSafeMutex.Channel.Linear
import WasmSafeMutex.Channel.Closed
import WasmSafeMutex.Channel.TryRecv
import WasmSafeMutex.Channel.Disconnect
import WasmSafeMutex.Channel.LastDrop
import WasmSafeMutex.Channel.Timeout
import WasmSafeMutex.Channel.Stranded
import WasmSafeMutex.Sharing
import WasmSafeMutex.Platform
import WasmSafeMutex.RwLock.Platform
import WasmSafeMutex.RwLock.Progress
import WasmSafeMutex.Deadlines
import WasmSafeMutex.Fair
import WasmSafeMutex.RwLock.Fair
import WasmSafeMutex.Continuations
import WasmSafeMutex.ListSections
