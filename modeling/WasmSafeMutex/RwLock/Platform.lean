import WasmSafeMutex.Platform
import WasmSafeMutex.RwLock.Linear

/-!
# Who parks and who spins for a `RwLock`

The same as for the mutex. `lock_sync_read` and `lock_sync_write` ask `atomics_wait_supported`.
-/

namespace WasmSafeMutex.RwLock

open Interleaving

variable {T : Type}

/-! ## Ways to wait -/

def Site.way : Site → Option Kind
  | .once => none
  | .spin => some .spin
  | .inList k => some k.way

def LockPc.way : LockPc → Option Kind
  | .probe => none
  | .load x | .exchange x _ | .cas x => x.way
  | .enter k | .push k | .leaveOwner k | .leave k _ => some k.way
  | .park => some .sync
  | .await _ => some .async

def Pc.way : Pc → Option Kind
  | .lock l => l.way
  | .drop _ => none

def LockCall.way : LockCall → Option Kind
  | .lockSpin => some .spin
  | .lockBlock => some .sync
  | .lockAsync => some .async
  | .tryLock | .lockSync => none

theorem LockCall.way_entry (c : LockCall) (a : Access) : (c.entry a).way = c.way := by
  cases c <;> cases a <;> rfl

def Pc.parks : Pc → Bool
  | .lock .park => true
  | _ => false

/-- The thread is in the loop of `lock_spin_*`. -/
def Pc.spins : Pc → Bool
  | .lock (.load .spin) | .lock (.exchange .spin _) | .lock (.cas .spin) => true
  | _ => false

namespace State

variable {s s' : State T} {e : Event T} {t : ThreadId} {x : Kind}

theorem atomicsWait_step (hn : s.Numbered) (hstep : s.step e = some s') :
    s'.sh.atomicsWait = s.sh.atomicsWait := by
  cases stepped_of_step hn hstep with
  | acted _ i t a pc sh n _ _ hs => cases hs <;> rfl
  | turned | wrote | unpark | parkElsewhere => rfl

end State

end WasmSafeMutex.RwLock
