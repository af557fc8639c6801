import WasmSafeMutex.Memory

/-!
# The code of `Mutex` and `Guard::drop`

A constructor of `LockPc` or `UnlockPc` is a place in the code just before an atomic
operation. `next` gives the operation and what follows each of its results.
-/

namespace WasmSafeMutex

variable {V : Type}

/-! ## Locking -/

/-- `d` is the deadline of a timed call. `k` says whether the call waits by `park` or by
`await`, and so which of the two lists it uses. `n` numbers what it has put there. -/
inductive LockPc
  | tryLock
  | spin (d : Option Instant)
  | spinNow (d : Instant)
  /-- `lock_sync` asks whether this thread can block. -/
  | probe (d : Option Instant)
  | now (k : Side) (d : Instant)
  /-- The one last try after the deadline. -/
  | lastTry
  | enter (k : Side) (d : Option Instant)
  | tryIn (k : Side) (d : Option Instant)
  | push (k : Side) (d : Option Instant)
  /-- Leaves the section with the guard. -/
  | leaveOwner (k : Side)
  | leave (k : Side) (d : Option Instant) (n : Nat)
  | park (d : Option Instant)
  | await (n : Nat)
  | spawn (d : Instant) (n : Nat)
  /-- `Race::poll` looks at the notification first and at the timeout second. -/
  | raceNotify (d : Instant) (n timeout : Nat)
  | raceTimeout (d : Instant) (n timeout : Nat)
  deriving DecidableEq

/-- `goto` goes on, `yield` returns `Poll::Pending` and waits for the next poll. -/
inductive LockOut
  | goto (l : LockPc)
  | yield (l : LockPc)
  | acquired
  | failed

/-- Where the loop of the parking and awaiting locks starts over. -/
def LockPc.loop (k : Side) : Option Instant → LockPc
  | none => .enter k none
  | some d => .now k d

/-- How the call waits once its handle is in the list. -/
def LockPc.sleep : Side → Option Instant → Nat → LockPc
  | .sync, d, _ => .park d
  | .async, none, n => .await n
  | .async, some d, n => .spawn d n

def LockPc.tryLockOut (won : Bool) : LockOut := if won then .acquired else .failed

def LockPc.next : LockPc → Act V → Option LockOut
  | .tryLock, .mutex (.cas won) => some (tryLockOut won)
  | .spin d, .mutex (.swap won) =>
    some (if won then .acquired else match d with
      | none => .goto (.spin none)
      | some d => .goto (.spinNow d))
  | .spinNow d, .now x => some (if d ≤ x then .failed else .goto (.spin (some d)))
  | .probe d, .probe supported => some (.goto (if supported then .loop .sync d else .spin d))
  | .now k d, .now x => some (.goto (if d ≤ x then .lastTry else .enter k (some d)))
  | .lastTry, .mutex (.cas won) => some (tryLockOut won)
  | .enter k d, .mutex (.enter k') => if k' = k then some (.goto (.tryIn k d)) else none
  | .tryIn k d, .mutex (.cas won) => some (.goto (if won then .leaveOwner k else .push k d))
  | .push k d, .push k' n => if k' = k then some (.goto (.leave k d n)) else none
  | .leaveOwner k, .mutex (.leave k') => if k' = k then some .acquired else none
  | .leave k d n, .mutex (.leave k') => if k' = k then some (.goto (sleep k d n)) else none
  | .park d, .park _ => some (.goto (.loop .sync d))
  | .await n, .observe w ready =>
    if w = .cont n then some (if ready then .goto (.loop .async none) else .yield (.await n)) else none
  | .spawn d n, .spawn d' m => if d' = d then some (.goto (.raceNotify d n m)) else none
  | .raceNotify d n m, .observe w ready =>
    if w = .cont n then some (.goto (if ready then .loop .async (some d) else .raceTimeout d n m))
    else none
  | .raceTimeout d n m, .observe w ready =>
    if w = .cont m then some (if ready then .failed else .yield (.raceNotify d n m)) else none
  | _, _ => none

/-- The inversion of `LockPc.next`. -/
inductive LockPc.Step : LockPc → Act V → LockOut → Prop
  | tryLock (won) : Step .tryLock (.mutex (.cas won)) (tryLockOut won)
  | spinWon (d) : Step (.spin d) (.mutex (.swap true)) .acquired
  | spinLost : Step (.spin none) (.mutex (.swap false)) (.goto (.spin none))
  | spinTimed (d) : Step (.spin (some d)) (.mutex (.swap false)) (.goto (.spinNow d))
  | spinNow (d x) : Step (.spinNow d) (.now x) (if d ≤ x then .failed else .goto (.spin (some d)))
  | probe (d b) : Step (.probe d) (.probe b) (.goto (if b then .loop .sync d else .spin d))
  | now (k d x) : Step (.now k d) (.now x) (.goto (if d ≤ x then .lastTry else .enter k (some d)))
  | lastTry (won) : Step .lastTry (.mutex (.cas won)) (tryLockOut won)
  | enter (k d) : Step (.enter k d) (.mutex (.enter k)) (.goto (.tryIn k d))
  | tryIn (k d won) : Step (.tryIn k d) (.mutex (.cas won))
    (.goto (if won then .leaveOwner k else .push k d))
  | push (k d n) : Step (.push k d) (.push k n) (.goto (.leave k d n))
  | leaveOwner (k) : Step (.leaveOwner k) (.mutex (.leave k)) .acquired
  | leave (k d n) : Step (.leave k d n) (.mutex (.leave k)) (.goto (sleep k d n))
  | park (d b) : Step (.park d) (.park b) (.goto (.loop .sync d))
  | awaitReady (n) : Step (.await n) (.observe (.cont n) true) (.goto (.loop .async none))
  | awaitPending (n) : Step (.await n) (.observe (.cont n) false) (.yield (.await n))
  | spawn (d n m) : Step (.spawn d n) (.spawn d m) (.goto (.raceNotify d n m))
  | raceNotify (d n m b) : Step (.raceNotify d n m) (.observe (.cont n) b)
    (.goto (if b then .loop .async (some d) else .raceTimeout d n m))
  | raceTimedOut (d n m) : Step (.raceTimeout d n m) (.observe (.cont m) true) .failed
  | racePending (d n m) : Step (.raceTimeout d n m) (.observe (.cont m) false)
    (.yield (.raceNotify d n m))

theorem LockPc.step_of_next {l : LockPc} {a : Act V} {o : LockOut} (h : l.next a = some o) :
    l.Step a o := by
  unfold LockPc.next at h
  split at h
  case h_1 won => cases h; exact .tryLock won
  case h_2 d won =>
    cases h
    cases won with
    | true => exact .spinWon d
    | false => cases d with
      | none => exact .spinLost
      | some d => exact .spinTimed d
  case h_3 d x => cases h; exact .spinNow d x
  case h_4 d b => cases h; exact .probe d b
  case h_5 k d x => cases h; exact .now k d x
  case h_6 won => cases h; exact .lastTry won
  case h_7 k d k' =>
    obtain ⟨rfl, ho⟩ := Option.ite_none_right_eq_some.mp h
    cases ho; exact .enter k' d
  case h_8 k d won => cases h; exact .tryIn k d won
  case h_9 k d k' n =>
    obtain ⟨rfl, ho⟩ := Option.ite_none_right_eq_some.mp h
    cases ho; exact .push k' d n
  case h_10 k k' =>
    obtain ⟨rfl, ho⟩ := Option.ite_none_right_eq_some.mp h
    cases ho; exact .leaveOwner k'
  case h_11 k d n k' =>
    obtain ⟨rfl, ho⟩ := Option.ite_none_right_eq_some.mp h
    cases ho; exact .leave k' d n
  case h_12 d b => cases h; exact .park d b
  case h_13 n w b =>
    obtain ⟨rfl, ho⟩ := Option.ite_none_right_eq_some.mp h
    cases ho
    cases b with
    | true => exact .awaitReady n
    | false => exact .awaitPending n
  case h_14 d n d' m =>
    obtain ⟨rfl, ho⟩ := Option.ite_none_right_eq_some.mp h
    cases ho; exact .spawn d' n m
  case h_15 d n m w b =>
    obtain ⟨rfl, ho⟩ := Option.ite_none_right_eq_some.mp h
    cases ho; exact .raceNotify d n m b
  case h_16 d n m w b =>
    obtain ⟨rfl, ho⟩ := Option.ite_none_right_eq_some.mp h
    cases ho
    cases b with
    | true => exact .raceTimedOut d n m
    | false => exact .racePending d n m
  case h_17 => cases h

theorem LockPc.next_of_step {l : LockPc} {a : Act V} {o : LockOut} (h : l.Step a o) :
    l.next a = some o := by
  cases h <;> simp [LockPc.next]

/-- The places where a future stays when it returns `Poll::Pending`. -/
def LockPc.pending : LockPc → Bool
  | .await _ | .raceNotify _ _ _ => true
  | _ => false

theorem LockPc.Step.pending {l l' : LockPc} {a : Act V} (h : l.Step a (.yield l')) :
    l'.pending = true := by
  generalize ho : LockOut.yield l' = o at h
  cases h with
  | awaitPending n | racePending d n m => cases ho; rfl
  | tryLock won | lastTry won => cases won <;> cases ho
  | spinNow d x => split at ho <;> cases ho
  | _ => cases ho

def tryLock : LockPc := .tryLock
def lockSpin : LockPc := .spin none
def lockSpinTimeout (deadline : Instant) : LockPc := .spin (some deadline)
def lockBlock : LockPc := .loop .sync none
def lockBlockTimeout (deadline : Instant) : LockPc := .loop .sync (some deadline)
def lockSync : LockPc := .probe none
def lockSyncTimeout (deadline : Instant) : LockPc := .probe (some deadline)
def lockAsync : LockPc := .loop .async none
def lockAsyncTimeout (deadline : Instant) : LockPc := .loop .async (some deadline)

/-- The lock methods of `Mutex`. -/
inductive LockCall
  | tryLock
  | lockSpin
  | lockSpinTimeout (deadline : Instant)
  | lockBlock
  | lockBlockTimeout (deadline : Instant)
  | lockSync
  | lockSyncTimeout (deadline : Instant)
  | lockAsync
  | lockAsyncTimeout (deadline : Instant)
  deriving DecidableEq

def LockCall.entry : LockCall → LockPc
  | .tryLock => WasmSafeMutex.tryLock
  | .lockSpin => WasmSafeMutex.lockSpin
  | .lockSpinTimeout d => WasmSafeMutex.lockSpinTimeout d
  | .lockBlock => WasmSafeMutex.lockBlock
  | .lockBlockTimeout d => WasmSafeMutex.lockBlockTimeout d
  | .lockSync => WasmSafeMutex.lockSync
  | .lockSyncTimeout d => WasmSafeMutex.lockSyncTimeout d
  | .lockAsync => WasmSafeMutex.lockAsync
  | .lockAsyncTimeout d => WasmSafeMutex.lockAsyncTimeout d

/-! ## Unlocking -/

/-- `Guard::drop`: the store, and then `did_unlock`. -/
inductive UnlockPc
  | store
  | take (k : Side)
  | wake (k : Side) (w : Waker) (ws : List Waker)
  deriving DecidableEq

inductive UnlockOut
  | goto (u : UnlockPc)
  | finished

/-- The `for` loop over what is left of a detached list, and then the other list. -/
def UnlockPc.drain : Side → List Waker → UnlockOut
  | k, w :: ws => .goto (.wake k w ws)
  | .sync, [] => .goto (.take .async)
  | .async, [] => .finished

def UnlockPc.next : UnlockPc → Act V → Option UnlockOut
  | .store, .mutex .store => some (.goto (.take .sync))
  | .take k, .mutex (.take k' ws) => if k' = k then some (drain k ws) else none
  | .wake k w ws, .wake w' => if w' = w then some (drain k ws) else none
  | _, _ => none

/-- The inversion of `UnlockPc.next`. -/
inductive UnlockPc.Step : UnlockPc → Act V → UnlockOut → Prop
  | store : Step .store (.mutex .store) (.goto (.take .sync))
  | take (k ws) : Step (.take k) (.mutex (.take k ws)) (drain k ws)
  | wake (k w ws) : Step (.wake k w ws) (.wake w) (drain k ws)

theorem UnlockPc.step_of_next {u : UnlockPc} {a : Act V} {o : UnlockOut} (h : u.next a = some o) :
    u.Step a o := by
  unfold UnlockPc.next at h
  split at h
  case h_1 => cases h; exact .store
  case h_2 k k' ws =>
    obtain ⟨rfl, ho⟩ := Option.ite_none_right_eq_some.mp h
    cases ho; exact .take k' ws
  case h_3 k w ws w' =>
    obtain ⟨rfl, ho⟩ := Option.ite_none_right_eq_some.mp h
    cases ho; exact .wake k w' ws
  case h_4 => cases h

end WasmSafeMutex
