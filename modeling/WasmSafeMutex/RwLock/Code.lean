import WasmSafeMutex.Lib.Run
import WasmSafeMutex.Memory

/-!
# The code of `RwLock` and of its guards

One lock, with any number of calls on any number of threads. As for the mutex, a constructor
of `LockPc` or `DropPc` is a place in the code just before an atomic operation.
-/

namespace WasmSafeMutex.RwLock

open Interleaving

variable {T : Type}

/-! ## The byte -/

def unlocked : UInt8 := 0
def lockedWrite : UInt8 := 0b10000000

/-- What the closure that `try_lock_read` passes to `fetch_update` makes of the byte. -/
inductive Update
  | none
  /-- `panic!("Too many readers")`. -/
  | panic
  | some (f : UInt8)
  deriving DecidableEq

def readUpdate (f : UInt8) : Update :=
  if f &&& lockedWrite ≠ 0 then .none
  else if f = lockedWrite - 1 then .panic
  else .some (f + 1)

/-! ## Places -/

inductive Access
  | read
  | write
  deriving DecidableEq, Repr

/-- The four waiting lists. -/
abbrev Queue := Access × Side

/-- Where an attempt to take the lock is made. -/
inductive Site
  /-- `try_lock_*`. -/
  | once
  /-- `lock_spin_*`. -/
  | spin
  /-- `lock_block_*` and `lock_async_*`: in a section of the waiting list. -/
  | inList (k : Side)
  deriving DecidableEq

inductive LockPc
  /-- `lock_sync_*` asks whether this thread can block. -/
  | probe
  /-- `fetch_update` loads the byte, and then exchanges what its closure has seen. -/
  | load (x : Site)
  | exchange (x : Site) (f : UInt8)
  /-- `compare_exchange` of `try_lock_write`. -/
  | cas (x : Site)
  | enter (k : Side)
  | push (k : Side)
  /-- Leaves the section with the guard. -/
  | leaveOwner (k : Side)
  | leave (k : Side) (n : Nat)
  | park
  | await (n : Nat)
  deriving DecidableEq

inductive DropPc
  /-- `fetch_sub(1)` of a `ReadGuard`, `swap(UNLOCKED)` of a `WriteGuard`. -/
  | release
  /-- `did_unlock_*` detaches one list after another and wakes what it held. -/
  | take (q : Queue) (qs : List Queue)
  | wake (q : Queue) (w : Waker) (ws : List Waker) (qs : List Queue)
  deriving DecidableEq

inductive Pc
  | lock (l : LockPc)
  | drop (d : DropPc)
  deriving DecidableEq

inductive Outcome
  /-- `Err(NotAvailable)`. -/
  | failed
  | tooManyReaders
  | released
  | assertFailed
  | cancelled
  deriving DecidableEq

inductive Next
  | goto (pc : Pc)
  | yield (l : LockPc)
  | hold
  | finish (o : Outcome)
  deriving DecidableEq

/-! ## What comes next -/

def Access.attempt (a : Access) (x : Site) : LockPc :=
  match a with
  | .read => .load x
  | .write => .cas x

def Site.ok : Site → Next
  | .once | .spin => .hold
  | .inList k => .goto (.lock (.leaveOwner k))

def Site.err (a : Access) : Site → Next
  | .once => .finish .failed
  | .spin => .goto (.lock (a.attempt .spin))
  | .inList k => .goto (.lock (.push k))

/-- `fetch_update` has seen `f`. A panic of its closure unwinds out of the call, and out of
the section of the waiting list if it is in one. -/
def Site.update (x : Site) (f : UInt8) : Next :=
  match readUpdate f with
  | .none => x.err .read
  | .panic => .finish .tooManyReaders
  | .some _ => .goto (.lock (.exchange x f))

def sleep : Side → Nat → LockPc
  | .sync, _ => .park
  | .async, n => .await n

/-- `did_unlock_read` and `did_unlock_write`. -/
def Access.didUnlock : Access → DropPc
  | .read => .take (.write, .sync) [(.write, .async)]
  | .write => .take (.read, .sync) [(.read, .async), (.write, .sync), (.write, .async)]

def DropPc.drain (q : Queue) : List Waker → List Queue → Next
  | w :: ws, qs => .goto (.drop (.wake q w ws qs))
  | [], q' :: qs => .goto (.drop (.take q' qs))
  | [], [] => .finish .released

/-! ## States -/

structure Shared (T : Type) where
  byte : UInt8
  data : T
  waiting : Queue → List Waker
  /-- `locked` of the spinlock around each list. -/
  locked : Queue → Bool
  /-- The park tokens, and whether a continuation has been sent to. -/
  woken : Waker → Bool
  fresh : Nat
  atomicsWait : ThreadId → Bool
  /-- History: who has raised the byte and has not yet lowered it. -/
  reads : List CallId
  writes : List CallId

inductive Call
  | idle
  | running (t : ThreadId) (a : Access) (pc : Pc)
  | suspended (a : Access) (l : LockPc)
  /-- The call has returned a guard, which is still alive. -/
  | holding (a : Access)
  | done (o : Outcome)
  deriving DecidableEq

def Next.call (t : ThreadId) (a : Access) : Next → Call
  | .goto pc => .running t a pc
  | .yield l => .suspended a l
  | .hold => .holding a
  | .finish o => .done o

def Call.thread? : Call → Option ThreadId
  | .running t _ _ => some t
  | _ => none

structure State (T : Type) where
  sh : Shared T
  call : CallId → Call
  used : Nat

def init (x : T) (atomicsWait : ThreadId → Bool) : State T where
  sh :=
    { byte := unlocked
      data := x
      waiting := fun _ => []
      locked := fun _ => false
      woken := fun _ => false
      fresh := 0
      atomicsWait := atomicsWait
      reads := []
      writes := [] }
  call := fun _ => .idle
  used := 0

/-! ## Steps -/

/-- The lock methods, for reading or for writing. -/
inductive LockCall
  | tryLock
  | lockSpin
  | lockBlock
  | lockSync
  | lockAsync
  deriving DecidableEq

def LockCall.entry (a : Access) : LockCall → LockPc
  | .tryLock => a.attempt .once
  | .lockSpin => a.attempt .spin
  | .lockBlock => .enter .sync
  | .lockSync => .probe
  | .lockAsync => .enter .async

inductive Event (T : Type)
  | begin (t : ThreadId) (a : Access) (c : LockCall)
  /-- The next operation of a running call. -/
  | act (i : CallId)
  /-- `compare_exchange_weak` fails, or `park` returns, for no reason. -/
  | spurious (i : CallId)
  | dropGuard (i : CallId) (t : ThreadId)
  | poll (i : CallId) (t : ThreadId)
  | cancel (i : CallId)
  /-- The holder of a `WriteGuard` writes. -/
  | write (i : CallId) (u : T → T)
  /-- Anyone may unpark a thread, and a thread in no call of this lock may park. -/
  | unpark (t : ThreadId)
  | parkElsewhere (t : ThreadId)

namespace Shared

def setByte (sh : Shared T) (f : UInt8) : Shared T := { sh with byte := f }

def lockList (sh : Shared T) (q : Queue) (b : Bool) : Shared T :=
  { sh with locked := Function.update sh.locked q b }

def setList (sh : Shared T) (q : Queue) (ws : List Waker) : Shared T :=
  { sh with waiting := Function.update sh.waiting q ws }

def setWoken (sh : Shared T) (w : Waker) (b : Bool) : Shared T :=
  { sh with woken := Function.update sh.woken w b }

end Shared

def LockPc.act (sh : Shared T) (i : CallId) (t : ThreadId) (a : Access) : LockPc → Option (Shared T × Next)
  | .probe =>
    some (sh, .goto (.lock (if sh.atomicsWait t then .enter .sync else a.attempt .spin)))
  | .load x => some (sh, x.update sh.byte)
  | .exchange x f =>
    if sh.byte = f then some ({ sh.setByte (f + 1) with reads := i :: sh.reads }, x.ok)
    else some (sh, x.update sh.byte)
  | .cas x =>
    if sh.byte = unlocked then some ({ sh.setByte lockedWrite with writes := i :: sh.writes }, x.ok)
    else some (sh, x.err .write)
  | .enter k =>
    if sh.locked (a, k) then none
    else some (sh.lockList (a, k) true, .goto (.lock (a.attempt (.inList k))))
  | .push k =>
    some ({ sh.setList (a, k) (sh.waiting (a, k) ++ [k.waker t sh.fresh]) with fresh := sh.fresh + 1 },
      .goto (.lock (.leave k sh.fresh)))
  | .leaveOwner k => some (sh.lockList (a, k) false, .hold)
  | .leave k n => some (sh.lockList (a, k) false, .goto (.lock (sleep k n)))
  | .park =>
    if sh.woken (.thread t) then some (sh.setWoken (.thread t) false, .goto (.lock (.enter .sync)))
    else none
  | .await n =>
    some (sh, if sh.woken (.cont n) then .goto (.lock (.enter .async)) else .yield (.await n))

def DropPc.act (sh : Shared T) (i : CallId) (a : Access) : DropPc → Option (Shared T × Next)
  | .release =>
    match a with
    | .read => some ({ sh.setByte (sh.byte - 1) with reads := sh.reads.erase i },
        if sh.byte > 0 then .goto (.drop a.didUnlock) else .finish .assertFailed)
    | .write => some ({ sh.setByte unlocked with writes := sh.writes.erase i },
        if sh.byte = lockedWrite then .goto (.drop a.didUnlock) else .finish .assertFailed)
  | .take q qs =>
    if sh.locked q then none else some (sh.setList q [], DropPc.drain q (sh.waiting q) qs)
  | .wake q w ws qs => some (sh.setWoken w true, DropPc.drain q ws qs)

def Pc.act (sh : Shared T) (i : CallId) (t : ThreadId) (a : Access) : Pc → Option (Shared T × Next)
  | .lock l => l.act sh i t a
  | .drop d => d.act sh i a

def Pc.spurious (sh : Shared T) : Pc → Option Next
  | .lock (.exchange x _) => some (x.update sh.byte)
  | .lock .park => some (.goto (.lock (.enter .sync)))
  | _ => none

namespace State

/-- No call on this lock runs on the thread. -/
def freeThread (s : State T) (t : ThreadId) : Prop := ∀ j < s.used, (s.call j).thread? ≠ some t

instance (s : State T) (t : ThreadId) : Decidable (s.freeThread t) :=
  inferInstanceAs (Decidable (∀ j < s.used, _))

def setCall (s : State T) (i : CallId) (c : Call) : State T :=
  { s with call := Function.update s.call i c }

def step (s : State T) : Event T → Option (State T)
  | .begin t a c =>
    if s.freeThread t then
      some { s.setCall s.used (.running t a (.lock (c.entry a))) with used := s.used + 1 }
    else none
  | .act i =>
    match s.call i with
    | .running t a pc => (pc.act s.sh i t a).map fun x => { s.setCall i (x.2.call t a) with sh := x.1 }
    | _ => none
  | .spurious i =>
    match s.call i with
    | .running t a pc => (pc.spurious s.sh).map fun n => s.setCall i (n.call t a)
    | _ => none
  | .dropGuard i t =>
    match s.call i with
    | .holding a => if s.freeThread t then some (s.setCall i (.running t a (.drop .release))) else none
    | _ => none
  | .poll i t =>
    match s.call i with
    | .suspended a l => if s.freeThread t then some (s.setCall i (.running t a (.lock l))) else none
    | _ => none
  | .cancel i =>
    match s.call i with
    | .suspended _ _ => some (s.setCall i (.done .cancelled))
    | _ => none
  | .write i u =>
    match s.call i with
    | .holding .write => some { s with sh := { s.sh with data := u s.sh.data } }
    | _ => none
  | .unpark t => some { s with sh := s.sh.setWoken (.thread t) true }
  | .parkElsewhere t =>
    if s.freeThread t then some { s with sh := s.sh.setWoken (.thread t) false } else none

end State

/-! ## What a step can do -/

/-- The inversion of `Pc.act` and `Pc.spurious`. -/
inductive Pc.Step (sh : Shared T) (i : CallId) (t : ThreadId) (a : Access) : Pc → Shared T → Next → Prop
  | probe (b : Bool) : Step sh i t a (.lock .probe) sh
    (.goto (.lock (if b then .enter .sync else a.attempt .spin)))
  | load (x) : Step sh i t a (.lock (.load x)) sh (x.update sh.byte)
  | exchanged (x) : Step sh i t a (.lock (.exchange x sh.byte))
    { sh.setByte (sh.byte + 1) with reads := i :: sh.reads } x.ok
  | exchangeLost (x f) : Step sh i t a (.lock (.exchange x f)) sh (x.update sh.byte)
  | casWon (x) : sh.byte = unlocked → Step sh i t a (.lock (.cas x))
    { sh.setByte lockedWrite with writes := i :: sh.writes } x.ok
  | casLost (x) : sh.byte ≠ unlocked → Step sh i t a (.lock (.cas x)) sh (x.err .write)
  | enter (k) : sh.locked (a, k) = false → Step sh i t a (.lock (.enter k)) (sh.lockList (a, k) true)
    (.goto (.lock (a.attempt (.inList k))))
  | push (k) : Step sh i t a (.lock (.push k))
    { sh.setList (a, k) (sh.waiting (a, k) ++ [k.waker t sh.fresh]) with fresh := sh.fresh + 1 }
    (.goto (.lock (.leave k sh.fresh)))
  | leaveOwner (k) : Step sh i t a (.lock (.leaveOwner k)) (sh.lockList (a, k) false) .hold
  | leave (k n) : Step sh i t a (.lock (.leave k n)) (sh.lockList (a, k) false)
    (.goto (.lock (sleep k n)))
  | unparked : sh.woken (.thread t) = true → Step sh i t a (.lock .park)
    (sh.setWoken (.thread t) false) (.goto (.lock (.enter .sync)))
  | spurious : Step sh i t a (.lock .park) sh (.goto (.lock (.enter .sync)))
  | ready (n) : sh.woken (.cont n) = true → Step sh i t a (.lock (.await n)) sh
    (.goto (.lock (.enter .async)))
  | pending (n) : Step sh i t a (.lock (.await n)) sh (.yield (.await n))
  | releaseRead : a = .read → Step sh i t a (.drop .release)
    { sh.setByte (sh.byte - 1) with reads := sh.reads.erase i }
    (if sh.byte > 0 then .goto (.drop a.didUnlock) else .finish .assertFailed)
  | releaseWrite : a = .write → Step sh i t a (.drop .release)
    { sh.setByte unlocked with writes := sh.writes.erase i }
    (if sh.byte = lockedWrite then .goto (.drop a.didUnlock) else .finish .assertFailed)
  | take (q qs) : sh.locked q = false → Step sh i t a (.drop (.take q qs)) (sh.setList q [])
    (DropPc.drain q (sh.waiting q) qs)
  | wake (q w ws qs) : Step sh i t a (.drop (.wake q w ws qs)) (sh.setWoken w true)
    (DropPc.drain q ws qs)

theorem Pc.step_of_act {sh sh' : Shared T} {i : CallId} {t : ThreadId} {a : Access} {pc : Pc} {n : Next}
    (h : pc.act sh i t a = some (sh', n)) : pc.Step sh i t a sh' n := by
  cases pc with
  | lock l =>
    cases l with
    | probe => cases h; exact .probe (sh.atomicsWait t)
    | load x => cases h; exact .load x
    | exchange x f =>
      simp only [act, LockPc.act] at h
      split at h
      · rename_i hf
        cases h
        subst hf
        exact .exchanged x
      · cases h; exact .exchangeLost x f
    | cas x =>
      simp only [act, LockPc.act] at h
      split at h
      · rename_i hf
        cases h; exact .casWon x hf
      · rename_i hf
        cases h; exact .casLost x hf
    | enter k =>
      obtain ⟨hl, h⟩ := Option.ite_none_left_eq_some.mp h
      cases h; exact .enter k (by simpa using hl)
    | push k => cases h; exact .push k
    | leaveOwner k => cases h; exact .leaveOwner k
    | leave k n => cases h; exact .leave k n
    | park =>
      obtain ⟨hw, h⟩ := Option.ite_none_right_eq_some.mp h
      cases h; exact .unparked hw
    | await m =>
      simp only [act, LockPc.act] at h
      split at h
      · rename_i hw
        cases h; exact .ready m hw
      · cases h; exact .pending m
  | drop d =>
    cases d with
    | release =>
      cases a with
      | read => cases h; exact .releaseRead rfl
      | write => cases h; exact .releaseWrite rfl
    | take q qs =>
      obtain ⟨hl, h⟩ := Option.ite_none_left_eq_some.mp h
      cases h; exact .take q qs (by simpa using hl)
    | wake q w ws qs => cases h; exact .wake q w ws qs

theorem Pc.step_of_spurious {sh : Shared T} {i : CallId} {t : ThreadId} {a : Access} {pc : Pc} {n : Next}
    (h : pc.spurious sh = some n) : pc.Step sh i t a sh n := by
  unfold spurious at h
  split at h
  · cases h; exact .exchangeLost _ _
  · cases h; exact .spurious
  · cases h

/-- A change of a call by an event that touches nothing shared. -/
inductive Call.Turn : Call → Call → Prop
  | begin (t a c) : Turn .idle (.running t a (.lock (LockCall.entry a c)))
  | dropGuard (t a) : Turn (.holding a) (.running t a (.drop .release))
  | poll (t a l) : Turn (.suspended a l) (.running t a (.lock l))
  | cancel (a l) : Turn (.suspended a l) (.done .cancelled)

namespace State

/-- The inversion of `step`. -/
inductive Stepped (s : State T) : Event T → State T → Prop
  | acted (e i t a pc sh n) : e = .act i ∨ e = .spurious i → s.call i = .running t a pc →
    pc.Step s.sh i t a sh n → Stepped s e { s.setCall i (n.call t a) with sh := sh }
  | turned (e i c used) : (s.call i).Turn c → (∀ t, c.thread? = some t → s.freeThread t) →
    s.used ≤ used → i < used → (∀ j, e ≠ .act j ∧ e ≠ .spurious j) →
    Stepped s e { s.setCall i c with used := used }
  | wrote (i u) : s.call i = .holding .write →
    Stepped s (.write i u) { s with sh := { s.sh with data := u s.sh.data } }
  | unpark (t) : Stepped s (.unpark t) { s with sh := s.sh.setWoken (.thread t) true }
  | parkElsewhere (t) : s.freeThread t →
    Stepped s (.parkElsewhere t) { s with sh := s.sh.setWoken (.thread t) false }

/-- Calls that have not begun are idle. -/
def Numbered (s : State T) : Prop := ∀ j, s.used ≤ j → s.call j = .idle

theorem Numbered.lt_used {s : State T} (hn : s.Numbered) {i : CallId} (h : s.call i ≠ .idle) :
    i < s.used := by
  by_contra hi
  exact h (hn i (Nat.le_of_not_lt hi))

theorem stepped_of_step {s s' : State T} {e : Event T} (hn : s.Numbered) (h : s.step e = some s') :
    s.Stepped e s' := by
  cases e with
  | begin t a c =>
    obtain ⟨hfree, h⟩ := Option.ite_none_right_eq_some.mp h
    cases h
    refine .turned _ s.used _ (s.used + 1) ?_ ?_ (Nat.le_succ _) (Nat.lt_succ_self _) (by simp)
    · rw [hn s.used (Nat.le_refl _)]; exact .begin t a c
    · rintro t' ⟨⟩; exact hfree
  | act i =>
    simp only [step] at h
    split at h
    case h_2 => cases h
    case h_1 t a pc hc =>
      obtain ⟨⟨sh, n⟩, hx, rfl⟩ := Option.map_eq_some_iff.mp h
      exact .acted _ i t a pc sh n (.inl rfl) hc (Pc.step_of_act hx)
  | spurious i =>
    simp only [step] at h
    split at h
    case h_2 => cases h
    case h_1 t a pc hc =>
      obtain ⟨n, hx, rfl⟩ := Option.map_eq_some_iff.mp h
      exact .acted _ i t a pc s.sh n (.inr rfl) hc (Pc.step_of_spurious hx)
  | dropGuard i t =>
    simp only [step] at h
    split at h
    case h_2 => cases h
    case h_1 a hc =>
      obtain ⟨hfree, h⟩ := Option.ite_none_right_eq_some.mp h
      cases h
      refine .turned _ i _ s.used (hc ▸ .dropGuard t a) ?_ (Nat.le_refl _) (hn.lt_used (by simp [hc])) (by simp)
      rintro t' ⟨⟩; exact hfree
  | poll i t =>
    simp only [step] at h
    split at h
    case h_2 => cases h
    case h_1 a l hc =>
      obtain ⟨hfree, h⟩ := Option.ite_none_right_eq_some.mp h
      cases h
      refine .turned _ i _ s.used (hc ▸ .poll t a l) ?_ (Nat.le_refl _) (hn.lt_used (by simp [hc])) (by simp)
      rintro t' ⟨⟩; exact hfree
  | cancel i =>
    simp only [step] at h
    split at h
    case h_2 => cases h
    case h_1 a l hc =>
      cases h
      exact .turned _ i _ s.used (hc ▸ .cancel a l) (by simp [Call.thread?]) (Nat.le_refl _)
        (hn.lt_used (by simp [hc])) (by simp)
  | write i u =>
    simp only [step] at h
    split at h
    case h_2 => cases h
    case h_1 hc => cases h; exact .wrote i u hc
  | unpark t => cases h; exact .unpark t
  | parkElsewhere t =>
    obtain ⟨hfree, h⟩ := Option.ite_none_right_eq_some.mp h
    cases h; exact .parkElsewhere t hfree

/-- The states that some run of the program reaches. -/
def Reachable (s : State T) : Prop := ∃ x w, Run State.step (init x w) s

end State

end WasmSafeMutex.RwLock
