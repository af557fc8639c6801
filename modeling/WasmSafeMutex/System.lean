import Mathlib.Order.Basic
import Mathlib.Tactic.Common
import WasmSafeMutex.Lib.Run
import WasmSafeMutex.Calls

/-!
# Every interleaving

Any number of calls run on any number of threads, one atomic operation at a time. Besides
mutexes and condition variables that anyone may use there is one channel, whose `Receiver`
stays on one thread at a time.
-/

namespace WasmSafeMutex

variable {V : Type} [DecidableEq V]

/-! ## States -/

inductive Call (V : Type)
  | idle
  | running (t : ThreadId) (k : Caller V) (pc : Pc V)
  /-- A future that returned `Poll::Pending`. -/
  | suspended (k : Caller V) (pc : Pc V)
  /-- The call has returned a guard, which is still alive. A timed wait also returned `r`. -/
  | holding (k : Caller V) (r : Option Bool)
  | done (o : Outcome V)

def Next.call (k : Caller V) (t : ThreadId) : Next V → Call V
  | .goto pc => .running t k pc
  | .yield pc => .suspended k pc
  | .hold r => .holding k r
  | .finish o => .done o

/-- What the call has returned as `Ok` to the user of the receiver. -/
def Next.returned (i : CallId) : Next V → List (CallId × V)
  | .finish (.received v) => [(i, v)]
  | _ => []

namespace Call

/-- The call is under way, as a call of `k`. -/
def caller? : Call V → Option (Caller V)
  | .running _ k _ | .suspended k _ | .holding k _ => some k
  | _ => none

def pc? : Call V → Option (Pc V)
  | .running _ _ pc | .suspended _ pc => some pc
  | _ => none

def thread? : Call V → Option ThreadId
  | .running t _ _ => some t
  | _ => none

def sendsVia (σ : SenderId) (c : Call V) : Bool :=
  match c.caller? with
  | some (.send σ' _ _) => σ' = σ
  | _ => false

def dropsSender (σ : SenderId) (c : Call V) : Bool :=
  match c.caller? with
  | some (.dropSender σ') => σ' = σ
  | _ => false

def receives (c : Call V) : Bool :=
  match c.caller? with
  | some (.recv _) => true
  | _ => false

end Call

structure State (V : Type) where
  sh : Shared V
  call : CallId → Call V
  /-- The calls below this number have begun. -/
  used : Nat
  /-- The next `Sender` number. -/
  nextSender : SenderId
  receiverThread : ThreadId
  /-- The `Receiver` has not been moved into its drop. -/
  receiverAlive : Bool
  /-- History: what the receives have returned as `Ok`. -/
  returned : List (CallId × V)

/-- What the platform fixes: on which threads `Atomics.wait` works, where the receiver
starts, and what time it is. -/
structure Config where
  atomicsWait : ThreadId → Bool
  receiverThread : ThreadId
  clock : Instant

def Config.init (cfg : Config) : State V where
  sh :=
    { mutex := fun _ => .new
      condvar := fun _ => .new
      chan := .new
      woken := fun _ => false
      fresh := 0
      clock := cfg.clock
      timers := []
      atomicsWait := cfg.atomicsWait }
  call := fun _ => .idle
  used := 0
  nextSender := 1
  receiverThread := cfg.receiverThread
  receiverAlive := true
  returned := []

/-! ## Events -/

/-- The methods that begin a call. -/
inductive Request (V : Type)
  | lock (m : Nat) (c : LockCall)
  | notifyOne (c : Nat)
  | notifyAll (c : Nat)
  | send (σ : SenderId) (st : Strategy) (v : V)
  | recv (rk : RecvKind)
  | dropSender (σ : SenderId)
  | dropReceiver

inductive Event (V : Type)
  | begin (t : ThreadId) (r : Request V)
  /-- The guard that call `i` returned is given to a wait method, or dropped. -/
  | wait (i : CallId) (t : ThreadId) (c : Nat) (w : WaitCall)
  | dropGuard (i : CallId) (t : ThreadId)
  | act (i : CallId) (a : Act V)
  /-- A pending future is polled, or dropped. -/
  | poll (i : CallId) (t : ThreadId)
  | cancel (i : CallId)
  /-- Anyone may clone a `Sender`, `unpark` a thread and send the `Receiver` to a thread. -/
  | clone (σ : SenderId)
  | unpark (t : ThreadId)
  | moveReceiver (t : ThreadId)
  | tick
  /-- A timeout thread wakes up and sends. -/
  | fire (d : Instant) (n : Nat)

def Request.caller : Request V → Caller V
  | .lock m _ => .user m
  | .notifyOne _ | .notifyAll _ => .notify
  | .send σ st v => .send σ st v
  | .recv rk => .recv rk
  | .dropSender σ => .dropSender σ
  | .dropReceiver => .dropReceiver

def RecvKind.entry : RecvKind → LockPc
  | .tryRecv => WasmSafeMutex.tryLock
  | .recv st d => st.lock d

def Request.entry : Request V → Pc V
  | .lock _ c => .lock c.entry .first
  | .notifyOne c => .notify (.user c) WasmSafeMutex.notifyOne
  | .notifyAll c => .notify (.user c) WasmSafeMutex.notifyAll
  | .send _ _ _ => .sendCheck1
  | .recv rk => .lock rk.entry .first
  | .dropSender _ => .fetchSub
  | .dropReceiver => .clearActive

namespace State

/-- No call runs on the thread. -/
def freeThread (s : State V) (t : ThreadId) : Prop := ∀ j < s.used, (s.call j).thread? ≠ some t

/-- The `Sender` exists and is not being dropped. -/
def usable (s : State V) (σ : SenderId) : Prop :=
  σ ∈ s.sh.chan.senders ∧ ∀ j < s.used, (s.call j).dropsSender σ = false

def noReceive (s : State V) : Prop := ∀ j < s.used, (s.call j).receives = false

instance (s : State V) (t : ThreadId) : Decidable (s.freeThread t) :=
  inferInstanceAs (Decidable (∀ j < s.used, _))

instance (s : State V) (σ : SenderId) : Decidable (s.usable σ) :=
  inferInstanceAs (Decidable (_ ∧ ∀ j < s.used, _))

instance (s : State V) : Decidable s.noReceive :=
  inferInstanceAs (Decidable (∀ j < s.used, _))

/-- What ownership and borrowing allow: a call borrows its half of the channel until it
returns, and the `Receiver` is not `Sync`. -/
def allows (s : State V) (t : ThreadId) : Request V → Prop
  | .send σ _ _ => s.usable σ
  | .dropSender σ => s.usable σ ∧ ∀ j < s.used, (s.call j).sendsVia σ = false
  | .recv _ => s.receiverAlive = true ∧ t = s.receiverThread
  | .dropReceiver => s.receiverAlive = true ∧ s.noReceive
  | _ => True

instance (s : State V) (t : ThreadId) : (r : Request V) → Decidable (s.allows t r)
  | .send σ _ _ => inferInstanceAs (Decidable (s.usable σ))
  | .dropSender σ => inferInstanceAs (Decidable (s.usable σ ∧ ∀ j < s.used, _))
  | .recv _ => inferInstanceAs (Decidable (_ ∧ _))
  | .dropReceiver => inferInstanceAs (Decidable (_ ∧ s.noReceive))
  | .lock _ _ | .notifyOne _ | .notifyAll _ => inferInstanceAs (Decidable True)

def setCall (s : State V) (i : CallId) (c : Call V) : State V :=
  { s with call := Function.update s.call i c }

def act (s : State V) (i : CallId) (a : Act V) : Option (State V) :=
  match s.call i with
  | .running t k pc =>
    (pc.next k a).bind fun n =>
      (s.sh.apply k.mutex i t a).map fun sh =>
        { s.setCall i (n.call k t) with sh := sh, returned := s.returned ++ n.returned i }
  | _ => none

def step (s : State V) : Event V → Option (State V)
  | .begin t r =>
    if s.freeThread t ∧ s.allows t r then
      some { s.setCall s.used (.running t r.caller r.entry) with
        used := s.used + 1
        receiverAlive := match r with
          | .dropReceiver => false
          | _ => s.receiverAlive }
    else none
  | .wait i t c w =>
    match s.call i with
    | .holding k _ =>
      if s.freeThread t then some (s.setCall i (.running t k (w.entry (.user c)))) else none
    | _ => none
  | .dropGuard i t =>
    match s.call i with
    | .holding k _ =>
      if s.freeThread t then some (s.setCall i (.running t k (unlockAndReturn .released))) else none
    | _ => none
  | .act i a => s.act i a
  | .poll i t =>
    match s.call i with
    | .suspended k pc =>
      if s.freeThread t ∧ ((s.call i).receives = true → t = s.receiverThread) then
        some (s.setCall i (.running t k pc))
      else none
    | _ => none
  | .cancel i =>
    match s.call i with
    | .suspended _ _ => some (s.setCall i (.done .cancelled))
    | _ => none
  | .clone σ =>
    if s.usable σ then
      some { s with
        sh := { s.sh with chan := { s.sh.chan with
          senderCount := s.sh.chan.senderCount + 1
          senders := s.nextSender :: s.sh.chan.senders } }
        nextSender := s.nextSender + 1 }
    else none
  | .unpark t => some { s with sh := s.sh.wake (.thread t) }
  | .moveReceiver t => if s.noReceive then some { s with receiverThread := t } else none
  | .tick => some { s with sh := { s.sh with clock := s.sh.clock + 1 } }
  | .fire d n =>
    if (d, n) ∈ s.sh.timers ∧ d ≤ s.sh.clock then
      some { s with sh := { s.sh.wake (.cont n) with timers := s.sh.timers.erase (d, n) } }
    else none

/-- The states that some run of the program reaches. -/
def Reachable (s : State V) : Prop :=
  ∃ cfg : Config, Interleaving.Run State.step cfg.init s

theorem reachable_of_exec {s : State V} {cfg : Config} {es : List (Event V)}
    (h : Interleaving.exec State.step cfg.init es = some s) : s.Reachable :=
  ⟨cfg, Interleaving.run_of_exec h⟩

/-- For runs on fixed events: `q` is what evaluation says about the state that they reach. -/
theorem exists_of_exec {cfg : Config} {es : List (Event V)} {P : State V → Prop}
    (q : State V → Bool) (h : (Interleaving.exec State.step cfg.init es).any q = true)
    (hP : ∀ s, s.Reachable → q s = true → P s) :
    ∃ s, Interleaving.exec State.step cfg.init es = some s ∧ P s := by
  obtain ⟨s, hs, hq⟩ := (Option.any_eq_true _ _).mp h
  exact ⟨s, hs, hP s (reachable_of_exec hs) hq⟩

/-- The same, where a check says that each of the events meets a condition. -/
theorem exists_of_passes {cfg : Config} {es : List (Event V)} {ok : State V → Event V → Prop}
    {P : State V → Prop} (chk : State V → Event V → Bool)
    (h : Interleaving.passes State.step chk cfg.init es = true)
    (hchk : ∀ s e, s.Reachable → chk s e = true → ok s e)
    (hP : ∀ s, Interleaving.RunWhere State.step ok cfg.init s → P s) :
    ∃ s, Interleaving.exec State.step cfg.init es = some s ∧ P s := by
  have hinit : (cfg.init : State V).Reachable := ⟨cfg, .refl⟩
  obtain ⟨s, hs, hal⟩ := Interleaving.Along.of_passes (I := Reachable)
    (fun s t e ⟨cfg, hr⟩ ht => ⟨cfg, hr.tail trivial ht⟩) hchk hinit h
  exact ⟨s, hs, hP s (Interleaving.RunWhere.refl.extend hal hs)⟩

end State

end WasmSafeMutex
