import Mathlib.Logic.Function.Basic
import Mathlib.Data.List.Basic

/-!
# What the threads share

The atomics and lists of `Mutex`, `Condvar` and the channel, and what one atomic operation
does to them. An operation carries the result it returns, and `apply` refuses a wrong one.
-/

namespace WasmSafeMutex

abbrev ThreadId := Nat
abbrev CallId := Nat
abbrev SenderId := Nat
abbrev Instant := Nat

/-- What can be woken: a parked thread, the receiver of a continuation, a spinning waiter. -/
inductive Waker
  /-- `thread::Thread`, woken by `unpark`. -/
  | thread (t : ThreadId)
  /-- `r#continue::Sender<()>`, woken by `send`. -/
  | cont (n : Nat)
  /-- `Arc<AtomicBool>`, woken by `store(true)`. -/
  | flag (n : Nat)
  deriving DecidableEq, Repr

/-! ## A mutex -/

inductive MutexId
  /-- The mutex in `Shared` of the channel. -/
  | queue
  | user (n : Nat)
  deriving DecidableEq, Repr

/-- The two waiting lists of a mutex: `waiting_sync_threads` and `waiting_async_threads`. -/
inductive Side
  | sync
  | async
  deriving DecidableEq, Repr

structure MutexState where
  dataLock : Bool
  waiting : Side → List Waker
  /-- `locked` of the spinlock around each list. -/
  locked : Side → Bool
  /-- History: who won the bit and has not yet stored `false`. -/
  owners : List CallId

inductive MutexAct
  /-- `compare_exchange(false, true)` of `try_lock`. -/
  | cas (won : Bool)
  /-- `swap(true)` of the spinning locks. It wins when the old value was `false`. -/
  | swap (won : Bool)
  /-- `store(false)` of `Guard::drop`. -/
  | store
  /-- `with_mut` gets the spinlock, or gives it back. -/
  | enter (k : Side)
  | leave (k : Side)
  /-- `with_mut(std::mem::take)`. -/
  | take (k : Side) (ws : List Waker)
  deriving DecidableEq

namespace MutexState

def new : MutexState := ⟨false, fun _ => [], fun _ => false, []⟩

def apply (x : MutexState) (i : CallId) : MutexAct → Option MutexState
  | .cas won | .swap won =>
    if won = !x.dataLock then
      some (if won then { x with dataLock := true, owners := i :: x.owners } else x)
    else none
  | .store => some { x with dataLock := false, owners := x.owners.erase i }
  | .enter k =>
    if x.locked k then none else some { x with locked := Function.update x.locked k true }
  | .leave k => some { x with locked := Function.update x.locked k false }
  | .take k ws =>
    if x.locked k = false ∧ ws = x.waiting k then
      some { x with waiting := Function.update x.waiting k [] }
    else none

def push (x : MutexState) (k : Side) (w : Waker) : MutexState :=
  { x with waiting := Function.update x.waiting k (x.waiting k ++ [w]) }

/-- The inversion of `apply`. -/
inductive Applied (x : MutexState) (i : CallId) : MutexAct → MutexState → Prop
  | casWon : x.dataLock = false →
    Applied x i (.cas true) { x with dataLock := true, owners := i :: x.owners }
  | casLost : x.dataLock = true → Applied x i (.cas false) x
  | swapWon : x.dataLock = false →
    Applied x i (.swap true) { x with dataLock := true, owners := i :: x.owners }
  | swapLost : x.dataLock = true → Applied x i (.swap false) x
  | store : Applied x i .store { x with dataLock := false, owners := x.owners.erase i }
  | enter (k) : x.locked k = false →
    Applied x i (.enter k) { x with locked := Function.update x.locked k true }
  | leave (k) : Applied x i (.leave k) { x with locked := Function.update x.locked k false }
  | take (k) : x.locked k = false → Applied x i (.take k (x.waiting k))
    { x with waiting := Function.update x.waiting k [] }

theorem applied_of_apply {x x' : MutexState} {i : CallId} {a : MutexAct}
    (h : x.apply i a = some x') : x.Applied i a x' := by
  cases a with
  | cas won =>
    obtain ⟨hw, h⟩ := Option.ite_none_right_eq_some.mp h
    cases h
    cases won with
    | true => exact .casWon (by simpa using hw.symm)
    | false => exact .casLost (by simpa using hw.symm)
  | swap won =>
    obtain ⟨hw, h⟩ := Option.ite_none_right_eq_some.mp h
    cases h
    cases won with
    | true => exact .swapWon (by simpa using hw.symm)
    | false => exact .swapLost (by simpa using hw.symm)
  | store => cases h; exact .store
  | enter k =>
    obtain ⟨hk, h⟩ := Option.ite_none_left_eq_some.mp h
    cases h; exact .enter k (by simpa using hk)
  | leave k => cases h; exact .leave k
  | take k ws =>
    obtain ⟨⟨hk, hw⟩, h⟩ := Option.ite_none_right_eq_some.mp h
    cases h; subst hw; exact .take k hk

end MutexState

/-! ## A condition variable -/

inductive CondvarId
  | channel
  | user (n : Nat)
  deriving DecidableEq, Repr

/-- The three lists of a condition variable. -/
inductive Kind
  | spin
  | sync
  | async
  deriving DecidableEq, Repr

/-- One entry of a list. `wait` numbers the wait call that made it: it is the `id` of an
`AsyncWaiter` and stands for the address of the `Arc` of a spinning waiter. For a thread
handle it is history only, and the code never looks at it. -/
structure Entry where
  wait : Nat
  waker : Waker
  deriving DecidableEq, Repr

/-- What a wait call of this kind puts into its list. -/
def Kind.waker (k : Kind) (t : ThreadId) (n : Nat) : Waker :=
  match k with
  | .spin => .flag n
  | .sync => .thread t
  | .async => .cont n

def Kind.entry (k : Kind) (t : ThreadId) (n : Nat) : Entry := ⟨n, k.waker t n⟩

/-- What a lock call puts into a list of the mutex. -/
def Side.waker (k : Side) (t : ThreadId) (n : Nat) : Waker :=
  match k with
  | .sync => .thread t
  | .async => .cont n

structure CondvarState where
  waiting : Kind → List Entry

inductive CondvarAct
  | pop (k : Kind) (e : Option Entry)
  | take (k : Kind) (es : List Entry)
  /-- `iter().any(..)`: is a handle of the current thread in the list? -/
  | has (found : Bool)
  /-- `position(..)` and `remove(pos)` for the own handle, flag or number `n`. -/
  | remove (k : Kind) (n : Nat) (found : Bool)
  deriving DecidableEq

def Entry.isOf (w : Waker) (e : Entry) : Bool := decide (e.waker = w)

namespace CondvarState

def new : CondvarState := ⟨fun _ => []⟩

def set (x : CondvarState) (k : Kind) (es : List Entry) : CondvarState :=
  { x with waiting := Function.update x.waiting k es }

def push (x : CondvarState) (k : Kind) (e : Entry) : CondvarState := x.set k (x.waiting k ++ [e])

def apply (x : CondvarState) (t : ThreadId) : CondvarAct → Option CondvarState
  | .pop k e => if e = (x.waiting k).getLast? then some (x.set k (x.waiting k).dropLast) else none
  | .take k es => if es = x.waiting k then some (x.set k []) else none
  | .has found =>
    if found = (x.waiting .sync).any (Entry.isOf (.thread t)) then some x else none
  | .remove k n found =>
    if found = (x.waiting k).any (Entry.isOf (k.waker t n)) then
      some (x.set k ((x.waiting k).eraseP (Entry.isOf (k.waker t n))))
    else none

theorem set_self (x : CondvarState) (k : Kind) : x.set k (x.waiting k) = x := by
  simp [set]

/-- The inversion of `apply`. -/
inductive Applied (x : CondvarState) (t : ThreadId) : CondvarAct → CondvarState → Prop
  | popNone (k) : x.waiting k = [] → Applied x t (.pop k none) x
  | popSome (k es e) : x.waiting k = es ++ [e] → Applied x t (.pop k (some e)) (x.set k es)
  | take (k) : Applied x t (.take k (x.waiting k)) (x.set k [])
  | has : Applied x t (.has ((x.waiting .sync).any (Entry.isOf (.thread t)))) x
  | removed (k n es e es') : x.waiting k = es ++ e :: es' → e.waker = k.waker t n →
    (∀ y ∈ es, y.waker ≠ k.waker t n) → Applied x t (.remove k n true) (x.set k (es ++ es'))
  | absent (k n) : (∀ e ∈ x.waiting k, e.waker ≠ k.waker t n) → Applied x t (.remove k n false) x

theorem applied_of_apply {x x' : CondvarState} {t : ThreadId} {a : CondvarAct}
    (h : x.apply t a = some x') : x.Applied t a x' := by
  cases a with
  | pop k o =>
    obtain ⟨ho, h⟩ := Option.ite_none_right_eq_some.mp h
    cases h
    rcases List.eq_nil_or_concat (x.waiting k) with hk | ⟨es, e, hk⟩
    · have hset : x.set k (x.waiting k).dropLast = x := by rw [hk, List.dropLast_nil, ← hk, set_self]
      rw [ho, hset, hk]
      exact .popNone k hk
    · rw [ho, hk, List.concat_eq_append, List.getLast?_concat, List.dropLast_concat]
      exact .popSome k es e (by rw [hk, List.concat_eq_append])
  | take k es =>
    obtain ⟨he, h⟩ := Option.ite_none_right_eq_some.mp h
    cases h; subst he; exact .take k
  | has found =>
    obtain ⟨hf, h⟩ := Option.ite_none_right_eq_some.mp h
    cases h; subst hf; exact .has
  | remove k n found =>
    obtain ⟨hf, h⟩ := Option.ite_none_right_eq_some.mp h
    cases h
    cases found with
    | true =>
      obtain ⟨e, he, hw⟩ := List.any_eq_true.mp hf.symm
      obtain ⟨e, es, es', hfirst, hw, hk, herase⟩ := List.exists_of_eraseP he hw
      rw [herase]
      exact .removed k n es e es' hk (by simpa [Entry.isOf] using hw)
        fun y hy => by simpa [Entry.isOf] using hfirst y hy
    | false =>
      have hnone : ∀ e ∈ x.waiting k, ¬ Entry.isOf (k.waker t n) e = true :=
        List.any_eq_false.mp hf.symm
      rw [List.eraseP_of_forall_not hnone, set_self]
      exact .absent k n fun e he hw => hnone e he (by simp [Entry.isOf, hw])

end CondvarState

/-! ## The channel -/

structure Channel (V : Type) where
  queue : List V
  senderCount : Nat
  receiverActive : Bool
  /-- History: the senders created and not yet dropped. -/
  senders : List SenderId
  /-- History: what `push_back` and `pop_front` moved, with the calls that did it. -/
  pushed : List (CallId × V)
  popped : List (CallId × V)

inductive ChannelAct (V : Type)
  | loadActive (b : Bool)
  | clearActive
  | pushBack (v : V)
  | popFront (v : Option V)
  | loadCount (n : Nat)
  /-- `fetch_sub` in the drop of this sender. -/
  | fetchSub (σ : SenderId) (old : Nat)

namespace Channel

variable {V : Type} [DecidableEq V]

def new : Channel V := ⟨[], 1, true, [0], [], []⟩

def apply (x : Channel V) (i : CallId) : ChannelAct V → Option (Channel V)
  | .loadActive b => if b = x.receiverActive then some x else none
  | .clearActive => some { x with receiverActive := false }
  | .pushBack v => some { x with queue := x.queue ++ [v], pushed := x.pushed ++ [(i, v)] }
  | .popFront v =>
    if v = x.queue.head? then
      some { x with queue := x.queue.tail, popped := x.popped ++ v.toList.map fun v => (i, v) }
    else none
  | .loadCount n => if n = x.senderCount then some x else none
  | .fetchSub σ old =>
    if old = x.senderCount then
      some { x with senderCount := x.senderCount - 1, senders := x.senders.erase σ }
    else none

/-- The inversion of `apply`. -/
inductive Applied (x : Channel V) (i : CallId) : ChannelAct V → Channel V → Prop
  | loadActive : Applied x i (.loadActive x.receiverActive) x
  | clearActive : Applied x i .clearActive { x with receiverActive := false }
  | pushBack (v) : Applied x i (.pushBack v)
    { x with queue := x.queue ++ [v], pushed := x.pushed ++ [(i, v)] }
  | popNone : x.queue = [] → Applied x i (.popFront none) x
  | popSome (v vs) : x.queue = v :: vs → Applied x i (.popFront (some v))
    { x with queue := vs, popped := x.popped ++ [(i, v)] }
  | loadCount : Applied x i (.loadCount x.senderCount) x
  | fetchSub (σ) : Applied x i (.fetchSub σ x.senderCount)
    { x with senderCount := x.senderCount - 1, senders := x.senders.erase σ }

theorem applied_of_apply {x x' : Channel V} {i : CallId} {a : ChannelAct V}
    (h : x.apply i a = some x') : x.Applied i a x' := by
  cases a with
  | loadActive b =>
    obtain ⟨hb, h⟩ := Option.ite_none_right_eq_some.mp h
    cases h; subst hb; exact .loadActive
  | clearActive => cases h; exact .clearActive
  | pushBack v => cases h; exact .pushBack v
  | popFront v =>
    obtain ⟨hv, h⟩ := Option.ite_none_right_eq_some.mp h
    cases h
    cases hq : x.queue with
    | nil =>
      have hself : ({ x with queue := [], popped := x.popped ++ [] } : Channel V) = x := by
        rw [← hq, List.append_nil]
      rw [hv, hq]
      exact hself.symm ▸ .popNone hq
    | cons v vs => rw [hv, hq]; exact .popSome v vs hq
  | loadCount n =>
    obtain ⟨hn, h⟩ := Option.ite_none_right_eq_some.mp h
    cases h; subst hn; exact .loadCount
  | fetchSub σ old =>
    obtain ⟨ho, h⟩ := Option.ite_none_right_eq_some.mp h
    cases h; subst ho; exact .fetchSub σ

end Channel

/-! ## All of it -/

structure Shared (V : Type) where
  mutex : MutexId → MutexState
  condvar : CondvarId → CondvarState
  chan : Channel V
  /-- The park token of a thread, whether a continuation has been sent to, a spin flag. -/
  woken : Waker → Bool
  /-- The next unused number of an `Arc`, a continuation or an `AsyncWaiter`. -/
  fresh : Nat
  clock : Instant
  /-- The sleeping timeout threads, with the continuation that each will send to. -/
  timers : List (Instant × Nat)
  /-- `atomics_wait_supported` on each thread. It is `true` everywhere on native targets. -/
  atomicsWait : ThreadId → Bool

/-- One atomic operation, or one list section of a condition variable, with its result. -/
inductive Act (V : Type)
  | mutex (a : MutexAct)
  /-- `push` into a waiting list of the mutex, in a section already entered. -/
  | push (k : Side) (n : Nat)
  | condvar (c : CondvarId) (a : CondvarAct)
  /-- `push` into a list of the condition variable, by the wait call of number `n`. -/
  | register (c : CondvarId) (k : Kind) (n : Nat)
  | chan (a : ChannelAct V)
  /-- `unpark`, `send(())` or `store(true)`. -/
  | wake (w : Waker)
  /-- A return from `park` or `park_timeout`, with the token or (`false`) without it. -/
  | park (token : Bool)
  /-- A load of a spin flag, or the poll of the receiver of a continuation. -/
  | observe (w : Waker) (b : Bool)
  /-- `Instant::now()`. -/
  | now (x : Instant)
  /-- Starts a thread that sleeps until the deadline and then sends. -/
  | spawn (deadline : Instant) (n : Nat)
  | probe (supported : Bool)

namespace Shared

variable {V : Type} [DecidableEq V]

def setMutex (sh : Shared V) (m : MutexId) (x : MutexState) : Shared V :=
  { sh with mutex := Function.update sh.mutex m x }

def setCondvar (sh : Shared V) (c : CondvarId) (x : CondvarState) : Shared V :=
  { sh with condvar := Function.update sh.condvar c x }

def wake (sh : Shared V) (w : Waker) : Shared V :=
  { sh with woken := Function.update sh.woken w true }

/-- What an operation of call `i`, which runs on thread `t` and is about mutex `m`, does. -/
def apply (sh : Shared V) (m : MutexId) (i : CallId) (t : ThreadId) : Act V → Option (Shared V)
  | .mutex a => ((sh.mutex m).apply i a).map (sh.setMutex m)
  | .push k n =>
    if n = sh.fresh then
      some { sh.setMutex m ((sh.mutex m).push k (k.waker t n)) with fresh := sh.fresh + 1 }
    else none
  | .condvar c a => ((sh.condvar c).apply t a).map (sh.setCondvar c)
  | .register c k n =>
    if n = sh.fresh then
      some { sh.setCondvar c ((sh.condvar c).push k (k.entry t n)) with fresh := sh.fresh + 1 }
    else none
  | .chan a => (sh.chan.apply i a).map fun x => { sh with chan := x }
  | .wake w => some (sh.wake w)
  | .park token =>
    if token then
      if sh.woken (.thread t) then
        some { sh with woken := Function.update sh.woken (.thread t) false }
      else none
    else some sh
  | .observe w b => if b = sh.woken w then some sh else none
  | .now x => if x = sh.clock then some sh else none
  | .spawn d n =>
    if n = sh.fresh then
      some { sh with fresh := sh.fresh + 1, timers := (d, n) :: sh.timers }
    else none
  | .probe b => if b = sh.atomicsWait t then some sh else none

omit [DecidableEq V] in
theorem woken_wake {sh : Shared V} {w w' : Waker} (h : sh.woken w' = true) :
    (sh.wake w).woken w' = true := by
  simp only [wake, Function.update_apply]
  split <;> simp [h]

/-- The inversion of `apply`: one case for each kind of operation. -/
inductive Applied (sh : Shared V) (m : MutexId) (i : CallId) (t : ThreadId) : Act V → Shared V → Prop
  | mutex (a x) : (sh.mutex m).Applied i a x → Applied sh m i t (.mutex a) (sh.setMutex m x)
  | push (k) : Applied sh m i t (.push k sh.fresh)
    { sh.setMutex m ((sh.mutex m).push k (k.waker t sh.fresh)) with fresh := sh.fresh + 1 }
  | condvar (c a x) : (sh.condvar c).Applied t a x →
    Applied sh m i t (.condvar c a) (sh.setCondvar c x)
  | register (c k) : Applied sh m i t (.register c k sh.fresh)
    { sh.setCondvar c ((sh.condvar c).push k (k.entry t sh.fresh)) with fresh := sh.fresh + 1 }
  | chan (a x) : sh.chan.Applied i a x → Applied sh m i t (.chan a) { sh with chan := x }
  | wake (w) : Applied sh m i t (.wake w) (sh.wake w)
  | unparked : sh.woken (.thread t) = true → Applied sh m i t (.park true)
    { sh with woken := Function.update sh.woken (.thread t) false }
  | spurious : Applied sh m i t (.park false) sh
  | observe (w) : Applied sh m i t (.observe w (sh.woken w)) sh
  | now : Applied sh m i t (.now sh.clock) sh
  | spawn (d) : Applied sh m i t (.spawn d sh.fresh)
    { sh with fresh := sh.fresh + 1, timers := (d, sh.fresh) :: sh.timers }
  | probe : Applied sh m i t (.probe (sh.atomicsWait t)) sh

theorem applied_of_apply {sh sh' : Shared V} {m : MutexId} {i : CallId} {t : ThreadId} {a : Act V}
    (h : sh.apply m i t a = some sh') : sh.Applied m i t a sh' := by
  cases a with
  | mutex a =>
    obtain ⟨x, hx, rfl⟩ := Option.map_eq_some_iff.mp h
    exact .mutex a x (MutexState.applied_of_apply hx)
  | push k n =>
    obtain ⟨rfl, hx⟩ := Option.ite_none_right_eq_some.mp h
    cases hx; exact .push k
  | condvar c a =>
    obtain ⟨x, hx, rfl⟩ := Option.map_eq_some_iff.mp h
    exact .condvar c a x (CondvarState.applied_of_apply hx)
  | register c k n =>
    obtain ⟨rfl, hx⟩ := Option.ite_none_right_eq_some.mp h
    cases hx; exact .register c k
  | chan a =>
    obtain ⟨x, hx, rfl⟩ := Option.map_eq_some_iff.mp h
    exact .chan a x (Channel.applied_of_apply hx)
  | wake w => cases h; exact .wake w
  | park token =>
    cases token with
    | false => cases h; exact .spurious
    | true =>
      obtain ⟨hw, hx⟩ := Option.ite_none_right_eq_some.mp h
      cases hx; exact .unparked hw
  | observe w b =>
    obtain ⟨rfl, hx⟩ := Option.ite_none_right_eq_some.mp h
    cases hx; exact .observe w
  | now x =>
    obtain ⟨rfl, hx⟩ := Option.ite_none_right_eq_some.mp h
    cases hx; exact .now
  | spawn d n =>
    obtain ⟨rfl, hx⟩ := Option.ite_none_right_eq_some.mp h
    cases hx; exact .spawn d
  | probe b =>
    obtain ⟨rfl, hx⟩ := Option.ite_none_right_eq_some.mp h
    cases hx; exact .probe

end Shared

end WasmSafeMutex
