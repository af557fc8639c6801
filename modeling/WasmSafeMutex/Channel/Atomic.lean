import Mathlib.Data.List.Basic
import WasmSafeMutex.Lib.Run

/-!
# A channel without threads

The channel as its users think of it: every method happens at once, and says what it returns.
-/

namespace WasmSafeMutex

open Interleaving

variable {V : Type}

structure AtomicChannel (V : Type) where
  queue : List V
  senders : Nat
  receiver : Bool
  deriving DecidableEq

/-- A method with what it returns. -/
inductive ChannelOp (V : Type)
  | send (v : V)
  /-- `Err(SendError(v))`. -/
  | sendError (v : V)
  | recv (v : V)
  | disconnected
  /-- `Err(Empty)` of a `try_recv` that has looked into the queue. -/
  | empty
  /-- `Err(Empty)` of a `try_recv` that has found the lock taken. -/
  | busy
  | timeout
  | clone
  | dropSender
  | dropReceiver
  deriving DecidableEq

namespace AtomicChannel

def new : AtomicChannel V := ⟨[], 1, true⟩

variable [DecidableEq V]

def step (x : AtomicChannel V) : ChannelOp V → Option (AtomicChannel V)
  | .send v => if x.receiver ∧ 0 < x.senders then some { x with queue := x.queue ++ [v] } else none
  | .sendError _ => if x.receiver = false ∧ 0 < x.senders then some x else none
  | .recv v => if x.receiver ∧ x.queue.head? = some v then some { x with queue := x.queue.tail } else none
  | .disconnected => if x.receiver ∧ x.queue = [] ∧ x.senders = 0 then some x else none
  | .empty => if x.receiver ∧ x.queue = [] ∧ 0 < x.senders then some x else none
  | .busy | .timeout => if x.receiver then some x else none
  | .clone => if 0 < x.senders then some { x with senders := x.senders + 1 } else none
  | .dropSender => if 0 < x.senders then some { x with senders := x.senders - 1 } else none
  | .dropReceiver => if x.receiver then some { x with receiver := false } else none

variable {x y : AtomicChannel V} {op : ChannelOp V} {ops : List (ChannelOp V)}

theorem closed_step (hop : x.step op = some y) (hx : x.receiver = false) :
    y.receiver = false ∧ ∀ v, op ≠ .send v := by
  unfold step at hop
  split at hop <;> simp_all
  all_goals obtain ⟨-, rfl⟩ := hop; simp

/-- A channel that has lost its receiver takes no value. -/
theorem closed_run (h : exec step x ops = some y) (hx : x.receiver = false) :
    y.receiver = false ∧ ∀ v, .send v ∉ ops := by
  induction ops generalizing x with
  | nil => cases h; exact ⟨hx, by simp⟩
  | cons op ops ih =>
    obtain ⟨z, hz, hrest⟩ := Option.bind_eq_some_iff.mp h
    obtain ⟨hclosed, hop⟩ := closed_step hz hx
    obtain ⟨hy, hops⟩ := ih hrest hclosed
    exact ⟨hy, fun v hv => (List.mem_cons.mp hv).elim (fun he => hop v he.symm) (hops v)⟩

/-- What only a closed channel says, or what closes it. -/
def closes : ChannelOp V → Bool
  | .sendError _ | .dropReceiver => true
  | _ => false

theorem closes_step (hop : x.step op = some y) (hc : closes op = true) : y.receiver = false := by
  cases op with
  | sendError v =>
    obtain ⟨⟨hx, -⟩, h⟩ := Option.ite_none_right_eq_some.mp hop
    cases h; exact hx
  | dropReceiver =>
    obtain ⟨-, h⟩ := Option.ite_none_right_eq_some.mp hop
    cases h; rfl
  | _ => cases hc

theorem closed_of_mem (h : exec step x ops = some y) (hop : op ∈ ops) (hc : closes op = true) :
    y.receiver = false := by
  induction ops generalizing x with
  | nil => cases hop
  | cons op' ops ih =>
    obtain ⟨z, hz, hrest⟩ := Option.bind_eq_some_iff.mp h
    rcases List.mem_cons.mp hop with rfl | hop
    · exact (closed_run hrest (closes_step hz hc)).1
    · exact ih hrest hop

end AtomicChannel

end WasmSafeMutex
