import WasmSafeMutex.Channel.LastDrop

/-!
# Who parks and who spins

Where `Atomics.wait` does not work a thread must not park, and where it works it need not spin.
The `_sync` methods ask `atomics_wait_supported`. So do all waits, when they take their mutex
again by `lock_sync`.
-/

namespace WasmSafeMutex

open Interleaving

variable {V : Type}

/-! ## Ways to wait -/

def Side.way : Side → Kind
  | .sync => .sync
  | .async => .async

/-- How the code around this place waits, as far as it has been settled. -/
def LockPc.way : LockPc → Option Kind
  | .spin _ | .spinNow _ => some .spin
  | .now k _ | .enter k _ | .tryIn k _ | .push k _ | .leaveOwner k | .leave k _ _ => some k.way
  | .park _ => some .sync
  | .await _ | .spawn _ _ | .raceNotify _ _ _ | .raceTimeout _ _ _ => some .async
  | .tryLock | .probe _ | .lastTry => none

def Pc.way : Pc V → Option Kind
  | .lock l _ => l.way
  | .wait f _ | .unlock _ (.wait f _) => some f.kind
  | _ => none

/-- How the methods of this suffix wait. -/
def Strategy.way : Strategy → Option Kind
  | .spin => some .spin
  | .block => some .sync
  | .sync => none
  | .async => some .async

def Caller.way : Caller V → Option Kind
  | .send _ st _ | .recv (.recv st _) => st.way
  | _ => none

def LockCall.way : LockCall → Option Kind
  | .lockSpin | .lockSpinTimeout _ => some .spin
  | .lockBlock | .lockBlockTimeout _ => some .sync
  | .lockAsync | .lockAsyncTimeout _ => some .async
  | .tryLock | .lockSync | .lockSyncTimeout _ => none

def WaitCall.way : WaitCall → Option Kind
  | .waitSpin | .waitSpinTimeout _ => some .spin
  | .waitBlock | .waitBlockTimeout _ => some .sync
  | .waitAsync | .waitAsyncTimeout _ => some .async
  | .waitSync | .waitSyncTimeout _ => none

def Request.way : Request V → Option Kind
  | .lock _ c => c.way
  | .send _ st _ | .recv (.recv st _) => st.way
  | _ => none

def Kind.parks : Kind → Bool
  | .sync => true
  | _ => false

/-- The thread is in a call of `park`. -/
def Pc.parks : Pc V → Bool
  | .lock (.park _) _ | .wait _ (.park _) | .wait _ (.parkTimeout _ _) => true
  | _ => false

/-- The thread is in the loop of a spinning lock or wait. -/
def Pc.spins : Pc V → Bool
  | .lock (.spin _) _ | .lock (.spinNow _) _ => true
  | .wait _ (.spinLoad _) | .wait _ (.spinNow _ _) | .wait _ (.spinRemove _) | .wait _ (.spinDrain _) => true
  | _ => false

/-! ## One step -/

theorem LockPc.way_loop (k : Side) (d : Option Instant) : (LockPc.loop k d).way = some k.way := by
  cases d <;> rfl

theorem Strategy.way_lock (st : Strategy) (d : Option Instant) : (st.lock d).way = st.way := by
  cases st <;> cases d <;> rfl

theorem LockCall.way_entry (c : LockCall) : c.entry.way = c.way := by
  cases c <;> rfl

theorem WaitCall.way_entry (w : WaitCall) (c : CondvarId) : (w.entry c : Pc V).way = w.way := by
  cases w <;> rfl

theorem Strategy.way_wait (st : Strategy) (d : Option Instant) : (st.wait d).way = st.way := by
  cases st <;> cases d <;> rfl

/-- The code of a lock keeps to its way, and comes to one by asking the platform. -/
theorem LockPc.Step.way {l q : LockPc} {a : Act V} {o : LockOut} (h : l.Step a o)
    (ho : o = .goto q ∨ o = .yield q) {x : Kind} (hx : q.way = some x) :
    l.way = some x ∨ ∃ b, a = .probe b ∧ b = x.parks ∧ x ≠ .async := by
  cases h with
  | probe d b =>
    right
    cases b with
    | true =>
      rcases ho with ho | ho <;> cases ho
      rw [if_pos rfl, LockPc.way_loop] at hx
      cases hx
      exact ⟨true, rfl, rfl, by simp [Side.way]⟩
    | false =>
      rcases ho with ho | ho <;> cases ho
      cases hx
      exact ⟨false, rfl, rfl, by simp⟩
  | tryLock won | lastTry won => cases won <;> rcases ho with ho | ho <;> cases ho
  | spinNow d y =>
    left
    split at ho <;> rcases ho with ho | ho <;> cases ho
    exact hx
  | now k d y =>
    left
    rcases ho with ho | ho <;> cases ho
    split at hx
    · cases hx
    · exact hx
  | tryIn k d won =>
    left
    rcases ho with ho | ho <;> cases ho
    cases won <;> exact hx
  | leave k d n =>
    left
    rcases ho with ho | ho <;> cases ho
    cases k <;> cases d <;> exact hx
  | park d b =>
    left
    rcases ho with ho | ho <;> cases ho
    exact (LockPc.way_loop .sync d).symm.trans hx
  | raceNotify d n m b =>
    left
    rcases ho with ho | ho <;> cases ho
    cases b <;> exact hx
  | _ =>
    left
    rcases ho with ho | ho <;> cases ho <;> exact hx

theorem WaitFrame.way_relock (f : WaitFrame) {x : Kind} (hx : f.relock.way = some x) : f.kind = x := by
  unfold WaitFrame.relock at hx
  split at hx
  · rename_i hk
    cases hx
    exact hk
  · cases hx

theorem Caller.way_onLocked (k : Caller V) (ret : LockRet) {q : Pc V} (hq : (k.onLocked ret).pc? = some q) :
    q.way = none := by
  rcases k.onLocked_pc ret hq with rfl | rfl | rfl <;> rfl

/-- The code comes to a way to wait by its own method, or by asking the platform. -/
theorem Pc.Step.way {k : Caller V} {pc q : Pc V} {a : Act V} {n : Next V} (h : pc.Step k a n)
    (hn : n.pc? = some q) {x : Kind} (hx : q.way = some x) :
    pc.way = some x ∨ k.way = some x ∨ ∃ b, a = .probe b ∧ b = x.parks ∧ x ≠ .async := by
  cases h with
  | lock l ret a o ho =>
    cases o with
    | goto l' =>
      cases hn
      exact (ho.way (.inl rfl) hx).imp_right .inr
    | yield l' =>
      cases hn
      exact (ho.way (.inr rfl) hx).imp_right .inr
    | acquired => rw [k.way_onLocked ret hn] at hx; cases hx
    | failed => cases hn
  | unlock u ret a o ho =>
    cases o with
    | goto u' =>
      cases hn
      cases ret <;> exact .inl hx
    | finished =>
      cases ret with
      | finish => cases hn
      | notify => cases hn; cases hx
      | wait f w => cases hn; exact .inl hx
  | wait f w a o ho =>
    cases o with
    | goto | yield | drop => cases hn; exact .inl hx
    | relock r =>
      cases hn
      exact .inl (congrArg some (f.way_relock hx))
  | notify c y a o ho =>
    cases o with
    | goto => cases hn; cases hx
    | finished => cases hn
  | waitProbe c d b =>
    cases hn
    right; right
    cases b with
    | true => cases hx; exact ⟨true, rfl, rfl, by simp⟩
    | false => cases hx; exact ⟨false, rfl, rfl, by simp⟩
  | sendCheck1 σ st v b hk =>
    subst hk
    cases b with
    | false => cases hn
    | true =>
      cases hn
      exact .inr (.inl ((st.way_lock none).symm.trans hx))
  | sendCheck2 σ st v b hk => cases b <;> cases hn <;> cases hx
  | recvCount rk m hk =>
    subst hk
    cases hn
    unfold RecvKind.onEmpty at hx
    split at hx
    · cases hx
    · cases rk with
      | tryRecv => cases hx
      | recv st d =>
        rw [WaitCall.way_entry, Strategy.way_wait] at hx
        exact .inr (.inl hx)
  | fetchSub σ old hk => split at hn <;> cases hn; cases hx
  | _ => cases hn; cases hx

theorem Request.way_entry (r : Request V) {x : Kind} (h : r.entry.way = some x) : r.way = some x := by
  cases r with
  | lock m c => exact (c.way_entry).symm.trans h
  | recv rk =>
    cases rk with
    | tryRecv => cases h
    | recv st d => exact (st.way_lock d).symm.trans h
  | _ => cases h

namespace State

variable [DecidableEq V] {s s' : State V} {e : Event V} {t : ThreadId} {x : Kind}

end State

end WasmSafeMutex
