import WasmSafeMutex.Mutex.Code
import WasmSafeMutex.Condvar.Code

/-!
# Whole calls

A call runs the code of the mutex and of the condition variable on behalf of a method: of a
`Mutex`, of a `Condvar`, or of one half of the channel. `Pc.next` joins the pieces.
-/

namespace WasmSafeMutex

variable {V : Type}

/-! ## Who calls -/

/-- The suffix of a channel method: `_spin`, `_block`, `_sync` or `_async`. -/
inductive Strategy
  | spin
  | block
  | sync
  | async
  deriving DecidableEq, Repr

def Strategy.lock : Strategy → Option Instant → LockPc
  | .spin, none => lockSpin
  | .spin, some d => lockSpinTimeout d
  | .block, none => lockBlock
  | .block, some d => lockBlockTimeout d
  | .sync, none => lockSync
  | .sync, some d => lockSyncTimeout d
  | .async, none => lockAsync
  | .async, some d => lockAsyncTimeout d

/-- `try_recv`, or a `recv_*` with an optional deadline. -/
inductive RecvKind
  | tryRecv
  | recv (st : Strategy) (d : Option Instant)
  deriving DecidableEq

inductive Caller (V : Type)
  /-- Uses a mutex directly: locks it, waits with its guard, drops the guard. -/
  | user (m : Nat)
  | notify
  | send (σ : SenderId) (st : Strategy) (v : V)
  | recv (rk : RecvKind)
  | dropSender (σ : SenderId)
  | dropReceiver
  deriving DecidableEq

/-- The mutex that a call locks and unlocks. -/
def Caller.mutex : Caller V → MutexId
  | .user m => .user m
  | _ => .queue

/-- How a call ends. -/
inductive Outcome (V : Type)
  /-- `None` or `Err(NotAvailable)`. -/
  | failed
  | released
  | notified
  | sent
  | sendError (v : V)
  | received (v : V)
  | empty
  | disconnected
  | timeout
  | dropped
  /-- The future was dropped before it was ready. -/
  | cancelled
  deriving DecidableEq

/-! ## Places in a call -/

inductive LockRet
  | first
  /-- The call re-takes the mutex at the end of a wait, with this `WaitTimeoutResult`. -/
  | relock (r : Option Bool)
  deriving DecidableEq

inductive UnlockRet (V : Type)
  | finish (o : Outcome V)
  | wait (f : WaitFrame) (w : WaitPc)
  | notify
  deriving DecidableEq

inductive Pc (V : Type)
  | lock (l : LockPc) (ret : LockRet)
  | unlock (u : UnlockPc) (ret : UnlockRet V)
  /-- `wait_sync` asks whether this thread can block. -/
  | waitProbe (cv : CondvarId) (d : Option Instant)
  | wait (f : WaitFrame) (w : WaitPc)
  | notify (cv : CondvarId) (n : NotifyPc)
  /-- The `receiver_active` checks of a send, before and after the lock. -/
  | sendCheck1
  | sendCheck2
  | sendPush
  | recvPop
  | recvCount
  | fetchSub
  | clearActive
  deriving DecidableEq

/-- What an operation leads to: more code, a pending future, a guard in the hands of the
user, or the end of the call. -/
inductive Next (V : Type)
  | goto (pc : Pc V)
  | yield (pc : Pc V)
  | hold (r : Option Bool)
  | finish (o : Outcome V)

/-- Where a wait method of `Condvar` begins. -/
def WaitCall.entry (cv : CondvarId) : WaitCall → Pc V
  | .waitSpin => .wait ⟨cv, .spin, none⟩ .register
  | .waitSpinTimeout d => .wait ⟨cv, .spin, some d⟩ .register
  | .waitBlock => .wait ⟨cv, .sync, none⟩ .register
  | .waitBlockTimeout d => .wait ⟨cv, .sync, some d⟩ .register
  | .waitSync => .waitProbe cv none
  | .waitSyncTimeout d => .waitProbe cv (some d)
  | .waitAsync => .wait ⟨cv, .async, none⟩ .register
  | .waitAsyncTimeout d => .wait ⟨cv, .async, some d⟩ .register

/-- The wait method that a receive of this strategy uses. -/
def Strategy.wait : Strategy → Option Instant → WaitCall
  | .spin, none => .waitSpin
  | .spin, some d => .waitSpinTimeout d
  | .block, none => .waitBlock
  | .block, some d => .waitBlockTimeout d
  | .sync, none => .waitSync
  | .sync, some d => .waitSyncTimeout d
  | .async, none => .waitAsync
  | .async, some d => .waitAsyncTimeout d

/-- `lock_sync` at the end of a spinning or blocking wait, `lock_async` at the end of an
async one. -/
def WaitFrame.relock (f : WaitFrame) : LockPc :=
  match f.kind with
  | .async => lockAsync
  | _ => lockSync

/-! ## The glue -/

/-- The guard goes out of scope, and the call returns. -/
def unlockAndReturn (o : Outcome V) : Pc V := .unlock .store (.finish o)

/-- After a lock is acquired. A receive whose wait timed out returns at once. -/
def Caller.onLocked : Caller V → LockRet → Next V
  | .user _, .first => .hold none
  | .user _, .relock r => .hold r
  | .send _ _ _, _ => .goto .sendCheck2
  | .recv _, .relock (some true) => .goto (unlockAndReturn .timeout)
  | .recv _, _ => .goto .recvPop
  | _, _ => .hold none

def Caller.onLockFailed : Caller V → Outcome V
  | .recv .tryRecv => .empty
  | .recv _ => .timeout
  | _ => .failed

def Caller.onNotified : Caller V → Outcome V
  | .send _ _ _ => .sent
  | .notify => .notified
  | _ => .dropped

def UnlockRet.onUnlocked : UnlockRet V → Next V
  | .finish o => .finish o
  | .wait f w => .goto (.wait f w)
  | .notify => .goto (.notify .channel notifyOne)

/-- The queue is empty and `sender_count` is `n`. -/
def RecvKind.onEmpty (rk : RecvKind) (n : Nat) : Pc V :=
  if n = 0 then unlockAndReturn .disconnected
  else match rk with
    | .tryRecv => unlockAndReturn .empty
    | .recv st d => (st.wait d).entry .channel

def LockOut.toNext (k : Caller V) (ret : LockRet) : LockOut → Next V
  | .goto l => .goto (.lock l ret)
  | .yield l => .yield (.lock l ret)
  | .acquired => k.onLocked ret
  | .failed => .finish k.onLockFailed

def UnlockOut.toNext (ret : UnlockRet V) : UnlockOut → Next V
  | .goto u => .goto (.unlock u ret)
  | .finished => ret.onUnlocked

def WaitOut.toNext (f : WaitFrame) : WaitOut → Next V
  | .goto w => .goto (.wait f w)
  | .yield w => .yield (.wait f w)
  | .drop w => .goto (.unlock .store (.wait f w))
  | .relock r => .goto (.lock f.relock (.relock r))

def NotifyOut.toNext (k : Caller V) (cv : CondvarId) : NotifyOut → Next V
  | .goto n => .goto (.notify cv n)
  | .finished => .finish k.onNotified

/-- The operation at a place in the call of `k`, with its result, and what comes next. -/
def Pc.next [DecidableEq V] (k : Caller V) : Pc V → Act V → Option (Next V)
  | .lock l ret, a => (l.next a).map (LockOut.toNext k ret)
  | .unlock u ret, a => (u.next a).map (UnlockOut.toNext ret)
  | .wait f w, a => (w.next f a).map (WaitOut.toNext f)
  | .notify cv n, a => (n.next cv a).map (NotifyOut.toNext k cv)
  | .waitProbe cv d, .probe supported =>
    some (.goto (.wait ⟨cv, if supported then .sync else .spin, d⟩ .register))
  | .sendCheck1, .chan (.loadActive b) =>
    match k with
    | .send _ st v => some (if b then .goto (.lock (st.lock none) .first) else .finish (.sendError v))
    | _ => none
  | .sendCheck2, .chan (.loadActive b) =>
    match k with
    | .send _ _ v => some (.goto (if b then .sendPush else unlockAndReturn (.sendError v)))
    | _ => none
  | .sendPush, .chan (.pushBack v) =>
    match k with
    | .send _ _ v' => if v = v' then some (.goto (.unlock .store .notify)) else none
    | _ => none
  | .recvPop, .chan (.popFront v) =>
    some (.goto (match v with
      | some v => unlockAndReturn (.received v)
      | none => .recvCount))
  | .recvCount, .chan (.loadCount n) =>
    match k with
    | .recv rk => some (.goto (rk.onEmpty n))
    | _ => none
  | .fetchSub, .chan (.fetchSub σ old) =>
    match k with
    | .dropSender σ' =>
      if σ = σ' then
        some (if old = 1 then .goto (.notify .channel notifyAll) else .finish .dropped)
      else none
    | _ => none
  | .clearActive, .chan .clearActive => some (.goto (.notify .channel notifyAll))
  | _, _ => none

def Pc.pending : Pc V → Bool
  | .lock l _ => l.pending
  | .wait _ w => w.pending
  | _ => false

/-- The inversion of `Pc.next`: one case for each kind of place. -/
inductive Pc.Step (k : Caller V) : Pc V → Act V → Next V → Prop
  | lock (l ret a o) : l.Step a o → Step k (.lock l ret) a (o.toNext k ret)
  | unlock (u ret a o) : u.Step a o → Step k (.unlock u ret) a (o.toNext ret)
  | wait (f w a o) : w.Step f a o → Step k (.wait f w) a (o.toNext f)
  | notify (cv x a o) : x.Step cv a o → Step k (.notify cv x) a (o.toNext k cv)
  | waitProbe (cv d b) : Step k (.waitProbe cv d) (.probe b)
    (.goto (.wait ⟨cv, if b then .sync else .spin, d⟩ .register))
  | sendCheck1 (σ st v b) : k = .send σ st v → Step k .sendCheck1 (.chan (.loadActive b))
    (if b then .goto (.lock (st.lock none) .first) else .finish (.sendError v))
  | sendCheck2 (σ st v b) : k = .send σ st v → Step k .sendCheck2 (.chan (.loadActive b))
    (.goto (if b then .sendPush else unlockAndReturn (.sendError v)))
  | sendPush (σ st v) : k = .send σ st v → Step k .sendPush (.chan (.pushBack v))
    (.goto (.unlock .store .notify))
  | popSome (v) : Step k .recvPop (.chan (.popFront (some v))) (.goto (unlockAndReturn (.received v)))
  | popNone : Step k .recvPop (.chan (.popFront none)) (.goto .recvCount)
  | recvCount (rk m) : k = .recv rk →
    Step k .recvCount (.chan (.loadCount m)) (.goto (rk.onEmpty m))
  | fetchSub (σ old) : k = .dropSender σ → Step k .fetchSub (.chan (.fetchSub σ old))
    (if old = 1 then .goto (.notify .channel notifyAll) else .finish .dropped)
  | clearActive : Step k .clearActive (.chan .clearActive) (.goto (.notify .channel notifyAll))

theorem Pc.step_of_next [DecidableEq V] {k : Caller V} {pc : Pc V} {a : Act V} {n : Next V}
    (h : pc.next k a = some n) : pc.Step k a n := by
  unfold Pc.next at h
  split at h
  case h_1 l ret =>
    obtain ⟨o, ho, rfl⟩ := Option.map_eq_some_iff.mp h
    exact .lock l ret _ o (LockPc.step_of_next ho)
  case h_2 u ret =>
    obtain ⟨o, ho, rfl⟩ := Option.map_eq_some_iff.mp h
    exact .unlock u ret _ o (UnlockPc.step_of_next ho)
  case h_3 f w =>
    obtain ⟨o, ho, rfl⟩ := Option.map_eq_some_iff.mp h
    exact .wait f w _ o (WaitPc.step_of_next ho)
  case h_4 cv x =>
    obtain ⟨o, ho, rfl⟩ := Option.map_eq_some_iff.mp h
    exact .notify cv x _ o (NotifyPc.step_of_next ho)
  case h_5 cv d b => cases h; exact .waitProbe cv d b
  case h_6 b =>
    split at h
    case h_1 σ st v => cases h; exact .sendCheck1 σ st v b rfl
    case h_2 => cases h
  case h_7 b =>
    split at h
    case h_1 σ st v => cases h; exact .sendCheck2 σ st v b rfl
    case h_2 => cases h
  case h_8 v =>
    split at h
    case h_1 σ st v' =>
      obtain ⟨rfl, hn⟩ := Option.ite_none_right_eq_some.mp h
      rw [← Option.some.inj hn]
      exact .sendPush σ st v rfl
    case h_2 => cases h
  case h_9 v =>
    cases h
    cases v with
    | some v => exact .popSome v
    | none => exact .popNone
  case h_10 m =>
    split at h
    case h_1 rk => cases h; exact .recvCount rk m rfl
    case h_2 => cases h
  case h_11 σ old =>
    split at h
    case h_1 σ' =>
      obtain ⟨rfl, hn⟩ := Option.ite_none_right_eq_some.mp h
      rw [← Option.some.inj hn]
      exact .fetchSub σ old rfl
    case h_2 => cases h
  case h_12 => cases h; exact .clearActive
  case h_13 => cases h

/-! ## Where a piece of code begins -/

def Next.pc? : Next V → Option (Pc V)
  | .goto pc | .yield pc => some pc
  | _ => none

/-- The places where a lock call begins. -/
def LockPc.begins : LockPc → Bool
  | .tryLock | .spin _ | .probe _ | .now _ _ | .enter _ _ => true
  | _ => false

theorem Strategy.begins_lock (st : Strategy) (d : Option Instant) : (st.lock d).begins = true := by
  cases st <;> cases d <;> rfl

theorem WaitFrame.begins_relock (f : WaitFrame) : f.relock.begins = true := by
  rcases f with ⟨cv, k, d⟩
  cases k <;> rfl

theorem Caller.onLocked_pc (k : Caller V) (ret : LockRet) {pc : Pc V}
    (h : (k.onLocked ret).pc? = some pc) :
    pc = .sendCheck2 ∨ pc = .recvPop ∨ pc = unlockAndReturn .timeout := by
  unfold Caller.onLocked at h
  split at h <;> cases h <;> simp

theorem RecvKind.onEmpty_pc (rk : RecvKind) (n : Nat) :
    (rk.onEmpty n : Pc V) = unlockAndReturn .disconnected ∨
      (rk.onEmpty n : Pc V) = unlockAndReturn .empty ∨
      (∃ d, (rk.onEmpty n : Pc V) = .waitProbe .channel d) ∨
      ∃ f : WaitFrame, f.cv = .channel ∧ (rk.onEmpty n : Pc V) = .wait f .register := by
  unfold RecvKind.onEmpty
  split
  · exact .inl rfl
  · cases rk with
    | tryRecv => exact .inr (.inl rfl)
    | recv st d =>
      refine .inr (.inr ?_)
      cases st with
      | sync => cases d <;> exact .inl ⟨_, rfl⟩
      | _ => cases d <;> exact .inr ⟨_, rfl, rfl⟩

/-- The places where a method begins, or a wait or a drop of a guard it holds. -/
def Pc.begins : Pc V → Bool
  | .lock l _ => l.begins
  | .unlock u _ => u = .store
  | .wait _ w => w = .register
  | .notify _ x => x = notifyOne ∨ x = notifyAll
  | .waitProbe _ _ | .sendCheck1 | .fetchSub | .clearActive => true
  | _ => false

/-- A call comes to a place of the lock code from that code, or where the code begins. -/
theorem Pc.Step.into_lock {k : Caller V} {pc : Pc V} {a : Act V} {n : Next V} (h : pc.Step k a n)
    {l : LockPc} {ret : LockRet} (hn : n.pc? = some (.lock l ret)) :
    (∃ l₀ o, pc = .lock l₀ ret ∧ l₀.Step a o ∧ (o = .goto l ∨ o = .yield l)) ∨ l.begins = true := by
  cases h with
  | lock l₀ ret₀ a o ho =>
    cases o with
    | goto l' => cases hn; exact .inl ⟨l₀, _, rfl, ho, .inl rfl⟩
    | yield l' => cases hn; exact .inl ⟨l₀, _, rfl, ho, .inr rfl⟩
    | acquired =>
      rcases k.onLocked_pc ret₀ hn with h | h | h <;> cases h
    | failed => cases hn
  | unlock u ret a o ho =>
    cases o with
    | goto u' => cases hn
    | finished => cases ret <;> cases hn
  | wait f w a o ho =>
    cases o with
    | relock r => cases hn; exact .inr f.begins_relock
    | goto | yield | drop => cases hn
  | notify cv x a o ho => cases o <;> cases hn
  | sendCheck1 σ st v b hk =>
    cases b with
    | false => cases hn
    | true => cases hn; exact .inr (st.begins_lock none)
  | sendCheck2 σ st v b hk => cases b <;> cases hn
  | recvCount rk m hk =>
    rcases rk.onEmpty_pc (V := V) m with he | he | ⟨d, he⟩ | ⟨f, -, he⟩ <;> rw [he] at hn <;> cases hn
  | fetchSub σ old hk => split at hn <;> cases hn
  | _ => cases hn

/-- The same for the code of `Guard::drop`. -/
theorem Pc.Step.into_unlock {k : Caller V} {pc : Pc V} {a : Act V} {n : Next V} (h : pc.Step k a n)
    {u : UnlockPc} {ret : UnlockRet V} (hn : n.pc? = some (.unlock u ret)) :
    (∃ u₀, pc = .unlock u₀ ret ∧ u₀.Step a (.goto u)) ∨
      (∃ f w w', pc = .wait f w ∧ ret = .wait f w' ∧ u = .store ∧ w.Step f a (.drop w')) ∨
      u = .store ∧ ∀ f w, ret ≠ .wait f w := by
  cases h with
  | lock l ret a o ho =>
    cases o with
    | goto | yield | failed => cases hn
    | acquired =>
      rcases k.onLocked_pc ret hn with h | h | h <;> cases h
      exact .inr (.inr ⟨rfl, by simp⟩)
  | unlock u₀ ret₀ a o ho =>
    cases o with
    | goto u' => cases hn; exact .inl ⟨u₀, rfl, ho⟩
    | finished => cases ret₀ <;> cases hn
  | wait f w a o ho =>
    cases o with
    | drop w' => cases hn; exact .inr (.inl ⟨f, w, w', rfl, rfl, rfl, ho⟩)
    | goto | yield | relock => cases hn
  | notify cv x a o ho => cases o <;> cases hn
  | sendCheck1 σ st v b hk => cases b <;> cases hn
  | sendCheck2 σ st v b hk =>
    cases b with
    | true => cases hn
    | false => cases hn; exact .inr (.inr ⟨rfl, by simp⟩)
  | recvCount rk m hk =>
    rcases rk.onEmpty_pc (V := V) m with he | he | ⟨d, he⟩ | ⟨f, -, he⟩ <;> rw [he] at hn <;> cases hn
    · exact .inr (.inr ⟨rfl, by simp⟩)
    · exact .inr (.inr ⟨rfl, by simp⟩)
  | fetchSub σ old hk => split at hn <;> cases hn
  | sendPush | popSome => cases hn; exact .inr (.inr ⟨rfl, by simp⟩)
  | _ => cases hn

/-- The same for the code of a wait. -/
theorem Pc.Step.into_wait {k : Caller V} {pc : Pc V} {a : Act V} {n : Next V} (h : pc.Step k a n)
    {f : WaitFrame} {w : WaitPc} (hn : n.pc? = some (.wait f w)) :
    (∃ w₀ o, pc = .wait f w₀ ∧ w₀.Step f a o ∧ (o = .goto w ∨ o = .yield w)) ∨
      (∃ u, pc = .unlock u (.wait f w) ∧ u.Step a .finished) ∨
      w = .register := by
  cases h with
  | lock l ret a o ho =>
    cases o with
    | goto | yield | failed => cases hn
    | acquired => rcases k.onLocked_pc ret hn with h | h | h <;> cases h
  | unlock u ret a o ho =>
    cases o with
    | goto u' => cases hn
    | finished =>
      cases ret with
      | wait f' w' => cases hn; exact .inr (.inl ⟨u, rfl, ho⟩)
      | finish | notify => cases hn
  | wait f' w₀ a o ho =>
    cases o with
    | goto w' => cases hn; exact .inl ⟨w₀, _, rfl, ho, .inl rfl⟩
    | yield w' => cases hn; exact .inl ⟨w₀, _, rfl, ho, .inr rfl⟩
    | drop | relock => cases hn
  | notify cv x a o ho => cases o <;> cases hn
  | waitProbe cv d b => cases hn; exact .inr (.inr rfl)
  | sendCheck1 σ st v b hk | sendCheck2 σ st v b hk => cases b <;> cases hn
  | recvCount rk m hk =>
    rcases rk.onEmpty_pc (V := V) m with he | he | ⟨d, he⟩ | ⟨f, -, he⟩ <;> rw [he] at hn <;> cases hn
    exact .inr (.inr rfl)
  | fetchSub σ old hk => split at hn <;> cases hn
  | _ => cases hn

/-- The same for a notification. -/
theorem Pc.Step.into_notify {k : Caller V} {pc : Pc V} {a : Act V} {n : Next V} (h : pc.Step k a n)
    {c : CondvarId} {x : NotifyPc} (hn : n.pc? = some (.notify c x)) :
    (∃ x₀, pc = .notify c x₀ ∧ x₀.Step c a (.goto x)) ∨ c = .channel ∧ (x = notifyOne ∨ x = notifyAll) := by
  cases h with
  | lock l ret a o ho =>
    cases o with
    | goto | yield | failed => cases hn
    | acquired => rcases k.onLocked_pc ret hn with h | h | h <;> cases h
  | unlock u ret a o ho =>
    cases o with
    | goto u' => cases hn
    | finished =>
      cases ret with
      | notify => cases hn; exact .inr ⟨rfl, .inl rfl⟩
      | finish | wait => cases hn
  | wait f' w₀ a o ho => cases o <;> cases hn
  | notify cv x₀ a o ho =>
    cases o with
    | goto x' => cases hn; exact .inl ⟨x₀, rfl, ho⟩
    | finished => cases hn
  | sendCheck1 σ st v b hk | sendCheck2 σ st v b hk => cases b <;> cases hn
  | recvCount rk m hk =>
    rcases rk.onEmpty_pc (V := V) m with he | he | ⟨d, he⟩ | ⟨f, -, he⟩ <;> rw [he] at hn <;> cases hn
  | fetchSub σ old hk =>
    split at hn
    · cases hn; exact .inr ⟨rfl, .inr rfl⟩
    · cases hn
  | clearActive => cases hn; exact .inr ⟨rfl, .inr rfl⟩
  | _ => cases hn

/-- The places of the code of the channel itself. -/
def Pc.own : Pc V → Bool
  | .sendCheck1 | .sendCheck2 | .sendPush | .recvPop | .recvCount | .fetchSub | .clearActive => true
  | _ => false

/-- The same for the code of the channel. -/
theorem Pc.Step.into_own {k : Caller V} {pc q : Pc V} {a : Act V} {n : Next V} (h : pc.Step k a n)
    (hn : n.pc? = some q) (hq : q.own = true) :
    (∃ l ret, pc = .lock l ret ∧ (q = .sendCheck2 ∨ q = .recvPop)) ∨
      q = .sendPush ∧ a = .chan (.loadActive true) ∨ q = .recvCount ∧ a = .chan (.popFront none) := by
  cases h with
  | lock l ret a o ho =>
    cases o with
    | acquired =>
      rcases k.onLocked_pc ret hn with rfl | rfl | rfl
      · exact .inl ⟨l, ret, rfl, .inl rfl⟩
      · exact .inl ⟨l, ret, rfl, .inr rfl⟩
      · cases hq
    | goto | yield => cases hn; cases hq
    | failed => cases hn
  | unlock u ret a o ho =>
    cases o with
    | goto => cases hn; cases hq
    | finished => cases ret <;> cases hn <;> cases hq
  | wait f w a o ho => cases o <;> cases hn <;> cases hq
  | notify c x a o ho =>
    cases o with
    | goto => cases hn; cases hq
    | finished => cases hn
  | sendCheck1 σ st v b hk =>
    cases b <;> cases hn
    cases hq
  | sendCheck2 σ st v b hk =>
    cases b with
    | true => cases hn; exact .inr (.inl ⟨rfl, rfl⟩)
    | false => cases hn; cases hq
  | popNone => cases hn; exact .inr (.inr ⟨rfl, rfl⟩)
  | recvCount rk m hk =>
    rcases rk.onEmpty_pc (V := V) m with he | he | ⟨d, he⟩ | ⟨f, -, he⟩ <;> rw [he] at hn <;> cases hn <;>
      cases hq
  | fetchSub σ old hk => split at hn <;> cases hn; cases hq
  | _ => cases hn; cases hq

theorem Caller.onLocked_ne_yield (k : Caller V) (ret : LockRet) (pc : Pc V) :
    k.onLocked ret ≠ .yield pc := by
  unfold Caller.onLocked
  split <;> simp

theorem Pc.Step.pending {k : Caller V} {pc pc' : Pc V} {a : Act V} (h : pc.Step k a (.yield pc')) :
    pc'.pending = true := by
  generalize hn : Next.yield pc' = n at h
  cases h with
  | lock l ret a o ho =>
    cases o with
    | yield l' => cases hn; exact ho.pending
    | acquired => exact absurd hn.symm (Caller.onLocked_ne_yield k ret pc')
    | goto | failed => cases hn
  | unlock u ret a o ho =>
    cases o with
    | goto => cases hn
    | finished => cases ret <;> cases hn
  | wait f w a o ho =>
    cases o with
    | yield w' => cases hn; exact ho.pending
    | goto | drop | relock => cases hn
  | notify cv x a o ho => cases o <;> cases hn
  | sendCheck1 σ st v b => cases b <;> cases hn
  | fetchSub σ old => split at hn <;> cases hn
  | _ => cases hn

end WasmSafeMutex
