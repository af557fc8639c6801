import WasmSafeMutex.Steps

/-!
# Where a call can be

`Pc` joins the code of many methods. `Fits` says which of its places a call of one caller
can reach, and every reachable state keeps to it.
-/

namespace WasmSafeMutex

variable {V : Type}

/-! ## The pieces -/

/-- The locks without a deadline, which never fail. -/
def LockPc.untimed : LockPc → Bool
  | .spin d | .probe d | .enter _ d | .tryIn _ d | .push _ d | .leave _ d _ | .park d => d.isNone
  | .leaveOwner _ | .await _ => true
  | _ => false

def LockOut.untimed : LockOut → Bool
  | .goto l | .yield l => l.untimed
  | .acquired => true
  | .failed => false

@[simp] theorem LockPc.untimed_loop (k : Side) (d : Option Instant) :
    (LockPc.loop k d).untimed = d.isNone := by
  cases d <;> rfl

theorem LockPc.untimed_sleep {k : Side} {d : Option Instant} {n : Nat} (h : d.isNone = true) :
    (LockPc.sleep k d n).untimed = true := by
  cases d <;> cases k <;> simp_all [LockPc.sleep, LockPc.untimed]

theorem LockPc.Step.untimed {l : LockPc} {a : Act V} {o : LockOut} (h : l.Step a o)
    (hl : l.untimed = true) : o.untimed = true := by
  cases h with
  | spinWon | leaveOwner | awaitReady => rfl
  | leave k d n => exact LockPc.untimed_sleep hl
  | probe d b =>
    cases b with
    | true => exact (LockPc.untimed_loop .sync d).trans hl
    | false => exact hl
  | park d b => exact (LockPc.untimed_loop .sync d).trans hl
  | tryIn k d won => cases won <;> simp_all [LockPc.untimed, LockOut.untimed]
  | _ => simp_all [LockPc.untimed, LockOut.untimed]

/-- The places of a wait call on its way through one frame. -/
def WaitPc.fits (f : WaitFrame) : WaitPc → Bool
  | .register => true
  | .spawn _ d => f.kind = .async ∧ f.deadline = some d
  | .spinLoad _ => f.kind = .spin
  | .spinNow _ d => f.kind = .spin ∧ f.deadline = some d
  | .spinRemove _ | .spinDrain _ => f.kind = .spin ∧ f.deadline.isSome
  | .park _ => f.kind = .sync ∧ f.deadline = none
  | .blockNow _ d | .parkTimeout _ d | .blockCheck _ d => f.kind = .sync ∧ f.deadline = some d
  | .blockRemove _ => f.kind = .sync ∧ f.deadline.isSome
  | .await _ => f.kind = .async ∧ f.deadline = none
  | .raceNotify _ _ | .raceTimeout _ _ | .asyncRemove _ | .asyncSend _ =>
    f.kind = .async ∧ f.deadline.isSome

/-- The call has dropped its guard. -/
def WaitPc.released : WaitPc → Bool
  | .register | .spawn _ _ => false
  | _ => true

/-- Where a call starts to wait, once it has dropped its guard. -/
def WaitPc.starts : WaitPc → Bool
  | .spinLoad _ | .park _ | .blockNow _ _ | .await _ | .raceNotify _ _ => true
  | _ => false

theorem WaitPc.released_of_starts {w : WaitPc} (h : w.starts = true) : w.released = true := by
  cases w <;> first | rfl | cases h

def WaitOut.fits (f : WaitFrame) : WaitOut → Bool
  | .goto w | .yield w => w.fits f
  | .drop w => w.fits f && w.starts
  | .relock r => r ≠ some true ∨ f.deadline.isSome

theorem WaitFrame.registered_fits (f : WaitFrame) (n : Nat) : (f.registered n).fits f = true := by
  rcases f with ⟨cv, k, d⟩
  cases k <;> cases d <;>
    simp [WaitFrame.registered, WaitFrame.afterDrop, WaitOut.fits, WaitPc.fits, WaitPc.starts]

theorem WaitPc.Step.fits {f : WaitFrame} {w : WaitPc} {a : Act V} {o : WaitOut}
    (h : w.Step f a o) (hw : w.fits f = true) : o.fits f = true := by
  cases h with
  | register n => exact f.registered_fits n
  | spinLoad n b =>
    rcases f with ⟨cv, k, d⟩
    cases b with
    | true => cases d <;> simp [WaitFrame.notified, WaitOut.fits]
    | false => cases d <;> simpa [WaitFrame.spinAgain, WaitOut.fits, WaitPc.fits] using hw
  | spinNow n d x | blockNow n d x =>
    split <;> simp_all [WaitPc.fits, WaitOut.fits]
  | spinRemove n b | spinDrain n b | blockCheck n d b | await n b | raceNotify n m b
  | raceTimeout n m b | asyncRemove n b => cases b <;> simp_all [WaitPc.fits, WaitOut.fits]
  | _ => simp_all [WaitPc.fits, WaitOut.fits, WaitPc.starts]

/-- The places of `notify_all`. -/
def NotifyPc.all : NotifyPc → Bool
  | .take _ | .wakeAll _ _ _ => true
  | _ => false

theorem NotifyPc.popNext_all {k : Kind} {x : NotifyPc} (h : popNext k = .goto x) : x.all = false := by
  cases k <;> cases h <;> rfl

theorem NotifyPc.drain_all {k : Kind} {es : List Entry} {x : NotifyPc} (h : drain k es = .goto x) :
    x.all = true := by
  cases es <;> cases k <;> cases h <;> rfl

theorem NotifyPc.Step.all {cv : CondvarId} {x x' : NotifyPc} {a : Act V}
    (h : x.Step cv a (.goto x')) : x'.all = x.all := by
  generalize ho : NotifyOut.goto x' = o at h
  cases h with
  | popSome k e => cases ho; rfl
  | popNone k => exact popNext_all ho.symm
  | wakeOne e => cases ho
  | take k es | wakeAll k e es => exact drain_all ho.symm

/-! ## The callers -/

def Caller.waits : Caller V → Bool
  | .user _ | .recv (.recv _ _) => true
  | _ => false

def Caller.locks : Caller V → Bool
  | .user _ | .recv _ | .send _ _ _ => true
  | _ => false

/-- The locks and waits of the caller may give up. -/
def Caller.timed : Caller V → Bool
  | .user _ | .recv .tryRecv => true
  | .recv (.recv _ d) => d.isSome
  | _ => false

/-- The condition variables that the caller uses. -/
def Caller.uses : Caller V → CondvarId → Bool
  | .user _, .user _ | .notify, .user _ => true
  | .user _, .channel | .notify, .channel => false
  | _, c => c = .channel

/-- Which of `notify_one` and `notify_all` the caller uses. -/
def Caller.notifies : Caller V → NotifyPc → Bool
  | .notify, _ => true
  | .send _ _ _, x => !x.all
  | .dropSender _, x | .dropReceiver, x => x.all
  | _, _ => false

variable [DecidableEq V]

/-- The outcomes that the caller can unlock the mutex with. -/
def Caller.unlocksWith : Caller V → Outcome V → Bool
  | .user _, .released => true
  | .send _ _ v, .sendError v' => v' = v
  | .recv _, .received _ | .recv _, .disconnected | .recv .tryRecv, .empty => true
  | .recv (.recv _ d), .timeout => d.isSome
  | _, _ => false

/-- The outcomes that the caller can end with. -/
def Caller.ends : Caller V → Outcome V → Bool
  | .user _, .failed | .send _ _ _, .sent | .notify, .notified | .dropSender _, .dropped
  | .dropReceiver, .dropped => true
  | k, o => k.unlocksWith o

def Pc.fits (k : Caller V) : Pc V → Bool
  | .lock l .first => k.locks && (l.untimed || k.timed)
  | .lock l (.relock r) => k.waits && (r ≠ some true || k.timed) && l.untimed
  | .unlock _ (.finish o) => k.unlocksWith o
  | .unlock _ (.wait f w) =>
    k.waits && (f.deadline.isNone || k.timed) && k.uses f.cv && w.fits f && w.starts
  | .unlock _ .notify => match k with
    | .send _ _ _ => true
    | _ => false
  | .waitProbe c d => k.waits && (d.isNone || k.timed) && k.uses c
  | .wait f w => k.waits && (f.deadline.isNone || k.timed) && k.uses f.cv && w.fits f
  | .notify c x => k.uses c && k.notifies x
  | .sendCheck1 | .sendCheck2 | .sendPush => match k with
    | .send _ _ _ => true
    | _ => false
  | .recvPop | .recvCount => match k with
    | .recv _ => true
    | _ => false
  | .fetchSub => match k with
    | .dropSender _ => true
    | _ => false
  | .clearActive => match k with
    | .dropReceiver => true
    | _ => false

def Next.fits (k : Caller V) : Next V → Bool
  | .goto pc | .yield pc => pc.fits k
  | .hold _ => match k with
    | .user _ => true
    | _ => false
  | .finish o => k.ends o

def Call.fits (c : Call V) : Bool :=
  match c with
  | .running _ k pc | .suspended k pc => pc.fits k
  | .holding k _ => (Next.hold none).fits k
  | _ => true

theorem Next.fits_call {k : Caller V} {n : Next V} (t : ThreadId) (h : n.fits k = true) :
    (n.call k t).fits = true := by
  cases n with
  | finish o => rfl
  | _ => exact h

theorem Strategy.untimed_lock (st : Strategy) : (st.lock none).untimed = true := by
  cases st <;> rfl

/-- The waits without a deadline. -/
def WaitCall.untimed : WaitCall → Bool
  | .waitSpin | .waitBlock | .waitSync | .waitAsync => true
  | _ => false

theorem Strategy.untimed_wait (st : Strategy) (d : Option Instant) :
    (st.wait d).untimed = true ∨ d.isSome = true := by
  cases st <;> cases d <;> first | exact .inl rfl | exact .inr rfl

theorem WaitFrame.untimed_relock (f : WaitFrame) : f.relock.untimed = true := by
  rcases f with ⟨cv, k, d⟩
  cases k <;> rfl

theorem Caller.onLocked_fits {k : Caller V} {l : LockPc} {ret : LockRet}
    (hp : (Pc.lock l ret : Pc V).fits k = true) : (k.onLocked ret).fits k = true := by
  cases ret with
  | first =>
    simp only [Pc.fits, Bool.and_eq_true] at hp
    cases k with
    | recv | user | send => rfl
    | notify | dropSender | dropReceiver => cases hp.1
  | relock r =>
    simp only [Pc.fits, Bool.and_eq_true, Bool.or_eq_true, decide_eq_true_eq] at hp
    cases k with
    | recv rk =>
      cases rk with
      | tryRecv => cases hp.1.1
      | recv st d =>
        rcases r with _ | _ | _
        · rfl
        · rfl
        · exact hp.1.2.resolve_left (by simp)
    | user | send => rfl
    | notify | dropSender | dropReceiver => cases hp.1.1

theorem Caller.onLockFailed_fits {k : Caller V} {l : LockPc} {ret : LockRet} {a : Act V}
    (hp : (Pc.lock l ret : Pc V).fits k = true) (h : l.Step a .failed) : k.ends k.onLockFailed = true := by
  have hl := h.untimed
  cases ret with
  | first =>
    simp only [Pc.fits, Bool.and_eq_true, Bool.or_eq_true] at hp
    have htimed := hp.2.resolve_left fun hu => by cases hl hu
    cases k with
    | recv rk =>
      cases rk with
      | tryRecv => rfl
      | recv st d => exact htimed
    | user => rfl
    | notify | send | dropSender | dropReceiver => cases htimed
  | relock r =>
    simp only [Pc.fits, Bool.and_eq_true] at hp
    cases hl hp.2

theorem Caller.ends_of_unlocksWith {k : Caller V} {o : Outcome V} (h : k.unlocksWith o = true) :
    k.ends o = true := by
  unfold Caller.ends
  split
  case h_6 => exact h
  all_goals rfl

theorem WaitCall.entry_fits {k : Caller V} {c : CondvarId} {w : WaitCall} (hw : k.waits = true)
    (hu : k.uses c = true) (ht : w.untimed = true ∨ k.timed = true) :
    (w.entry c : Pc V).fits k = true := by
  cases w <;> simp_all [WaitCall.entry, Pc.fits, WaitPc.fits, WaitCall.untimed]

theorem RecvKind.entry_fits (rk : RecvKind) :
    (Pc.lock rk.entry .first : Pc V).fits (.recv rk) = true := by
  cases rk with
  | tryRecv => rfl
  | recv st d =>
    cases d with
    | none => simp [RecvKind.entry, Pc.fits, Caller.locks, Strategy.untimed_lock]
    | some d => simp [Pc.fits, Caller.locks, Caller.timed]

theorem Request.entry_fits (r : Request V) : r.entry.fits r.caller = true := by
  cases r with
  | lock m c => simp [Request.entry, Request.caller, Pc.fits, Caller.locks, Caller.timed]
  | recv rk => exact rk.entry_fits
  | _ => rfl

theorem Pc.Step.fits {k : Caller V} {pc : Pc V} {a : Act V} {n : Next V} (h : pc.Step k a n)
    (hp : pc.fits k = true) : n.fits k = true := by
  cases h with
  | lock l ret a o ho =>
    have hl := ho.untimed
    cases o with
    | acquired => exact Caller.onLocked_fits hp
    | failed => exact Caller.onLockFailed_fits hp ho
    | goto l' | yield l' => cases ret <;> simp_all [Pc.fits, LockOut.toNext, Next.fits, LockOut.untimed]; grind
  | unlock u ret a o ho =>
    cases o with
    | goto u' => cases ret <;> exact hp
    | finished => cases ret with
      | finish o => exact Caller.ends_of_unlocksWith hp
      | wait f w => simp_all [Pc.fits, UnlockOut.toNext, UnlockRet.onUnlocked, Next.fits]
      | notify => cases k <;> first | rfl | cases hp
  | wait f w a o ho =>
    simp only [Pc.fits, Bool.and_eq_true] at hp
    have hw := ho.fits hp.2
    cases o with
    | relock r =>
      simp_all [WaitOut.toNext, Next.fits, Pc.fits, WaitOut.fits, WaitFrame.untimed_relock]
      grind
    | _ => simp_all [WaitOut.toNext, Next.fits, Pc.fits, WaitOut.fits]
  | notify c x a o ho =>
    cases o with
    | finished => cases k <;> first | rfl | simp [Pc.fits, Caller.notifies] at hp
    | goto x' =>
      have hx := ho.all
      revert hp
      cases k <;> simp [Pc.fits, NotifyOut.toNext, Next.fits, Caller.notifies, hx]
  | waitProbe c d b => simp_all [Next.fits, Pc.fits, WaitPc.fits]
  | sendCheck1 σ st v b hk =>
    subst hk
    cases b <;> simp [Next.fits, Pc.fits, Caller.locks, Strategy.untimed_lock, Caller.ends,
      Caller.unlocksWith]
  | sendCheck2 σ st v b hk =>
    subst hk
    cases b <;> simp [Next.fits, Pc.fits, unlockAndReturn, Caller.unlocksWith]
  | sendPush σ st v hk => subst hk; rfl
  | popSome v => cases k <;> first | rfl | cases hp
  | popNone => exact hp
  | recvCount rk m hk =>
    subst hk
    unfold RecvKind.onEmpty
    split
    · rfl
    · cases rk with
      | tryRecv => rfl
      | recv st d => exact WaitCall.entry_fits rfl rfl (st.untimed_wait d)
  | fetchSub σ old hk => subst hk; split <;> rfl
  | clearActive => cases k <;> first | rfl | cases hp

theorem Call.Turn.fits {e : Event V} {i : CallId} {c c' : Call V} (h : Call.Turn i e c c')
    (hc : c.fits = true) : c'.fits = true := by
  cases h with
  | begin t r => exact r.entry_fits
  | wait t c w k r => cases k <;> first | exact WaitCall.entry_fits rfl rfl (.inr rfl) | cases hc
  | dropGuard t k r => cases k <;> first | rfl | cases hc
  | poll t k pc => exact hc
  | cancel k pc => rfl

/-! ## Reachable states -/

namespace State

variable {s s' : State V} {e : Event V}

theorem Reachable.fits (h : s.Reachable) (i : CallId) : (s.call i).fits = true := by
  revert i
  refine h.induction (P := fun s => ∀ i, (s.call i).fits = true) ?_ ?_ ?_ ?_
  · intro cfg i; rfl
  · intro s s' i t k pc a n _ hs ha j
    by_cases hj : j = i
    · subst hj
      rw [ha.call_self]
      have hf := hs j
      rw [ha.running] at hf
      exact Next.fits_call t (ha.step.fits hf)
    · rw [ha.call_ne hj]; exact hs j
  · intro s s' e i c _ hs ht j
    by_cases hj : j = i
    · subst hj
      rw [ht.call_self]
      exact ht.turn.fits (hs j)
    · rw [ht.call_ne hj]; exact hs j
  · intro s s' e _ hs ha j
    rw [ha.call]; exact hs j

/-- Where a call waits, its frame says how. -/
theorem Reachable.wait_fits (h : s.Reachable) {i : CallId} {f : WaitFrame} {w : WaitPc}
    (hpc : (s.call i).pc? = some (.wait f w)) : w.fits f = true := by
  have hf := h.fits i
  revert hpc hf
  cases s.call i with
  | running t k pc | suspended k pc =>
    rintro ⟨⟩ hf
    simp only [Call.fits, Pc.fits, Bool.and_eq_true] at hf
    exact hf.2
  | _ => rintro ⟨⟩

end State

end WasmSafeMutex
