import WasmSafeMutex.Lib.Endless
import WasmSafeMutex.Progress

/-!
# Fair runs

Each operation of a call brings it nearer to its end, unless the call fails at something and
tries again. So where every call that has what it waits for is let go on in the end, the code
without such a loop ends, and a call for which nothing ends it tries again for ever, or waits
for what is not there.
-/

namespace WasmSafeMutex

open Interleaving Filter

variable {V : Type}

/-! ## Trying again -/

/-- A receive that waits when it finds nothing. -/
def Caller.loops : Caller V → Bool
  | .recv (.recv _ _) => true
  | _ => false

/-- The operation sends the call round a loop: it has lost an attempt, has been woken to make
another one, or has found that it must wait. -/
def LockPc.retries : LockPc → Act V → Bool
  | .spin _, .mutex (.swap won) => !won
  | .park _, _ => true
  | .await _, _ => true
  | .raceNotify _ _ _, .observe _ ready => ready
  | .raceTimeout _ _ _, .observe _ ready => !ready
  | _, _ => false

def WaitPc.retries : WaitPc → Act V → Bool
  | .spinLoad _, .observe _ b => !b
  | .spinDrain _, .observe _ b => !b
  | .blockCheck _ _, .condvar _ (.has found) => found
  | .await _, .observe _ b => !b
  | .raceTimeout _ _, .observe _ b => !b
  | _, _ => false

def Pc.retries (k : Caller V) : Pc V → Act V → Bool
  | .lock l _, a => l.retries a
  | .wait _ w, a => w.retries a
  | .recvCount, .chan (.loadCount n) => k.loops && n ≠ 0
  | _, _ => false

/-- Call `i` goes round a loop, or its user gives the guard to a wait. -/
def State.Again (s : State V) (i : CallId) : Event V → Prop
  | .act j a => j = i ∧ ∃ t k pc, s.call i = .running t k pc ∧ pc.retries k a = true
  | .wait j _ _ _ => j = i
  | _ => False

/-! ## Being let go on -/

def Event.Acts (e : Event V) (i : CallId) : Prop := (∃ a, e = .act i a) ∨ ∃ t, e = .poll i t

/-- A running call has what it waits for, or a future would be ready for the next poll and
somebody can poll it. -/
def State.Able [DecidableEq V] (s : State V) (i : CallId) : Prop :=
  match s.call i with
  | .running t k pc => pc.able s.sh k t = true
  | .suspended _ pc => pc.ready s.sh = true ∧ ∃ t, (s.step (.poll i t)).isSome = true
  | _ => False

abbrev FairRun [DecidableEq V] (r : Endless (State.step (V := V))) : Prop := r.Fair State.Able Event.Acts

/-- The places where a running call may wait for ever. -/
def Pc.mayWait : Pc V → Bool
  | .lock (.spin _) _ | .lock (.spinNow _) _ | .lock (.park _) _ => true
  | .wait _ (.spinLoad _) | .wait _ (.spinNow _ _) | .wait _ (.spinDrain _) => true
  | .wait _ (.park _) | .wait _ (.parkTimeout _ _) => true
  | _ => false

/-- The call waits for what is not there, or it is not under way. -/
def State.AtRest [DecidableEq V] (s : State V) (i : CallId) : Prop :=
  ¬ s.Able i ∧ ∀ t k pc, s.call i = .running t k pc → pc.mayWait = true

/-- The places from which a call goes straight to its end. -/
def Pc.once (k : Caller V) : Pc V → Bool
  | .lock .tryLock _ | .recvPop | .recvCount => !k.loops
  | .unlock _ (.finish _) | .unlock _ .notify | .notify _ _ => true
  | .fetchSub | .clearActive | .sendCheck2 | .sendPush => true
  | _ => false

/-- The methods that have no loop in which they wait. -/
def Request.once : Request V → Bool
  | .lock _ .tryLock | .recv .tryRecv => true
  | .notifyOne _ | .notifyAll _ | .dropSender _ | .dropReceiver => true
  | _ => false

/-- The call has ended, or has returned a guard. -/
def Call.returned : Call V → Prop
  | .holding _ _ | .done _ => True
  | _ => False

/-! ## Kinds of places -/

theorem Pc.not_retries_of_inSection {side : Side} {k : Caller V} {pc : Pc V} (h : pc.inSection side = true)
    (a : Act V) : pc.retries k a = false := by
  cases pc with
  | lock l ret => cases l <;> first | rfl | cases h
  | _ => cases h

theorem Pc.not_retries_of_once {k : Caller V} {pc : Pc V} (h : pc.once k = true) (a : Act V) :
    pc.retries k a = false := by
  cases pc with
  | lock l ret => cases l <;> first | rfl | cases h
  | recvCount =>
    have hk : k.loops = false := by simpa [once] using h
    unfold retries
    split <;> simp_all
  | wait => cases h
  | _ => rfl

theorem Pc.not_pending_of_once {k : Caller V} {pc : Pc V} (h : pc.once k = true) : pc.pending = false := by
  cases pc with
  | lock l ret => cases l <;> first | rfl | cases h
  | wait => cases h
  | _ => rfl

theorem Pc.not_mayWait_of_once {k : Caller V} {pc : Pc V} (h : pc.once k = true) : pc.mayWait = false := by
  cases pc with
  | lock l ret => cases l <;> first | rfl | cases h
  | wait => cases h
  | _ => rfl

theorem Request.once_entry (q : Request V) (h : q.once = true) : q.entry.once q.caller = true := by
  cases q with
  | lock m c => cases c <;> first | rfl | cases h
  | recv rk => cases rk <;> first | rfl | cases h
  | send => cases h
  | _ => rfl

theorem Caller.onLocked_once {k : Caller V} {ret : LockRet} (h : k.loops = false) :
    (∀ t, ((k.onLocked ret).call k t).returned) ∨ ∃ pc, k.onLocked ret = .goto pc ∧ pc.once k = true := by
  cases k with
  | user m => cases ret <;> exact .inl fun _ => trivial
  | send σ st v => exact .inr ⟨_, rfl, rfl⟩
  | recv rk =>
    cases ret with
    | first => exact .inr ⟨_, rfl, by simp [Pc.once, h]⟩
    | relock o =>
      unfold Caller.onLocked
      split
      · exact .inl fun _ => trivial
      · exact .inl fun _ => trivial
      · exact .inr ⟨_, rfl, rfl⟩
      · exact .inr ⟨_, rfl, rfl⟩
      · exact .inr ⟨_, rfl, by simp [Pc.once, h]⟩
      · exact .inl fun _ => trivial
  | _ => cases ret <;> exact .inl fun _ => trivial

/-- A call on its way to its end stays on it. -/
theorem Pc.Step.once {k : Caller V} {pc : Pc V} {a : Act V} {n : Next V} (h : pc.Step k a n)
    (hpc : pc.once k = true) :
    (∀ t, (n.call k t).returned) ∨ ∃ pc', n = .goto pc' ∧ pc'.once k = true := by
  cases h with
  | lock l ret a o ho =>
    cases l with
    | tryLock =>
      cases ho with
      | tryLock won =>
        cases won with
        | true => exact Caller.onLocked_once (by simpa [Pc.once] using hpc)
        | false => exact .inl fun _ => trivial
    | _ => cases hpc
  | unlock u ret a o ho =>
    cases o with
    | goto u' => exact .inr ⟨_, rfl, by cases ret <;> first | rfl | cases hpc⟩
    | finished =>
      cases ret with
      | finish o => exact .inl fun _ => trivial
      | notify => exact .inr ⟨_, rfl, rfl⟩
      | wait => cases hpc
  | notify cv x a o ho =>
    cases o with
    | goto x' => exact .inr ⟨_, rfl, rfl⟩
    | finished => exact .inl fun _ => trivial
  | sendCheck2 σ st v b hk => exact .inr ⟨_, rfl, by cases b <;> rfl⟩
  | sendPush | popSome | clearActive => exact .inr ⟨_, rfl, rfl⟩
  | popNone => exact .inr ⟨_, rfl, hpc⟩
  | recvCount rk m hk =>
    subst hk
    refine .inr ⟨_, rfl, ?_⟩
    unfold RecvKind.onEmpty
    split
    · rfl
    · cases rk with
      | tryRecv => rfl
      | recv => cases hpc
  | fetchSub σ old hk =>
    split
    · exact .inr ⟨_, rfl, rfl⟩
    · exact .inl fun _ => trivial
  | waitProbe | wait | sendCheck1 => cases hpc

/-- Where a call cannot wait for ever, the most it needs is that one list is not locked. -/
theorem Pc.able_of_unlocked {pc : Pc V} (h : pc.mayWait = false) : ∃ side, ∀ (sh : Shared V) (k : Caller V) t,
    (sh.mutex k.mutex).locked side = false → pc.able sh k t = true := by
  cases pc with
  | lock l ret =>
    cases l with
    | enter side d => exact ⟨side, fun sh k t hfree => by simp [able, LockPc.able, hfree]⟩
    | spin | spinNow | park => cases h
    | _ => exact ⟨.sync, fun _ _ _ _ => rfl⟩
  | unlock u ret =>
    cases u with
    | take side => exact ⟨side, fun sh k t hfree => by simp [able, hfree]⟩
    | store | wake => exact ⟨.sync, fun _ _ _ _ => rfl⟩
  | wait f w => cases w <;> first | exact ⟨.sync, fun _ _ _ _ => rfl⟩ | cases h
  | _ => exact ⟨.sync, fun _ _ _ _ => rfl⟩

/-! ## How far from the end -/

def LockPc.rank : LockPc → ℕ
  | .probe _ => 12
  | .spinNow _ => 11
  | .now _ _ => 10
  | .enter _ _ => 9
  | .tryIn _ _ => 8
  | .push _ _ => 7
  | .leave _ _ _ => 6
  | .spawn _ _ => 5
  | .raceNotify _ _ _ => 4
  | .raceTimeout _ _ _ => 3
  | _ => 2

def WaitPc.rank : WaitPc → ℕ
  | .register => 21
  | .spawn _ _ => 20
  | .spinNow _ _ | .blockNow _ _ | .raceNotify _ _ => 9
  | .spinRemove _ | .parkTimeout _ _ | .raceTimeout _ _ => 8
  | .spinDrain _ | .blockCheck _ _ | .asyncRemove _ => 7
  | _ => 6

def Kind.ahead : Kind → ℕ
  | .spin => 6
  | .sync => 4
  | .async => 2

def NotifyPc.rank : NotifyPc → ℕ × ℕ
  | .pop k => (k.ahead + 1, 0)
  | .wakeOne _ => (1, 0)
  | .take k => (k.ahead + 1, 0)
  | .wakeAll k _ es => (k.ahead, es.length)

/-- The second number counts the handles that are still to wake. -/
def Pc.rank : Pc V → ℕ × ℕ
  | .notify _ x => x.rank
  | .fetchSub | .clearActive => (10, 0)
  | .unlock u (.finish _) | .unlock u .notify => (10 + u.ahead.1, u.ahead.2)
  | .recvCount | .sendPush => (20, 0)
  | .recvPop | .sendCheck2 => (21, 0)
  | .lock l _ => (30 + l.rank, 0)
  | .wait _ w => (50 + w.rank, 0)
  | .unlock u (.wait _ w) => (51 + w.rank + u.ahead.1, u.ahead.2)
  | .waitProbe _ _ => (80, 0)
  | .sendCheck1 => (80, 0)

/-- To be polled brings a future nearer to its end too. -/
def Call.rank : Call V → ℕ ×ₗ ℕ
  | .idle => toLex (100, 0)
  | .running _ _ pc => toLex pc.rank
  | .suspended _ pc => toLex (pc.rank.1, pc.rank.2 + 1)
  | .holding _ _ => toLex (20, 0)
  | .done _ => toLex (0, 0)

theorem LockPc.rank_le (l : LockPc) : l.rank ≤ 12 := by cases l <;> simp [rank]

/-! ## Every other operation is a step ahead -/

theorem LockPc.Step.falls {l : LockPc} {a : Act V} {o : LockOut} (h : l.Step a o) (hr : l.retries a = false) :
    o = .acquired ∨ o = .failed ∨ ∃ l', o = .goto l' ∧ l'.rank < l.rank := by
  cases h with
  | tryLock won | lastTry won =>
    cases won with
    | true => exact .inl rfl
    | false => exact .inr (.inl rfl)
  | spinWon | leaveOwner => exact .inl rfl
  | spinLost | spinTimed | park | awaitReady | awaitPending | racePending => cases hr
  | spinNow d x =>
    split
    · exact .inr (.inl rfl)
    · exact .inr (.inr ⟨_, rfl, by simp [rank]⟩)
  | probe d b =>
    refine .inr (.inr ⟨_, rfl, ?_⟩)
    cases b <;> cases d <;> simp [rank, loop]
  | now k d x =>
    refine .inr (.inr ⟨_, rfl, ?_⟩)
    split <;> simp [rank]
  | tryIn k d won =>
    refine .inr (.inr ⟨_, rfl, ?_⟩)
    cases won <;> simp [rank]
  | enter k d | push k d n | spawn d n m => exact .inr (.inr ⟨_, rfl, by simp [rank]⟩)
  | leave k d n =>
    refine .inr (.inr ⟨_, rfl, ?_⟩)
    cases k <;> cases d <;> simp [rank, sleep]
  | raceNotify d n m b =>
    cases b with
    | true => cases hr
    | false => exact .inr (.inr ⟨_, rfl, by simp [rank]⟩)
  | raceTimedOut => exact .inr (.inl rfl)

theorem WaitFrame.registered_cases (f : WaitFrame) (n : ℕ) :
    (∃ d, f.registered n = .goto (.spawn n d)) ∨ ∃ w, f.registered n = .drop w ∧ w.rank ≤ 9 := by
  rcases f with ⟨cv, kind, d⟩
  cases kind <;> cases d <;> simp [registered, afterDrop, WaitPc.rank]

theorem WaitPc.Step.falls {f : WaitFrame} {w : WaitPc} {a : Act V} {o : WaitOut} (h : w.Step f a o)
    (hr : w.retries a = false) :
    (∃ r, o = .relock r) ∨ (∃ w', o = .goto w' ∧ w'.rank < w.rank) ∨
      ∃ w', o = .drop w' ∧ w'.rank ≤ 9 ∧ 20 ≤ w.rank := by
  cases h with
  | register n =>
    rcases f.registered_cases n with ⟨d, he⟩ | ⟨w, he, hw⟩
    · exact .inr (.inl ⟨_, he, by simp [rank]⟩)
    · exact .inr (.inr ⟨w, he, hw, by simp [rank]⟩)
  | spawn n d m => exact .inr (.inr ⟨_, rfl, by simp [rank], by simp [rank]⟩)
  | spinLoad n b | spinDrain n b | await n b =>
    cases b with
    | true => exact .inl ⟨_, rfl⟩
    | false => cases hr
  | spinNow n d x | blockNow n d x =>
    refine .inr (.inl ⟨_, rfl, ?_⟩)
    split <;> simp [rank]
  | spinRemove n found =>
    cases found with
    | true => exact .inl ⟨_, rfl⟩
    | false => exact .inr (.inl ⟨_, rfl, by simp [rank]⟩)
  | park | blockRemove | asyncSend => exact .inl ⟨_, rfl⟩
  | parkTimeout n d b => exact .inr (.inl ⟨_, rfl, by simp [rank]⟩)
  | blockCheck n d found =>
    cases found with
    | true => cases hr
    | false => exact .inl ⟨_, rfl⟩
  | raceNotify n m b =>
    cases b with
    | true => exact .inl ⟨_, rfl⟩
    | false => exact .inr (.inl ⟨_, rfl, by simp [rank]⟩)
  | raceTimeout n m b =>
    cases b with
    | true => exact .inr (.inl ⟨_, rfl, by simp [rank]⟩)
    | false => cases hr
  | asyncRemove n found =>
    cases found with
    | true => exact .inr (.inl ⟨_, rfl, by simp [rank]⟩)
    | false => exact .inl ⟨_, rfl⟩

theorem NotifyPc.rank_drain (k : Kind) (es : List Entry) :
    drain k es = .finished ∨ ∃ x, drain k es = .goto x ∧ toLex x.rank < toLex (NotifyPc.take k).rank ∧
      ∀ e, toLex x.rank < toLex (NotifyPc.wakeAll k e es).rank := by
  simp only [Prod.Lex.toLex_lt_toLex]
  cases k <;> cases es with
  | nil => simp [drain, Kind.following, rank, Kind.ahead]
  | cons e es => simp [drain, rank, Kind.ahead]

theorem NotifyPc.Step.falls {c : CondvarId} {x : NotifyPc} {a : Act V} {o : NotifyOut} (h : x.Step c a o) :
    o = .finished ∨ ∃ x', o = .goto x' ∧ toLex x'.rank < toLex x.rank := by
  cases h with
  | popSome k e => exact .inr ⟨_, rfl, by cases k <;> simp [Prod.Lex.toLex_lt_toLex, rank, Kind.ahead]⟩
  | popNone k =>
    cases k with
    | spin | sync => exact .inr ⟨_, rfl, by simp [Prod.Lex.toLex_lt_toLex, rank, Kind.ahead]⟩
    | async => exact .inl rfl
  | wakeOne e => exact .inl rfl
  | take k es =>
    rcases rank_drain k es with h | ⟨x', h, hlt, -⟩
    · exact .inl h
    · exact .inr ⟨x', h, hlt⟩
  | wakeAll k e es =>
    rcases rank_drain k es with h | ⟨x', h, -, hlt⟩
    · exact .inl h
    · exact .inr ⟨x', h, hlt e⟩

theorem lower_stage {p q : ℕ × ℕ} (h : p.1 < q.1) : toLex p < toLex q := Prod.Lex.toLex_lt_toLex.mpr (.inl h)

theorem Caller.onLocked_rank (k : Caller V) (ret : LockRet) (t : ThreadId) {m : ℕ} (hm : 21 < m) :
    ((k.onLocked ret).call k t).rank < toLex (m, 0) := by
  unfold Caller.onLocked
  split
  · exact lower_stage (show 20 < m by omega)
  · exact lower_stage (show 20 < m by omega)
  · exact lower_stage hm
  · exact lower_stage (show 15 < m by omega)
  · exact lower_stage hm
  · exact lower_stage (show 20 < m by omega)

/-- Where a call does not try again, its operation brings it nearer to its end. -/
theorem Pc.Step.falls {k : Caller V} {pc : Pc V} {a : Act V} {n : Next V} (h : pc.Step k a n)
    (hr : pc.retries k a = false) (t : ThreadId) : (n.call k t).rank < (Call.running t k pc).rank := by
  cases h with
  | lock l ret a o ho =>
    have hl : 2 ≤ l.rank := by cases l <;> simp [LockPc.rank]
    rcases ho.falls hr with rfl | rfl | ⟨l', rfl, hlt⟩
    · exact k.onLocked_rank ret t (m := 30 + l.rank) (by omega)
    · exact lower_stage (show 0 < 30 + l.rank by omega)
    · exact lower_stage (show 30 + l'.rank < 30 + l.rank by omega)
  | unlock u ret a o ho =>
    rcases ho.ahead with rfl | ⟨u', rfl, hlt⟩
    · cases ret with
      | finish out => exact lower_stage (show 0 < 10 + u.ahead.1 by omega)
      | notify => exact lower_stage (show 7 < 10 + u.ahead.1 by omega)
      | wait f w => exact lower_stage (show 50 + w.rank < 51 + w.rank + u.ahead.1 by omega)
    · rw [Prod.Lex.toLex_lt_toLex] at hlt
      cases ret <;> exact Prod.Lex.toLex_lt_toLex.mpr
        (hlt.imp (fun h => Nat.add_lt_add_left h _) fun h => ⟨congrArg (_ + ·) h.1, h.2⟩)
  | wait f w a o ho =>
    have hw : 6 ≤ w.rank := by cases w <;> simp [WaitPc.rank]
    rcases ho.falls hr with ⟨r, rfl⟩ | ⟨w', rfl, hlt⟩ | ⟨w', rfl, hle, hge⟩
    · have hl := f.relock.rank_le
      exact lower_stage (show 30 + f.relock.rank < 50 + w.rank by omega)
    · exact lower_stage (show 50 + w'.rank < 50 + w.rank by omega)
    · exact lower_stage (show 51 + w'.rank + 5 < 50 + w.rank by omega)
  | notify cv x a o ho =>
    rcases ho.falls with rfl | ⟨x', rfl, hlt⟩
    · have hx : 0 < x.rank.1 := by
        cases x with
        | wakeOne => exact Nat.one_pos
        | pop kind | take kind => exact Nat.succ_pos _
        | wakeAll kind => cases kind <;> simp [NotifyPc.rank, Kind.ahead]
      exact lower_stage hx
    · exact hlt
  | waitProbe cv d b => exact lower_stage (show 71 < 80 by omega)
  | sendCheck1 σ st v b hk =>
    cases b with
    | true =>
      have hl := (st.lock none).rank_le
      exact lower_stage (show 30 + (st.lock none).rank < 80 by omega)
    | false => exact lower_stage (show 0 < 80 by omega)
  | sendCheck2 σ st v b hk =>
    cases b with
    | true => exact lower_stage (show 20 < 21 by omega)
    | false => exact lower_stage (show 15 < 21 by omega)
  | sendPush σ st v hk => exact lower_stage (show 15 < 20 by omega)
  | popSome v => exact lower_stage (show 15 < 21 by omega)
  | popNone => exact lower_stage (show 20 < 21 by omega)
  | recvCount rk m hk =>
    subst hk
    have hends : (rk.onEmpty m : Pc V).rank = (15, 0) := by
      unfold RecvKind.onEmpty
      split
      · rfl
      · cases rk with
        | tryRecv => rfl
        | recv st d => simp_all [retries, Caller.loops]
    exact lower_stage (by rw [hends]; exact (show 15 < 20 by omega))
  | fetchSub σ old hk =>
    split
    · exact lower_stage (show 7 < 10 by omega)
    · exact lower_stage (show 0 < 10 by omega)
  | clearActive => exact lower_stage (show 7 < 10 by omega)

theorem Request.rank_entry (r : Request V) : r.entry.rank.1 < 100 := by
  cases r with
  | lock m c =>
    have hl := c.entry.rank_le
    exact (show 30 + c.entry.rank < 100 by omega)
  | recv rk =>
    have hl := rk.entry.rank_le
    exact (show 30 + rk.entry.rank < 100 by omega)
  | notifyOne c | notifyAll c => exact (show 7 < 100 by omega)
  | send σ st v => exact (show 80 < 100 by omega)
  | dropSender | dropReceiver => exact (show 10 < 100 by omega)

theorem Call.Turn.falls {i : CallId} {e : Event V} {c c' : Call V} (h : Call.Turn i e c c')
    (hw : ∀ t x w, e ≠ .wait i t x w) : c'.rank < c.rank := by
  cases h with
  | begin t r => exact lower_stage r.rank_entry
  | wait t c w k r => exact absurd rfl (hw t c w)
  | dropGuard t k r => exact lower_stage (show 15 < 20 by omega)
  | poll t k pc => exact Prod.Lex.toLex_lt_toLex.mpr (.inr ⟨rfl, Nat.lt_succ_self _⟩)
  | cancel k pc =>
    refine Prod.Lex.toLex_lt_toLex.mpr ?_
    rcases Nat.eq_zero_or_pos pc.rank.1 with h | h
    · exact .inr ⟨h.symm, Nat.succ_pos _⟩
    · exact .inl h

namespace State

variable {s s' : State V} {e : Event V} {i : CallId}

theorem Acted.falls {t : ThreadId} {k : Caller V} {pc : Pc V} {a : Act V} {n : Next V}
    (h : Acted s s' i t k pc a n) (hagain : ¬ s.Again i (.act i a)) : (s'.call i).rank < (s.call i).rank := by
  rw [h.call_self, h.running]
  refine h.step.falls ?_ t
  by_contra hr
  exact hagain ⟨rfl, t, k, pc, h.running, (Bool.not_eq_false _).mp hr⟩

variable [DecidableEq V]

theorem Sane.falls (hs : s.Sane) (h : s.step e = some s') (hagain : ¬ s.Again i e) :
    s'.call i = s.call i ∨ (s'.call i).rank < (s.call i).rank := by
  rcases call_cases hs.numbered h i with hcall | ⟨a, t, k, pc, n, rfl, ha⟩ | ⟨c, ht⟩
  · exact .inl hcall
  · exact .inr (ha.falls hagain)
  · rw [ht.call_self]
    refine .inr (ht.turn.falls ?_)
    rintro t x w rfl
    exact hagain rfl

theorem acts_falls (h : s.step e = some s') (ha : e.Acts i) (hagain : ¬ s.Again i e) :
    (s'.call i).rank < (s.call i).rank := by
  rcases ha with ⟨a, rfl⟩ | ⟨t, rfl⟩
  · obtain ⟨t, k, pc, n, ha⟩ := act_acted h
    exact ha.falls hagain
  · simp only [step] at h
    split at h
    case h_2 => cases h
    case h_1 k pc hc =>
      obtain ⟨-, h⟩ := Option.ite_none_right_eq_some.mp h
      cases h
      have hturn : Call.Turn i (.poll i t) (.suspended k pc) (.running t k pc) := .poll t k pc
      simp only [hc, setCall, Function.update_self]
      exact hturn.falls fun _ _ _ he => by cases he

/-! ## Sections are left -/

theorem Reachable.keeps_list_locked (hr : s.Reachable) (h : s.step e = some s') {m : MutexId} {side : Side}
    {j : CallId} (hj : (s.call j).holds (Next.isAt (Pc.inSection side)) m = true)
    (hb : (s'.sh.mutex m).locked side = true) : (s'.call j).holds (Next.isAt (Pc.inSection side)) m = true := by
  rcases step_cases hr.sane.numbered h with ⟨i, a, t, k, pc, n, -, ha⟩ | ⟨i, c, ht⟩ | ha
  · by_cases hji : j = i
    · subst hji
      by_cases hm : m = k.mutex
      · subst hm
        rw [ha.holds_old] at hj
        rw [ha.holds_new fun _ => rfl]
        rcases ha.step.inSection side with ⟨-, hn⟩ | ⟨hx, -, -⟩ | ⟨-, -, hn⟩
        · exact hn
        · rcases ha.applied.sections side with ⟨he, -, -⟩ | ⟨-, hb'⟩ | ⟨-, hx', -⟩
          · cases hx.symm.trans he
          · cases hb.symm.trans hb'
          · exact absurd hx hx'
        · exact hn.trans hj
      · rwa [ha.holds_other _ hm]
    · rwa [ha.call_ne hji]
  · rwa [ht.holds hr.sane (fun _ => Pc.not_inSection_of_begins side) fun _ => Pc.not_inSection_of_pending side]
  · rwa [ha.call]

theorem Reachable.running_in_list (hr : s.Reachable) {m : MutexId} {side : Side} {j : CallId}
    (hj : (s.call j).holds (Next.isAt (Pc.inSection side)) m = true) :
    ∃ t k pc, s.call j = .running t k pc ∧ pc.inSection side = true := by
  cases hc : s.call j with
  | running t k pc =>
    rw [hc] at hj
    simp only [Call.holds, Next.isAt, Next.pc?, Option.any_some, Bool.and_eq_true] at hj
    exact ⟨t, k, pc, rfl, hj.2⟩
  | suspended k pc =>
    rw [hc] at hj
    simp only [Call.holds, Next.isAt, Next.pc?, Option.any_some, Bool.and_eq_true] at hj
    cases (Pc.not_inSection_of_pending side (hr.sane.pending j k pc hc)).symm.trans hj.2
  | holding k r => simp [hc, Call.holds, Next.isAt, Next.pc?] at hj
  | idle | done => simp [hc, Call.holds] at hj

/-- A running call at a place that does not try again. -/
theorem not_again (h : s.step e = some s') {t : ThreadId} {k : Caller V} {pc : Pc V}
    (hi : s.call i = .running t k pc) (hpc : ∀ a, pc.retries k a = false) : ¬ s.Again i e := by
  intro hagain
  cases e with
  | act j a =>
    obtain ⟨rfl, t', k', pc', hi', hr⟩ := hagain
    cases hi.symm.trans hi'
    cases (hpc a).symm.trans hr
  | wait j t' c w =>
    obtain rfl : j = i := hagain
    simp only [step, hi] at h
    cases h
  | _ => exact hagain

/-! ## In an endless run -/

variable {r : Endless (State.step (V := V))}

theorem settles (hr : ∀ n, (r.state n).Reachable)
    (hnot : ∀ᶠ n in atTop, ¬ (r.state n).Again i (r.event n)) :
    EventuallyConst (fun n => (r.state n).call i) atTop :=
  eventuallyConst_of_falls (f := Call.rank) (hnot.mono fun n hn => (hr n).sane.falls (r.steps n) hn)

theorem unable (hr : ∀ n, (r.state n).Reachable) (hf : FairRun r)
    (hnot : ∀ᶠ n in atTop, ¬ (r.state n).Again i (r.event n)) : ∀ᶠ n in atTop, ¬ (r.state n).Able i := by
  refine hf.not_ready (v := State.call) (hnot.mono fun n hn hact heq => ?_) (settles hr hnot)
  have hlt := acts_falls (r.steps n) hact hn
  rw [heq] at hlt
  exact lt_irrefl _ hlt

/-- No list stays locked. -/
theorem unlocks (hr : ∀ n, (r.state n).Reachable) (hf : FairRun r) (m : MutexId) (side : Side) :
    ∃ᶠ n in atTop, ((r.state n).sh.mutex m).locked side = false := by
  intro hlocked
  simp only [Bool.not_eq_false] at hlocked
  obtain ⟨N, hN⟩ := eventually_atTop.mp hlocked
  obtain ⟨j, hj⟩ := ((hr N).sectioned m side).exists_of_set (hN N le_rfl)
  have hin : ∀ n ≥ N, ((r.state n).call j).holds (Next.isAt (Pc.inSection side)) m = true := by
    intro n hn
    induction n, hn using Nat.le_induction with
    | base => exact hj
    | succ n hn ih => exact (hr n).keeps_list_locked (r.steps n) ih (hN _ (le_trans hn (Nat.le_succ n)))
  have hnot : ∀ᶠ n in atTop, ¬ (r.state n).Again j (r.event n) := by
    filter_upwards [eventually_ge_atTop N] with n hn
    obtain ⟨t, k, pc, hc, hpc⟩ := (hr n).running_in_list (hin n hn)
    exact not_again (r.steps n) hc (Pc.not_retries_of_inSection hpc)
  obtain ⟨n, hn, hle⟩ := ((unable hr hf hnot).and (eventually_ge_atTop N)).exists
  obtain ⟨t, k, pc, hc, hpc⟩ := (hr n).running_in_list (hin n hle)
  exact hn (by simp only [State.Able, hc]; exact Pc.able_of_inSection hpc k t)

/-- A call that tries again only so often comes to rest. -/
theorem rests_at_last (hr : ∀ n, (r.state n).Reachable) (hf : FairRun r)
    (hnot : ∀ᶠ n in atTop, ¬ (r.state n).Again i (r.event n)) : ∀ᶠ n in atTop, (r.state n).AtRest i := by
  obtain ⟨N, hN⟩ := eventuallyConst_atTop.mp (settles hr hnot)
  have hunable := unable hr hf hnot
  filter_upwards [hunable, eventually_ge_atTop N] with n hn hle
  refine ⟨hn, fun t k pc hc => ?_⟩
  by_contra hpc
  obtain ⟨side, hside⟩ := pc.able_of_unlocked ((Bool.not_eq_true _).mp hpc)
  obtain ⟨l, hfree, hno, hge⟩ :=
    ((unlocks hr hf k.mutex side).and_eventually (hunable.and (eventually_ge_atTop N))).exists
  have hcl : (r.state l).call i = .running t k pc := (hN l hge).trans ((hN n hle).symm.trans hc)
  exact hno (by simp only [State.Able, hcl]; exact hside _ k t hfree)

theorem Reachable.once_step (hr : s.Reachable) (h : s.step e = some s') {t : ThreadId} {k : Caller V} {pc : Pc V}
    (hi : s.call i = .running t k pc) (hpc : pc.once k = true) :
    (s'.call i).returned ∨ ∃ pc', s'.call i = .running t k pc' ∧ pc'.once k = true := by
  rcases hr.sane.goes_on h (by rw [hi]; rfl) (Pc.not_pending_of_once hpc) with hcall | ⟨a, t', k', n, rfl, ha⟩
  · exact .inr ⟨pc, hcall.trans hi, hpc⟩
  · cases hi.symm.trans ha.running
    rw [ha.call_self]
    rcases ha.step.once hpc with hend | ⟨pc', rfl, hpc'⟩
    · exact .inl (hend t)
    · exact .inr ⟨pc', rfl, hpc'⟩

/-- A call on its way to its end gets there. -/
theorem once_returns (hr : ∀ n, (r.state n).Reachable) (hf : FairRun r) {N : ℕ} {t : ThreadId} {k : Caller V}
    {pc : Pc V} (hi : (r.state N).call i = .running t k pc) (hpc : pc.once k = true) :
    ∃ n ≥ N, ((r.state n).call i).returned := by
  by_contra hnever
  have honce : ∀ n ≥ N, ∃ pc', (r.state n).call i = .running t k pc' ∧ pc'.once k = true := by
    intro n hn
    induction n, hn using Nat.le_induction with
    | base => exact ⟨pc, hi, hpc⟩
    | succ n hn ih =>
      obtain ⟨pc', hc, hpc'⟩ := ih
      rcases (hr n).once_step (r.steps n) hc hpc' with hret | hgo
      · exact absurd ⟨n + 1, le_trans hn (Nat.le_succ n), hret⟩ hnever
      · exact hgo
  have hnot : ∀ᶠ n in atTop, ¬ (r.state n).Again i (r.event n) := by
    filter_upwards [eventually_ge_atTop N] with n hn
    obtain ⟨pc', hc, hpc'⟩ := honce n hn
    exact not_again (r.steps n) hc (Pc.not_retries_of_once hpc')
  obtain ⟨n, hrest, hle⟩ := ((rests_at_last hr hf hnot).and (eventually_ge_atTop N)).exists
  obtain ⟨pc', hc, hpc'⟩ := honce n hle
  cases (Pc.not_mayWait_of_once hpc').symm.trans (hrest.2 t k pc' hc)

/-! ## The result -/

structure EndsOrWaits (r : Endless (State.step (V := V))) : Prop where
  /-- Each call goes round a loop for ever, or ends, or waits for what is not there. -/
  rests : ∀ i, (∃ᶠ n in atTop, (r.state n).Again i (r.event n)) ∨
    EventuallyConst (fun n => (r.state n).call i) atTop ∧ ∀ᶠ n in atTop, (r.state n).AtRest i
  unlocks : ∀ m side, ∃ᶠ n in atTop, ((r.state n).sh.mutex m).locked side = false
  once : ∀ n i t k pc, (r.state n).call i = .running t k pc → pc.once k = true →
    ∃ l ≥ n, ((r.state l).call i).returned
  calls : ∀ n t q, r.event n = .begin t q → q.once = true →
    ∃ l > n, ((r.state l).call (r.state n).used).returned
  drops : ∀ n i t, r.event n = .dropGuard i t → ∃ l > n, ((r.state l).call i).returned

/-- In a fair run, no call waits for ever for a list. `Guard::drop`, the notifications, `try_lock`,
`try_recv` and the drops of the halves of the channel return. So does a send that has the mutex. Any
other call returns, or tries again for ever, or waits for ever for what is not there. -/
theorem fair_run_ends (h0 : (r.state 0).Reachable) (hf : FairRun r) : EndsOrWaits r := by
  have hr : ∀ n, (r.state n).Reachable := r.invariant h0 fun _ _ _ hs hstep => hs.step hstep
  refine ⟨fun i => ?_, fun m side => unlocks hr hf m side, fun n i t k pc hi hpc => once_returns hr hf hi hpc,
    fun n t q he hq => ?_, fun n i t he => ?_⟩
  · by_cases hagain : ∃ᶠ n in atTop, (r.state n).Again i (r.event n)
    · exact .inl hagain
    · exact .inr ⟨settles hr (not_frequently.mp hagain), rests_at_last hr hf (not_frequently.mp hagain)⟩
  · have hstep := r.steps n
    rw [he] at hstep
    simp only [step, Option.ite_none_right_eq_some, Option.some.injEq] at hstep
    have hc : (r.state (n + 1)).call (r.state n).used = .running t q.caller q.entry := by
      rw [← hstep.2]
      exact Function.update_self ..
    exact once_returns hr hf hc (q.once_entry hq)
  · have hstep := r.steps n
    rw [he] at hstep
    simp only [step] at hstep
    split at hstep
    case h_2 => cases hstep
    case h_1 k o hc =>
      simp only [Option.ite_none_right_eq_some, Option.some.injEq] at hstep
      have hc : (r.state (n + 1)).call i = .running t k (unlockAndReturn .released) := by
        rw [← hstep.2]
        exact Function.update_self ..
      exact once_returns hr hf hc rfl

/-- A call has the guard, another one is parked, and the future of a third one is pending. -/
def parkedEvents : List (Event Nat) :=
  [.begin 0 (.lock 0 .tryLock), .act 0 (.mutex (.cas true)), .begin 1 (.lock 0 .lockBlock),
    .act 1 (.mutex (.enter .sync)), .act 1 (.mutex (.cas false)), .act 1 (.push .sync 0),
    .act 1 (.mutex (.leave .sync)), .begin 2 (.lock 0 .lockAsync), .act 2 (.mutex (.enter .async)),
    .act 2 (.mutex (.cas false)), .act 2 (.push .async 1), .act 2 (.mutex (.leave .async))]

/-- The future is polled again and again. -/
def parkedEvent (n : ℕ) : Event Nat :=
  parkedEvents[n]?.getD (if n % 2 = 0 then .act 2 (.observe (.cont 1) false) else .poll 2 2)

def parkedStart : State Nat := (⟨fun _ => true, 0, 0⟩ : Config).init

/-- A poll and the look at the notification change nothing, and only the polled call is able. -/
theorem parked_round : ∃ x y : State Nat, follow State.step parkedStart parkedEvent 12 = some x ∧
    follow State.step parkedStart parkedEvent 13 = some y ∧ follow State.step parkedStart parkedEvent 14 = some x ∧
    x.Able 2 ∧ ∀ i ≠ 2, ¬ x.Able i ∧ ¬ y.Able i := by
  have hrun : ∃ x y z : State Nat, follow State.step parkedStart parkedEvent 12 = some x ∧
      follow State.step parkedStart parkedEvent 13 = some y ∧
      follow State.step parkedStart parkedEvent 14 = some z ∧
      y = x.setCall 2 (.suspended (.user 0) (.lock (.await 1) .first)) ∧ z = y.setCall 2 (x.call 2) ∧
      x.Able 2 ∧ x.call 0 = .holding (.user 0) none ∧
      x.call 1 = .running 1 (.user 0) (.lock (.park none) .first) ∧ x.sh.woken (.thread 1) = false ∧
      ∀ i, x.call (i + 3) = .idle :=
    ⟨_, _, _, rfl, rfl, rfl, rfl, rfl, rfl, rfl, rfl, rfl, fun _ => rfl⟩
  obtain ⟨x, y, z, hx, hy, hz, hsuspended, hpolled, hable, h0, h1, hw, hidle⟩ := hrun
  have hback : z = x := by
    rw [hpolled, hsuspended]
    unfold setCall
    rw [Function.update_idem, Function.update_eq_self]
  have hothers : ∀ s : State Nat, s.sh = x.sh → (∀ i ≠ 2, s.call i = x.call i) → ∀ i ≠ 2, ¬ s.Able i := by
    intro s hsh hcall i hi
    unfold Able
    rw [hcall i hi, hsh]
    rcases i with _ | _ | _ | i
    · rw [h0]; exact id
    · rw [h1]; simp [Pc.able, LockPc.able, Shared.expired, hw]
    · exact absurd rfl hi
    · rw [hidle]; exact id
  refine ⟨x, y, hx, hy, hback ▸ hz, hable, fun i hi => ⟨hothers x rfl (fun _ _ => rfl) i hi, ?_⟩⟩
  refine hothers y (by rw [hsuspended]; rfl) (fun j hj => ?_) i hi
  rw [hsuspended]
  exact Function.update_of_ne hj ..

theorem parked_cycles : Cycles State.step parkedStart parkedEvent 12 2 := by
  obtain ⟨x, -, hx, -, hback, -⟩ := parked_round
  refine ⟨Nat.two_pos, fun n hn => ?_, Option.isSome_of_eq_some hx, hback.trans hx.symm⟩
  have hnone : ∀ m ≥ 12, parkedEvents[m]? = none := fun m hm => List.getElem?_eq_none hm
  unfold parkedEvent
  rw [hnone n hn, hnone (n + 2) (Nat.le_add_right_of_le hn), Nat.add_mod_right]

theorem parked_fair : FairRun parked_cycles.endless := by
  obtain ⟨x, y, hx, hy, -, -, hothers⟩ := parked_round
  refine parked_cycles.fair (.inl ⟨_, rfl⟩) fun m hm hlt t ht i hi => ?_
  obtain rfl | rfl : m = 12 ∨ m = 13 := by omega
  · cases hx.symm.trans ht
    exact (hothers i hi).1
  · cases hy.symm.trans ht
    exact (hothers i hi).2

theorem fair_run_ends_parked : FairRun parked_cycles.endless ∧
    (∃ᶠ n in atTop, (parked_cycles.endless.state n).Able 2) ∧ EndsOrWaits parked_cycles.endless := by
  obtain ⟨x, -, hx, -, -, hable, -⟩ := parked_round
  refine ⟨parked_fair, ?_, fair_run_ends ?_ parked_fair⟩
  · exact (parked_cycles.frequently_iff (P := fun s _ => s.Able 2)).mpr ⟨12, le_rfl, by decide, x, hx, hable⟩
  · rw [parked_cycles.endless_state rfl]
    exact ⟨_, .refl⟩

end State

end WasmSafeMutex
