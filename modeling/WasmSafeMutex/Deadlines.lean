import WasmSafeMutex.Entries
import WasmSafeMutex.Mutex.TimedLock

/-!
# No timeout is early

A timed lock gives up, and a timed wait or receive reports a timeout, in one of three ways: after
a look at the clock, at its last try after such a look, or when its timeout thread has sent.
Whatever it then does to get the mutex again, the deadline has passed by the time it returns.
-/

namespace WasmSafeMutex

open Interleaving

variable {V : Type}

/-! ## Deadlines -/

def LockCall.deadline : LockCall → Option Instant
  | .lockSpinTimeout d | .lockBlockTimeout d | .lockSyncTimeout d | .lockAsyncTimeout d => some d
  | .tryLock | .lockSpin | .lockBlock | .lockSync | .lockAsync => none

def WaitCall.deadline : WaitCall → Option Instant
  | .waitSpinTimeout d | .waitBlockTimeout d | .waitSyncTimeout d | .waitAsyncTimeout d => some d
  | .waitSpin | .waitBlock | .waitSync | .waitAsync => none

theorem Strategy.deadline_wait (st : Strategy) (d : Option Instant) : (st.wait d).deadline = d := by
  cases st <;> cases d <;> rfl

namespace Shared

/-- There is a deadline, and it has passed. -/
def Past (sh : Shared V) (o : Option Instant) : Prop := ∃ d, o = some d ∧ d ≤ sh.clock

/-- The timeout thread that sends to `m` sleeps until the deadline, or the deadline has passed. -/
def Due (sh : Shared V) (o : Option Instant) (m : Nat) : Prop :=
  ∃ d, o = some d ∧ ((d, m) ∈ sh.timers ∨ d ≤ sh.clock)

/-- What was past or due is so still. -/
structure Later (sh sh' : Shared V) : Prop where
  clock : sh.clock ≤ sh'.clock
  timers : ∀ x ∈ sh.timers, x ∈ sh'.timers ∨ x.1 ≤ sh'.clock

variable {sh sh' : Shared V} {o : Option Instant} {m : Nat}

theorem Past.later (h : sh.Past o) (hl : sh.Later sh') : sh'.Past o := by
  obtain ⟨d, ho, hd⟩ := h
  exact ⟨d, ho, Nat.le_trans hd hl.clock⟩

theorem Due.later (h : sh.Due o m) (hl : sh.Later sh') : sh'.Due o m := by
  obtain ⟨d, ho, hd⟩ := h
  refine ⟨d, ho, ?_⟩
  rcases hd with hd | hd
  · exact hl.timers (d, m) hd
  · exact .inr (Nat.le_trans hd hl.clock)

theorem Later.refl (sh : Shared V) : sh.Later sh := ⟨Nat.le_refl _, fun _ hx => .inl hx⟩

theorem Applied.later {k : MutexId} {i : CallId} {t : ThreadId} {a : Act V}
    (h : sh.Applied k i t a sh') : sh.Later sh' := by
  cases h with
  | spawn d => exact ⟨Nat.le_refl _, fun x hx => .inl (List.mem_cons_of_mem _ hx)⟩
  | _ => exact ⟨Nat.le_refl _, fun x hx => .inl hx⟩

end Shared

/-! ## Places on time -/

/-- A place of a call with deadline `o` has this deadline, or none. -/
def Within (o d : Option Instant) : Prop := ∀ x, d = some x → o = some x

theorem within_none (o : Option Instant) : Within o none := by
  rintro x ⟨⟩

theorem within_some {o : Option Instant} {d : Instant} (h : o = some d) : Within o (some d) := by
  rintro x ⟨⟩
  exact h

theorem within_self (o : Option Instant) : Within o o := fun _ h => h

/-- The place may have been reached by a call with this deadline, and where the call has given up
or is about to, the deadline has passed. -/
def LockPc.OnTime (sh : Shared V) (o : Option Instant) : LockPc → Prop
  | .tryLock => False
  | .spin d | .probe d | .enter _ d | .tryIn _ d | .push _ d | .leave _ d _ | .park d => Within o d
  | .spinNow d | .now _ d | .spawn d _ => o = some d
  | .lastTry => sh.Past o
  | .raceNotify d _ m | .raceTimeout d _ m => o = some d ∧ sh.Due o m
  | .leaveOwner _ | .await _ => True

def WaitPc.OnTime (sh : Shared V) (o : Option Instant) : WaitPc → Prop
  | .spawn _ d | .spinNow _ d | .blockNow _ d | .parkTimeout _ d | .blockCheck _ d => o = some d
  | .raceNotify _ m | .raceTimeout _ m => sh.Due o m
  | .spinRemove _ | .blockRemove _ | .asyncRemove _ | .asyncSend _ => sh.Past o
  | .register | .spinLoad _ | .spinDrain _ | .park _ | .await _ => True

def WaitFrame.OnTime (sh : Shared V) (o : Option Instant) (f : WaitFrame) (w : WaitPc) : Prop :=
  Within o f.deadline ∧ w.OnTime sh o

def Outcome.isTimeout : Outcome V → Bool
  | .failed | .timeout => true
  | _ => false

def Pc.OnTime (sh : Shared V) (o : Option Instant) : Pc V → Prop
  | .lock l ret => l.OnTime sh o ∧ (ret = .relock (some true) → sh.Past o)
  | .wait f w | .unlock _ (.wait f w) => f.OnTime sh o w
  | .unlock _ (.finish x) => x.isTimeout = true → sh.Past o
  | .waitProbe _ d => Within o d
  | _ => True

def Next.OnTime (sh : Shared V) (o : Option Instant) : Next V → Prop
  | .goto pc | .yield pc => pc.OnTime sh o
  | .hold r => r = some true → sh.Past o
  | .finish x => x.isTimeout = true → sh.Past o

/-- A receive waits with the deadline it was given. -/
def Caller.OnTime (o : Option Instant) : Caller V → Prop
  | .recv rk => ∃ st, rk = .recv st o
  | _ => True

def Call.OnTime (sh : Shared V) (o : Option Instant) : Call V → Prop
  | .running _ k pc | .suspended k pc => k.OnTime o ∧ pc.OnTime sh o
  | .holding k r => k.OnTime o ∧ (r = some true → sh.Past o)
  | .done x => x.isTimeout = true → sh.Past o
  | .idle => False

section

variable {sh sh' : Shared V} {o : Option Instant}

theorem LockPc.OnTime.later {l : LockPc} (h : l.OnTime sh o) (hl : sh.Later sh') : l.OnTime sh' o := by
  cases l with
  | lastTry => exact Shared.Past.later h hl
  | raceNotify | raceTimeout => exact ⟨h.1, h.2.later hl⟩
  | _ => exact h

theorem WaitPc.OnTime.later {w : WaitPc} (h : w.OnTime sh o) (hl : sh.Later sh') : w.OnTime sh' o := by
  cases w with
  | raceNotify | raceTimeout => exact Shared.Due.later h hl
  | spinRemove | blockRemove | asyncRemove | asyncSend => exact Shared.Past.later h hl
  | _ => exact h

theorem Pc.OnTime.later {pc : Pc V} (h : pc.OnTime sh o) (hl : sh.Later sh') : pc.OnTime sh' o := by
  cases pc with
  | lock l ret => exact ⟨h.1.later hl, fun hr => (h.2 hr).later hl⟩
  | wait f w => exact ⟨h.1, h.2.later hl⟩
  | unlock u ret =>
    cases ret with
    | wait f w => exact ⟨h.1, h.2.later hl⟩
    | finish x => exact fun hx => (h hx).later hl
    | notify => trivial
  | _ => exact h

theorem Call.OnTime.later {c : Call V} (h : c.OnTime sh o) (hl : sh.Later sh') : c.OnTime sh' o := by
  cases c with
  | running t k pc => exact ⟨h.1, h.2.later hl⟩
  | suspended k pc => exact ⟨h.1, h.2.later hl⟩
  | holding k r => exact ⟨h.1, fun hr => (h.2 hr).later hl⟩
  | done x => exact fun hx => (h hx).later hl
  | idle => exact h

end

/-! ## One step -/

/-- Where a timeout thread has sent, the deadline has passed: it sends after its sleep. -/
def Shared.Punctual (sh : Shared V) : Prop := ∀ d m, sh.woken (.cont m) = true → (d, m) ∉ sh.timers

theorem Shared.Due.past {sh : Shared V} {o : Option Instant} {m : Nat} (h : sh.Due o m) (hp : sh.Punctual)
    (hw : sh.woken (.cont m) = true) : sh.Past o := by
  obtain ⟨d, ho, hd⟩ := h
  exact ⟨d, ho, hd.resolve_left (hp d m hw)⟩

def LockOut.OnTime (sh : Shared V) (o : Option Instant) : LockOut → Prop
  | .goto l | .yield l => l.OnTime sh o
  | .acquired => True
  | .failed => sh.Past o

def WaitOut.OnTime (sh : Shared V) (o : Option Instant) (f : WaitFrame) : WaitOut → Prop
  | .goto w | .yield w | .drop w => f.OnTime sh o w
  | .relock r => r = some true → sh.Past o

section

variable {sh sh' : Shared V} {o : Option Instant} {m : MutexId} {i : CallId} {t : ThreadId} {a : Act V}

theorem Shared.Applied.clock_now {x : Instant} (h : sh.Applied m i t (.now x) sh') : x = sh.clock := by
  generalize ha : Act.now x = a at h
  cases h with
  | now => exact Act.now.inj ha
  | _ => cases ha

theorem Shared.Applied.due_spawn {d : Instant} {n : Nat} (h : sh.Applied m i t (.spawn d n) sh') :
    sh'.Due (some d) n := by
  generalize ha : Act.spawn d n = a at h
  cases h with
  | spawn d' =>
    obtain ⟨rfl, rfl⟩ := Act.spawn.inj ha
    exact ⟨d, rfl, .inl List.mem_cons_self⟩
  | _ => cases ha

theorem LockPc.onTime_loop (k : Side) {d : Option Instant} (h : Within o d) : (LockPc.loop k d).OnTime sh o := by
  cases d with
  | none => exact within_none o
  | some d => exact h d rfl

theorem LockPc.onTime_sleep (k : Side) {d : Option Instant} (n : Nat) (h : Within o d) :
    (LockPc.sleep k d n).OnTime sh o := by
  cases k with
  | sync => exact h
  | async =>
    cases d with
    | none => trivial
    | some d => exact h d rfl

theorem LockPc.Step.onTime {l : LockPc} {out : LockOut} (h : l.Step a out) (ha : sh.Applied m i t a sh')
    (hp : sh.Punctual) (hl : l.OnTime sh o) : out.OnTime sh' o := by
  have hlater := hl.later ha.later
  cases h with
  | tryLock won => cases hl
  | spinWon | leaveOwner => trivial
  | spinLost | enter | push | awaitPending | racePending => exact hlater
  | spinTimed d => exact hlater d rfl
  | spinNow d x =>
    obtain rfl := ha.clock_now
    split
    case isTrue hx => exact Shared.Past.later ⟨d, hl, hx⟩ ha.later
    case isFalse => exact within_some hl
  | probe d b =>
    cases b with
    | true => exact LockPc.onTime_loop .sync hl
    | false => exact hl
  | now k d x =>
    obtain rfl := ha.clock_now
    split
    case isTrue hx => exact Shared.Past.later ⟨d, hl, hx⟩ ha.later
    case isFalse => exact within_some hl
  | lastTry won =>
    cases won with
    | true => trivial
    | false => exact hlater
  | tryIn k d won =>
    cases won with
    | true => trivial
    | false => exact hl
  | leave k d n => exact LockPc.onTime_sleep k n hl
  | park d b => exact LockPc.onTime_loop .sync hl
  | awaitReady n => exact within_none o
  | spawn d n x =>
    obtain rfl : o = some d := hl
    exact ⟨rfl, ha.due_spawn⟩
  | raceNotify d n x b =>
    cases b with
    | true => exact hl.1
    | false => exact hlater
  | raceTimedOut d n x => exact (hl.2.past hp ha.observed.symm).later ha.later

theorem WaitFrame.onTime_registered {f : WaitFrame} (n : Nat) (h : Within o f.deadline) :
    (f.registered n).OnTime sh o f := by
  rcases f with ⟨cv, k, d⟩
  cases k <;> cases d <;> first | exact ⟨h, trivial⟩ | exact ⟨h, h _ rfl⟩

theorem WaitPc.Step.onTime {f : WaitFrame} {w : WaitPc} {out : WaitOut} (h : w.Step f a out)
    (ha : sh.Applied m i t a sh') (hp : sh.Punctual) (hw : f.OnTime sh o w) : out.OnTime sh' o f := by
  obtain ⟨hf, hw⟩ := hw
  have hlater := hw.later ha.later
  cases h with
  | register n => exact WaitFrame.onTime_registered n hf
  | spawn n d x =>
    obtain rfl : o = some d := hw
    exact ⟨hf, ha.due_spawn⟩
  | spinLoad n b =>
    cases b with
    | true =>
      intro hr
      unfold WaitFrame.notified at hr
      cases hd : f.deadline <;> simp [hd] at hr
    | false =>
      refine ⟨hf, ?_⟩
      unfold WaitFrame.spinAgain
      split
      · trivial
      · rename_i d hd
        exact hf d hd
  | spinNow n d x =>
    obtain rfl := ha.clock_now
    refine ⟨hf, ?_⟩
    split
    case isTrue hx => exact Shared.Past.later ⟨d, hw, hx⟩ ha.later
    case isFalse => trivial
  | spinRemove n found =>
    cases found with
    | true => exact fun _ => hlater
    | false => exact ⟨hf, trivial⟩
  | spinDrain n b =>
    cases b with
    | true => simp [WaitOut.OnTime]
    | false => exact ⟨hf, trivial⟩
  | park n b => simp [WaitOut.OnTime]
  | blockNow n d x =>
    obtain rfl := ha.clock_now
    refine ⟨hf, ?_⟩
    split
    case isTrue hx => exact Shared.Past.later ⟨d, hw, hx⟩ ha.later
    case isFalse => exact hw
  | parkTimeout n d b => exact ⟨hf, hw⟩
  | blockRemove n found => exact fun _ => hlater
  | blockCheck n d found =>
    cases found with
    | true => exact ⟨hf, hw⟩
    | false => simp [WaitOut.OnTime]
  | await n b =>
    cases b with
    | true => simp [WaitOut.OnTime]
    | false => exact ⟨hf, trivial⟩
  | raceNotify n x b =>
    cases b with
    | true => simp [WaitOut.OnTime]
    | false => exact ⟨hf, hlater⟩
  | raceTimeout n x b =>
    cases b with
    | true => exact ⟨hf, (Shared.Due.past hw hp ha.observed.symm).later ha.later⟩
    | false => exact ⟨hf, hlater⟩
  | asyncRemove n found =>
    cases found with
    | true => exact ⟨hf, hlater⟩
    | false => exact fun _ => hlater
  | asyncSend n => exact fun _ => hlater

theorem Caller.onTime_onLocked (k : Caller V) {ret : LockRet} (h : ret = .relock (some true) → sh.Past o) :
    (k.onLocked ret).OnTime sh o := by
  unfold Caller.onLocked
  split
  · simp [Next.OnTime]
  · intro hr
    subst hr
    exact h rfl
  · trivial
  · exact fun _ => h rfl
  · trivial
  · simp [Next.OnTime]

theorem WaitCall.onTime_entry (w : WaitCall) (c : CondvarId) (h : Within o w.deadline) :
    (w.entry c : Pc V).OnTime sh o := by
  cases w <;> first | exact ⟨h, trivial⟩ | exact h

theorem RecvKind.onTime_onEmpty (st : Strategy) (n : Nat) :
    ((RecvKind.recv st o).onEmpty n : Pc V).OnTime sh o := by
  unfold RecvKind.onEmpty
  split
  · simp [unlockAndReturn, Pc.OnTime, Outcome.isTimeout]
  · apply WaitCall.onTime_entry
    rw [st.deadline_wait]
    exact within_self o

theorem WaitFrame.onTime_relock (f : WaitFrame) : f.relock.OnTime sh o := by
  unfold WaitFrame.relock
  split <;> exact within_none o

theorem Strategy.onTime_lock (st : Strategy) {d : Option Instant} (h : Within o d) : (st.lock d).OnTime sh o := by
  cases st <;> cases d <;> first | exact h | exact h _ rfl

/-- What a call with a deadline comes to is on time if it was. -/
theorem Pc.Step.onTime [DecidableEq V] {k : Caller V} {pc : Pc V} {n : Next V} (h : pc.Step k a n)
    (ha : sh.Applied m i t a sh') (hp : sh.Punctual) (hk : k.OnTime o) (hpc : pc.OnTime sh o) :
    n.OnTime sh' o := by
  have hlater := hpc.later ha.later
  cases h with
  | lock l ret a out hs =>
    have hout := hs.onTime ha hp hpc.1
    cases out with
    | goto q | yield q => exact ⟨hout, hlater.2⟩
    | acquired => exact k.onTime_onLocked hlater.2
    | failed => exact fun _ => hout
  | unlock u ret a out hs =>
    cases out with
    | goto u' => cases ret <;> exact hlater
    | finished => cases ret <;> exact hlater
  | wait f w a out hs =>
    have hout := hs.onTime ha hp hpc
    cases out with
    | goto | yield | drop => exact hout
    | relock r => exact ⟨f.onTime_relock, fun hr => hout (by cases hr; rfl)⟩
  | notify c x a out hs =>
    cases out with
    | goto => trivial
    | finished => cases k <;> simp [NotifyOut.toNext, Caller.onNotified, Next.OnTime, Outcome.isTimeout]
  | waitProbe c d b => exact ⟨hpc, trivial⟩
  | sendCheck1 σ st v b hk' =>
    cases b with
    | false => simp [Next.OnTime, Outcome.isTimeout]
    | true => exact ⟨st.onTime_lock (within_none o), by simp⟩
  | sendCheck2 σ st v b hk' => cases b <;> simp [Next.OnTime, Pc.OnTime, unlockAndReturn, Outcome.isTimeout]
  | popSome v => simp [Next.OnTime, Pc.OnTime, unlockAndReturn, Outcome.isTimeout]
  | recvCount rk x hk' =>
    subst hk'
    obtain ⟨st, rfl⟩ := hk
    exact RecvKind.onTime_onEmpty st x
  | fetchSub σ old hk' => split <;> simp [Next.OnTime, Pc.OnTime, Outcome.isTimeout]
  | _ => trivial

end

/-! ## Runs -/

/-- The event begins a lock or a receive with deadline `o` as call `i`, or a wait with the guard
that call `i` holds. `try_lock` and `try_recv` do not wait. -/
def Event.Starts (s : State V) (i : CallId) (o : Option Instant) : Event V → Prop
  | .begin _ (.lock _ c) => i = s.used ∧ c ≠ .tryLock ∧ o = c.deadline
  | .begin _ (.recv (.recv _ d)) => i = s.used ∧ o = d
  | .wait j _ _ w => i = j ∧ o = w.deadline
  | _ => False

def Event.waitsWith (i : CallId) : Event V → Prop
  | .wait j _ _ _ => j = i
  | _ => False

/-- The call is on its way out with a timeout: it takes the mutex again, or drops the guard. -/
def Pc.timedOut : Pc V → Bool
  | .lock _ (.relock r) => r = some true
  | .unlock _ (.finish o) => o.isTimeout
  | _ => false

/-- A lock has given up, a receive returns `Err(Timeout)`, or a timed wait `timed_out() = true`. -/
def Call.timedOut : Call V → Bool
  | .running _ _ pc | .suspended _ pc => pc.timedOut
  | .holding _ r => r = some true
  | .done o => o.isTimeout
  | .idle => false

theorem Call.OnTime.past {sh : Shared V} {o : Option Instant} {c : Call V} (h : c.OnTime sh o)
    (hc : c.timedOut = true) : sh.Past o := by
  have hpc : ∀ pc : Pc V, pc.OnTime sh o → pc.timedOut = true → sh.Past o := by
    intro pc hpc hout
    unfold Pc.timedOut at hout
    split at hout
    · exact hpc.2 (by simpa using hout)
    · exact hpc hout
    · cases hout
  cases c with
  | running t k pc | suspended k pc => exact hpc pc h.2 hc
  | holding k r => exact h.2 (by simpa [timedOut] using hc)
  | done x => exact h hc
  | idle => cases hc

theorem LockCall.onTime_entry {sh : Shared V} (c : LockCall) (h : c ≠ .tryLock) :
    c.entry.OnTime sh c.deadline := by
  cases c with
  | tryLock => exact absurd rfl h
  | lockSpin | lockSync | lockBlock | lockAsync => exact within_none _
  | lockSpinTimeout d | lockSyncTimeout d => exact within_self _
  | lockBlockTimeout d | lockAsyncTimeout d => rfl

namespace State

variable [DecidableEq V] {s s' : State V} {e : Event V} {o : Option Instant} {i : CallId}

theorem later_step (hstep : s.step e = some s') : s.sh.Later s'.sh := by
  have hsame : s'.sh = s.sh → s.sh.Later s'.sh := fun h => h ▸ .refl _
  cases e with
  | act j a =>
    obtain ⟨t, k, pc, n, ha⟩ := act_acted hstep
    exact ha.applied.later
  | begin t r | clone | moveReceiver =>
    obtain ⟨-, h⟩ := Option.ite_none_right_eq_some.mp hstep
    cases h
    first | exact .refl _ | exact ⟨Nat.le_refl _, fun x hx => .inl hx⟩
  | wait j t c w | dropGuard j t | poll j t =>
    simp only [State.step] at hstep
    split at hstep
    case h_2 => cases hstep
    case h_1 =>
      obtain ⟨-, h⟩ := Option.ite_none_right_eq_some.mp hstep
      cases h
      exact hsame rfl
  | cancel j =>
    simp only [State.step] at hstep
    split at hstep
    case h_2 => cases hstep
    case h_1 => cases hstep; exact hsame rfl
  | unpark t => cases hstep; exact ⟨Nat.le_refl _, fun x hx => .inl hx⟩
  | tick => cases hstep; exact ⟨Nat.le_succ _, fun x hx => .inl hx⟩
  | fire d m =>
    obtain ⟨⟨-, hd⟩, h⟩ := Option.ite_none_right_eq_some.mp hstep
    cases h
    refine ⟨Nat.le_refl _, fun x hx => ?_⟩
    by_cases hxd : x = (d, m)
    · subst hxd; exact .inr hd
    · exact .inl ((List.mem_erase_of_ne hxd).mpr hx)

theorem Reachable.punctual (hr : s.Reachable) : s.sh.Punctual := by
  intro d m hw hm
  refine (hr.entriesApart.woken _ ⟨m, .cont m⟩ rfl hw).2 .timers (mem_waitsAt.mpr ⟨⟨m, .cont m⟩, ?_, rfl⟩)
  exact List.mem_map.mpr ⟨(d, m), hm, rfl⟩

theorem onTime_step (hr : s.Reachable) (hi : (s.call i).OnTime s.sh o) (he : ¬ e.waitsWith i)
    (hstep : s.step e = some s') : (s'.call i).OnTime s'.sh o := by
  have hlater := later_step hstep
  rcases call_cases hr.sane.numbered hstep i with hcall | ⟨a, t, k, pc, n, -, ha⟩ | ⟨c, ht⟩
  · rw [hcall]; exact hi.later hlater
  · rw [ha.running] at hi
    have hn := ha.step.onTime ha.applied hr.punctual hi.1 hi.2
    rw [ha.call_self]
    cases n with
    | goto | yield | hold => exact ⟨hi.1, hn⟩
    | finish => exact hn
  · rw [ht.call_self]
    have hturn := ht.turn
    have hold := hi.later hlater
    generalize s.call i = c₀ at hturn hold
    cases hturn with
    | begin t r => cases hold
    | wait t c w k r => exact absurd rfl he
    | dropGuard t k r => exact ⟨hold.1, by simp [Pc.OnTime, unlockAndReturn, Outcome.isTimeout]⟩
    | poll t k pc => exact hold
    | cancel k pc => simp [Call.OnTime, Outcome.isTimeout]

theorem onTime_starts (hr : s.Reachable) (he : e.Starts s i o) (hstep : s.step e = some s') :
    (s'.call i).OnTime s'.sh o := by
  cases e with
  | begin t r =>
    obtain ⟨-, h⟩ := Option.ite_none_right_eq_some.mp hstep
    cases h
    cases r with
    | lock m c =>
      obtain ⟨rfl, hc, rfl⟩ := he
      simp only [setCall, Function.update_self]
      exact ⟨trivial, c.onTime_entry hc, by simp⟩
    | recv rk =>
      cases rk with
      | tryRecv => cases he
      | recv st d =>
        obtain ⟨rfl, rfl⟩ := he
        simp only [setCall, Function.update_self]
        exact ⟨⟨st, rfl⟩, st.onTime_lock (within_self _), by simp⟩
    | _ => cases he
  | wait j t c w =>
    obtain ⟨rfl, rfl⟩ := he
    have hf := hr.fits i
    simp only [State.step] at hstep
    split at hstep
    case h_2 => cases hstep
    case h_1 k r hc =>
      obtain ⟨-, h⟩ := Option.ite_none_right_eq_some.mp hstep
      cases h
      rw [hc] at hf
      simp only [setCall, Function.update_self]
      refine ⟨?_, w.onTime_entry _ (within_self _)⟩
      cases k <;> trivial
  | _ => cases he

/-- A lock, wait or receive gives up or reports a timeout only if it has a deadline, and not
before this deadline. -/
theorem timeouts_not_early {cfg : Config} {u v : State V} (hu : Run step cfg.init u) (he : e.Starts u i o)
    (hstep : u.step e = some v) (hv : RunWhere step (fun _ e => ¬ e.waitsWith i) v s)
    (hi : (s.call i).timedOut = true) : ∃ d, o = some d ∧ d ≤ s.sh.clock := by
  have hreach : u.Reachable := ⟨cfg, hu⟩
  have hrun : s.Reachable ∧ (s.call i).OnTime s.sh o := by
    refine hv.invariant (P := fun s => s.Reachable ∧ (s.call i).OnTime s.sh o)
      ⟨hreach.step hstep, onTime_starts hreach he hstep⟩ ?_
    rintro s s' e ⟨hr, hs⟩ hne hstep
    exact ⟨hr.step hstep, onTime_step hr hs hne hstep⟩
  exact hrun.2.past hi

/-- A `wait_async_timeout` until instant 1: its timeout thread sends after a tick. -/
def expiryEvents : List (Event Nat) :=
  [.act 0 (.register (.user 0) .async 0), .act 0 (.spawn 1 1), .act 0 (.mutex .store),
    .act 0 (.mutex (.take .sync [])), .act 0 (.mutex (.take .async [])), .act 0 (.observe (.cont 0) false),
    .act 0 (.observe (.cont 1) false), .tick, .fire 1 1, .poll 0 0, .act 0 (.observe (.cont 0) false),
    .act 0 (.observe (.cont 1) true), .act 0 (.condvar (.user 0) (.remove .async 0 true)), .act 0 (.wake (.cont 0)),
    .act 0 (.mutex (.enter .async)), .act 0 (.mutex (.cas true)), .act 0 (.mutex (.leave .async))]

theorem timeouts_not_early_expiry : ∃ u v s : State Nat,
    exec step (⟨fun _ => true, 0, 0⟩ : Config).init
      [.begin 0 (.lock 0 .tryLock), .act 0 (.mutex (.cas true))] = some u ∧
    u.step (.wait 0 0 0 (.waitAsyncTimeout 1)) = some v ∧ exec step v expiryEvents = some s ∧
    s.call 0 = .holding (.user 0) (some true) ∧ ∃ d, some 1 = some d ∧ d ≤ s.sh.clock := by
  have hrun : ∃ u v s : State Nat,
      exec step (⟨fun _ => true, 0, 0⟩ : Config).init
        [.begin 0 (.lock 0 .tryLock), .act 0 (.mutex (.cas true))] = some u ∧
      u.step (.wait 0 0 0 (.waitAsyncTimeout 1)) = some v ∧ exec step v expiryEvents = some s ∧
      s.call 0 = .holding (.user 0) (some true) := ⟨_, _, _, rfl, rfl, rfl, rfl⟩
  obtain ⟨u, v, s, hu, hstep, hv, hi⟩ := hrun
  have hquiet : ∀ e ∈ expiryEvents, ∀ _ : State Nat, ¬ e.waitsWith 0 := by
    intro e he _
    simp only [expiryEvents, List.mem_cons, List.not_mem_nil, or_false] at he
    rcases he with rfl | rfl | rfl | rfl | rfl | rfl | rfl | rfl | rfl | rfl | rfl | rfl | rfl | rfl | rfl | rfl |
      rfl <;> simp [Event.waitsWith]
  have hlater := RunWhere.refl.extend (Along.of_forall hquiet) hv
  have hstarts : (Event.wait 0 0 0 (.waitAsyncTimeout 1)).Starts u 0 (some 1) := ⟨rfl, rfl⟩
  exact ⟨u, v, s, hu, hstep, hv, hi,
    timeouts_not_early (run_of_exec hu) hstarts hstep hlater (by rw [hi]; rfl)⟩

end State

end WasmSafeMutex
