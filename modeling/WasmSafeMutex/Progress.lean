import WasmSafeMutex.Channel.Disconnect

/-!
# Who can block whom

Every waiting place waits for something: a section of a list, the lock bit, a wake or a deadline.
When nothing that anybody waits for is there, only the users are in the way. They have guards
that they do not drop, and condition variables that they do not notify.
-/

namespace WasmSafeMutex

open Interleaving

variable {V : Type}

/-! ## What a call waits for -/

namespace Shared

def expired (sh : Shared V) : Option Instant → Bool
  | some d => d ≤ sh.clock
  | none => false

end Shared

/-- What the next operation of the call needs is there. A spinning call can always look again,
and a parked one return for no reason. That does not count. -/
def LockPc.able (sh : Shared V) (m : MutexId) (t : ThreadId) : LockPc → Bool
  | .enter k _ => !(sh.mutex m).locked k
  | .spin d => !(sh.mutex m).dataLock || sh.expired d
  | .spinNow d => !(sh.mutex m).dataLock || sh.expired (some d)
  | .park d => sh.woken (.thread t) || sh.expired d
  | _ => true

def WaitPc.able (sh : Shared V) (f : WaitFrame) (t : ThreadId) : WaitPc → Bool
  | .spinLoad n | .spinNow n _ => sh.woken (.flag n) || sh.expired f.deadline
  | .spinDrain n => sh.woken (.flag n)
  | .park _ => sh.woken (.thread t)
  | .parkTimeout _ d => sh.woken (.thread t) || sh.expired (some d)
  | _ => true

def Pc.able (sh : Shared V) (k : Caller V) (t : ThreadId) : Pc V → Bool
  | .lock l _ => l.able sh k.mutex t
  | .unlock (.take side) _ => !(sh.mutex k.mutex).locked side
  | .wait f w => w.able sh f t
  | _ => true

/-- A poll of the future finds that its notification or its timeout has been sent. -/
def Pc.ready (sh : Shared V) : Pc V → Bool
  | .lock (.await n) _ | .wait _ (.await n) => sh.woken (.cont n)
  | .lock (.raceNotify _ n m) _ | .wait _ (.raceNotify n m) => sh.woken (.cont n) || sh.woken (.cont m)
  | _ => true

/-- `park_timeout` returns because of its deadline. -/
def Pc.overslept (sh : Shared V) : Pc V → Bool
  | .lock (.park d) _ => sh.expired d
  | .wait _ (.parkTimeout _ d) => sh.expired (some d)
  | _ => false

namespace State

/-- Nobody has what it waits for. -/
structure Still (s : State V) : Prop where
  running : ∀ i t k pc, s.call i = .running t k pc → pc.able s.sh k t = false
  suspended : ∀ i k pc, s.call i = .suspended k pc → pc.ready s.sh = false

/-- The call has returned a guard, or waits for a mutex whose guard another call has returned, or
its waker is in a list of a condition variable. -/
def Rests (s : State V) (i : CallId) (k : Caller V) : Prop :=
  (∃ r, s.call i = .holding k r) ∨
    (∃ l ret m j r, (s.call i).pc? = some (.lock l ret) ∧ k = .user m ∧ s.call j = .holding (.user m) r) ∨
    ∃ f w x, (s.call i).pc? = some (.wait f w) ∧ (s.call i).awaits = some (.condvar f.cv f.kind, x) ∧
      x ∈ s.sh.waitingAt (.condvar f.cv f.kind)

theorem Still.delivers {s : State V} (hs : s.Still) (j : CallId) (p : Place) :
    (s.call j).delivers p = [] := by
  cases hc : s.call j with
  | running t k pc =>
    have hnot := hs.running j t k pc hc
    cases pc with
    | unlock u ret =>
      cases u with
      | wake side w ws => cases hnot
      | store | take => cases p <;> rfl
    | notify c x => cases hnot
    | _ => cases p <;> rfl
  | _ => rfl

end State

/-! ## Places that are always able -/

theorem Pc.able_of_inSection {sh : Shared V} {side : Side} {pc : Pc V} (h : pc.inSection side = true)
    (k : Caller V) (t : ThreadId) : pc.able sh k t = true := by
  cases pc with
  | lock l ret => cases l <;> first | rfl | cases h
  | _ => cases h

theorem Pc.able_of_owns {sh : Shared V} {pc : Pc V} (h : pc.owns = true) (k : Caller V) (t : ThreadId) :
    pc.able sh k t = true := by
  cases pc with
  | lock l ret => cases l <;> first | rfl | cases h
  | unlock u ret => cases u <;> first | rfl | cases h
  | wait f w => cases w <;> first | rfl | cases h
  | _ => rfl

theorem Pc.able_of_inGuardDrop {sh : Shared V} (hfree : ∀ m side, (sh.mutex m).locked side = false) {pc : Pc V}
    (h : pc.inGuardDrop = true) (k : Caller V) (t : ThreadId) : pc.able sh k t = true := by
  cases pc with
  | unlock u ret =>
    cases u with
    | store => cases h
    | take side => simp [able, hfree]
    | wake side w ws => rfl
  | _ => cases h

variable [DecidableEq V]

/-! ## Going on -/

namespace State

variable {s : State V} {i : CallId} {t : ThreadId} {k : Caller V} {pc : Pc V}

/-- The call has an operation. It is a return from `park` without a token only at its deadline. -/
def GoesOn (s : State V) (i : CallId) (pc : Pc V) : Prop :=
  ∃ a s', s.step (.act i a) = some s' ∧ (a = .park false → pc.overslept s.sh = true)

theorem goesOn_of_apply {a : Act V} {n : Next V} {sh : Shared V} (hi : s.call i = .running t k pc)
    (hn : pc.next k a = some n) (ha : s.sh.apply k.mutex i t a = some sh) (hp : a ≠ .park false) :
    s.GoesOn i pc := by
  obtain ⟨s', hs⟩ := can_act hi hn ha
  exact ⟨a, s', hs, fun h => absurd h hp⟩

/-- A return from `park` or `park_timeout`, with its token or at its deadline. -/
theorem goesOn_of_park {n : Next V} (hi : s.call i = .running t k pc)
    (hn : ∀ b, pc.next k (.park b) = some n) (hable : s.sh.woken (.thread t) = true ∨ pc.overslept s.sh = true) :
    s.GoesOn i pc := by
  rcases hable with hw | ho
  · exact goesOn_of_apply hi (hn true) (by simp [Shared.apply, hw]; rfl) (by simp)
  · obtain ⟨s', hs⟩ := can_act (a := .park false) hi (hn false) (by simp [Shared.apply]; rfl)
    exact ⟨_, s', hs, fun _ => ho⟩

theorem lock_goes_on {l : LockPc} {ret : LockRet} (hi : s.call i = .running t k (.lock l ret))
    (hable : l.able s.sh k.mutex t = true) : s.GoesOn i (.lock l ret) := by
  cases l with
  | tryLock | lastTry | tryIn =>
    exact goesOn_of_apply (a := .mutex (.cas !(s.sh.mutex k.mutex).dataLock)) hi rfl
      (by simp [Shared.apply, MutexState.apply]; rfl) (by simp)
  | spin d =>
    exact goesOn_of_apply (a := .mutex (.swap !(s.sh.mutex k.mutex).dataLock)) hi rfl
      (by simp [Shared.apply, MutexState.apply]; rfl) (by simp)
  | spinNow d | now k d =>
    exact goesOn_of_apply (a := .now s.sh.clock) hi rfl (by simp [Shared.apply]; rfl) (by simp)
  | probe d =>
    exact goesOn_of_apply (a := .probe (s.sh.atomicsWait t)) hi rfl (by simp [Shared.apply]; rfl) (by simp)
  | enter side d =>
    have hfree : (s.sh.mutex k.mutex).locked side = false := by simpa [LockPc.able] using hable
    exact goesOn_of_apply (a := .mutex (.enter side)) hi (by simp [Pc.next, LockPc.next]; rfl)
      (by simp [Shared.apply, MutexState.apply, hfree]; rfl) (by simp)
  | push side d =>
    exact goesOn_of_apply (a := .push side s.sh.fresh) hi (by simp [Pc.next, LockPc.next]; rfl)
      (by simp [Shared.apply]; rfl) (by simp)
  | leaveOwner side | leave side d n =>
    exact goesOn_of_apply (a := .mutex (.leave side)) hi (by simp [Pc.next, LockPc.next]; rfl)
      (by simp [Shared.apply, MutexState.apply]; rfl) (by simp)
  | park d =>
    refine goesOn_of_park hi (fun b => rfl) ?_
    simpa [LockPc.able, Pc.overslept] using hable
  | await n | raceNotify d n m =>
    exact goesOn_of_apply (a := .observe (.cont n) (s.sh.woken (.cont n))) hi
      (by simp [Pc.next, LockPc.next]; rfl) (by simp [Shared.apply]; rfl) (by simp)
  | spawn d n =>
    exact goesOn_of_apply (a := .spawn d s.sh.fresh) hi (by simp [Pc.next, LockPc.next]; rfl)
      (by simp [Shared.apply]; rfl) (by simp)
  | raceTimeout d n m =>
    exact goesOn_of_apply (a := .observe (.cont m) (s.sh.woken (.cont m))) hi
      (by simp [Pc.next, LockPc.next]; rfl) (by simp [Shared.apply]; rfl) (by simp)

theorem unlock_goes_on {u : UnlockPc} {ret : UnlockRet V} (hi : s.call i = .running t k (.unlock u ret))
    (hable : (Pc.unlock u ret).able s.sh k t = true) : s.GoesOn i (.unlock u ret) := by
  cases u with
  | store =>
    exact goesOn_of_apply (a := .mutex .store) hi rfl (by simp [Shared.apply, MutexState.apply]; rfl) (by simp)
  | take side =>
    have hfree : (s.sh.mutex k.mutex).locked side = false := by simpa [Pc.able] using hable
    exact goesOn_of_apply (a := .mutex (.take side ((s.sh.mutex k.mutex).waiting side))) hi
      (by simp [Pc.next, UnlockPc.next]; rfl) (by simp [Shared.apply, MutexState.apply, hfree]; rfl) (by simp)
  | wake side w ws =>
    exact goesOn_of_apply (a := .wake w) hi (by simp [Pc.next, UnlockPc.next]; rfl) rfl (by simp)

theorem wait_goes_on {f : WaitFrame} {w : WaitPc} (hi : s.call i = .running t k (.wait f w))
    (hable : w.able s.sh f t = true) : s.GoesOn i (.wait f w) := by
  cases w with
  | register =>
    exact goesOn_of_apply (a := .register f.cv f.kind s.sh.fresh) hi (by simp [Pc.next, WaitPc.next]; rfl)
      (by simp [Shared.apply]; rfl) (by simp)
  | spawn n d =>
    exact goesOn_of_apply (a := .spawn d s.sh.fresh) hi (by simp [Pc.next, WaitPc.next]; rfl)
      (by simp [Shared.apply]; rfl) (by simp)
  | spinLoad n | spinDrain n =>
    exact goesOn_of_apply (a := .observe (.flag n) (s.sh.woken (.flag n))) hi
      (by simp [Pc.next, WaitPc.next]; rfl) (by simp [Shared.apply]; rfl) (by simp)
  | spinNow n d | blockNow n d =>
    exact goesOn_of_apply (a := .now s.sh.clock) hi rfl (by simp [Shared.apply]; rfl) (by simp)
  | spinRemove n =>
    exact goesOn_of_apply (a := .condvar f.cv
        (.remove .spin n (((s.sh.condvar f.cv).waiting .spin).any (Entry.isOf (Kind.spin.waker t n))))) hi
      (by simp [Pc.next, WaitPc.next]; rfl) (by simp [Shared.apply, CondvarState.apply]; rfl) (by simp)
  | blockRemove n =>
    exact goesOn_of_apply (a := .condvar f.cv
        (.remove .sync n (((s.sh.condvar f.cv).waiting .sync).any (Entry.isOf (Kind.sync.waker t n))))) hi
      (by simp [Pc.next, WaitPc.next]; rfl) (by simp [Shared.apply, CondvarState.apply]; rfl) (by simp)
  | asyncRemove n =>
    exact goesOn_of_apply (a := .condvar f.cv
        (.remove .async n (((s.sh.condvar f.cv).waiting .async).any (Entry.isOf (Kind.async.waker t n))))) hi
      (by simp [Pc.next, WaitPc.next]; rfl) (by simp [Shared.apply, CondvarState.apply]; rfl) (by simp)
  | park n => exact goesOn_of_park hi (fun b => rfl) (.inl hable)
  | parkTimeout n d =>
    refine goesOn_of_park hi (fun b => rfl) ?_
    simpa [WaitPc.able, Pc.overslept] using hable
  | blockCheck n d =>
    exact goesOn_of_apply
      (a := .condvar f.cv (.has (((s.sh.condvar f.cv).waiting .sync).any (Entry.isOf (.thread t))))) hi
      (by simp [Pc.next, WaitPc.next]; rfl) (by simp [Shared.apply, CondvarState.apply]; rfl) (by simp)
  | await n | raceNotify n m =>
    exact goesOn_of_apply (a := .observe (.cont n) (s.sh.woken (.cont n))) hi
      (by simp [Pc.next, WaitPc.next]; rfl) (by simp [Shared.apply]; rfl) (by simp)
  | raceTimeout n m =>
    exact goesOn_of_apply (a := .observe (.cont m) (s.sh.woken (.cont m))) hi
      (by simp [Pc.next, WaitPc.next]; rfl) (by simp [Shared.apply]; rfl) (by simp)
  | asyncSend n =>
    exact goesOn_of_apply (a := .wake (.cont n)) hi (by simp [Pc.next, WaitPc.next]; rfl) rfl (by simp)

theorem notify_goes_on {c : CondvarId} {x : NotifyPc} (hi : s.call i = .running t k (.notify c x)) :
    s.GoesOn i (.notify c x) := by
  cases x with
  | pop kind =>
    exact goesOn_of_apply (a := .condvar c (.pop kind ((s.sh.condvar c).waiting kind).getLast?)) hi
      (by simp [Pc.next, NotifyPc.next]; rfl) (by simp [Shared.apply, CondvarState.apply]; rfl) (by simp)
  | wakeOne e =>
    exact goesOn_of_apply (a := .wake e.waker) hi (by simp [Pc.next, NotifyPc.next]; rfl) rfl (by simp)
  | take kind =>
    exact goesOn_of_apply (a := .condvar c (.take kind ((s.sh.condvar c).waiting kind))) hi
      (by simp [Pc.next, NotifyPc.next]; rfl) (by simp [Shared.apply, CondvarState.apply]; rfl) (by simp)
  | wakeAll kind e es =>
    exact goesOn_of_apply (a := .wake e.waker) hi (by simp [Pc.next, NotifyPc.next]; rfl) rfl (by simp)

/-- A running call that has what it waits for goes on. -/
theorem Reachable.goes_on (hr : s.Reachable) (hi : s.call i = .running t k pc)
    (hable : pc.able s.sh k t = true) : s.GoesOn i pc := by
  have hf := hr.fits i
  rw [hi] at hf
  cases pc with
  | lock l ret => exact lock_goes_on hi hable
  | unlock u ret => exact unlock_goes_on hi hable
  | waitProbe c d =>
    exact goesOn_of_apply (a := .probe (s.sh.atomicsWait t)) hi rfl (by simp [Shared.apply]; rfl) (by simp)
  | wait f w => exact wait_goes_on hi hable
  | notify c x => exact notify_goes_on hi
  | sendCheck1 | sendCheck2 =>
    cases k with
    | send σ st v =>
      exact goesOn_of_apply (a := .chan (.loadActive s.sh.chan.receiverActive)) hi rfl
        (by simp [Shared.apply, Channel.apply]; rfl) (by simp)
    | _ => cases hf
  | sendPush =>
    cases k with
    | send σ st v =>
      exact goesOn_of_apply (a := .chan (.pushBack v)) hi (by simp [Pc.next]; rfl)
        (by simp [Shared.apply, Channel.apply]; rfl) (by simp)
    | _ => cases hf
  | recvPop =>
    exact goesOn_of_apply (a := .chan (.popFront s.sh.chan.queue.head?)) hi rfl
      (by simp [Shared.apply, Channel.apply]; rfl) (by simp)
  | recvCount =>
    cases k with
    | recv rk =>
      exact goesOn_of_apply (a := .chan (.loadCount s.sh.chan.senderCount)) hi rfl
        (by simp [Shared.apply, Channel.apply]; rfl) (by simp)
    | _ => cases hf
  | fetchSub =>
    cases k with
    | dropSender σ =>
      exact goesOn_of_apply (a := .chan (.fetchSub σ s.sh.chan.senderCount)) hi (by simp [Pc.next]; rfl)
        (by simp [Shared.apply, Channel.apply]; rfl) (by simp)
    | _ => cases hf
  | clearActive =>
    exact goesOn_of_apply (a := .chan .clearActive) hi rfl (by simp [Shared.apply, Channel.apply]; rfl) (by simp)

/-! ## Where nobody goes on -/

/-- Nobody is at places that are always able, and where no future rests. -/
theorem Still.nobody_at (hs : s.Still) (hr : s.Reachable) {ν : Pc V → Bool}
    (hable : ∀ k t pc, ν pc = true → pc.able s.sh k t = true) (hstay : ∀ pc, pc.pending = true → ν pc = false)
    (m : MutexId) (j : CallId) : (s.call j).holds (Next.isAt ν) m = false := by
  by_contra hj
  rw [Bool.not_eq_false] at hj
  cases hc : s.call j with
  | running t k pc =>
    simp only [hc, Call.holds, Next.isAt, Next.pc?, Option.any_some, Bool.and_eq_true] at hj
    have hnot := hs.running j t k pc hc
    rw [hable k t pc hj.2] at hnot
    cases hnot
  | suspended k pc =>
    simp only [hc, Call.holds, Next.isAt, Next.pc?, Option.any_some, Bool.and_eq_true] at hj
    have hnot := hstay pc (hr.sane.pending j k pc hc)
    rw [hj.2] at hnot
    cases hnot
  | holding k r => simp [hc, Call.holds, Next.isAt, Next.pc?] at hj
  | idle | done => simp [hc, Call.holds] at hj

theorem Still.unlocked (hs : s.Still) (hr : s.Reachable) (m : MutexId) (side : Side) :
    (s.sh.mutex m).locked side = false := by
  by_contra hb
  obtain ⟨j, hj⟩ := (hr.sectioned m side).exists_of_set ((Bool.not_eq_false _).mp hb)
  have hnone := hs.nobody_at hr (fun k t _ h => Pc.able_of_inSection h k t)
    (fun _ => Pc.not_inSection_of_pending side) m j
  rw [hnone] at hj
  cases hj

theorem Still.nobody_drops (hs : s.Still) (hr : s.Reachable) (m : MutexId) (j : CallId) :
    (s.call j).holds (Next.isAt Pc.inGuardDrop) m = false := by
  refine hs.nobody_at hr (fun k t _ h => Pc.able_of_inGuardDrop (hs.unlocked hr) h k t) (fun pc hp => ?_) m j
  cases pc <;> first | rfl | cases hp

/-- Only a user has a mutex. -/
theorem Still.owner (hs : s.Still) (hr : s.Reachable) {m : MutexId} (hb : (s.sh.mutex m).dataLock = true) :
    ∃ n j r, m = .user n ∧ s.call j = .holding (.user n) r := by
  obtain ⟨j, hj⟩ := (hr.exclusive m).exact.exists_of_set hb
  have hnone := hs.nobody_at hr (fun k t _ h => Pc.able_of_owns h k t) (fun _ => Pc.not_owns_of_pending) m j
  have hf := hr.fits j
  cases hc : s.call j with
  | running t k pc =>
    rw [hc] at hj hnone
    exact absurd (hj.symm.trans hnone) (by simp)
  | suspended k pc =>
    rw [hc] at hj hnone
    exact absurd (hj.symm.trans hnone) (by simp)
  | holding k r =>
    rw [hc] at hj hf
    cases k with
    | user n =>
      simp only [Call.owns, Call.holds, Bool.and_eq_true, decide_eq_true_eq] at hj
      exact ⟨n, j, r, hj.1.symm, hc⟩
    | _ => cases hf
  | idle | done => rw [hc] at hj; cases hj

/-- What a call waits for without having been woken is still in its list. -/
theorem Still.listed (hs : s.Still) (hr : s.Reachable) {p : Place} {w : Waker}
    (ha : (s.call i).awaits = some (p, w)) (hw : s.sh.woken w = false) : w ∈ s.sh.waitingAt p := by
  rcases hr.delivered i p w ha with hlist | ⟨j, hj⟩ | hwoken
  · exact hlist
  · rw [hs.delivers] at hj
    cases hj
  · rw [hw] at hwoken
    cases hwoken

theorem Still.locked_of_awaits (hs : s.Still) (hr : s.Reachable) {m : MutexId} {side : Side} {w : Waker}
    (ha : (s.call i).awaits = some (.mutex m side, w)) (hw : s.sh.woken w = false) :
    (s.sh.mutex m).dataLock = true := by
  have hlist := hs.listed hr ha hw
  rcases hr.covered m side (.inl (List.ne_nil_of_mem hlist)) with hb | ⟨j, hj⟩
  · exact hb
  · have hdrop := Call.holds_mono (fun _ => Next.isAt_mono fun _ => Pc.inGuardDrop_of_owes) hj
    rw [hs.nobody_drops hr] at hdrop
    cases hdrop

/-- A call that waits for its mutex waits for a user. -/
theorem Still.rests_locked (hs : s.Still) (hr : s.Reachable) {l : LockPc} {ret : LockRet}
    (hpc : (s.call i).pc? = some (.lock l ret)) (hb : (s.sh.mutex k.mutex).dataLock = true) : s.Rests i k := by
  obtain ⟨n, j, r, hm, hj⟩ := hs.owner hr hb
  cases k with
  | user n' =>
    cases hm
    exact .inr (.inl ⟨l, ret, n, j, r, hpc, rfl, hj⟩)
  | _ => cases hm

theorem Still.rests_waiting (hs : s.Still) (hr : s.Reachable) {f : WaitFrame} {w : WaitPc} {x : Waker}
    (hpc : (s.call i).pc? = some (.wait f w)) (ha : (s.call i).awaits = some (.condvar f.cv f.kind, x))
    (hx : s.sh.woken x = false) : s.Rests i k :=
  .inr (.inr ⟨f, w, x, hpc, ha, hs.listed hr ha hx⟩)

/-- A running call that lacks what it waits for. -/
theorem Still.rests_running (hs : s.Still) (hr : s.Reachable) (hi : s.call i = .running t k pc) : s.Rests i k := by
  have hnot := hs.running i t k pc hi
  have hf := hr.fits i
  have hpc : (s.call i).pc? = some pc := by rw [hi]; rfl
  rw [hi] at hf
  cases pc with
  | lock l ret =>
    cases l with
    | enter side d => simp [Pc.able, LockPc.able, hs.unlocked hr] at hnot
    | spin d | spinNow d =>
      simp only [Pc.able, LockPc.able, Bool.or_eq_false_iff, Bool.not_eq_false'] at hnot
      exact hs.rests_locked hr hpc hnot.1
    | park d =>
      simp only [Pc.able, LockPc.able, Bool.or_eq_false_iff] at hnot
      exact hs.rests_locked hr hpc (hs.locked_of_awaits hr (i := i) (by rw [hi]; rfl) hnot.1)
    | _ => cases hnot
  | unlock u ret =>
    cases u with
    | take side => simp [Pc.able, hs.unlocked hr] at hnot
    | store | wake => cases hnot
  | wait f w =>
    simp only [Call.fits, Pc.fits, Bool.and_eq_true] at hf
    cases w with
    | spinLoad n | spinNow n d | spinDrain n =>
      have hk : f.kind = .spin := by simp_all [WaitPc.fits]
      refine hs.rests_waiting hr hpc (x := .flag n) (by rw [hi, hk]; rfl) ?_
      simp_all [Pc.able, WaitPc.able]
    | park n | parkTimeout n d =>
      have hk : f.kind = .sync := by simp_all [WaitPc.fits]
      refine hs.rests_waiting hr hpc (x := .thread t) (by rw [hi, hk]; rfl) ?_
      simp_all [Pc.able, WaitPc.able]
    | _ => cases hnot
  | _ => cases hnot

/-- A future that nobody has woken. -/
theorem Still.rests_suspended (hs : s.Still) (hr : s.Reachable) (hi : s.call i = .suspended k pc) :
    s.Rests i k := by
  have hnot := hs.suspended i k pc hi
  have hf := hr.fits i
  have hpend := hr.sane.pending i k pc hi
  have hpc : (s.call i).pc? = some pc := by rw [hi]; rfl
  rw [hi] at hf
  cases pc with
  | lock l ret =>
    cases l with
    | await n =>
      exact hs.rests_locked hr hpc (hs.locked_of_awaits hr (i := i) (by rw [hi]; rfl) hnot)
    | raceNotify d n m =>
      simp only [Pc.ready, Bool.or_eq_false_iff] at hnot
      exact hs.rests_locked hr hpc (hs.locked_of_awaits hr (i := i) (by rw [hi]; rfl) hnot.1)
    | _ => cases hpend
  | wait f w =>
    simp only [Call.fits, Pc.fits, Bool.and_eq_true] at hf
    cases w with
    | await n | raceNotify n m =>
      have hk : f.kind = .async := by simp_all [WaitPc.fits]
      refine hs.rests_waiting hr hpc (x := .cont n) (by rw [hi, hk]; rfl) ?_
      simp_all [Pc.ready]
    | _ => cases hpend
  | _ => cases hpend

theorem Still.rests (hs : s.Still) (hr : s.Reachable) (hk : (s.call i).caller? = some k) : s.Rests i k := by
  cases hc : s.call i with
  | running t k' pc =>
    obtain rfl : k' = k := by rw [hc] at hk; exact Option.some.inj hk
    exact hs.rests_running hr hc
  | suspended k' pc =>
    obtain rfl : k' = k := by rw [hc] at hk; exact Option.some.inj hk
    exact hs.rests_suspended hr hc
  | holding k' r =>
    obtain rfl : k' = k := by rw [hc] at hk; exact Option.some.inj hk
    exact .inl ⟨r, hc⟩
  | idle | done => rw [hc] at hk; cases hk

/-- A call that rests is a user's, or a receive. -/
theorem Rests.user_or_recv (hr : s.Reachable) (h : s.Rests i k) (hk : (s.call i).caller? = some k) :
    (∃ m, k = .user m) ∨ ∃ rk, k = .recv rk := by
  have hf := hr.fits i
  rcases h with ⟨r, hc⟩ | ⟨l, ret, m, j, r, hpc, rfl, hj⟩ | ⟨f, w, x, hpc, ha, hx⟩
  · rw [hc] at hf
    cases k with
    | user m => exact .inl ⟨m, rfl⟩
    | _ => cases hf
  · exact .inl ⟨m, rfl⟩
  · have hfits : (Pc.wait f w : Pc V).fits k = true := by
      cases hc : s.call i <;> simp_all [Call.caller?, Call.pc?, Call.fits]
    simp only [Pc.fits, Bool.and_eq_true] at hfits
    cases k with
    | user m => exact .inl ⟨m, rfl⟩
    | recv rk => exact .inr ⟨rk, rfl⟩
    | _ => simp [Caller.waits] at hfits

/-! ## The result -/

structure OnlyUsersBlock (s : State V) : Prop where
  goes_on : ∀ i t k pc, s.call i = .running t k pc → pc.able s.sh k t = true → s.GoesOn i pc
  rests : s.Still → ∀ i k, (s.call i).caller? = some k → s.Rests i k
  never_blocked : s.Still → ∀ i k, (s.call i).caller? = some k → (∃ m, k = .user m) ∨ ∃ rk, k = .recv rk

/-- A running call that has what it waits for goes on. Where nobody has, each call that is under
way has a guard, waits for a guard that a user has, or is in the list of a condition variable.
None of them is a send, a notification or a drop of a half of the channel. -/
theorem only_users_block (hr : s.Reachable) : s.OnlyUsersBlock where
  goes_on _ _ _ _ hi hable := hr.goes_on hi hable
  rests hs _ _ hk := hs.rests hr hk
  never_blocked hs _ _ hk := (hs.rests hr hk).user_or_recv hr hk

theorem only_users_block_parked : ∃ s : State Nat,
    exec step (⟨fun _ => true, 0, 0⟩ : Config).init
      [.begin 0 (.lock 0 .tryLock), .act 0 (.mutex (.cas true)), .begin 1 (.lock 0 .lockBlock),
        .act 1 (.mutex (.enter .sync)), .act 1 (.mutex (.cas false)), .act 1 (.push .sync 0),
        .act 1 (.mutex (.leave .sync))] = some s ∧ s.Still ∧ s.OnlyUsersBlock := by
  have hrun : ∃ s : State Nat,
      exec step (⟨fun _ => true, 0, 0⟩ : Config).init
        [.begin 0 (.lock 0 .tryLock), .act 0 (.mutex (.cas true)), .begin 1 (.lock 0 .lockBlock),
          .act 1 (.mutex (.enter .sync)), .act 1 (.mutex (.cas false)), .act 1 (.push .sync 0),
          .act 1 (.mutex (.leave .sync))] = some s ∧ s.used = 2 ∧ s.call 0 = .holding (.user 0) none ∧
        s.call 1 = .running 1 (.user 0) (.lock (.park none) .first) ∧ s.sh.woken (.thread 1) = false :=
    ⟨_, rfl, rfl, rfl, rfl, rfl⟩
  obtain ⟨s, hs, hused, h0, h1, hw⟩ := hrun
  have hr := reachable_of_exec hs
  have hcall : ∀ i, i = 0 ∨ i = 1 ∨ s.call i = .idle := by
    intro i
    rcases i with _ | _ | i
    · exact .inl rfl
    · exact .inr (.inl rfl)
    · refine .inr (.inr (hr.sane.numbered _ ?_))
      rw [hused]
      exact Nat.le_add_left 2 i
  have hstill : s.Still := by
    constructor
    · intro i t k pc hi
      rcases hcall i with rfl | rfl | hidle
      · cases h0.symm.trans hi
      · cases h1.symm.trans hi
        simp [Pc.able, LockPc.able, Shared.expired, hw]
      · cases hidle.symm.trans hi
    · intro i k pc hi
      rcases hcall i with rfl | rfl | hidle
      · cases h0.symm.trans hi
      · cases h1.symm.trans hi
      · cases hidle.symm.trans hi
  exact ⟨s, hs, hstill, only_users_block hr⟩

end State

end WasmSafeMutex
