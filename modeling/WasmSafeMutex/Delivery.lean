import WasmSafeMutex.Numbers

/-!
# Where the wake of a waiting call is

A call that waits on a list has a waker there, until someone detaches it and wakes it. The
same holds for the two lists of a mutex and for the three of a condition variable, so both
are `Place`s here.
-/

namespace WasmSafeMutex

variable {V : Type}

/-! ## Lists of wakers -/

inductive Place
  | mutex (m : MutexId) (k : Side)
  | condvar (c : CondvarId) (k : Kind)
  deriving DecidableEq

def Shared.waitingAt (sh : Shared V) : Place → List Waker
  | .mutex m k => (sh.mutex m).waiting k
  | .condvar c k => ((sh.condvar c).waiting k).map Entry.waker

theorem Shared.waitingAt_mutex (sh : Shared V) (m : MutexId) {x : MutexState}
    (hx : x.waiting = (sh.mutex m).waiting) : (sh.setMutex m x).waitingAt = sh.waitingAt := by
  funext p
  rcases p with ⟨m', k⟩ | ⟨c, k⟩
  · by_cases hm : m' = m
    · subst hm; simp [waitingAt, setMutex, hx]
    · simp [waitingAt, setMutex, hm]
  · rfl

theorem Shared.waitingAt_update_mutex (sh : Shared V) (m : MutexId) (k : Side) (ws : List Waker)
    (x : MutexState) (hx : x.waiting = Function.update (sh.mutex m).waiting k ws) :
    (sh.setMutex m x).waitingAt = Function.update sh.waitingAt (.mutex m k) ws := by
  funext p
  rcases p with ⟨m', k'⟩ | ⟨c, k'⟩
  · by_cases hm : m' = m
    · subst hm
      by_cases hk : k' = k
      · subst hk; simp [waitingAt, setMutex, hx]
      · simp [waitingAt, setMutex, hx, hk]
    · simp [waitingAt, setMutex, hm]
  · simp [waitingAt, setMutex]

theorem Shared.waitingAt_update_condvar (sh : Shared V) (c : CondvarId) (k : Kind) (es : List Entry) :
    (sh.setCondvar c ((sh.condvar c).set k es)).waitingAt =
      Function.update sh.waitingAt (.condvar c k) (es.map Entry.waker) := by
  funext p
  rcases p with ⟨m, k'⟩ | ⟨c', k'⟩
  · simp [waitingAt, setCondvar]
  · by_cases hc : c' = c
    · subst hc
      by_cases hk : k' = k
      · subst hk; simp [waitingAt, setCondvar, CondvarState.set]
      · simp [waitingAt, setCondvar, CondvarState.set, hk]
    · simp [waitingAt, setCondvar, hc]

theorem Shared.setCondvar_self (sh : Shared V) (c : CondvarId) : sh.setCondvar c (sh.condvar c) = sh := by
  simp [setCondvar]

/-- What the operation takes out of a list to wake it. -/
def Act.detached (m : MutexId) : Act V → Place → List Waker
  | .mutex (.take k ws), p => if p = .mutex m k then ws else []
  | .condvar c (.pop k (some e)), p => if p = .condvar c k then [e.waker] else []
  | .condvar c (.take k es), p => if p = .condvar c k then es.map Entry.waker else []
  | _, _ => []

/-- The operation of a call on thread `t` takes its own waker `w` out of a list. -/
def Act.removes (t : ThreadId) (w : Waker) : Act V → Prop
  | .condvar _ (.remove k n true) => w = k.waker t n
  | _ => False

/-- No operation loses a waker. -/
theorem Shared.Applied.keeps {sh sh' : Shared V} {m : MutexId} {i : CallId} {t : ThreadId}
    {a : Act V} (h : sh.Applied m i t a sh') {p : Place} {w : Waker} (hw : w ∈ sh.waitingAt p) :
    w ∈ sh'.waitingAt p ∨ w ∈ a.detached m p ∨ a.removes t w := by
  cases h with
  | mutex a x hx =>
    cases hx with
    | take k hk =>
      by_cases hp : p = .mutex m k
      · subst hp; exact .inr (.inl (by simpa [Act.detached, Shared.waitingAt] using hw))
      · refine .inl ?_
        rw [sh.waitingAt_update_mutex m k [] _ rfl]
        simpa [hp] using hw
    | _ =>
      refine .inl ?_
      rw [Shared.waitingAt_mutex]
      exacts [hw, rfl]
  | push k =>
    refine .inl ?_
    change w ∈ (sh.setMutex m _).waitingAt p
    rw [sh.waitingAt_update_mutex m k ((sh.mutex m).waiting k ++ [k.waker t sh.fresh]) _ rfl]
    by_cases hp : p = .mutex m k
    · subst hp
      rw [Function.update_self]
      exact List.mem_append_left _ hw
    · simpa [hp] using hw
  | condvar c a x hx =>
    cases hx with
    | popNone | has | absent => exact .inl (by rwa [sh.setCondvar_self])
    | popSome k es e hk =>
      rw [sh.waitingAt_update_condvar]
      by_cases hp : p = .condvar c k
      · subst hp
        rw [Shared.waitingAt, hk, List.map_append, List.mem_append] at hw
        rcases hw with hw | hw
        · exact .inl (by simpa using hw)
        · exact .inr (.inl (by simpa [Act.detached] using hw))
      · exact .inl (by simpa [hp] using hw)
    | take k =>
      rw [sh.waitingAt_update_condvar]
      by_cases hp : p = .condvar c k
      · subst hp; exact .inr (.inl (by simpa [Act.detached, Shared.waitingAt] using hw))
      · exact .inl (by simpa [hp] using hw)
    | removed k n es e es' hk he =>
      rw [sh.waitingAt_update_condvar]
      by_cases hp : p = .condvar c k
      · subst hp
        by_cases hwe : w = e.waker
        · exact .inr (.inr (hwe.trans he))
        · refine .inl ?_
          rw [Shared.waitingAt, hk] at hw
          simpa [hwe] using hw
      · exact .inl (by simpa [hp] using hw)
  | register c k =>
    refine .inl ?_
    change w ∈ (sh.setCondvar c ((sh.condvar c).set k _)).waitingAt p
    rw [sh.waitingAt_update_condvar]
    by_cases hp : p = .condvar c k
    · subst hp
      rw [Function.update_self, List.map_append]
      exact List.mem_append_left _ hw
    · simpa [hp] using hw
  | _ => exact .inl hw

theorem Shared.Applied.woken_of_wake {sh sh' : Shared V} {m : MutexId} {i : CallId} {t : ThreadId}
    {a : Act V} {w : Waker} (h : sh.Applied m i t a sh') (ha : a = .wake w) : sh'.woken w = true := by
  subst ha
  cases h
  exact Function.update_self ..

/-- The wake of `w` stays, except that a thread uses up its own token. -/
theorem Shared.Applied.woken {sh sh' : Shared V} {m : MutexId} {i : CallId} {t : ThreadId}
    {a : Act V} (h : sh.Applied m i t a sh') {w : Waker} (hw : sh.woken w = true) :
    sh'.woken w = true ∨ a = .park true ∧ w = .thread t := by
  cases h with
  | wake w' => exact .inl (woken_wake hw)
  | unparked ht =>
    by_cases hwt : w = .thread t
    · exact .inr ⟨rfl, hwt⟩
    · exact .inl (by simpa [hwt] using hw)
  | _ => exact .inl hw

/-! ## Who waits and who wakes -/

/-- The list and the waker that a lock call on thread `t` waits with. A suspended future is
on no thread. -/
def LockPc.awaits (t : Option ThreadId) : LockPc → Option (Side × Waker)
  | .leave .sync _ _ | .park _ => t.map fun t => (.sync, .thread t)
  | .leave .async _ n | .await n | .spawn _ n | .raceNotify _ n _ | .raceTimeout _ n _ =>
    some (.async, .cont n)
  | _ => none

/-- The same for a wait call, as long as it has observed neither its wake nor its timeout. A
spinning call counts until it takes the lock again, since it waits once more after its
timeout when its entry is gone. -/
def WaitPc.awaits (t : Option ThreadId) : WaitPc → Option (Kind × Waker)
  | .spinLoad n | .spinNow n _ | .spinRemove n | .spinDrain n => some (.spin, .flag n)
  | .park _ | .blockNow _ _ | .parkTimeout _ _ => t.map fun t => (.sync, .thread t)
  | .spawn n _ | .await n | .raceNotify n _ | .raceTimeout n _ => some (.async, .cont n)
  | _ => none

def Pc.awaits (k : Caller V) (t : Option ThreadId) : Pc V → Option (Place × Waker)
  | .lock l _ => (l.awaits t).map fun x => (.mutex k.mutex x.1, x.2)
  | .wait f w | .unlock _ (.wait f w) => (w.awaits t).map fun x => (.condvar f.cv x.1, x.2)
  | _ => none

def Call.awaits (c : Call V) : Option (Place × Waker) :=
  match c with
  | .running t k pc => pc.awaits k (some t)
  | .suspended k pc => pc.awaits k none
  | _ => none

/-- What a call has detached from a list of this mutex or condition variable, and has still
to wake. -/
def Pc.delivers (k : Caller V) : Pc V → Place → List Waker
  | .unlock (.wake _ w ws) _, .mutex m _ => if m = k.mutex then w :: ws else []
  | .notify c (.wakeOne e), .condvar c' _ => if c' = c then [e.waker] else []
  | .notify c (.wakeAll _ e es), .condvar c' _ => if c' = c then (e :: es).map Entry.waker else []
  | _, _ => []

def Call.delivers : Call V → Place → List Waker
  | .running _ k pc, p => pc.delivers k p
  | _, _ => []

theorem LockPc.thread_of_awaits {l : LockPc} {o : Option ThreadId} {k : Side} {t : ThreadId}
    (h : l.awaits o = some (k, .thread t)) : o = some t := by
  unfold LockPc.awaits at h
  split at h <;> simp_all

theorem WaitPc.thread_of_awaits {w : WaitPc} {o : Option ThreadId} {k : Kind} {t : ThreadId}
    (h : w.awaits o = some (k, .thread t)) : o = some t := by
  unfold WaitPc.awaits at h
  split at h <;> simp_all

theorem Pc.thread_of_awaits {pc : Pc V} {k : Caller V} {o : Option ThreadId} {p : Place} {t : ThreadId}
    (h : pc.awaits k o = some (p, .thread t)) : o = some t := by
  unfold Pc.awaits at h
  split at h
  case h_1 l ret =>
    obtain ⟨⟨side, w⟩, hl, he⟩ := Option.map_eq_some_iff.mp h
    cases he; exact LockPc.thread_of_awaits hl
  case h_2 f w | h_3 u f w =>
    obtain ⟨⟨kind, w⟩, hl, he⟩ := Option.map_eq_some_iff.mp h
    cases he; exact WaitPc.thread_of_awaits hl
  case h_4 => cases h

theorem Call.thread_of_awaits {c : Call V} {p : Place} {t : ThreadId}
    (h : c.awaits = some (p, .thread t)) : c.thread? = some t := by
  cases c with
  | running t' k pc => exact Pc.thread_of_awaits h
  | suspended k pc => cases Pc.thread_of_awaits h
  | _ => cases h

theorem LockPc.number_of_awaits {l : LockPc} {o : Option ThreadId} {k : Side} {w : Waker} {x : Nat}
    (h : l.awaits o = some (k, w)) (hw : w = .flag x ∨ w = .cont x) : x ∈ l.numbers := by
  unfold LockPc.awaits at h
  split at h <;> rcases hw with rfl | rfl <;> simp_all [LockPc.numbers]

theorem WaitPc.number_of_awaits {wp : WaitPc} {o : Option ThreadId} {k : Kind} {w : Waker} {x : Nat}
    (h : wp.awaits o = some (k, w)) (hw : w = .flag x ∨ w = .cont x) : x ∈ wp.numbers := by
  unfold WaitPc.awaits at h
  split at h <;> rcases hw with rfl | rfl <;> simp_all [WaitPc.numbers]

/-- The number in the waker that a call waits with is its own. -/
theorem Pc.number_of_awaits {pc : Pc V} {k : Caller V} {o : Option ThreadId} {p : Place} {w : Waker}
    {x : Nat} (h : pc.awaits k o = some (p, w)) (hw : w = .flag x ∨ w = .cont x) : x ∈ pc.numbers := by
  unfold Pc.awaits at h
  split at h
  case h_1 l ret =>
    obtain ⟨⟨side, w'⟩, hl, he⟩ := Option.map_eq_some_iff.mp h
    cases he; exact LockPc.number_of_awaits hl hw
  case h_2 f wp | h_3 u f wp =>
    obtain ⟨⟨kind, w'⟩, hl, he⟩ := Option.map_eq_some_iff.mp h
    cases he; exact WaitPc.number_of_awaits hl hw
  case h_4 => cases h

theorem Call.number_of_awaits {c : Call V} {p : Place} {w : Waker} {x : Nat}
    (h : c.awaits = some (p, w)) (hw : w = .flag x ∨ w = .cont x) : x ∈ c.numbers := by
  cases c with
  | running t k pc | suspended k pc => exact Pc.number_of_awaits h hw
  | _ => cases h

theorem Caller.onLocked_awaits (k : Caller V) (ret : LockRet) (t : ThreadId) :
    ((k.onLocked ret).call k t).awaits = none := by
  unfold Caller.onLocked
  split <;> rfl

theorem RecvKind.onEmpty_awaits (rk : RecvKind) (k : Caller V) (n : Nat) (o : Option ThreadId) :
    (rk.onEmpty n : Pc V).awaits k o = none := by
  unfold RecvKind.onEmpty
  split
  · rfl
  · cases rk with
    | tryRecv => rfl
    | recv st d => cases st <;> cases d <;> rfl

/-! ## One operation of a waiting call -/

theorem Shared.Applied.pushed {sh sh' : Shared V} {m : MutexId} {i : CallId} {t : ThreadId} {k : Side}
    {n : Nat} (h : sh.Applied m i t (.push k n) sh') : k.waker t n ∈ sh'.waitingAt (.mutex m k) := by
  cases h
  simp [Shared.waitingAt, Shared.setMutex, MutexState.push]

theorem Shared.Applied.registered {sh sh' : Shared V} {m : MutexId} {i : CallId} {t : ThreadId}
    {c : CondvarId} {k : Kind} {n : Nat} (h : sh.Applied m i t (.register c k n) sh') :
    k.waker t n ∈ sh'.waitingAt (.condvar c k) := by
  cases h
  simp [Shared.waitingAt, Shared.setCondvar, CondvarState.push, CondvarState.set, Kind.entry]

theorem Shared.Applied.found {sh sh' : Shared V} {m : MutexId} {i : CallId} {t : ThreadId}
    {c : CondvarId} (h : sh.Applied m i t (.condvar c (.has true)) sh') :
    sh' = sh ∧ .thread t ∈ sh.waitingAt (.condvar c .sync) := by
  generalize ha : Act.condvar c (.has true) = a at h
  cases h with
  | condvar c' a x hx =>
    cases ha
    generalize hb : CondvarAct.has true = b at hx
    cases hx with
    | has =>
      obtain ⟨e, he, hw⟩ := List.any_eq_true.mp (CondvarAct.has.inj hb).symm
      exact ⟨sh.setCondvar_self _, List.mem_map.mpr ⟨e, he, by simpa [Entry.isOf] using hw⟩⟩
    | _ => cases hb
  | _ => cases ha

def LockOut.awaits (t : ThreadId) : LockOut → Option (Side × Waker)
  | .goto l => l.awaits (some t)
  | .yield l => l.awaits none
  | _ => none

def WaitOut.awaits (t : ThreadId) : WaitOut → Option (Kind × Waker)
  | .goto w | .drop w => w.awaits (some t)
  | .yield w => w.awaits none
  | .relock _ => none

theorem LockPc.Step.awaits {l : LockPc} {a : Act V} {o : LockOut} {sh sh' : Shared V} {m : MutexId}
    {i : CallId} {t : ThreadId} (h : l.Step a o) (ha : sh.Applied m i t a sh') {k : Side} {w : Waker}
    (ho : o.awaits t = some (k, w)) :
    l.awaits (some t) = some (k, w) ∧ a ≠ .park true ∧ ¬ a.removes t w ∨
      w ∈ sh'.waitingAt (.mutex m k) := by
  cases h with
  | push k' d n =>
    have := ha.pushed
    cases k' <;> cases ho <;> exact .inr this
  | leave k' d n =>
    refine .inl ⟨?_, by simp, fun hr => hr.elim⟩
    cases k' <;> cases d <;> exact ho
  | spawn d n m | awaitPending n | racePending d n m => exact .inl ⟨ho, by simp, fun hr => hr.elim⟩
  | raceNotify d n m b =>
    cases b with
    | true => cases ho
    | false => exact .inl ⟨ho, by simp, fun hr => hr.elim⟩
  | tryLock won | lastTry won | tryIn k d won => cases won <;> cases ho
  | spinNow d y | now k d y => split at ho <;> cases ho
  | probe d b => cases b <;> cases d <;> cases ho
  | park d b => cases d <;> cases ho
  | _ => cases ho

theorem WaitPc.Step.awaits {f : WaitFrame} {wp : WaitPc} {a : Act V} {o : WaitOut}
    {sh sh' : Shared V} {m : MutexId} {i : CallId} {t : ThreadId} (h : wp.Step f a o)
    (ha : sh.Applied m i t a sh') {k : Kind} {w : Waker}
    (ho : o.awaits t = some (k, w)) :
    wp.awaits (some t) = some (k, w) ∧ a ≠ .park true ∧ ¬ a.removes t w ∨
      w ∈ sh'.waitingAt (.condvar f.cv k) := by
  cases h with
  | register n =>
    have := ha.registered
    rcases f with ⟨cv, k', d⟩
    cases k' <;> cases d <;> cases ho <;> exact .inr this
  | spawn n d m => exact .inl ⟨ho, by simp, fun hr => hr.elim⟩
  | spinLoad n b =>
    cases b with
    | true => cases ho
    | false =>
      refine .inl ⟨?_, by simp, fun hr => hr.elim⟩
      rcases f with ⟨cv, k', d⟩
      cases d <;> exact ho
  | spinNow n d y =>
    refine .inl ⟨?_, by simp, fun hr => hr.elim⟩
    split at ho <;> exact ho
  | blockNow n d y =>
    refine .inl ⟨?_, by simp, fun hr => hr.elim⟩
    split at ho <;> first | exact ho | cases ho
  | spinRemove n b =>
    cases b with
    | true => cases ho
    | false => exact .inl ⟨ho, by simp, fun hr => hr.elim⟩
  | spinDrain n b | await n b | raceNotify n m b =>
    cases b with
    | true => cases ho
    | false => exact .inl ⟨ho, by simp, fun hr => hr.elim⟩
  | raceTimeout n m b =>
    cases b with
    | true => cases ho
    | false => exact .inl ⟨ho, by simp, fun hr => hr.elim⟩
  | blockCheck n d b =>
    cases b with
    | false => cases ho
    | true =>
      cases ho
      obtain ⟨rfl, hw⟩ := ha.found
      exact .inr hw
  | asyncRemove n b => cases b <;> cases ho
  | _ => cases ho

/-- Who waits after an operation has waited before it, or has its waker in the list now. -/
theorem Pc.Step.awaits {k : Caller V} {pc : Pc V} {a : Act V} {n : Next V} {sh sh' : Shared V}
    {i : CallId} {t : ThreadId} (h : pc.Step k a n) (ha : sh.Applied k.mutex i t a sh') {p : Place}
    {w : Waker} (hn : (n.call k t).awaits = some (p, w)) :
    pc.awaits k (some t) = some (p, w) ∧ a ≠ .park true ∧ ¬ a.removes t w ∨
      w ∈ sh'.waitingAt p := by
  cases h with
  | lock l ret a o ho =>
    have hlock : (o.awaits t).map (fun x => (Place.mutex k.mutex x.1, x.2)) = some (p, w) := by
      cases o with
      | goto l' | yield l' => exact hn
      | acquired => rw [LockOut.toNext, k.onLocked_awaits] at hn; cases hn
      | failed => cases hn
    obtain ⟨⟨side, w'⟩, ho', he⟩ := Option.map_eq_some_iff.mp hlock
    cases he
    refine (ho.awaits ha ho').imp_left fun hl => ⟨?_, hl.2⟩
    simp [Pc.awaits, hl.1]
  | unlock u ret a o ho =>
    cases ret with
    | wait f wp =>
      refine .inl ⟨by cases o <;> exact hn, ?_⟩
      cases ho <;> exact ⟨by simp, fun hr => hr.elim⟩
    | finish | notify => cases o <;> cases hn
  | wait f wp a o ho =>
    have hwait : (o.awaits t).map (fun x => (Place.condvar f.cv x.1, x.2)) = some (p, w) := by
      cases o with
      | relock r => rcases f with ⟨cv, kind, d⟩; cases kind <;> cases hn
      | _ => exact hn
    obtain ⟨⟨kind, w'⟩, ho', he⟩ := Option.map_eq_some_iff.mp hwait
    cases he
    refine (ho.awaits ha ho').imp_left fun hl => ⟨?_, hl.2⟩
    simp [Pc.awaits, hl.1]
  | notify c x a o ho => cases o <;> cases hn
  | sendCheck1 σ st v b hk =>
    cases b
    · cases hn
    · cases st <;> cases hn
  | sendCheck2 σ st v b hk => cases b <;> cases hn
  | recvCount rk m hk => rw [Next.call, Call.awaits, rk.onEmpty_awaits] at hn; cases hn
  | fetchSub σ old hk => split at hn <;> cases hn
  | _ => cases hn

theorem UnlockPc.drain_delivers (k : Caller V) (ret : UnlockRet V) (t : ThreadId) (side side' : Side)
    {ws : List Waker} {w : Waker} (hw : w ∈ ws) :
    w ∈ (((UnlockPc.drain side ws).toNext ret).call k t).delivers (.mutex k.mutex side') := by
  cases ws with
  | nil => cases hw
  | cons w' ws => simpa [UnlockPc.drain, UnlockOut.toNext, Next.call, Call.delivers, Pc.delivers] using hw

theorem NotifyPc.drain_delivers (k : Caller V) (c : CondvarId) (t : ThreadId) (kind kind' : Kind)
    {es : List Entry} {w : Waker} (hw : w ∈ es.map Entry.waker) :
    w ∈ (((NotifyPc.drain kind es).toNext k c).call k t).delivers (.condvar c kind') := by
  cases es with
  | nil => cases hw
  | cons e es => simpa [NotifyPc.drain, NotifyOut.toNext, Next.call, Call.delivers, Pc.delivers] using hw

/-- A waker that a call has taken out of a list stays with the call until it wakes it. -/
theorem Pc.Step.delivers {k : Caller V} {pc : Pc V} {a : Act V} {n : Next V} (t : ThreadId)
    (h : pc.Step k a n) {p : Place} {w : Waker} (hw : w ∈ a.detached k.mutex p ∨ w ∈ pc.delivers k p) :
    w ∈ (n.call k t).delivers p ∨ a = .wake w := by
  cases h with
  | lock l ret a o ho => cases ho <;> rcases hw with hw | hw <;> cases hw
  | unlock u ret a o ho =>
    cases ho with
    | store => rcases hw with hw | hw <;> cases hw
    | take side ws =>
      rcases hw with hw | hw
      · by_cases hp : p = .mutex k.mutex side
        · subst hp
          refine .inl (UnlockPc.drain_delivers k ret t side side ?_)
          simpa [Act.detached] using hw
        · simp [Act.detached, hp] at hw
      · cases hw
    | wake side w' ws =>
      rcases hw with hw | hw
      · cases hw
      · rcases p with ⟨m, side'⟩ | _
        · by_cases hm : m = k.mutex
          · subst hm
            rcases List.mem_cons.mp (by simpa [Pc.delivers] using hw) with rfl | hw
            · exact .inr rfl
            · exact .inl (UnlockPc.drain_delivers k ret t side side' hw)
          · simp [Pc.delivers, hm] at hw
        · cases hw
  | wait f wp a o ho => cases ho <;> rcases hw with hw | hw <;> cases hw
  | notify c x a o ho =>
    cases ho with
    | popSome kind e =>
      rcases hw with hw | hw
      · by_cases hp : p = .condvar c kind
        · subst hp
          refine .inl ?_
          simpa [Act.detached, NotifyOut.toNext, Next.call, Call.delivers, Pc.delivers] using hw
        · simp [Act.detached, hp] at hw
      · cases hw
    | popNone kind => rcases hw with hw | hw <;> cases hw
    | wakeOne e =>
      rcases hw with hw | hw
      · cases hw
      · rcases p with _ | ⟨c', kind⟩
        · cases hw
        · by_cases hc : c' = c
          · refine .inr ?_
            rw [show w = e.waker by simpa [Pc.delivers, hc] using hw]
          · simp [Pc.delivers, hc] at hw
    | take kind es =>
      rcases hw with hw | hw
      · by_cases hp : p = .condvar c kind
        · subst hp
          refine .inl (NotifyPc.drain_delivers k c t kind kind ?_)
          simpa [Act.detached] using hw
        · simp [Act.detached, hp] at hw
      · cases hw
    | wakeAll kind e es =>
      rcases hw with hw | hw
      · cases hw
      · rcases p with _ | ⟨c', kind'⟩
        · cases hw
        · by_cases hc : c' = c
          · subst hc
            have hmem : w ∈ e.waker :: es.map Entry.waker := by simpa [Pc.delivers] using hw
            rcases List.mem_cons.mp hmem with rfl | hw
            · exact .inr rfl
            · exact .inl (NotifyPc.drain_delivers k c' t kind kind' hw)
          · simp [Pc.delivers, hc] at hw
  | _ => rcases hw with hw | hw <;> cases hw

/-- What a call takes out of a list as its own is its own. -/
theorem Pc.Step.removes {k : Caller V} {pc : Pc V} {a : Act V} {n : Next V} {t : ThreadId} {w : Waker}
    (h : pc.Step k a n) (ha : a.removes t w) :
    w = .thread t ∨ ∃ x ∈ pc.numbers, w = .flag x ∨ w = .cont x := by
  cases h with
  | lock l ret a o ho => cases ho <;> exact ha.elim
  | unlock u ret a o ho => cases ho <;> exact ha.elim
  | wait f wp a o ho =>
    cases ho with
    | spinRemove x b =>
      cases b with
      | true => exact .inr ⟨x, List.mem_singleton_self x, .inl ha⟩
      | false => exact ha.elim
    | blockRemove x b =>
      cases b with
      | true => exact .inl ha
      | false => exact ha.elim
    | asyncRemove x b =>
      cases b with
      | true => exact .inr ⟨x, List.mem_singleton_self x, .inr ha⟩
      | false => exact ha.elim
    | _ => exact ha.elim
  | notify c x a o ho => cases ho <;> exact ha.elim
  | _ => exact ha.elim

theorem Call.Turn.awaits {i : CallId} {e : Event V} {c c' : Call V} (h : Call.Turn i e c c')
    (hp : ∀ k pc, c = .suspended k pc → pc.pending = true) {p : Place} {w : Waker}
    (hw : c'.awaits = some (p, w)) : c.awaits = some (p, w) := by
  cases h with
  | begin t r =>
    cases r with
    | lock m c => cases c <;> cases hw
    | recv rk =>
      rcases rk with _ | ⟨st, d⟩
      · cases hw
      · cases st <;> cases d <;> cases hw
    | _ => cases hw
  | wait t c w k r => cases w <;> cases hw
  | dropGuard t k r => cases hw
  | poll t k pc =>
    have := hp k pc rfl
    cases pc with
    | lock l ret => cases l <;> first | exact hw | cases this
    | wait f w => cases w <;> first | exact hw | cases this
    | _ => cases this
  | cancel k pc => cases hw

/-- Only a running call detaches wakers, and no event but its operations changes them. -/
theorem Call.Turn.delivers {i : CallId} {e : Event V} {c c' : Call V} (h : Call.Turn i e c c')
    (p : Place) : c.delivers p = [] := by
  cases h <;> rfl

/-! ## The invariant -/

namespace State

variable {s s' : State V} {e : Event V}

/-- The waker of a waiting call is in its list, or someone is about to wake it, or it has
been woken. -/
def Delivered (s : State V) : Prop :=
  ∀ i p w, (s.call i).awaits = some (p, w) →
    w ∈ s.sh.waitingAt p ∨ (∃ j, w ∈ (s.call j).delivers p) ∨ s.sh.woken w = true

theorem Acted.delivered {i : CallId} {t : ThreadId} {k : Caller V} {pc : Pc V} {a : Act V}
    {n : Next V} (h : Acted s s' i t k pc a n) (hsane : s.Sane) (hnum : s.NumbersApart)
    (hs : s.Delivered) : s'.Delivered := by
  intro j p w hj
  -- What is left of the three places for a call that waited before.
  have hold : (s.call j).awaits = some (p, w) → ¬ a.removes t w → (a = .park true → w ≠ .thread t) →
      w ∈ s'.sh.waitingAt p ∨ (∃ j, w ∈ (s'.call j).delivers p) ∨ s'.sh.woken w = true := by
    intro hw hrem hpark
    obtain hw | ⟨j', hw⟩ | hw := hs j p w hw
    · rcases h.applied.keeps hw with hw | hw | hw
      · exact .inl hw
      · have hnext := (h.step.delivers t (.inl hw)).resolve_right ?_
        · exact .inr (.inl ⟨i, by rw [h.call_self]; exact hnext⟩)
        · rintro rfl; cases hw
      · exact absurd hw hrem
    · by_cases hji : j' = i
      · subst hji
        rw [h.running] at hw
        rcases h.step.delivers t (.inr hw) with hw | hw
        · exact .inr (.inl ⟨j', by rw [h.call_self]; exact hw⟩)
        · exact .inr (.inr (h.applied.woken_of_wake hw))
      · exact .inr (.inl ⟨j', by rw [h.call_ne hji]; exact hw⟩)
    · rcases h.applied.woken hw with hw | ⟨ha, hw⟩
      · exact .inr (.inr hw)
      · exact absurd hw (hpark ha)
  by_cases hji : j = i
  · subst hji
    rw [h.call_self] at hj
    rcases h.step.awaits h.applied hj with ⟨hj, hp, hr⟩ | hj
    · exact hold (by rw [h.running]; exact hj) hr fun ha => absurd ha hp
    · exact .inl hj
  · rw [h.call_ne hji] at hj
    have hthread : w ≠ .thread t := by
      rintro rfl
      have := Call.thread_of_awaits hj
      exact hji (hsane.oneCall j i t this (by rw [h.running]; rfl))
    refine hold hj (fun hr => ?_) fun _ => hthread
    rcases h.step.removes hr with hw | ⟨x, hx, hw⟩
    · exact hthread hw
    · exact hji (hnum.apart j i x (Call.number_of_awaits hj hw) (by rw [h.running]; exact hx))

theorem Reachable.delivered [DecidableEq V] (h : s.Reachable) : s.Delivered := by
  refine h.induction (P := Delivered) ?_ ?_ ?_ ?_
  · rintro cfg i p w ⟨⟩
  · intro s s' i t k pc a n hr hs ha
    exact ha.delivered hr.sane hr.numbersApart hs
  · intro s s' e i c hr hs ht j p w hj
    have hold : (s.call j).awaits = some (p, w) := by
      by_cases hji : j = i
      · subst hji
        rw [ht.call_self] at hj
        exact ht.turn.awaits (hr.sane.pending j) hj
      · rwa [ht.call_ne hji] at hj
    rw [ht.sh]
    refine (hs j p w hold).imp_right (.imp_left ?_)
    rintro ⟨j', hw⟩
    refine ⟨j', ?_⟩
    by_cases hji : j' = i
    · subst hji
      have := ht.turn.delivers p
      rw [this] at hw; cases hw
    · rwa [ht.call_ne hji]
  · intro s s' e _ hs ha j p w hj
    rw [ha.call] at hj ⊢
    have hlists : s'.sh.waitingAt p = s.sh.waitingAt p := by
      cases p <;> simp [Shared.waitingAt, ha.around.mutex, ha.around.condvar]
    rw [hlists]
    exact (hs j p w hj).imp_right (.imp_right (ha.around.woken w))

end State

end WasmSafeMutex
