import WasmSafeMutex.Lib.Exact
import WasmSafeMutex.Places

/-!
# One owner for each mutex

The lock bit of a mutex is set just while one call owns the mutex. The history `owners`
records who won the bit, and the place of that call says that it still has it.
-/

namespace WasmSafeMutex

open Interleaving

variable {V : Type}

/-! ## Who owns the mutex -/

def LockPc.owns : LockPc → Bool
  | .leaveOwner _ => true
  | _ => false

def LockOut.owns : LockOut → Bool
  | .goto l | .yield l => l.owns
  | .acquired => true
  | .failed => false

def UnlockPc.owns : UnlockPc → Bool
  | .store => true
  | _ => false

/-- A call at this place has the lock bit of its mutex. -/
def Pc.owns : Pc V → Bool
  | .lock l _ => l.owns
  | .unlock u _ => u.owns
  | .wait _ w => !w.released
  | .waitProbe _ _ | .sendCheck2 | .sendPush | .recvPop | .recvCount => true
  | _ => false

def Next.owns : Next V → Bool
  | .goto pc | .yield pc => pc.owns
  | .hold _ => true
  | .finish _ => false

/-- The call is under way, its mutex is `m`, and `μ` holds where it is. -/
def Call.holds (μ : Next V → Bool) (m : MutexId) : Call V → Bool
  | .running _ k pc => decide (k.mutex = m) && μ (.goto pc)
  | .suspended k pc => decide (k.mutex = m) && μ (.yield pc)
  | .holding k r => decide (k.mutex = m) && μ (.hold r)
  | _ => false

def Next.isAt (ν : Pc V → Bool) (n : Next V) : Bool := n.pc?.any ν

def Call.owns (m : MutexId) : Call V → Bool := Call.holds Next.owns m

/-! ## The operations on the bit -/

def Act.wins : Act V → Bool
  | .mutex (.cas won) | .mutex (.swap won) => won
  | _ => false

def Act.frees : Act V → Bool
  | .mutex .store => true
  | _ => false

theorem LockPc.Step.owns {l : LockPc} {a : Act V} {o : LockOut} (h : l.Step a o) :
    a.frees = false ∧ o.owns = (a.wins || l.owns) := by
  refine ⟨by cases h <;> rfl, ?_⟩
  cases h with
  | tryLock won | lastTry won | tryIn k d won => cases won <;> rfl
  | spinNow d x | now k d x => split <;> rfl
  | probe d b => cases b <;> cases d <;> rfl
  | leave k d n => cases d <;> cases k <;> rfl
  | park d b => cases d <;> rfl
  | raceNotify d n m b => cases b <;> rfl
  | _ => rfl

theorem UnlockPc.owns_drain {k : Side} {ws : List Waker} {u : UnlockPc} (h : drain k ws = .goto u) :
    u.owns = false := by
  cases ws <;> cases k <;> cases h <;> rfl

theorem UnlockPc.Step.owns {u : UnlockPc} {a : Act V} {o : UnlockOut} (h : u.Step a o) :
    a.wins = false ∧ a.frees = u.owns ∧ ∀ u', o = .goto u' → u'.owns = false := by
  cases h with
  | store => exact ⟨rfl, rfl, by rintro _ ⟨⟩; rfl⟩
  | take k ws | wake k w ws => exact ⟨rfl, rfl, fun _ => owns_drain⟩

theorem WaitPc.Step.owns {f : WaitFrame} {w : WaitPc} {a : Act V} {o : WaitOut}
    (h : w.Step f a o) : a.wins = false ∧ a.frees = false ∧ (o.toNext f : Next V).owns = !w.released := by
  refine ⟨by cases h <;> rfl, by cases h <;> rfl, ?_⟩
  have hr : f.relock.owns = false := by
    rcases f with ⟨cv, k, d⟩
    cases k <;> rfl
  cases h with
  | register n =>
    rcases f with ⟨cv, k, d⟩
    cases k <;> cases d <;> rfl
  | spinLoad n b =>
    rcases f with ⟨cv, k, d⟩
    cases b <;> cases d <;> first | rfl | exact hr
  | spinNow n d x | blockNow n d x => split <;> rfl
  | spinRemove n b | spinDrain n b | blockCheck n d b | await n b | raceNotify n m b
  | raceTimeout n m b | asyncRemove n b => cases b <;> first | rfl | exact hr
  | park | blockRemove | asyncSend => exact hr
  | spawn | parkTimeout => rfl

theorem NotifyPc.Step.owns {c : CondvarId} {x : NotifyPc} {a : Act V} {o : NotifyOut}
    (h : x.Step c a o) : a.wins = false ∧ a.frees = false := by
  cases h <;> exact ⟨rfl, rfl⟩

/-- Only the lock code wins the bit, and it has the guard then or is about to leave with it. -/
theorem LockPc.Step.wins {l : LockPc} {a : Act V} {o : LockOut} (h : l.Step a o) (ha : a.wins = true) :
    l.owns = false ∧ (o = .acquired ∨ ∃ k, o = .goto (.leaveOwner k)) := by
  cases h with
  | tryLock won | lastTry won | tryIn k d won =>
    simp only [Act.wins] at ha
    subst ha
    simp [tryLockOut, LockPc.owns]
  | spinWon d => simp [LockPc.owns]
  | _ => simp [Act.wins] at ha

theorem Pc.Step.wins {k : Caller V} {pc : Pc V} {a : Act V} {n : Next V} (h : pc.Step k a n)
    (ha : a.wins = true) : ∃ l ret o, pc = .lock l ret ∧ n = o.toNext k ret ∧ l.Step a o := by
  cases h with
  | lock l ret a o ho => exact ⟨l, ret, o, rfl, rfl, ho⟩
  | unlock u ret a o ho => simp [ho.owns.1] at ha
  | wait f w a o ho => simp [ho.owns.1] at ha
  | notify c x a o ho => simp [ho.owns.1] at ha
  | _ => simp [Act.wins] at ha

theorem Caller.onLocked_owns (k : Caller V) (ret : LockRet) : (k.onLocked ret).owns = true := by
  unfold Caller.onLocked
  split <;> rfl

theorem RecvKind.onEmpty_owns (rk : RecvKind) (n : Nat) : (rk.onEmpty n : Pc V).owns = true := by
  unfold RecvKind.onEmpty
  split
  · rfl
  · cases rk with
    | tryRecv => rfl
    | recv st d => cases st <;> cases d <;> rfl

/-- A call that is under way keeps its caller. -/
theorem Next.caller_call (k : Caller V) (t : ThreadId) (n : Next V) :
    (n.call k t).caller? = some k ∨ ∃ o, n.call k t = .done o := by
  cases n with
  | finish o => exact .inr ⟨o, rfl⟩
  | _ => exact .inl rfl

/-- What an operation does to the bit of a mutex and to the history beside it. -/
theorem Shared.Applied.bit {sh sh' : Shared V} {m : MutexId} {i : CallId} {t : ThreadId} {a : Act V}
    (h : sh.Applied m i t a sh') :
    (a.wins = true ∧ (sh.mutex m).dataLock = false ∧ (sh'.mutex m).dataLock = true ∧
      (sh'.mutex m).owners = i :: (sh.mutex m).owners) ∨
    (a.wins = false ∧ a.frees = true ∧ (sh'.mutex m).dataLock = false ∧
      (sh'.mutex m).owners = (sh.mutex m).owners.erase i) ∨
    (a.wins = false ∧ a.frees = false ∧ (sh'.mutex m).dataLock = (sh.mutex m).dataLock ∧
      (sh'.mutex m).owners = (sh.mutex m).owners) := by
  cases h with
  | mutex a x hx =>
    simp only [Shared.setMutex, Function.update_self]
    cases hx with
    | casWon hb | swapWon hb => exact .inl ⟨rfl, hb, rfl, rfl⟩
    | store => exact .inr (.inl ⟨rfl, rfl, rfl, rfl⟩)
    | _ => exact .inr (.inr ⟨rfl, rfl, rfl, rfl⟩)
  | push k =>
    refine .inr (.inr ⟨rfl, rfl, ?_, ?_⟩) <;> simp [Shared.setMutex, MutexState.push]
  | _ => exact .inr (.inr ⟨rfl, rfl, rfl, rfl⟩)

theorem Shared.Applied.mutex_ne {sh sh' : Shared V} {m m' : MutexId} {i : CallId} {t : ThreadId}
    {a : Act V} (h : sh.Applied m i t a sh') (hm : m' ≠ m) : sh'.mutex m' = sh.mutex m' := by
  cases h with
  | mutex a x _ => exact Function.update_of_ne hm ..
  | push k => exact Function.update_of_ne hm ..
  | _ => rfl

/-! ## Waiting gives the mutex up and takes it back -/

/-- The call is inside a wait method of `Condvar`. -/
def Pc.inWait : Pc V → Bool
  | .waitProbe _ _ | .wait _ _ | .unlock _ (.wait _ _) | .lock _ (.relock _) => true
  | _ => false

def Next.inWait : Next V → Bool
  | .goto pc | .yield pc => pc.inWait
  | _ => false

def Call.inWait (c : Call V) : Bool :=
  match c.pc? with
  | some pc => pc.inWait
  | none => false

theorem Next.inWait_call (k : Caller V) (t : ThreadId) (n : Next V) :
    (n.call k t).inWait = n.inWait := by
  cases n <;> rfl

theorem Pc.Step.wait_begins {k : Caller V} {pc : Pc V} {a : Act V} {n : Next V} (h : pc.Step k a n)
    (hw : pc.inWait = false) (hn : n.inWait = true) : pc.owns = true := by
  cases h with
  | lock l ret a o ho =>
    cases ret with
    | relock r => cases hw
    | first => cases o with
      | acquired => cases k <;> cases hn
      | _ => cases hn
  | unlock u ret a o ho =>
    cases ret with
    | wait f w => cases hw
    | finish | notify => cases o <;> cases hn
  | notify c x a o ho => cases o <;> cases hn
  | sendCheck1 σ st v b => cases b <;> cases hn
  | fetchSub σ old => split at hn <;> cases hn
  | wait | waitProbe => cases hw
  | clearActive => cases hn
  | _ => rfl

/-! ## The invariant -/

theorem Call.Turn.owns {i : CallId} {e : Event V} {c c' : Call V} (h : Call.Turn i e c c')
    (hp : ∀ k pc, c = .suspended k pc → pc.pending = true) (m : MutexId) : c'.owns m = c.owns m := by
  cases h with
  | begin t r =>
    have hg : r.entry.owns = false := by
      cases r with
      | lock m c => cases c <;> rfl
      | recv rk =>
        rcases rk with _ | ⟨st, d⟩
        · rfl
        · cases st <;> cases d <;> rfl
      | _ => rfl
    simp [Call.owns, Call.holds, Next.owns, hg]
  | wait t c w k r =>
    have hg : (w.entry (.user c) : Pc V).owns = true := by cases w <;> rfl
    simp [Call.owns, Call.holds, Next.owns, hg]
  | dropGuard t k r => rfl
  | poll t k pc => rfl
  | cancel k pc =>
    have hg : pc.owns = false := by
      have := hp k pc rfl
      revert this
      cases pc with
      | lock l ret => cases l <;> simp [Pc.pending, LockPc.pending, Pc.owns, LockPc.owns]
      | wait f w => cases w <;> simp [Pc.pending, WaitPc.pending, Pc.owns, WaitPc.released]
      | _ => simp [Pc.pending]
    simp [Call.owns, Call.holds, Next.owns, hg]

/-- What is false where code begins and where a future stays is not changed between the
operations of a call. -/
theorem Call.Turn.holds {i : CallId} {e : Event V} {c c' : Call V} (h : Call.Turn i e c c')
    (hp : ∀ k pc, c = .suspended k pc → pc.pending = true) {ν : Pc V → Bool}
    (hbegin : ∀ pc, pc.begins = true → ν pc = false) (hstay : ∀ pc, pc.pending = true → ν pc = false)
    (m : MutexId) : c'.holds (Next.isAt ν) m = c.holds (Next.isAt ν) m := by
  cases h with
  | begin t r => simp [Call.holds, Next.isAt, Next.pc?, hbegin _ r.begins_entry]
  | wait t c w k r => simp [Call.holds, Next.isAt, Next.pc?, hbegin _ (w.begins_entry (.user c))]
  | dropGuard t k r => simp [Call.holds, Next.isAt, Next.pc?, hbegin (unlockAndReturn .released) rfl]
  | poll t k pc => rfl
  | cancel k pc => simp [Call.holds, Next.isAt, Next.pc?, hstay _ (hp k pc rfl)]

namespace State

variable {s s' : State V} {e : Event V} {i : CallId} {t : ThreadId} {k : Caller V} {pc : Pc V}
  {a : Act V} {n : Next V}

theorem Acted.holds_old (h : Acted s s' i t k pc a n) (μ : Next V → Bool) :
    (s.call i).holds μ k.mutex = μ (.goto pc) := by
  simp [h.running, Call.holds]

theorem Acted.holds_new (h : Acted s s' i t k pc a n) {μ : Next V → Bool}
    (hμ : ∀ o, μ (.finish o) = false) : (s'.call i).holds μ k.mutex = μ n := by
  rw [h.call_self]
  cases n <;> simp [Next.call, Call.holds, hμ]

theorem Acted.holds_other (h : Acted s s' i t k pc a n) (μ : Next V → Bool) {m : MutexId}
    (hm : m ≠ k.mutex) (j : CallId) : (s'.call j).holds μ m = (s.call j).holds μ m := by
  by_cases hj : j = i
  · subst hj
    rw [h.call_self, h.running]
    cases n <;> simp [Next.call, Call.holds, Ne.symm hm]
  · rw [h.call_ne hj]

/-- A bit of a mutex and the calls that hold it stay exact over an operation that does to
both the same. -/
theorem Acted.exact (h : Acted s s' i t k pc a n) (bit : MutexState → Bool) {μ : Next V → Bool}
    (hμ : ∀ o, μ (.finish o) = false)
    (hbit : bit (s.sh.mutex k.mutex) = false ∧ bit (s'.sh.mutex k.mutex) = true ∧ μ n = true ∨
      bit (s'.sh.mutex k.mutex) = false ∧ μ (.goto pc) = true ∧ μ n = false ∨
      bit (s'.sh.mutex k.mutex) = bit (s.sh.mutex k.mutex) ∧ μ n = μ (.goto pc))
    {m : MutexId} (hs : Exact (bit (s.sh.mutex m)) fun j => (s.call j).holds μ m) :
    Exact (bit (s'.sh.mutex m)) fun j => (s'.call j).holds μ m := by
  by_cases hm : m = k.mutex
  · subst hm
    refine hs.step (i := i) (fun j hj => by rw [h.call_ne hj]) ?_
    simp only [h.holds_old μ, h.holds_new hμ]
    exact hbit
  · rw [h.applied.mutex_ne hm]
    exact hs.keep (h.holds_other μ hm)

theorem Turned.holds {c : Call V} (h : Turned s s' e i c) (hs : s.Sane) {ν : Pc V → Bool}
    (hbegin : ∀ pc, pc.begins = true → ν pc = false) (hstay : ∀ pc, pc.pending = true → ν pc = false)
    (m : MutexId) (j : CallId) :
    (s'.call j).holds (Next.isAt ν) m = (s.call j).holds (Next.isAt ν) m := by
  by_cases hj : j = i
  · subst hj
    rw [h.call_self]
    exact h.turn.holds (hs.pending j) hbegin hstay m
  · rw [h.call_ne hj]

structure Exclusive (s : State V) (m : MutexId) : Prop where
  exact : Exact (s.sh.mutex m).dataLock fun j => (s.call j).owns m
  count : (s.sh.mutex m).owners.length = (s.sh.mutex m).dataLock.toNat
  owner : ∀ j ∈ (s.sh.mutex m).owners, (s.call j).owns m = true

theorem Exclusive.owners_eq {m : MutexId} (h : s.Exclusive m) (hi : (s.call i).owns m = true) :
    (s.sh.mutex m).owners = [i] := by
  have hset := h.exact.set_of_holds hi
  obtain ⟨j, hj⟩ := List.length_eq_one_iff.mp (by rw [h.count, hset]; rfl)
  rw [hj, h.exact.unique (h.owner j (by simp [hj])) hi]

end State

variable [DecidableEq V]

/-- The ledger of the bit: a call gets it by winning it and loses it by freeing it. -/
theorem Pc.Step.owns {k : Caller V} {pc : Pc V} {a : Act V} {n : Next V} (h : pc.Step k a n)
    (hp : pc.fits k = true) :
    n.owns = (a.wins || pc.owns && !a.frees) ∧ (a.frees = true → pc.owns = true) := by
  cases h with
  | lock l ret a o ho =>
    obtain ⟨hf, hw⟩ := ho.owns
    refine ⟨?_, by simp [hf]⟩
    simp only [hf, Bool.not_false, Bool.and_true]
    rw [show (Pc.lock l ret : Pc V).owns = l.owns from rfl, ← hw]
    cases o with
    | acquired => exact k.onLocked_owns ret
    | _ => rfl
  | unlock u ret a o ho =>
    obtain ⟨hw, hf, hu⟩ := ho.owns
    simp only [hw, hf, Pc.owns, Bool.false_or, Bool.and_not_self, imp_self, and_true]
    cases o with
    | goto u' => exact hu u' rfl
    | finished => cases ret with
      | wait f w =>
        simp only [Pc.fits, Bool.and_eq_true] at hp
        simp [UnlockOut.toNext, UnlockRet.onUnlocked, Next.owns, Pc.owns,
          WaitPc.released_of_starts hp.2]
      | _ => rfl
  | wait f w a o ho =>
    obtain ⟨hw, hf, ho⟩ := ho.owns
    simp [hw, hf, ho, Pc.owns]
  | notify c x a o ho =>
    obtain ⟨hw, hf⟩ := ho.owns
    refine ⟨?_, by simp [hf]⟩
    rw [hw]
    cases o <;> rfl
  | sendCheck1 σ st v b hk =>
    refine ⟨?_, by simp [Act.frees]⟩
    cases b
    · rfl
    · cases st <;> rfl
  | sendCheck2 σ st v b hk => cases b <;> exact ⟨rfl, by simp [Act.frees]⟩
  | recvCount rk m hk => exact ⟨rk.onEmpty_owns m, by simp [Act.frees]⟩
  | fetchSub σ old hk =>
    refine ⟨?_, by simp [Act.frees]⟩
    split <;> rfl
  | _ => exact ⟨rfl, by simp [Act.frees]⟩

namespace State

variable {s s' : State V} {e : Event V} {i : CallId} {t : ThreadId} {k : Caller V} {pc : Pc V}
  {a : Act V} {n : Next V}

theorem Acted.exclusive (h : Acted s s' i t k pc a n) (hf : pc.fits k = true) (m : MutexId)
    (hs : s.Exclusive m) : s'.Exclusive m := by
  obtain ⟨hn, hfree⟩ := h.step.owns hf
  have hold : Next.owns (.goto pc) = pc.owns := rfl
  have hex : Exact (s'.sh.mutex m).dataLock fun j => (s'.call j).owns m := by
    refine h.exact MutexState.dataLock (fun _ => rfl) ?_ hs.exact
    rcases h.applied.bit with ⟨hw, hb, hb', -⟩ | ⟨hw, hfr, hb', -⟩ | ⟨hw, hfr, hb', -⟩
    · exact .inl ⟨hb, hb', by simp [hn, hw]⟩
    · exact .inr (.inl ⟨hb', hold.trans (hfree hfr), by simp [hn, hw, hfr]⟩)
    · exact .inr (.inr ⟨hb', by simp [hn, hw, hfr, hold]⟩)
  by_cases hm : m = k.mutex
  · subst hm
    rcases h.applied.bit with ⟨hw, hb, hb', hl⟩ | ⟨hw, hfr, hb', hl⟩ | ⟨hw, hfr, hb', hl⟩
    · have hnil : (s.sh.mutex k.mutex).owners = [] := List.length_eq_zero_iff.mp (by simp [hs.count, hb])
      refine ⟨hex, by simp [hl, hnil, hb'], fun j hj => ?_⟩
      obtain rfl : j = i := by simpa [hl, hnil] using hj
      exact (h.holds_new fun _ => rfl).trans (by simp [hn, hw])
    · have hone := hs.owners_eq ((h.holds_old Next.owns).trans (hold.trans (hfree hfr)))
      exact ⟨hex, by simp [hl, hone, hb'], by simp [hl, hone]⟩
    · refine ⟨hex, by rw [hl, hb', hs.count], fun j hj => ?_⟩
      have hj := hs.owner j (hl ▸ hj)
      by_cases hji : j = i
      · subst hji
        refine (h.holds_new fun _ => rfl).trans ?_
        rw [hn, hw, hfr, ← hold, ← h.holds_old Next.owns]
        simpa [Call.owns] using hj
      · rw [h.call_ne hji]; exact hj
  · have hmm := h.applied.mutex_ne hm
    refine ⟨hex, by rw [hmm]; exact hs.count, fun j hj => ?_⟩
    exact (h.holds_other Next.owns hm j).trans (hs.owner j (hmm ▸ hj))

theorem Reachable.exclusive (h : s.Reachable) (m : MutexId) : s.Exclusive m := by
  refine h.induction (P := fun s => s.Exclusive m) ?_ ?_ ?_ ?_
  · intro cfg
    exact ⟨.free fun _ => rfl, rfl, by simp [Config.init, MutexState.new]⟩
  · intro s s' i t k pc a n hr hs ha
    have hf := hr.fits i
    rw [ha.running] at hf
    exact ha.exclusive hf m hs
  · intro s s' e i c hr hs ht
    have hall : ∀ j, (s'.call j).owns m = (s.call j).owns m := fun j => by
      by_cases hj : j = i
      · subst hj
        rw [ht.call_self]
        exact ht.turn.owns (hr.sane.pending j) m
      · rw [ht.call_ne hj]
    refine ⟨ht.sh ▸ hs.exact.keep hall, by rw [ht.sh]; exact hs.count, fun j hj => ?_⟩
    rw [hall]; exact hs.owner j (ht.sh ▸ hj)
  · intro s s' e _ hs ha
    exact ⟨by rw [ha.around.mutex, ha.call]; exact hs.exact, by rw [ha.around.mutex]; exact hs.count,
      by rw [ha.around.mutex, ha.call]; exact hs.owner⟩

end State

/-! ## Waiting returns the mutex -/

theorem Pc.Step.wait_returns {k : Caller V} {pc : Pc V} {a : Act V} {n : Next V} (h : pc.Step k a n)
    (hp : pc.fits k = true) (hw : pc.inWait = true) : n.inWait = true ∨ n.owns = true := by
  cases h with
  | lock l ret a o ho =>
    cases ret with
    | first => cases hw
    | relock r =>
      simp only [Pc.fits, Bool.and_eq_true] at hp
      cases o with
      | goto l' | yield l' => exact .inl rfl
      | acquired => exact .inr (k.onLocked_owns _)
      | failed => cases ho.untimed hp.2
  | unlock u ret a o ho =>
    cases ret with
    | wait f w => cases o <;> exact .inl rfl
    | finish | notify => cases hw
  | wait f w a o ho => cases o <;> exact .inl rfl
  | waitProbe c d b => exact .inl rfl
  | _ => cases hw

namespace State

variable {s s' : State V} {e : Event V}

theorem Reachable.wait_returns (h : s.Reachable) (hstep : s.step e = some s') {i : CallId}
    {k : Caller V} (hk : (s.call i).caller? = some k) (hw : (s.call i).inWait = true)
    (hw' : (s'.call i).inWait = false) :
    e = .cancel i ∨ (s'.call i).caller? = some k ∧ i ∈ (s'.sh.mutex k.mutex).owners := by
  have hex' := (h.step hstep).exclusive k.mutex
  rcases call_cases h.sane.numbered hstep i with hcall | ⟨a, t, k', pc, n, -, ha⟩ | ⟨c, ht⟩
  · rw [hcall, hw] at hw'; cases hw'
  · have hf := h.fits i
    rw [ha.running] at hk hw hf
    cases hk
    rw [ha.call_self, Next.inWait_call] at hw'
    have hown : n.owns = true := (ha.step.wait_returns hf hw).resolve_left (by simp [hw'])
    refine .inr ⟨?_, by simp [hex'.owners_eq ((ha.holds_new fun _ => rfl).trans hown)]⟩
    rw [ha.call_self]
    rcases Next.caller_call k t n with hc | ⟨o, ho⟩
    · exact hc
    · cases n <;> simp_all [Next.call, Next.owns]
  · rw [ht.call_self] at hw'
    have hturn := ht.turn
    generalize s.call i = c₀ at hturn hk hw
    cases hturn with
    | cancel k pc => exact .inl rfl
    | poll t k pc => exact absurd (hw.symm.trans hw') (by simp)
    | _ => cases hw

theorem Reachable.wait_begins (h : s.Reachable) (hstep : s.step e = some s') {i : CallId}
    {k : Caller V} (hk : (s'.call i).caller? = some k) (hw : (s.call i).inWait = false)
    (hw' : (s'.call i).inWait = true) :
    (s.call i).caller? = some k ∧ i ∈ (s.sh.mutex k.mutex).owners := by
  have hex := h.exclusive k.mutex
  rcases call_cases h.sane.numbered hstep i with hcall | ⟨a, t, k', pc, n, -, ha⟩ | ⟨c, ht⟩
  · rw [hcall, hw] at hw'; cases hw'
  · have hcall := ha.call_self
    rw [hcall, Next.inWait_call] at hw'
    rw [ha.running] at hw
    have hown := ha.step.wait_begins hw hw'
    rw [hcall] at hk
    rcases Next.caller_call k' t n with hc | ⟨o, ho⟩
    · cases hk.symm.trans hc
      refine ⟨by rw [ha.running]; rfl, ?_⟩
      simp [hex.owners_eq ((ha.holds_old Next.owns).trans hown)]
    · rw [ho] at hk; cases hk
  · rw [ht.call_self] at hw' hk
    have hturn := ht.turn
    generalize hc₀ : s.call i = c₀ at hturn hw
    cases hturn with
    | wait t c w k' r =>
      cases hk
      have hown : (s.call i).owns k.mutex = true := by
        simp [hc₀, Call.owns, Call.holds, Next.owns]
      exact ⟨rfl, by simp [hex.owners_eq hown]⟩
    | begin t r => cases r <;> cases hw'
    | poll t k' pc => exact absurd (hw'.symm.trans hw) (by simp)
    | dropGuard | cancel => cases hw'

/-- What the lock bit and the history `owners` say, whoever locks, waits or gives up. -/
structure OwnersExact (s : State V) : Prop where
  atMostOne : ∀ m, (s.sh.mutex m).owners.length ≤ 1
  bit : ∀ m, (s.sh.mutex m).dataLock = true ↔ (s.sh.mutex m).owners.length = 1
  /-- A call that has ended owns nothing, also when it timed out. -/
  ended : ∀ i o m, s.call i = .done o → i ∉ (s.sh.mutex m).owners
  /-- A wait is given the guard of an owner, and returns as the owner of the same mutex. -/
  given : ∀ e s' i k, s.step e = some s' → (s'.call i).caller? = some k →
    (s.call i).inWait = false → (s'.call i).inWait = true →
    (s.call i).caller? = some k ∧ i ∈ (s.sh.mutex k.mutex).owners
  returned : ∀ e s' i k, s.step e = some s' → (s.call i).caller? = some k →
    (s.call i).inWait = true → (s'.call i).inWait = false →
    e = .cancel i ∨ (s'.call i).caller? = some k ∧ i ∈ (s'.sh.mutex k.mutex).owners

theorem Reachable.owners_exact (h : s.Reachable) : s.OwnersExact where
  atMostOne m := by
    rw [(h.exclusive m).count]
    cases (s.sh.mutex m).dataLock <;> simp
  bit m := by
    rw [(h.exclusive m).count]
    cases (s.sh.mutex m).dataLock <;> simp
  ended i o m hi hmem := by
    have := (h.exclusive m).owner i hmem
    rw [hi] at this
    cases this
  given _ _ _ _ hs hk := h.wait_begins hs hk
  returned _ _ _ _ hs hk := h.wait_returns hs hk

theorem owners_exact_waiting : ∃ s : State Nat,
    exec State.step (⟨fun _ => true, 0, 0⟩ : Config).init
      [.begin 0 (.lock 0 .tryLock), .act 0 (.mutex (.cas true)), .wait 0 0 1 .waitBlock,
        .act 0 (.register (.user 1) .sync 0), .begin 1 (.lock 0 .lockSpin)] = some s ∧
      s.OwnersExact :=
  exists_of_exec (fun _ => true) rfl fun _ h _ => h.owners_exact

end State

end WasmSafeMutex
