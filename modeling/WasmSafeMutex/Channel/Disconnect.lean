import Mathlib.Data.Prod.Lex
import WasmSafeMutex.Channel.Fifo
import WasmSafeMutex.Mutex.Wakeup

/-!
# Disconnected is exact and final

`Drained` is what a receive has seen when it reports `Disconnected`. It stays true, and a
receive that begins in it meets nobody on its way to the same answer.
-/

namespace WasmSafeMutex

open Interleaving

variable {V : Type}

/-! ## What has been reported -/

/-- The call reports `Disconnected`: it drops its guard before that, or has ended. -/
def Pc.reports : Pc V → Bool
  | .unlock _ (.finish .disconnected) => true
  | _ => false

def Call.reports : Call V → Bool
  | .running _ _ pc | .suspended _ pc => pc.reports
  | .done .disconnected => true
  | _ => false

def Next.reports : Next V → Bool
  | .goto pc | .yield pc => pc.reports
  | .finish .disconnected => true
  | _ => false

theorem Next.reports_call (k : Caller V) (t : ThreadId) (n : Next V) :
    (n.call k t).reports = n.reports := by
  cases n with
  | finish o => cases o <;> rfl
  | _ => rfl

/-- `Disconnected` comes from `sender_count`. -/
theorem Pc.Step.reports {k : Caller V} {pc : Pc V} {a : Act V} {n : Next V} (h : pc.Step k a n)
    (hn : n.reports = true) : pc.reports = true ∨ pc = .recvCount ∧ a = .chan (.loadCount 0) := by
  cases h with
  | lock l ret a o ho =>
    cases o with
    | acquired =>
      refine absurd hn ?_
      simp only [LockOut.toNext]
      unfold Caller.onLocked
      split <;> simp [Next.reports, Pc.reports, unlockAndReturn]
    | failed =>
      refine absurd hn ?_
      simp only [LockOut.toNext]
      unfold Caller.onLockFailed
      split <;> simp [Next.reports]
    | goto | yield => cases hn
  | unlock u ret a o ho =>
    cases o with
    | goto u' =>
      cases ret with
      | finish o => cases o <;> first | exact .inl rfl | cases hn
      | wait | notify => cases hn
    | finished =>
      cases ret with
      | finish o => cases o <;> first | exact .inl rfl | cases hn
      | wait | notify => cases hn
  | wait f w a o ho => cases o <;> cases hn
  | notify c x a o ho =>
    cases o with
    | goto => cases hn
    | finished => cases k <;> cases hn
  | sendCheck1 σ st v b hk | sendCheck2 σ st v b hk => cases b <;> cases hn
  | recvCount rk m hk =>
    by_cases hm : m = 0
    · subst hm; exact .inr ⟨rfl, rfl⟩
    · refine absurd hn ?_
      simp only [RecvKind.onEmpty, hm, if_false]
      cases rk with
      | tryRecv => simp [Next.reports, Pc.reports, unlockAndReturn]
      | recv st d => cases st <;> cases d <;> simp [Next.reports, Pc.reports, Strategy.wait, WaitCall.entry]
  | fetchSub σ old hk => split at hn <;> cases hn
  | _ => cases hn

/-! ## The way of a late receive -/

/-- The places of a lock call that has not begun to wait. -/
def LockPc.direct : LockPc → Bool
  | .tryLock | .spin _ | .probe _ | .now _ _ | .lastTry | .enter _ _ | .tryIn _ _ | .leaveOwner _ => true
  | _ => false

/-- The places of a receive on its way to `Disconnected`. -/
def Pc.direct : Pc V → Bool
  | .lock l .first => l.direct
  | .recvPop | .recvCount | .unlock _ (.finish .disconnected) => true
  | _ => false

def LockPc.ahead : LockPc → Nat
  | .probe _ => 13
  | .now _ _ => 12
  | .tryIn _ _ => 10
  | .leaveOwner _ => 9
  | _ => 11

def UnlockPc.ahead : UnlockPc → Nat × Nat
  | .store => (5, 0)
  | .take .sync => (4, 0)
  | .wake .sync _ ws => (3, ws.length)
  | .take .async => (2, 0)
  | .wake .async _ ws => (1, ws.length)

/-- How far from its end the receive is. -/
def Pc.ahead : Pc V → Nat × Nat
  | .lock l _ => (l.ahead, 0)
  | .recvPop => (8, 0)
  | .recvCount => (7, 0)
  | .unlock u _ => u.ahead
  | _ => (0, 0)

theorem RecvKind.direct_entry (rk : RecvKind) : rk.entry.direct = true := by
  cases rk with
  | tryRecv => rfl
  | recv st d => cases st <;> cases d <;> rfl

/-- What a call does that meets a free lock. -/
theorem LockPc.Step.direct {l : LockPc} {a : Act V} {o : LockOut} (h : l.Step a o) (hl : l.direct = true)
    (hcas : a ≠ .mutex (.cas false)) (hswap : a ≠ .mutex (.swap false)) :
    o = .acquired ∨ ∃ l', o = .goto l' ∧ l'.direct = true ∧ l'.ahead < l.ahead := by
  cases h with
  | tryLock won | lastTry won =>
    cases won with
    | true => exact .inl rfl
    | false => exact absurd rfl hcas
  | spinWon | leaveOwner => exact .inl rfl
  | spinLost | spinTimed => exact absurd rfl hswap
  | probe d b =>
    refine .inr ⟨_, rfl, ?_⟩
    cases b <;> cases d <;> exact ⟨rfl, by simp [LockPc.ahead, LockPc.loop]⟩
  | now k d x =>
    refine .inr ⟨_, rfl, ?_⟩
    split <;> exact ⟨rfl, by simp [LockPc.ahead]⟩
  | enter k d => exact .inr ⟨_, rfl, rfl, by simp [LockPc.ahead]⟩
  | tryIn k d won =>
    cases won with
    | true => exact .inr ⟨_, rfl, rfl, by simp [LockPc.ahead]⟩
    | false => exact absurd rfl hcas
  | _ => cases hl

theorem UnlockPc.ahead_drain (k : Side) (ws : List Waker) :
    drain k ws = .finished ∨ ∃ u, drain k ws = .goto u ∧
      toLex u.ahead < toLex (UnlockPc.take k).ahead ∧
      ∀ w, toLex u.ahead < toLex (UnlockPc.wake k w ws).ahead := by
  simp only [Prod.Lex.toLex_lt_toLex]
  cases k <;> cases ws with
  | nil => simp [drain, UnlockPc.ahead]
  | cons w ws => simp [drain, UnlockPc.ahead]

theorem UnlockPc.Step.ahead {u : UnlockPc} {a : Act V} {o : UnlockOut} (h : u.Step a o) :
    o = .finished ∨ ∃ u', o = .goto u' ∧ toLex u'.ahead < toLex u.ahead := by
  cases h with
  | store => exact .inr ⟨_, rfl, by simp [Prod.Lex.toLex_lt_toLex, UnlockPc.ahead]⟩
  | take k ws =>
    rcases ahead_drain k ws with h | ⟨u', h, hlt, -⟩
    · exact .inl h
    · exact .inr ⟨u', h, hlt⟩
  | wake k w ws =>
    rcases ahead_drain k ws with h | ⟨u', h, -, hlt⟩
    · exact .inl h
    · exact .inr ⟨u', h, hlt w⟩

theorem Pc.Step.direct {rk : RecvKind} {pc : Pc V} {a : Act V} {n : Next V} (h : pc.Step (.recv rk) a n)
    (hpc : pc.direct = true) (hcas : a ≠ .mutex (.cas false)) (hswap : a ≠ .mutex (.swap false))
    (hpop : ∀ v, a ≠ .chan (.popFront (some v))) (hcount : ∀ m, a = .chan (.loadCount m) → m = 0) :
    n = .finish .disconnected ∨
      ∃ pc', n = .goto pc' ∧ pc'.direct = true ∧ toLex pc'.ahead < toLex pc.ahead := by
  cases h with
  | lock l ret a o ho =>
    cases ret with
    | relock r => cases hpc
    | first =>
      rcases ho.direct hpc hcas hswap with rfl | ⟨l', rfl, hl', hlt⟩
      · refine .inr ⟨.recvPop, rfl, rfl, ?_⟩
        have hl : 8 < l.ahead := by unfold LockPc.ahead; split <;> omega
        simpa [Prod.Lex.toLex_lt_toLex, Pc.ahead] using hl
      · exact .inr ⟨_, rfl, hl', by simpa [Prod.Lex.toLex_lt_toLex, Pc.ahead] using hlt⟩
  | unlock u ret a o ho =>
    cases ret with
    | finish out =>
      have hout : out = .disconnected := by cases out <;> first | rfl | cases hpc
      subst hout
      rcases ho.ahead with rfl | ⟨u', rfl, hlt⟩
      · exact .inl rfl
      · exact .inr ⟨_, rfl, rfl, hlt⟩
    | wait | notify => cases hpc
  | popSome v => exact absurd rfl (hpop v)
  | popNone => exact .inr ⟨_, rfl, rfl, by simp [Prod.Lex.toLex_lt_toLex, Pc.ahead]⟩
  | recvCount rk m hk =>
    obtain rfl := hcount m rfl
    exact .inr ⟨_, rfl, rfl, by simp [Prod.Lex.toLex_lt_toLex, Pc.ahead, RecvKind.onEmpty, unlockAndReturn,
      UnlockPc.ahead]⟩
  | _ => cases hpc

/-! ## Who can be at the mutex of the queue -/

theorem Caller.locks_of_waits {k : Caller V} (h : k.waits = true) : k.locks = true := by
  cases k <;> first | rfl | cases h

theorem Pc.locks_of_lock [DecidableEq V] {k : Caller V} {l : LockPc} {ret : LockRet}
    (hf : (Pc.lock l ret : Pc V).fits k = true) : k.locks = true := by
  cases ret <;> simp only [Pc.fits, Bool.and_eq_true] at hf
  · exact hf.1
  · exact Caller.locks_of_waits hf.1.1

theorem Pc.locks_of_owns [DecidableEq V] {k : Caller V} {pc : Pc V} (hf : pc.fits k = true) (h : pc.owns = true) :
    k.locks = true := by
  cases pc with
  | lock l ret => exact Pc.locks_of_lock hf
  | unlock u ret =>
    cases ret with
    | finish o => cases k <;> first | rfl | cases hf
    | wait f w =>
      simp only [Pc.fits, Bool.and_eq_true] at hf
      exact Caller.locks_of_waits hf.1.1.1.1
    | notify => cases k <;> first | rfl | cases hf
  | waitProbe c d =>
    simp only [Pc.fits, Bool.and_eq_true] at hf
    exact Caller.locks_of_waits hf.1.1
  | wait f w =>
    simp only [Pc.fits, Bool.and_eq_true] at hf
    exact Caller.locks_of_waits hf.1.1.1
  | sendCheck2 | sendPush | recvPop | recvCount => cases k <;> first | rfl | cases hf
  | _ => cases h

theorem Pc.not_owns_of_pending {pc : Pc V} (h : pc.pending = true) : pc.owns = false := by
  cases pc with
  | lock l ret => cases l <;> first | rfl | cases h
  | wait f w => cases w <;> first | rfl | cases h
  | _ => cases h

theorem Pc.Step.not_owns_of_lost {k : Caller V} {pc : Pc V} {a : Act V} {n : Next V} (h : pc.Step k a n)
    (ha : a = .mutex (.cas false) ∨ a = .mutex (.swap false)) : pc.owns = false := by
  cases h with
  | lock l ret a o ho => cases ho <;> first | rfl | (rcases ha with ha | ha <;> cases ha)
  | unlock u ret a o ho | wait f w a o ho | notify c x a o ho => cases ho <;> rcases ha with ha | ha <;> cases ha
  | _ => rcases ha with ha | ha <;> cases ha

theorem Call.holds_queue [DecidableEq V] {c : Call V} (hf : c.fits = true)
    (hp : ∀ k pc, c = .suspended k pc → pc.pending = true) {μ : Next V → Bool}
    (hμ : ∀ k pc, pc.fits k = true → μ (.goto pc) = true → k.locks = true)
    (hstay : ∀ pc, pc.pending = true → μ (.yield pc) = false) (h : c.holds μ .queue = true) :
    ∃ t k pc, c = .running t k pc ∧ k.locks = true ∧ k.mutex = .queue ∧ μ (.goto pc) = true := by
  cases c with
  | running t k pc =>
    simp only [Call.holds, Bool.and_eq_true, decide_eq_true_eq] at h
    exact ⟨t, k, pc, rfl, hμ k pc hf h.2, h.1, h.2⟩
  | suspended k pc =>
    simp only [Call.holds, Bool.and_eq_true] at h
    rw [hstay pc (hp k pc rfl)] at h
    cases h.2
  | holding k r =>
    simp only [Call.holds, Bool.and_eq_true, decide_eq_true_eq] at h
    cases k <;> first | (cases hf; done) | cases h.1
  | _ => cases h

namespace State

variable {s s' : State V} {e : Event V}

/-- Nobody can send any more, and nothing is left to receive. -/
structure Drained (s : State V) : Prop where
  senders : s.sh.chan.senders = []
  queue : s.sh.chan.queue = []
  flight : ∀ j, (s.call j).inFlight = []

variable [DecidableEq V]

theorem Reachable.no_send (h : s.Reachable) (hnil : s.sh.chan.senders = []) (i : CallId) (σ : SenderId) :
    (s.call i).sendsVia σ = false := by
  by_contra hi
  have hmem := (h.borrowed.sends i σ ((Bool.not_eq_false _).mp hi)).1
  rw [hnil] at hmem
  cases hmem

theorem Drained.step (hr : s.Reachable) (hs : s.Drained) (hstep : s.step e = some s') : s'.Drained := by
  have hqueue : s'.sh.chan.queue = [] := by
    cases hr.channel_step hstep with
    | same _ hc | cloned _ _ _ hc | dropped _ _ _ _ _ _ hc | cleared _ _ _ _ hc => rw [hc]; exact hs.queue
    | popped _ _ _ _ _ _ _ hq => rw [hs.queue] at hq; cases hq
    | pushed j t σ st v hj =>
      have hsend : (s.call j).sendsVia σ = true := by rw [hj]; simp [Call.sendsVia, Call.caller?]
      rw [hr.no_send hs.senders j σ] at hsend
      cases hsend
  refine ⟨hr.senders_nil hs.senders hstep, hqueue, fun j => ?_⟩
  rcases call_cases hr.sane.numbered hstep j with hcall | ⟨a, t, k, pc, n, -, ha⟩ | ⟨c, ht⟩
  · rw [hcall]; exact hs.flight j
  · have htaken := ha.step.taken
    have hpc : pc.taken = [] := by simpa [ha.running, Call.inFlight] using hs.flight j
    have hpops : a.pops = [] := by
      by_contra hne
      have hlog := ha.logs.2
      have hin := (hr.step hstep).inOrder.queue
      have hin' := hr.inOrder.queue
      rw [hs.queue, List.append_nil] at hin'
      rw [hqueue, List.append_nil, hlog, List.map_append] at hin
      have hpush : a.pushes = [] := ha.step.pushes_nil (by rw [ha.step.of_pops hne]; simp)
      rw [ha.logs.1, hpush, List.map_nil, List.append_nil, hin'] at hin
      have := congrArg List.length hin
      simp at this
      exact hne this
    rw [hpc, hpops] at htaken
    rw [ha.call_self]
    cases n with
    | goto pc' => exact htaken
    | yield | hold | finish => rfl
  · rw [ht.call_self, ht.turn.inFlight (hr.sane.pending j)]
    exact hs.flight j

theorem Reachable.drained (h : s.Reachable) {i : CallId} (hi : (s.call i).reports = true) : s.Drained := by
  revert i
  refine h.by_steps (P := fun s => ∀ {i}, (s.call i).reports = true → s.Drained) ?_ ?_
  · intro cfg i hi; cases hi
  · intro s s' e hr hs hstep i hi
    rcases call_cases hr.sane.numbered hstep i with hcall | ⟨a, t, k, pc, n, -, ha⟩ | ⟨c, ht⟩
    · rw [hcall] at hi; exact (hs hi).step hr hstep
    · rw [ha.call_self, Next.reports_call] at hi
      rcases ha.step.reports hi with hold | ⟨rfl, rfl⟩
      · exact (hs (i := i) (by rw [ha.running]; exact hold)).step hr hstep
      · have hf := hr.fits i
        rw [ha.running] at hf
        obtain ⟨rk, rfl⟩ : ∃ rk, k = .recv rk := by cases k <;> first | exact ⟨_, rfl⟩ | cases hf
        have hempty : s.sh.chan.queue = [] := hr.saw_empty (i := i) (by rw [ha.running]; rfl)
        refine Drained.step hr ⟨?_, hempty, fun j => ?_⟩ hstep
        · have happ := ha.applied
          generalize s'.sh = sh' at happ
          cases happ with
          | chan a x hx =>
            generalize hb : ChannelAct.loadCount 0 = b at hx
            cases hx with
            | loadCount =>
              have hzero := ChannelAct.loadCount.inj hb
              rw [hr.borrowed.count] at hzero
              exact List.length_eq_zero_iff.mp hzero.symm
            | _ => cases hb
        · by_contra hflight
          obtain ⟨t', rk', pc', hj⟩ := hr.recv_of_inFlight hflight
          obtain rfl := hr.one_receive hj ha.running
          rw [ha.running] at hflight
          exact hflight rfl
    · have hturn := ht.turn
      have hpend := hr.sane.pending i
      rw [ht.call_self] at hi
      generalize hc : s.call i = c₀ at hturn hpend
      cases hturn with
      | begin t r => cases r <;> cases hi
      | wait t c w k r => cases w <;> cases hi
      | dropGuard | cancel => cases hi
      | poll t k pc =>
        have hp := hpend k pc rfl
        cases pc <;> first | cases hp | cases hi

/-! ## A late receive meets nobody -/

/-- With no sender left, only the running receive is at the mutex of the queue. -/
theorem Reachable.alone (hr : s.Reachable) (hnil : s.sh.chan.senders = []) {i j : CallId} {t : ThreadId}
    {rk : RecvKind} {pc : Pc V} (hi : s.call i = .running t (.recv rk) pc) {μ : Next V → Bool}
    (hμ : ∀ k pc, pc.fits k = true → μ (.goto pc) = true → k.locks = true)
    (hstay : ∀ pc, pc.pending = true → μ (.yield pc) = false) (hj : (s.call j).holds μ .queue = true) :
    μ (.goto pc) = true := by
  obtain ⟨t', k, pc', hrun, hlocks, hm, hpc⟩ := Call.holds_queue (hr.fits j) (hr.sane.pending j) hμ hstay hj
  cases k with
  | user m => cases hm
  | notify | dropSender | dropReceiver => cases hlocks
  | send σ st v =>
    have hsend : (s.call j).sendsVia σ = true := by rw [hrun]; simp [Call.sendsVia, Call.caller?]
    rw [hr.no_send hnil j σ] at hsend
    cases hsend
  | recv rk' =>
    obtain rfl := hr.one_receive hi hrun
    rw [hi] at hrun
    cases hrun
    exact hpc

theorem Reachable.lock_free (hr : s.Reachable) (hnil : s.sh.chan.senders = []) {i : CallId} {t : ThreadId}
    {rk : RecvKind} {pc : Pc V} (hi : s.call i = .running t (.recv rk) pc) (hpc : pc.owns = false) :
    (s.sh.mutex .queue).dataLock = false := by
  by_contra hb
  obtain ⟨j, hj⟩ := (hr.exclusive .queue).exact.exists_of_set ((Bool.not_eq_false _).mp hb)
  have hown := hr.alone hnil hi (fun k pc => Pc.locks_of_owns) (fun pc => Pc.not_owns_of_pending) hj
  cases hpc.symm.trans hown

theorem Reachable.section_free (hr : s.Reachable) (hnil : s.sh.chan.senders = []) {i : CallId} {t : ThreadId}
    {rk : RecvKind} {pc : Pc V} (hi : s.call i = .running t (.recv rk) pc) {side : Side}
    (hpc : pc.inSection side = false) : (s.sh.mutex .queue).locked side = false := by
  by_contra hb
  obtain ⟨j, hj⟩ := (hr.sectioned .queue side).exists_of_set ((Bool.not_eq_false _).mp hb)
  have hin := hr.alone hnil hi (μ := Next.isAt (Pc.inSection side)) (fun k pc hf hs => ?_)
    (fun pc hp => Pc.not_inSection_of_pending side hp) hj
  · cases hpc.symm.trans hin
  · cases pc <;> first | exact Pc.locks_of_lock hf | cases hs

theorem Acted.direct (hr : s.Reachable) (hd : s.Drained) {i : CallId} {t : ThreadId} {rk : RecvKind}
    {pc : Pc V} {a : Act V} {n : Next V} (h : Acted s s' i t (.recv rk) pc a n) (hpc : pc.direct = true) :
    n = .finish .disconnected ∨
      ∃ pc', n = .goto pc' ∧ pc'.direct = true ∧ toLex pc'.ahead < toLex pc.ahead := by
  have hfree : pc.owns = false → (s.sh.mutex .queue).dataLock = false := hr.lock_free hd.senders h.running
  have happ := h.applied
  refine h.step.direct hpc ?_ ?_ ?_ ?_
  · rintro rfl
    have hown := h.step.not_owns_of_lost (.inl rfl)
    generalize s'.sh = sh' at happ
    cases happ with
    | mutex a x hx => cases hx with
      | casLost hb => cases (hfree hown).symm.trans hb
  · rintro rfl
    have hown := h.step.not_owns_of_lost (.inr rfl)
    generalize s'.sh = sh' at happ
    cases happ with
    | mutex a x hx => cases hx with
      | swapLost hb => cases (hfree hown).symm.trans hb
  · rintro v rfl
    generalize s'.sh = sh' at happ
    cases happ with
    | chan a x hx => cases hx with
      | popSome v vs hq =>
        rw [hd.queue] at hq; cases hq
  · rintro m rfl
    generalize s'.sh = sh' at happ
    cases happ with
    | chan a x hx => cases hx with
      | loadCount => rw [hr.borrowed.count, hd.senders]; rfl

/-- The receive has reported `Disconnected`, or is about to. -/
def OnItsWay (s : State V) (i : CallId) : Prop :=
  s.call i = .done .disconnected ∨
    ∃ t rk pc, s.call i = .running t (.recv rk) pc ∧ pc.direct = true

theorem OnItsWay.step (hr : s.Reachable) (hd : s.Drained) {i : CallId} (hs : s.OnItsWay i)
    (hstep : s.step e = some s') : s'.OnItsWay i := by
  rcases hs with hdone | ⟨t, rk, pc, hi, hpc⟩
  · exact .inl (ended_step hr hstep hdone).1
  · rcases call_cases hr.sane.numbered hstep i with hcall | ⟨a, t', k, pc', n, -, ha⟩ | ⟨c, ht⟩
    · exact .inr ⟨t, rk, pc, hcall.trans hi, hpc⟩
    · cases hi.symm.trans ha.running
      rcases ha.direct hr hd hpc with rfl | ⟨pc', rfl, hpc', -⟩
      · exact .inl ha.call_self
      · exact .inr ⟨t, rk, pc', ha.call_self, hpc'⟩
    · have hturn := ht.turn
      rw [hi] at hturn; cases hturn

theorem can_act {i : CallId} {t : ThreadId} {k : Caller V} {pc : Pc V} {a : Act V} {n : Next V} {sh : Shared V}
    (hi : s.call i = .running t k pc) (hn : pc.next k a = some n)
    (ha : s.sh.apply k.mutex i t a = some sh) : ∃ s', s.step (.act i a) = some s' :=
  ⟨_, by simp only [State.step, State.act, hi, hn, ha, Option.bind_some, Option.map_some]; rfl⟩

theorem Reachable.direct_acts (hr : s.Reachable) (hd : s.Drained) {i : CallId} {t : ThreadId} {rk : RecvKind}
    {pc : Pc V} (hi : s.call i = .running t (.recv rk) pc) (hpc : pc.direct = true) :
    ∃ a s', s.step (.act i a) = some s' := by
  have hfree : pc.owns = false → (s.sh.mutex .queue).dataLock = false := hr.lock_free hd.senders hi
  have hsection : ∀ side, pc.inSection side = false → (s.sh.mutex .queue).locked side = false :=
    fun side => hr.section_free hd.senders hi
  have hm : (Caller.recv rk : Caller V).mutex = .queue := rfl
  cases pc with
  | lock l ret =>
    cases ret with
    | relock r => cases hpc
    | first =>
      cases l with
      | tryLock | lastTry | tryIn =>
        exact ⟨.mutex (.cas true), can_act hi rfl (by simp [Shared.apply, MutexState.apply, hm, hfree rfl]; rfl)⟩
      | spin d =>
        exact ⟨.mutex (.swap true), can_act hi rfl (by simp [Shared.apply, MutexState.apply, hm, hfree rfl]; rfl)⟩
      | probe d => exact ⟨.probe (s.sh.atomicsWait t), can_act hi rfl (by simp [Shared.apply]; rfl)⟩
      | now k d => exact ⟨.now s.sh.clock, can_act hi rfl (by simp [Shared.apply]; rfl)⟩
      | enter k d =>
        exact ⟨.mutex (.enter k), can_act hi (by simp [Pc.next, LockPc.next]; rfl)
          (by simp [Shared.apply, MutexState.apply, hm, hsection k rfl]; rfl)⟩
      | leaveOwner k =>
        exact ⟨.mutex (.leave k), can_act hi (by simp [Pc.next, LockPc.next]; rfl)
          (by simp [Shared.apply, MutexState.apply]; rfl)⟩
      | _ => cases hpc
  | recvPop => exact ⟨.chan (.popFront none), can_act hi rfl (by simp [Shared.apply, Channel.apply, hd.queue]; rfl)⟩
  | recvCount =>
    exact ⟨.chan (.loadCount s.sh.chan.senderCount), can_act hi rfl (by simp [Shared.apply, Channel.apply]; rfl)⟩
  | unlock u ret =>
    cases u with
    | store => exact ⟨.mutex .store, can_act hi rfl (by simp [Shared.apply, MutexState.apply]; rfl)⟩
    | take k =>
      exact ⟨.mutex (.take k ((s.sh.mutex .queue).waiting k)),
        can_act hi (by simp [Pc.next, UnlockPc.next]; rfl)
          (by simp [Shared.apply, MutexState.apply, hm, hsection k rfl]; rfl)⟩
    | wake k w ws => exact ⟨.wake w, can_act hi (by simp [Pc.next, UnlockPc.next]; rfl) rfl⟩
  | _ => cases hpc

/-- Left alone, a late receive reports `Disconnected`. -/
theorem OnItsWay.finishes (hr : s.Reachable) (hd : s.Drained) {i : CallId} (hs : s.OnItsWay i) :
    ∃ (as : List (Act V)) (u : State V),
      exec State.step s (as.map (Event.act i)) = some u ∧ u.call i = .done .disconnected := by
  rcases hs with hdone | ⟨t, rk, pc, hi, hpc⟩
  · exact ⟨[], s, rfl, hdone⟩
  · obtain ⟨x, hx⟩ : ∃ x, x = toLex pc.ahead := ⟨_, rfl⟩
    induction x using WellFoundedLT.induction generalizing s pc with
    | ind x ih =>
      obtain ⟨a, s', hstep⟩ := hr.direct_acts hd hi hpc
      obtain ⟨t', k, pc', n, ha⟩ := act_acted hstep
      cases hi.symm.trans ha.running
      rcases ha.direct hr hd hpc with rfl | ⟨pc', rfl, hpc', hlt⟩
      · exact ⟨[a], s', by simp [exec, hstep], ha.call_self⟩
      · obtain ⟨as, u, hexec, hu⟩ :=
          ih _ (hx ▸ hlt) (hr.step hstep) (hd.step hr hstep) pc' ha.call_self hpc' rfl
        exact ⟨a :: as, u, by simp [exec, hstep, hexec], hu⟩

/-! ## Exact and final -/

end State

/-- `IntoIter::next` is `recv_sync().ok()`. -/
def IntoIter.next : Request V := .recv (.recv .sync none)

def Outcome.ok : Outcome V → Option V
  | .received v => some v
  | _ => none

namespace State

variable [DecidableEq V] {s s' : State V} {e : Event V}

theorem Reachable.no_sender_again (h : s.Reachable) (hzero : s.sh.chan.senderCount = 0)
    (hrun : Run State.step s s') : s'.sh.chan.senderCount = 0 := by
  have hnil : s.sh.chan.senders = [] := List.length_eq_zero_iff.mp (h.borrowed.count ▸ hzero)
  have hinv := hrun.invariant (P := fun u => u.Reachable ∧ u.sh.chan.senders = []) ⟨h, hnil⟩
    fun u v e hu _ hstep => ⟨hu.1.step hstep, hu.1.senders_nil hu.2 hstep⟩
  rw [hinv.1.borrowed.count, hinv.2]
  rfl

/-- A receive that begins after a report of `Disconnected`. -/
theorem Reachable.later_receive (h : s.Reachable) {i : CallId} (hi : s.call i = .done .disconnected)
    {u v : State V} {t : ThreadId} {rk : RecvKind} (hrun : Run State.step s u)
    (hbegin : u.step (.begin t (.recv rk)) = some v) (hrun' : Run State.step v s') :
    s'.Reachable ∧ s'.Drained ∧ s'.OnItsWay u.used := by
  have hdrain : s.Drained := h.drained (i := i) (by rw [hi]; rfl)
  have hu := hrun.invariant (P := fun u => u.Reachable ∧ u.Drained) ⟨h, hdrain⟩
    fun u v e hu _ hstep => ⟨hu.1.step hstep, hu.2.step hu.1 hstep⟩
  have hway : v.OnItsWay u.used := by
    simp only [State.step, Option.ite_none_right_eq_some, Option.some.injEq] at hbegin
    obtain ⟨-, rfl⟩ := hbegin
    exact .inr ⟨t, rk, .lock rk.entry .first, by simp [setCall]; exact ⟨rfl, rfl⟩, rk.direct_entry⟩
  exact hrun'.invariant (P := fun w => w.Reachable ∧ w.Drained ∧ w.OnItsWay u.used)
    ⟨hu.1.step hbegin, hu.2.step hu.1 hbegin, hway⟩
    fun w x e hw _ hstep =>
      ⟨hw.1.step hstep, hw.2.1.step hw.1 hstep, hw.2.2.step hw.1 hw.2.1 hstep⟩

/-- What `Disconnected` says, and for how long. -/
structure DisconnectExact (s : State V) : Prop where
  count : s.sh.chan.senderCount = s.sh.chan.senders.length ∧ s.sh.chan.senders.Nodup
  zero : s.sh.chan.senderCount = 0 → ∀ s', Run State.step s s' → s'.sh.chan.senderCount = 0
  reported : ∀ i, s.call i = .done .disconnected →
    s.sh.chan.senders = [] ∧ s.sh.chan.pushed.map Prod.snd = s.returned.map Prod.snd
  sent : ∀ (u v : State V) t σ st x, u.Reachable → u.step (.begin t (.send σ st x)) = some v →
    Run State.step v s → s.call u.used = .done .sent → (u.used, x) ∈ s.sh.chan.pushed
  /-- A call of `next` that returns `None` has found the channel disconnected. -/
  next : ∀ (u v : State V) t o, u.Reachable → u.step (.begin t IntoIter.next) = some v →
    Run State.step v s → s.call u.used = .done o → o ≠ .cancelled → o.ok = none → o = .disconnected
  /-- A receive that begins later can only report `Disconnected`, and does so when it goes on. -/
  later : ∀ (u v w : State V) i t rk, u.Reachable → u.call i = .done .disconnected → Run State.step u v →
    v.step (.begin t (.recv rk)) = some w → Run State.step w s →
      (∀ o, s.call v.used = .done o → o = .disconnected) ∧
      ∃ (as : List (Act V)) (x : State V),
        exec State.step s (as.map (Event.act v.used)) = some x ∧ x.call v.used = .done .disconnected

theorem Reachable.disconnect_exact (h : s.Reachable) : s.DisconnectExact where
  count := ⟨h.borrowed.count, h.borrowed.nodup⟩
  zero hzero _ hrun := h.no_sender_again hzero hrun
  reported i hi := by
    have hd := h.drained (i := i) (by rw [hi]; rfl)
    obtain ⟨j, -, hpop⟩ := h.inOrder.flight
    refine ⟨hd.senders, ?_⟩
    rw [h.inOrder.queue, hd.queue, hpop, hd.flight j]
    simp
  sent u v t σ st x hu hbegin hrun hsent := by
    have hpush : s.pushedBy u.used = [x] := ((hu.tracks hbegin hrun).send).1 hsent
    have hmem : x ∈ s.pushedBy u.used := by simp [hpush]
    obtain ⟨y, hy, rfl⟩ := List.mem_map.mp hmem
    obtain ⟨hy, he⟩ := List.mem_filter.mp hy
    rwa [← of_decide_eq_true he]
  next u v t o hu hbegin hrun ho hcan hok := by
    have htracks := hu.tracks hbegin hrun
    simp only [Tracks, ho] at htracks
    have hends := htracks.1.resolve_right hcan
    cases o <;> first | rfl | exact absurd rfl hcan | (cases hends; done) | cases hok
  later u v w i t rk hu hi hrun hbegin hrun' := by
    obtain ⟨hs, hd, hway⟩ := hu.later_receive hi hrun hbegin hrun'
    refine ⟨fun o ho => ?_, hway.finishes hs hd⟩
    rcases hway with hdone | ⟨t', rk', pc, hi', -⟩
    · cases ho.symm.trans hdone; rfl
    · cases ho.symm.trans hi'

/-- The only `Sender` is dropped, and then comes a `try_recv`. -/
def disconnectEvents : List (Event Nat) :=
  [.begin 0 (.dropSender 0), .act 0 (.chan (.fetchSub 0 1)), .act 0 (.condvar .channel (.take .spin [])),
    .act 0 (.condvar .channel (.take .sync [])), .act 0 (.condvar .channel (.take .async [])),
    .begin 1 (.recv .tryRecv), .act 1 (.mutex (.cas true)), .act 1 (.chan (.popFront none)),
    .act 1 (.chan (.loadCount 0)), .act 1 (.mutex .store), .act 1 (.mutex (.take .sync [])),
    .act 1 (.mutex (.take .async []))]

theorem disconnect_exact_empty : ∃ s : State Nat,
    exec State.step (⟨fun _ => true, 1, 0⟩ : Config).init disconnectEvents = some s ∧
      s.call 1 = .done .disconnected ∧ s.DisconnectExact := by
  have hexec : ∃ s : State Nat,
      exec State.step (⟨fun _ => true, 1, 0⟩ : Config).init disconnectEvents = some s ∧
        s.call 1 = .done .disconnected := ⟨_, rfl, rfl⟩
  obtain ⟨s, hs, hi⟩ := hexec
  exact ⟨s, hs, hi, (reachable_of_exec hs).disconnect_exact⟩

end State

end WasmSafeMutex
