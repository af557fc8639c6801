import WasmSafeMutex.Lib.Effects
import WasmSafeMutex.Channel.Effects

/-!
# The channel does one thing at a time

The channel of the code, with its lock, its two looks at `receiver_active` and its waits,
behaves as the one without threads: each call takes effect at one moment between its beginning
and its end.
-/

namespace WasmSafeMutex

open Interleaving

variable {V : Type} [DecidableEq V]

/-! ## The state behind the atomic channel -/

/-- The value of a send that has taken effect and has not yet pushed. -/
def Call.committed : Call V → List V
  | .running _ (.send _ _ v) .sendPush => [v]
  | _ => []

namespace State

variable {s s' : State V} {e : Event V} {i : CallId}

omit [DecidableEq V] in
theorem Next.committed_call (k : Caller V) (t : ThreadId) {n : Next V} (hn : n.pc? ≠ some .sendPush) :
    (n.call k t).committed = [] := by
  unfold Call.committed
  split
  · rename_i heq
    cases n <;> cases heq
    exact absurd rfl hn
  · rfl

omit [DecidableEq V] in
theorem Acted.committed {t : ThreadId} {k : Caller V} {pc : Pc V} {a : Act V} {n : Next V}
    (h : Acted s s' i t k pc a n) (hpc : pc ≠ .sendPush) (hn : n.pc? ≠ some .sendPush) (j : CallId) :
    (s'.call j).committed = (s.call j).committed := by
  by_cases hj : j = i
  · subst hj
    have hold : (Next.call k t (.goto pc)).committed = [] :=
      Next.committed_call k t fun he => hpc (Option.some.inj he)
    rw [h.call_self, h.running, Next.committed_call k t hn]
    exact hold.symm
  · rw [h.call_ne hj]

/-- How a state shows the channel of its users. What a send is about to push is in it already. -/
structure Shows (s : State V) (x : AtomicChannel V) : Prop where
  reachable : s.Reachable
  senders : x.senders = s.sh.chan.senderCount
  receiver : x.receiver = s.sh.chan.receiverActive
  queue : ∃ i, (∀ j, j ≠ i → (s.call j).committed = []) ∧ x.queue = s.sh.chan.queue ++ (s.call i).committed

omit [DecidableEq V] in
theorem Acted.chan_applied {t : ThreadId} {k : Caller V} {pc : Pc V} {c : ChannelAct V} {n : Next V}
    (h : Acted s s' i t k pc (.chan c) n) : s.sh.chan.Applied i c s'.sh.chan := by
  have happ := h.applied
  generalize s'.sh = sh' at happ
  cases happ with
  | chan c x hx => exact hx

omit [DecidableEq V] in
theorem Acted.loaded {t : ThreadId} {k : Caller V} {pc : Pc V} {b : Bool} {n : Next V}
    (h : Acted s s' i t k pc (.chan (.loadActive b)) n) :
    s'.sh.chan = s.sh.chan ∧ b = s.sh.chan.receiverActive := by
  have happ := h.chan_applied
  generalize s'.sh.chan = x at happ
  cases happ
  exact ⟨rfl, rfl⟩

omit [DecidableEq V] in
theorem Acted.chan_same {t : ThreadId} {k : Caller V} {pc : Pc V} {a : Act V} {n : Next V}
    (h : Acted s s' i t k pc a n) (ha : ∀ c, a ≠ .chan c) : s'.sh.chan = s.sh.chan := by
  have happ := h.applied
  generalize s'.sh = sh' at happ
  cases happ with
  | chan c x hx => exact absurd rfl (ha c)
  | _ => rfl

end State

def Pc.clears : Pc V → Bool
  | .clearActive => true
  | _ => false

/-- The call is about to store `false` into `receiver_active`. -/
def Call.clears (c : Call V) : Bool := c.pc?.any Pc.clears

omit [DecidableEq V] in
theorem Call.Turn.clears {i : CallId} {e : Event V} {c c' : Call V} (h : Call.Turn i e c c')
    (hp : ∀ k pc, c = .suspended k pc → pc.pending = true) :
    c'.clears = c.clears ∧ (∀ t, e ≠ .begin t .dropReceiver) ∨
      c.clears = false ∧ c'.clears = true ∧ ∃ t, e = .begin t .dropReceiver := by
  cases h with
  | begin t r =>
    cases r with
    | dropReceiver => exact .inr ⟨rfl, rfl, t, rfl⟩
    | _ => exact .inl ⟨rfl, by simp⟩
  | wait t c w k r => cases w <;> exact .inl ⟨rfl, by simp⟩
  | dropGuard | poll => exact .inl ⟨rfl, by simp⟩
  | cancel k pc =>
    have hpend := hp k pc rfl
    cases pc <;> first | exact .inl ⟨rfl, by simp⟩ | cases hpend

namespace State

variable {s s' : State V} {e : Event V} {i : CallId}

/-- The `Receiver` is there, or one call that drops it has still to clear the flag. -/
structure Closing (s : State V) : Prop where
  alive : s.receiverAlive = true → s.sh.chan.receiverActive = true
  exact : Exact (s.sh.chan.receiverActive && !s.receiverAlive) fun j => (s.call j).clears

omit [DecidableEq V] in
theorem Acted.clears {t : ThreadId} {k : Caller V} {pc : Pc V} {a : Act V} {n : Next V}
    (h : Acted s s' i t k pc a n) : (s'.call i).clears = false := by
  have hn : n.pc? ≠ some .clearActive := fun hn => by
    rcases h.step.into_own hn rfl with ⟨_, _, -, h' | h'⟩ | ⟨h', -⟩ | ⟨h', -⟩ <;> cases h'
  rw [h.call_self]
  cases n with
  | goto pc' | yield pc' => cases pc' <;> first | rfl | exact absurd rfl hn
  | hold | finish => rfl

theorem Closing.acted (hs : s.Closing) (hr : s.Reachable) {t : ThreadId} {k : Caller V} {pc : Pc V}
    {a : Act V} {n : Next V} (ha : Acted s s' i t k pc a n) : s'.Closing := by
  have hne : ∀ j, j ≠ i → (s'.call j).clears = (s.call j).clears := fun j hj => by rw [ha.call_ne hj]
  have hi' := ha.clears
  by_cases hpc : pc = .clearActive
  · subst hpc
    have hrun := ha.running
    have hdrop := hr.receiverHeld.dropped i
    have hf := hr.fits i
    have halive := ha.receiver.2
    cases ha.step with
    | clearActive =>
      have hc : s'.sh.chan.receiverActive = false := by
        have happ := ha.chan_applied
        generalize s'.sh.chan = x at happ
        cases happ
        rfl
      rw [hrun] at hdrop hf
      have hgone : s.receiverAlive = false := by
        cases k <;> first | exact hdrop rfl | cases hf
      refine ⟨fun h => ?_, ?_⟩
      · rw [halive, hgone] at h; cases h
      · rw [hc]
        exact hs.exact.release (by rw [hrun]; rfl) hi' hne
  · have hactive : s'.sh.chan.receiverActive = s.sh.chan.receiverActive := by
      cases ha.channel with
      | cleared _ t' k' hi _ => cases ha.running.symm.trans hi; exact absurd rfl hpc
      | same _ hc | pushed _ _ _ _ _ _ _ hc | popped _ _ _ _ _ _ _ _ hc | dropped _ _ _ _ _ _ hc =>
        rw [hc]
    have hi : (s.call i).clears = false := by
      rw [ha.running]
      cases pc <;> first | rfl | exact absurd rfl hpc
    refine ⟨by rw [ha.receiver.2, hactive]; exact hs.alive, ?_⟩
    rw [ha.receiver.2, hactive]
    exact hs.exact.step hne (.inr (.inr ⟨rfl, hi'.trans hi.symm⟩))

theorem Closing.step (hs : s.Closing) (hr : s.Reachable) (hstep : s.step e = some s') : s'.Closing := by
  rcases step_cases hr.sane.numbered hstep with ⟨i, a, t, k, pc, n, -, ha⟩ | ⟨i, c, ht⟩ | ha
  · exact hs.acted hr ha
  · have hne : ∀ j, j ≠ i → (s'.call j).clears = (s.call j).clears := fun j hj => by rw [ht.call_ne hj]
    have hself := ht.turn.clears (hr.sane.pending i)
    rw [← ht.call_self] at hself
    rcases hself with ⟨hsame, hnot⟩ | ⟨hi, hi', t, rfl⟩
    · have halive : s'.receiverAlive = s.receiverAlive :=
        (alive_step hstep).resolve_right fun h => h.1.elim hnot
      refine ⟨by rw [ht.sh, halive]; exact hs.alive, ?_⟩
      rw [ht.sh, halive]
      exact hs.exact.step hne (.inr (.inr ⟨rfl, hsame⟩))
    · -- The drop of the receiver begins.
      obtain ⟨hthere, hgone⟩ : s.receiverAlive = true ∧ s'.receiverAlive = false := by
        simp only [State.step, Option.ite_none_right_eq_some, Option.some.injEq] at hstep
        obtain ⟨⟨-, hallow⟩, rfl⟩ := hstep
        exact ⟨hallow.1, rfl⟩
      have hactive := hs.alive hthere
      refine ⟨fun h => absurd (h.symm.trans hgone) (by simp), ?_⟩
      rw [ht.sh, hactive, hgone]
      exact hs.exact.step hne (.inl ⟨by rw [hactive, hthere]; rfl, rfl, hi'⟩)
  · have hactive : s'.sh.chan.receiverActive = s.sh.chan.receiverActive := by
      rcases ha.chan with ⟨hc, -⟩ | ⟨σ, -, -, -, hc⟩ <;> rw [hc]
    refine ⟨by rw [ha.alive, hactive]; exact hs.alive, ?_⟩
    rw [ha.alive, hactive, ha.call]
    exact hs.exact

theorem Reachable.closing (hr : s.Reachable) : s.Closing := by
  refine hr.by_steps ?_ fun s s' e hr hs hstep => hs.step hr hstep
  exact fun cfg => ⟨fun _ => rfl, .free fun _ => rfl⟩

/-- Whoever receives, the flag is set. -/
theorem Reachable.open (hr : s.Reachable) {rk : RecvKind} (hi : (s.call i).caller? = some (.recv rk)) :
    s.sh.chan.receiverActive = true :=
  hr.closing.alive (hr.receiverHeld.received i rk hi)

theorem Reachable.clears_active (hr : s.Reachable) (hi : (s.call i).clears = true) :
    s.sh.chan.receiverActive = true := by
  have hbit := hr.closing.exact.set_of_holds hi
  simp only [Bool.and_eq_true] at hbit
  exact hbit.1

theorem Reachable.some_sender (hr : s.Reachable) {σ : SenderId} (hσ : σ ∈ s.sh.chan.senders) :
    0 < s.sh.chan.senderCount := by
  rw [hr.borrowed.count]
  exact List.length_pos_of_mem hσ

theorem Reachable.sender_of_send (hr : s.Reachable) {σ : SenderId} {st : Strategy} {v : V}
    (hi : (s.call i).caller? = some (.send σ st v)) : 0 < s.sh.chan.senderCount :=
  hr.some_sender (hr.borrowed.sends i σ (sendsVia_iff.mpr ⟨st, v, hi⟩)).1

/-! ## Step by step -/

theorem Reachable.committed_nil (hr : s.Reachable) (hi : (s.call i).owns .queue = true)
    (hnone : (s.call i).committed = []) (j : CallId) : (s.call j).committed = [] := by
  by_cases hj : j = i
  · rw [hj]; exact hnone
  · unfold Call.committed
    split
    · rename_i heq
      have hown : (s.call j).owns .queue = true := by rw [heq]; rfl
      exact absurd ((hr.exclusive .queue).exact.unique hown hi) hj
    · rfl

/-- Nothing has happened to the channel. -/
theorem Shows.keep {x : AtomicChannel V} (h : s.Shows x) (hr : s'.Reachable) (hc : s'.sh.chan = s.sh.chan)
    (hcall : ∀ j, (s'.call j).committed = (s.call j).committed) : s'.Shows x := by
  obtain ⟨i, hnone, hqueue⟩ := h.queue
  refine ⟨hr, by rw [hc]; exact h.senders, by rw [hc]; exact h.receiver, i, fun j hj => ?_, ?_⟩
  · rw [hcall]; exact hnone j hj
  · rw [hc, hcall]; exact hqueue

/-- A call that has the queue to itself sees the queue of the users. -/
theorem Shows.queue_of_owner {x : AtomicChannel V} (h : s.Shows x) (hnone : ∀ j, (s.call j).committed = []) :
    x.queue = s.sh.chan.queue := by
  obtain ⟨i, -, hqueue⟩ := h.queue
  rw [hqueue, hnone i, List.append_nil]

section

variable {x : AtomicChannel V} {t : ThreadId} {k : Caller V} {pc : Pc V} {a : Act V} {n : Next V}

/-- An operation that leaves the channel alone. -/
theorem Shows.quiet (h : s.Shows x) (hr : s'.Reachable) (ha : Acted s s' i t k pc a n)
    (hne : ∀ c, a ≠ .chan c) : ∃ y, exec AtomicChannel.step x (k.effect pc a) = some y ∧ s'.Shows y := by
  have hf := h.reachable.fits i
  rw [ha.running] at hf
  have hpc : pc ≠ .sendPush := by
    rintro rfl
    cases ha.step
    exact hne _ rfl
  have hn : n.pc? ≠ some .sendPush := fun hn => hne _ (ha.step.into_push hn)
  refine ⟨x, ?_, h.keep hr (ha.chan_same hne) (ha.committed hpc hn)⟩
  rcases ha.step.effect_of_ne hf hne with heff | ⟨⟨rk, rfl⟩, heff⟩
  · rw [heff]; rfl
  · have hopen : x.receiver = true := h.receiver.trans (h.reachable.open (i := i) (by rw [ha.running]; rfl))
    rcases heff with heff | heff <;> simp [heff, exec, AtomicChannel.step, hopen]

/-- The send takes effect: its value is in the queue of the users from now on. -/
theorem Shows.sends {σ : SenderId} {st : Strategy} {v : V} (h : s.Shows x) (hr : s'.Reachable)
    (ha : Acted s s' i t (.send σ st v) .sendCheck2 (.chan (.loadActive true)) (.goto .sendPush)) :
    ∃ y, exec AtomicChannel.step x [.send v] = some y ∧ s'.Shows y := by
  have hrun := ha.running
  obtain ⟨hc, hactive⟩ := ha.loaded
  have hnone := h.reachable.committed_nil (i := i) (by rw [hrun]; rfl) (by rw [hrun]; rfl)
  have hsome : 0 < x.senders := h.senders ▸ h.reachable.sender_of_send (i := i) (by rw [hrun]; rfl)
  have hopen : x.receiver = true := h.receiver.trans hactive.symm
  refine ⟨{ x with queue := x.queue ++ [v] }, by simp [exec, AtomicChannel.step, hopen, hsome], hr, ?_, ?_, i, ?_, ?_⟩
  · rw [hc]; exact h.senders
  · rw [hc]; exact h.receiver
  · intro j hj
    rw [ha.call_ne hj]; exact hnone j
  · rw [hc, ha.call_self]
    simp [h.queue_of_owner hnone, Next.call, Call.committed]

/-- The send pushes what its users have seen in the queue since it took effect. -/
theorem Shows.pushes {σ : SenderId} {st : Strategy} {v : V} (h : s.Shows x) (hr : s'.Reachable)
    (ha : Acted s s' i t (.send σ st v) .sendPush (.chan (.pushBack v)) (.goto (.unlock .store .notify))) :
    s'.Shows x := by
  have hc : s'.sh.chan = { s.sh.chan with
      queue := s.sh.chan.queue ++ [v], pushed := s.sh.chan.pushed ++ [(i, v)] } := by
    have happ := ha.chan_applied
    generalize s'.sh.chan = x' at happ
    cases happ
    rfl
  have hi : (s.call i).committed = [v] := by rw [ha.running]; rfl
  obtain ⟨i', hnone, hqueue⟩ := h.queue
  have hi' : i' = i := by
    by_contra hne
    rw [hnone i (Ne.symm hne)] at hi
    cases hi
  subst hi'
  refine ⟨hr, by rw [hc]; exact h.senders, by rw [hc]; exact h.receiver, i', fun j hj => ?_, ?_⟩
  · rw [ha.call_ne hj]; exact hnone j hj
  · rw [hqueue, hi, hc, ha.call_self]
    simp [Next.call, Call.committed]

/-- The receive takes what is at the front of the queue of the users. -/
theorem Shows.pops {rk : RecvKind} {v : V} (h : s.Shows x) (hr : s'.Reachable)
    (ha : Acted s s' i t (.recv rk) .recvPop (.chan (.popFront (some v)))
      (.goto (unlockAndReturn (.received v)))) :
    ∃ y, exec AtomicChannel.step x [.recv v] = some y ∧ s'.Shows y := by
  obtain ⟨vs, hq, hc⟩ : ∃ vs, s.sh.chan.queue = v :: vs ∧
      s'.sh.chan = { s.sh.chan with queue := vs, popped := s.sh.chan.popped ++ [(i, v)] } := by
    have happ := ha.chan_applied
    generalize s'.sh.chan = x' at happ
    cases happ with
    | popSome v vs hq => exact ⟨vs, hq, rfl⟩
  have hnone := h.reachable.committed_nil (i := i) (by rw [ha.running]; rfl) (by rw [ha.running]; rfl)
  have hopen : x.receiver = true := h.receiver.trans (h.reachable.open (i := i) (by rw [ha.running]; rfl))
  have hqueue : x.queue = v :: vs := (h.queue_of_owner hnone).trans hq
  refine ⟨{ x with queue := vs }, by simp [exec, AtomicChannel.step, hopen, hqueue], hr, ?_, ?_, i, ?_, ?_⟩
  · rw [hc]; exact h.senders
  · rw [hc]; exact h.receiver
  · intro j hj
    rw [ha.call_ne hj]; exact hnone j
  · rw [hc, ha.call_self]
    simp [Next.call, Call.committed]

/-- The receive has found the queue empty, and looks at the senders. -/
theorem Shows.looks {rk : RecvKind} {m : Nat} (h : s.Shows x) (hr : s'.Reachable)
    (ha : Acted s s' i t (.recv rk) .recvCount (.chan (.loadCount m)) (.goto (rk.onEmpty m))) :
    ∃ y, exec AtomicChannel.step x (rk.sawNothing m) = some y ∧ s'.Shows y := by
  obtain ⟨hc, rfl⟩ : s'.sh.chan = s.sh.chan ∧ m = s.sh.chan.senderCount := by
    have happ := ha.chan_applied
    generalize s'.sh.chan = x' at happ
    cases happ
    exact ⟨rfl, rfl⟩
  have hrun := ha.running
  have hnone := h.reachable.committed_nil (i := i) (by rw [hrun]; rfl) (by rw [hrun]; rfl)
  have hopen : x.receiver = true := h.receiver.trans (h.reachable.open (i := i) (by rw [hrun]; rfl))
  have hqueue : x.queue = [] :=
    (h.queue_of_owner hnone).trans (h.reachable.saw_empty (i := i) (by rw [hrun]; rfl))
  have hn : (Next.goto (rk.onEmpty s.sh.chan.senderCount) : Next V).pc? ≠ some .sendPush := by
    rcases rk.onEmpty_pc (V := V) s.sh.chan.senderCount with he | he | ⟨d, he⟩ | ⟨f, -, he⟩ <;> rw [he] <;>
      simp [Next.pc?, unlockAndReturn]
  refine ⟨x, ?_, h.keep hr hc (ha.committed (by simp) hn)⟩
  unfold RecvKind.sawNothing
  split
  · rename_i hzero
    simp [exec, AtomicChannel.step, hopen, hqueue, h.senders, hzero]
  · rename_i hpos
    cases rk with
    | tryRecv => simp [exec, AtomicChannel.step, hopen, hqueue, h.senders, Nat.pos_of_ne_zero hpos]
    | recv st d => rfl

/-- A half of the channel goes. -/
theorem Shows.drops {op : ChannelOp V} {y : AtomicChannel V} (h : s.Shows x) (hr : s'.Reachable)
    (ha : Acted s s' i t k pc a n) (hpc : pc ≠ .sendPush) (hn : n.pc? ≠ some .sendPush)
    (hop : x.step op = some y) (hqueue : y.queue = x.queue ∧ s'.sh.chan.queue = s.sh.chan.queue)
    (hsenders : y.senders = s'.sh.chan.senderCount) (hreceiver : y.receiver = s'.sh.chan.receiverActive) :
    ∃ y, exec AtomicChannel.step x [op] = some y ∧ s'.Shows y := by
  obtain ⟨j, hnone, hj⟩ := h.queue
  refine ⟨y, by simp [exec, hop], hr, hsenders, hreceiver, j, fun j' hj' => ?_, ?_⟩
  · rw [ha.committed hpc hn]; exact hnone j' hj'
  · rw [hqueue.1, hqueue.2, ha.committed hpc hn]; exact hj

theorem Shows.acted (h : s.Shows x) (hr : s'.Reachable) (ha : Acted s s' i t k pc a n) :
    ∃ y, exec AtomicChannel.step x (k.effect pc a) = some y ∧ s'.Shows y := by
  have hf := h.reachable.fits i
  rw [ha.running] at hf
  have hcaller : (s.call i).caller? = some k := by rw [ha.running]; rfl
  have hstep := ha.step
  cases hstep with
  | sendCheck1 σ st v b hk =>
    subst hk
    obtain ⟨hc, hb⟩ := ha.loaded
    refine ⟨x, ?_, h.keep hr hc (ha.committed (by simp) (by cases b <;> simp [Next.pc?]))⟩
    cases b with
    | true => rfl
    | false =>
      have hclosed : x.receiver = false := h.receiver.trans hb.symm
      have hsome : 0 < x.senders := h.senders ▸ h.reachable.sender_of_send hcaller
      simp [Caller.effect, exec, AtomicChannel.step, hclosed, hsome]
  | sendCheck2 σ st v b hk =>
    subst hk
    cases b with
    | true => exact h.sends hr ha
    | false =>
      obtain ⟨hc, hb⟩ := ha.loaded
      refine ⟨x, ?_, h.keep hr hc (ha.committed (by simp) (by simp [Next.pc?, unlockAndReturn]))⟩
      have hclosed : x.receiver = false := h.receiver.trans hb.symm
      have hsome : 0 < x.senders := h.senders ▸ h.reachable.sender_of_send hcaller
      simp [Caller.effect, exec, AtomicChannel.step, hclosed, hsome]
  | sendPush σ st v hk => subst hk; exact ⟨x, rfl, h.pushes hr ha⟩
  | popSome v =>
    obtain ⟨rk, rfl⟩ := Pc.recv_of_pop hf
    exact h.pops hr ha
  | popNone =>
    have hc : s'.sh.chan = s.sh.chan := by
      have happ := ha.chan_applied
      generalize s'.sh.chan = x' at happ
      cases happ
      rfl
    exact ⟨x, rfl, h.keep hr hc (ha.committed (by simp) (by simp [Next.pc?]))⟩
  | recvCount rk m hk => subst hk; exact h.looks hr ha
  | fetchSub σ old hk =>
    subst hk
    have hc : s'.sh.chan = { s.sh.chan with
        senderCount := s.sh.chan.senderCount - 1, senders := s.sh.chan.senders.erase σ } := by
      have happ := ha.chan_applied
      generalize s'.sh.chan = x' at happ
      cases happ
      rfl
    have hsome : 0 < x.senders :=
      h.senders ▸ h.reachable.some_sender (h.reachable.borrowed.drops i t σ ha.running)
    exact h.drops (y := { x with senders := x.senders - 1 }) hr ha (by simp) (by split <;> simp [Next.pc?])
      (by simp [AtomicChannel.step, hsome]) (by simp [hc]) (by simp [hc, h.senders]) (by simp [hc, h.receiver])
  | clearActive =>
    have hc : s'.sh.chan = { s.sh.chan with receiverActive := false } := by
      have happ := ha.chan_applied
      generalize s'.sh.chan = x' at happ
      cases happ
      rfl
    have hopen : x.receiver = true :=
      h.receiver.trans (h.reachable.clears_active (i := i) (by rw [ha.running]; rfl))
    exact h.drops (y := { x with receiver := false }) hr ha (by simp) (by simp [Next.pc?])
      (by simp [AtomicChannel.step, hopen]) (by simp [hc]) (by simp [hc, h.senders]) (by simp [hc])
  | lock l ret a o ho => exact h.quiet hr ha (by rintro c rfl; cases ho)
  | unlock u ret a o ho => exact h.quiet hr ha (by rintro c rfl; cases ho)
  | wait f w a o ho => exact h.quiet hr ha (by rintro c rfl; cases ho)
  | notify c x a o ho => exact h.quiet hr ha (by rintro c rfl; cases ho)
  | waitProbe c d b => exact h.quiet hr ha (by simp)

end

/-- What each event does to the channel of the users. -/
theorem Reachable.effect_cases (hr : s.Reachable) (hstep : s.step e = some s') :
    (∃ i t k pc a n, e = .act i a ∧ Acted s s' i t k pc a n ∧
      s.effect e = (k.effect pc a).map fun op => (some i, op)) ∨
    (∃ i c, Turned s s' e i c ∧ s.effect e = []) ∨
    Surrounded s s' e ∧ ((∃ σ, e = .clone σ) ∨ s.effect e = [] ∧ ∀ σ, e ≠ .clone σ) := by
  cases e with
  | act i a =>
    obtain ⟨t, k, pc, n, ha⟩ := act_acted hstep
    exact .inl ⟨i, t, k, pc, a, n, rfl, ha, by simp only [effect, ha.running]⟩
  | clone σ =>
    rcases step_cases hr.sane.numbered hstep with ⟨_, _, _, _, _, _, he, -⟩ | ⟨i, c, ht⟩ | ha
    · cases he
    · cases ht.turn
    · exact .inr (.inr ⟨ha, .inl ⟨σ, rfl⟩⟩)
  | _ =>
    rcases step_cases hr.sane.numbered hstep with ⟨_, _, _, _, _, _, he, -⟩ | ⟨i, c, ht⟩ | ha
    · cases he
    · exact .inr (.inl ⟨i, c, ht, rfl⟩)
    · exact .inr (.inr ⟨ha, .inr ⟨rfl, by simp⟩⟩)

omit [DecidableEq V] in
theorem Turned.committed {c : Call V} (h : Turned s s' e i c) (hs : s.Sane) (j : CallId) :
    (s'.call j).committed = (s.call j).committed := by
  by_cases hj : j = i
  · subst hj
    have hturn := h.turn
    have hpend := hs.pending j
    rw [h.call_self]
    generalize s.call j = c₀ at hturn hpend
    cases hturn with
    | begin t r => cases r <;> rfl
    | wait t c w k r => cases k <;> cases w <;> rfl
    | dropGuard t k r => cases k <;> rfl
    | cancel => rfl
    | poll t k pc =>
      have hp := hpend k pc rfl
      cases k <;> cases pc <;> first | rfl | cases hp
  · rw [h.call_ne hj]

theorem shows_simulates : Simulates State.step (effect (V := V)) AtomicChannel.step Shows := by
  intro s x e s' h hstep
  have hr' := h.reachable.step hstep
  rcases h.reachable.effect_cases hstep with ⟨i, t, k, pc, a, n, rfl, ha, heff⟩ | ⟨i, c, ht, heff⟩ |
    ⟨ha, ⟨σ, rfl⟩ | ⟨heff, hne⟩⟩
  · rw [heff, List.map_map]
    simpa [Function.comp_def] using h.acted hr' ha
  · rw [heff]
    exact ⟨x, rfl, h.keep hr' (congrArg Shared.chan ht.sh) (ht.committed h.reachable.sane)⟩
  · rcases ha.chan with ⟨-, hn⟩ | ⟨σ', he, hσ, -, hc⟩
    · simp only [State.step, Option.ite_none_right_eq_some, Option.some.injEq] at hstep
      obtain ⟨-, rfl⟩ := hstep
      simp at hn
    · have hsome : 0 < x.senders := h.senders ▸ h.reachable.some_sender hσ.1
      obtain ⟨j, hnone, hqueue⟩ := h.queue
      refine ⟨{ x with senders := x.senders + 1 }, by simp [effect, exec, AtomicChannel.step, hsome],
        hr', by simp [hc, h.senders], by simp [hc, h.receiver], j, ?_, ?_⟩
      · rw [ha.call]; exact hnone
      · rw [ha.call, hc]; exact hqueue
  · have hc : s'.sh.chan = s.sh.chan := by
      rcases ha.chan with ⟨hc, -⟩ | ⟨σ, he, -⟩
      · exact hc
      · exact absurd he (hne σ)
    rw [heff]
    exact ⟨x, rfl, h.keep hr' hc fun j => by rw [ha.call]⟩

/-! ## Call by call -/

/-- What call `i`, which `k` began, has done, by its place or its outcome. -/
def Did (s : State V) (i : CallId) (k : Caller V) (ops : List (ChannelOp V)) : Prop :=
  match s.call i with
  | .idle => False
  | .running _ k' pc | .suspended k' pc => k' = k ∧ ops = k.did pc
  | .holding k' _ => k' = k ∧ ops = []
  | .done o => k.DidAll o ops

theorem Did.step (hr : s.Reachable) {k : Caller V} {ops : List (ChannelOp V)} (hs : s.Did i k ops)
    (hstep : s.step e = some s') : s'.Did i k (ops ++ doneBy (some i) (s.effect e)) := by
  rcases hr.effect_cases hstep with ⟨j, t, k', pc, a, n, -, ha, heff⟩ | ⟨j, c, ht, heff⟩ | ⟨ha, heff⟩
  · by_cases hj : i = j
    · subst hj
      have hf := hr.fits i
      rw [heff, doneBy_self]
      simp only [Did, ha.running] at hs hf
      obtain ⟨rfl, rfl⟩ := hs
      have hdid := ha.step.did hf
      simp only [Did, ha.call_self]
      cases n with
      | goto | yield | hold => exact ⟨rfl, hdid⟩
      | finish o => exact hdid
    · rw [heff, doneBy_ne (by simpa using Ne.symm hj), List.append_nil]
      simpa only [Did, ha.call_ne hj] using hs
  · rw [heff, doneBy_nil, List.append_nil]
    by_cases hj : i = j
    · subst hj
      have hturn := ht.turn
      have hpend := hr.sane.pending i
      simp only [Did, ht.call_self] at hs ⊢
      generalize s.call i = c₀ at hturn hs hpend
      cases hturn with
      | begin => exact hs.elim
      | wait t c w k' r =>
        obtain ⟨rfl, rfl⟩ := hs
        exact ⟨rfl, by cases w <;> rfl⟩
      | dropGuard t k' r => exact hs
      | poll => exact hs
      | cancel k' pc =>
        obtain ⟨rfl, rfl⟩ := hs
        have hp := hpend k' pc rfl
        refine .inl ⟨.inl rfl, ?_⟩
        cases pc <;> first | rfl | cases hp
    · simpa only [Did, ht.call_ne hj] using hs
  · have hnone : doneBy (some i) (s.effect e) = [] := by
      rcases heff with ⟨σ, rfl⟩ | ⟨heff, -⟩
      · rfl
      · rw [heff]; rfl
    rw [hnone, List.append_nil]
    simpa only [Did, ha.call] using hs

theorem Did.begun {t : ThreadId} {r : Request V} (hstep : s.step (.begin t r) = some s') :
    s'.Did s.used r.caller [] := by
  simp only [State.step, Option.ite_none_right_eq_some, Option.some.injEq] at hstep
  obtain ⟨-, rfl⟩ := hstep
  simp only [Did, setCall, Function.update_self]
  exact ⟨trivial, by cases r <;> rfl⟩

omit [DecidableEq V] in
theorem Did.length_le {k : Caller V} {ops : List (ChannelOp V)} (h : s.Did i k ops) : ops.length ≤ 1 := by
  have hdid : ∀ pc : Pc V, (k.did pc).length ≤ 1 := by
    intro pc
    unfold Caller.did Outcome.done
    repeat' split
    all_goals simp
  unfold Did at h
  split at h
  · exact h.elim
  · rw [h.2]; exact hdid _
  · rw [h.2]; exact hdid _
  · rw [h.2]; simp
  · rcases h with ⟨-, rfl⟩ | ⟨op, rfl, -⟩ <;> simp

def isIdle (s : State V) (i : Option CallId) : Prop := ∃ j, i = some j ∧ s.call j = .idle

def isDone (s : State V) (i : Option CallId) : Prop := ∃ j o, i = some j ∧ s.call j = .done o

theorem Reachable.effect_of_ne_running (hr : s.Reachable) (hstep : s.step e = some s')
    (hi : ∀ t k pc, s.call i ≠ .running t k pc) : doneBy (some i) (s.effect e) = [] := by
  rcases hr.effect_cases hstep with ⟨j, t, k, pc, a, n, -, ha, heff⟩ | ⟨j, c, -, heff⟩ | ⟨-, ⟨σ, rfl⟩ | ⟨heff, -⟩⟩
  · have hj : j ≠ i := fun hj => hi t k pc (hj ▸ ha.running)
    rw [heff]
    exact doneBy_ne (by simpa using hj) _
  · rw [heff]; rfl
  · rfl
  · rw [heff]; rfl

theorem Reachable.idle_back (hr : s.Reachable) (hstep : s.step e = some s') (hi : s'.call i = .idle) :
    s.call i = .idle ∧ doneBy (some i) (s.effect e) = [] := by
  have hidle : s.call i = .idle := by
    rcases call_cases hr.sane.numbered hstep i with hcall | ⟨a, t, k, pc, n, -, ha⟩ | ⟨c, ht⟩
    · exact hcall.symm.trans hi
    · rw [ha.call_self] at hi
      cases n <;> cases hi
    · have hturn := ht.turn
      rw [← ht.call_self, hi] at hturn
      generalize s.call i = c₀ at hturn ⊢
      cases hturn
  exact ⟨hidle, hr.effect_of_ne_running hstep (by simp [hidle])⟩

/-- The calls on the channel take effect one at a time, on a channel without threads. A call
that has ended has done what it answers, and a call that is under way has done it or not. -/
structure ChannelLinear (cfg : Config) (es : List (Event V)) (s : State V)
    (log : List (Option CallId × ChannelOp V)) : Prop where
  linearized : Linearized State.step isIdle isDone AtomicChannel.step Shows .new cfg.init es log
  answered : ∀ bs t r cs u, es = bs ++ .begin t r :: cs → exec State.step cfg.init bs = some u →
    (∀ o, s.call u.used = .done o → r.caller.DidAll o (doneBy (some u.used) log)) ∧
      (doneBy (some u.used) log).length ≤ 1

theorem did_of_exec {u v : State V} {es : List (Event V)} {t : ThreadId} {r : Request V} (hr : u.Reachable)
    (hbegin : u.step (.begin t r) = some v) (h : exec State.step v es = some s) :
    s.Did u.used r.caller (doneBy (some u.used) (effects State.step effect v es)) := by
  have hnew : v.Did u.used r.caller (doneBy (some u.used) []) := .begun hbegin
  have hdid := effects_invariant effect
    (P := fun s log => s.Reachable ∧ s.Did u.used r.caller (doneBy (some u.used) log)) h
    ⟨hr.step hbegin, hnew⟩ fun s log e s' hs hstep => by
      rw [doneBy_append]
      exact ⟨hs.1.step hstep, hs.2.step hs.1 hstep⟩
  exact hdid.2

theorem effects_idle {cfg : Config} {es : List (Event V)} (h : exec State.step cfg.init es = some s)
    (hi : s.call i = .idle) : doneBy (some i) (effects State.step effect cfg.init es) = [] :=
  effects_of_idle (I := Reachable) (D := fun s => s.call i = .idle) (fun _ _ _ hr hstep => hr.step hstep)
    (fun _ _ _ hr hi hstep => hr.idle_back hstep hi) h ⟨cfg, .refl⟩ hi

theorem shows_new (cfg : Config) : (cfg.init : State V).Shows .new :=
  ⟨⟨cfg, .refl⟩, rfl, rfl, 0, fun _ _ => rfl, rfl⟩

theorem effects_linearized {cfg : Config} {es : List (Event V)} (h : exec State.step cfg.init es = some s) :
    Linearized State.step isIdle isDone AtomicChannel.step Shows .new cfg.init es
      (effects State.step effect cfg.init es) := by
  refine shows_simulates.linearized (I := Reachable) (fun s e s' hr hstep => hr.step hstep) ?_ ?_
    ⟨cfg, .refl⟩ (shows_new cfg) h
  · rintro _ s e s' hr ⟨j, o, rfl, hj⟩ hstep
    exact ⟨⟨j, o, rfl, hr.sane.numbered.done_step hstep hj⟩, hr.effect_of_ne_running hstep (by simp [hj])⟩
  · rintro _ s e s' hr ⟨j, rfl, hj⟩ hstep
    obtain ⟨hidle, hnone⟩ := hr.idle_back hstep hj
    exact ⟨⟨j, rfl, hidle⟩, hnone⟩

theorem effects_answered {cfg : Config} {bs cs : List (Event V)} {t : ThreadId} {r : Request V} {u : State V}
    (hu : exec State.step cfg.init bs = some u)
    (h : exec State.step cfg.init (bs ++ .begin t r :: cs) = some s) :
    s.Did u.used r.caller
      (doneBy (some u.used) (effects State.step effect cfg.init (bs ++ .begin t r :: cs))) := by
  rw [exec_append hu] at h
  obtain ⟨v, hv, hrest⟩ := Option.bind_eq_some_iff.mp h
  have hr : u.Reachable := reachable_of_exec hu
  have hidle := effects_idle hu (hr.sane.numbered u.used (Nat.le_refl _))
  have hbegin : effects State.step effect u (.begin t r :: cs) = effects State.step effect v cs := by
    simp [effects, hv, effect]
  rw [effects_append hu, doneBy_append, hidle, List.nil_append, hbegin]
  exact did_of_exec hr hv hrest

omit [DecidableEq V] in
theorem Did.answered {k : Caller V} {ops : List (ChannelOp V)} (h : s.Did i k ops) {o : Outcome V}
    (ho : s.call i = .done o) : k.DidAll o ops := by
  simpa only [Did, ho] using h

theorem channel_linearizable {cfg : Config} {es : List (Event V)} (h : exec State.step cfg.init es = some s) :
    ChannelLinear cfg es s (effects State.step effect cfg.init es) := by
  refine ⟨effects_linearized h, fun bs t r cs u hsplit hu => ?_⟩
  subst hsplit
  have hdid := effects_answered hu h
  exact ⟨fun o ho => hdid.answered ho, hdid.length_le⟩

theorem channel_linearizable_sent : ∃ s : State Nat,
    exec State.step (⟨fun _ => true, 1, 0⟩ : Config).init sentEvents = some s ∧
      effects State.step effect (⟨fun _ => true, 1, 0⟩ : Config).init sentEvents =
        [(some 0, .send 7), (some 1, .recv 7)] ∧
      ChannelLinear ⟨fun _ => true, 1, 0⟩ sentEvents s
        (effects State.step effect (⟨fun _ => true, 1, 0⟩ : Config).init sentEvents) :=
  ⟨_, rfl, rfl, channel_linearizable rfl⟩

end State

end WasmSafeMutex
