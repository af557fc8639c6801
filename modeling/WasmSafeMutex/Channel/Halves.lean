import WasmSafeMutex.Mutex.Exclusion

/-!
# The two halves of the channel

`ChannelStep` is what one event can do to the channel. A send borrows its `Sender`, a drop
consumes it, and the receives run on the thread of the `Receiver`.
-/

namespace WasmSafeMutex

open Interleaving

variable {V : Type}

/-! ## One event -/

/-- What an event does to the channel, and which call does it. -/
inductive ChannelStep (s s' : State V) : Event V → Prop
  | same (e : Event V) (hc : s'.sh.chan = s.sh.chan) (hn : s'.nextSender = s.nextSender) :
    ChannelStep s s' e
  | cloned (σ : SenderId) (hσ : s.usable σ) (hn : s'.nextSender = s.nextSender + 1)
    (hc : s'.sh.chan = { s.sh.chan with
      senderCount := s.sh.chan.senderCount + 1, senders := s.nextSender :: s.sh.chan.senders })
    (hcall : s'.call = s.call) : ChannelStep s s' (.clone σ)
  | pushed (i : CallId) (t : ThreadId) (σ : SenderId) (st : Strategy) (v : V)
    (hi : s.call i = .running t (.send σ st v) .sendPush)
    (hi' : s'.call i = .running t (.send σ st v) (.unlock .store .notify))
    (hc : s'.sh.chan = { s.sh.chan with
      queue := s.sh.chan.queue ++ [v], pushed := s.sh.chan.pushed ++ [(i, v)] })
    (hn : s'.nextSender = s.nextSender) : ChannelStep s s' (.act i (.chan (.pushBack v)))
  | popped (i : CallId) (t : ThreadId) (k : Caller V) (v : V) (vs : List V)
    (hi : s.call i = .running t k .recvPop)
    (hi' : s'.call i = .running t k (unlockAndReturn (.received v)))
    (hq : s.sh.chan.queue = v :: vs)
    (hc : s'.sh.chan = { s.sh.chan with queue := vs, popped := s.sh.chan.popped ++ [(i, v)] })
    (hn : s'.nextSender = s.nextSender) : ChannelStep s s' (.act i (.chan (.popFront (some v))))
  | dropped (i : CallId) (t : ThreadId) (σ : SenderId) (old : Nat)
    (hi : s.call i = .running t (.dropSender σ) .fetchSub)
    (hi' : (s'.call i).pc? ≠ some .fetchSub)
    (hc : s'.sh.chan = { s.sh.chan with
      senderCount := s.sh.chan.senderCount - 1, senders := s.sh.chan.senders.erase σ })
    (hn : s'.nextSender = s.nextSender) : ChannelStep s s' (.act i (.chan (.fetchSub σ old)))
  | cleared (i : CallId) (t : ThreadId) (k : Caller V)
    (hi : s.call i = .running t k .clearActive)
    (hc : s'.sh.chan = { s.sh.chan with receiverActive := false })
    (hn : s'.nextSender = s.nextSender) : ChannelStep s s' (.act i (.chan .clearActive))

/-- Which event takes a `Sender` from the list. -/
theorem ChannelStep.keeps {s s' : State V} {e : Event V} (h : ChannelStep s s' e) {σ : SenderId} (hσ : σ ∈ s.sh.chan.senders) :
    σ ∈ s'.sh.chan.senders ∨ ∃ j t old, s.call j = .running t (.dropSender σ) .fetchSub ∧
      e = .act j (.chan (.fetchSub σ old)) ∧ (s'.call j).pc? ≠ some .fetchSub := by
  cases h with
  | cloned σ' _ _ hc _ => rw [hc]; exact .inl (List.mem_cons_of_mem _ hσ)
  | dropped j t σ' old hj hj' hc _ =>
    by_cases he : σ = σ'
    · subst he; exact .inr ⟨j, t, old, hj, rfl, hj'⟩
    · rw [hc]; exact .inl ((List.mem_erase_of_ne he).mpr hσ)
  | same _ hc | pushed _ _ _ _ _ _ _ hc | popped _ _ _ _ _ _ _ _ hc | cleared _ _ _ _ hc =>
    rw [hc]; exact .inl hσ

theorem Pc.Step.ne_fetchSub {k : Caller V} {pc : Pc V} {a : Act V} {n : Next V} (h : pc.Step k a n) :
    n.pc? ≠ some .fetchSub := by
  intro hn
  rcases h.into_own hn rfl with ⟨_, _, -, h | h⟩ | ⟨h, -⟩ | ⟨h, -⟩ <;> cases h

/-! ## Receives -/

/-- A receive that is at such a place. -/
def Call.receiveAt (ν : Pc V → Bool) : Call V → Bool
  | .running _ (.recv _) pc | .suspended (.recv _) pc => ν pc
  | _ => false

/-- No wait goes back to its registration. -/
theorem WaitPc.Step.ne_register {f : WaitFrame} {w w' : WaitPc} {a : Act V} {o : WaitOut}
    (h : w.Step f a o) (ho : o.pc? = some w') : w' ≠ .register := by
  rintro rfl
  cases h with
  | register n =>
    rcases f with ⟨cv, k, d⟩
    cases k <;> cases d <;> cases ho
  | spinLoad n b =>
    cases b with
    | true => cases ho
    | false =>
      rcases f with ⟨cv, k, d⟩
      cases d <;> cases ho
  | spinNow n d x | blockNow n d x => split at ho <;> cases ho
  | spinRemove n b | spinDrain n b | blockCheck n d b | await n b | raceNotify n m b | raceTimeout n m b
  | asyncRemove n b => cases b <;> cases ho
  | _ => cases ho

/-- A receive at this place has found the queue empty, and has held the lock since. -/
def Pc.sawEmpty : Pc V → Bool
  | .recvCount | .waitProbe _ _ | .wait _ .register => true
  | _ => false

theorem Call.owns_of_sawEmpty {c : Call V} (h : c.receiveAt Pc.sawEmpty = true) : c.owns .queue = true := by
  unfold Call.receiveAt at h
  split at h
  case h_1 t rk pc | h_2 rk pc =>
    unfold Pc.sawEmpty at h
    split at h <;> first | rfl | cases h
  case h_3 => cases h

theorem Pc.Step.into_sawEmpty [DecidableEq V] {rk : RecvKind} {pc q : Pc V} {a : Act V} {n : Next V}
    (h : pc.Step (.recv rk) a n) (hf : pc.fits (.recv rk) = true) (hn : n.pc? = some q)
    (hq : q.sawEmpty = true) : pc.sawEmpty = true ∨ a = .chan (.popFront none) := by
  cases h with
  | lock l ret a o ho =>
    cases o with
    | goto | yield => cases hn; cases hq
    | acquired => rcases Caller.onLocked_pc _ ret hn with rfl | rfl | rfl <;> cases hq
    | failed => cases hn
  | unlock u ret a o ho =>
    cases o with
    | goto => cases hn; cases hq
    | finished =>
      cases ret with
      | finish => cases hn
      | notify => cases hn; cases hq
      | wait f w =>
        -- The wait goes on past its registration.
        cases hn
        simp only [Pc.fits, Bool.and_eq_true] at hf
        cases w with
        | register => cases hf.2
        | _ => cases hq
  | wait f w a o ho =>
    cases o with
    | drop | relock => cases hn; cases hq
    | goto w' | yield w' =>
      cases hn
      cases w' with
      | register => exact absurd rfl (ho.ne_register rfl)
      | _ => cases hq
  | notify c x a o ho => cases o <;> cases hn; cases hq
  | waitProbe c d b => exact .inl rfl
  | recvCount rk m hk => exact .inl rfl
  | popNone => exact .inr rfl
  | popSome v | clearActive => cases hn; cases hq
  | sendCheck1 _ _ _ _ hk | sendCheck2 _ _ _ _ hk | sendPush _ _ _ hk | fetchSub _ _ hk => cases hk

namespace State

variable {s s' : State V} {e : Event V}

theorem Surrounded.channel (h : Surrounded s s' e) : ChannelStep s s' e := by
  rcases h.chan with ⟨hc, hn⟩ | ⟨σ, rfl, hσ, hn, hc⟩
  · exact .same e hc hn
  · exact .cloned σ hσ hn hc h.call

theorem Acted.channel {i : CallId} {t : ThreadId} {k : Caller V} {pc : Pc V} {a : Act V} {n : Next V}
    (h : Acted s s' i t k pc a n) : ChannelStep s s' (.act i a) := by
  have hcall := h.call_self
  have hrun := h.running
  have hn := h.nextSender
  generalize hsh : s'.sh = sh'
  have happ := hsh ▸ h.applied
  have hstep := h.step
  cases happ with
  | chan a x hx =>
    cases hx with
    | pushBack v =>
      cases hstep with
      | sendPush σ st v hk => subst hk; exact .pushed i t σ st v hrun hcall (hsh ▸ rfl) hn
      | lock l ret a o ho | unlock u ret a o ho | wait f w a o ho | notify c x a o ho => cases ho
    | popSome v vs hq =>
      cases hstep with
      | popSome v => exact .popped i t k v vs hrun hcall hq (hsh ▸ rfl) hn
      | lock l ret a o ho | unlock u ret a o ho | wait f w a o ho | notify c x a o ho => cases ho
    | fetchSub σ =>
      cases hstep with
      | fetchSub σ old hk =>
        subst hk
        refine .dropped i t σ _ hrun (fun hpc => ?_) (hsh ▸ rfl) hn
        rw [hcall] at hpc
        split at hpc <;> cases hpc
      | lock l ret a o ho | unlock u ret a o ho | wait f w a o ho | notify c x a o ho => cases ho
    | clearActive =>
      cases hstep with
      | clearActive => exact .cleared i t k hrun (hsh ▸ rfl) hn
      | lock l ret a o ho | unlock u ret a o ho | wait f w a o ho | notify c x a o ho => cases ho
    | _ => exact .same _ (hsh ▸ rfl) hn
  | _ => exact .same _ (hsh ▸ rfl) hn

/-- A `pop_front` that returns `None` has found the queue empty. -/
theorem Acted.queue_nil {i : CallId} {t : ThreadId} {k : Caller V} {pc : Pc V} {n : Next V}
    (h : Acted s s' i t k pc (.chan (.popFront none)) n) :
    s.sh.chan.queue = [] ∧ s'.sh.chan.queue = [] := by
  have happ := h.applied
  generalize s'.sh = sh' at happ ⊢
  cases happ with
  | chan a x hx =>
    cases hx with
    | popNone hq => exact ⟨hq, hq⟩

theorem Acted.head_of_pop {i : CallId} {t : ThreadId} {k : Caller V} {pc : Pc V} {v : V} {n : Next V}
    (h : Acted s s' i t k pc (.chan (.popFront (some v))) n) : s.sh.chan.queue.head? = some v := by
  have happ := h.applied
  generalize s'.sh = sh' at happ
  cases happ with
  | chan a x hx =>
    cases hx with
    | popSome v vs hq => rw [hq]; rfl

theorem sendsVia_iff {c : Call V} {σ : SenderId} :
    c.sendsVia σ = true ↔ ∃ st v, c.caller? = some (.send σ st v) := by
  unfold Call.sendsVia
  split <;> simp_all

theorem dropsSender_iff {c : Call V} {σ : SenderId} :
    c.dropsSender σ = true ↔ c.caller? = some (.dropSender σ) := by
  unfold Call.dropsSender
  split <;> simp_all

theorem usable_all {σ : SenderId} (hn : s.Numbered) (h : s.usable σ) (j : CallId) :
    (s.call j).dropsSender σ = false := by
  by_cases hj : j < s.used
  · exact h.2 j hj
  · rw [hn j (Nat.le_of_not_lt hj)]; rfl

/-- Who has a `Sender`: a send borrows it, and one drop consumes it. -/
structure Borrowed (s : State V) : Prop where
  nodup : s.sh.chan.senders.Nodup
  count : s.sh.chan.senderCount = s.sh.chan.senders.length
  lt_next : ∀ σ ∈ s.sh.chan.senders, σ < s.nextSender
  sends : ∀ i σ, (s.call i).sendsVia σ = true →
    σ ∈ s.sh.chan.senders ∧ ∀ j, (s.call j).dropsSender σ = false
  drops : ∀ i t σ, s.call i = .running t (.dropSender σ) .fetchSub → σ ∈ s.sh.chan.senders
  one : ∀ i j σ, (s.call i).dropsSender σ = true → (s.call j).dropsSender σ = true → i = j

theorem Borrowed.listed (hs : s.Borrowed) (hstep : ChannelStep s s' e) :
    s'.sh.chan.senders.Nodup ∧ s'.sh.chan.senderCount = s'.sh.chan.senders.length ∧
      ∀ σ ∈ s'.sh.chan.senders, σ < s'.nextSender := by
  cases hstep with
  | cloned σ _ hn hc _ =>
    have hfresh : s.nextSender ∉ s.sh.chan.senders := fun h => Nat.lt_irrefl _ (hs.lt_next _ h)
    rw [hc, hn]
    refine ⟨List.nodup_cons.mpr ⟨hfresh, hs.nodup⟩, by simp [hs.count], fun σ' hσ' => ?_⟩
    rcases List.mem_cons.mp hσ' with rfl | hσ'
    · exact Nat.lt_succ_self _
    · exact Nat.lt_succ_of_lt (hs.lt_next σ' hσ')
  | dropped j t σ old hj _ hc hn =>
    rw [hc, hn]
    refine ⟨hs.nodup.erase σ, ?_, fun σ' hσ' => hs.lt_next σ' (List.mem_of_mem_erase hσ')⟩
    simp [List.length_erase_of_mem (hs.drops j t σ hj), hs.count]
  | same _ hc hn | pushed _ _ _ _ _ _ _ hc hn | popped _ _ _ _ _ _ _ _ hc hn | cleared _ _ _ _ hc hn =>
    rw [hc, hn]; exact ⟨hs.nodup, hs.count, hs.lt_next⟩

variable [DecidableEq V]

theorem Reachable.channel_step (h : s.Reachable) (hstep : s.step e = some s') : ChannelStep s s' e := by
  rcases step_cases h.sane.numbered hstep with ⟨i, a, t, k, pc, n, rfl, ha⟩ | ⟨i, c, ht⟩ | ha
  · exact ha.channel
  · exact .same e (congrArg Shared.chan ht.sh) ht.nextSender
  · exact ha.channel

/-- A call that is under way was so before, for the same caller, or has just begun. -/
theorem Reachable.caller_step (h : s.Reachable) (hstep : s.step e = some s') {i : CallId}
    {k : Caller V} (hk : (s'.call i).caller? = some k) :
    (s.call i).caller? = some k ∨
      ∃ t r, e = .begin t r ∧ i = s.used ∧ r.caller = k ∧ s.allows t r ∧
        s'.call i = .running t k r.entry := by
  rcases call_cases h.sane.numbered hstep i with hcall | ⟨a, t, k', pc, n, -, ha⟩ | ⟨c, ht⟩
  · rw [hcall] at hk; exact .inl hk
  · rw [ha.call_self] at hk
    rcases Next.caller_call k' t n with hc | ⟨o, ho⟩
    · rw [ha.running]; exact .inl (hc.symm.trans hk)
    · rw [ho] at hk; cases hk
  · have hturn := ht.turn
    have hallow := ht.allowed
    have hself := ht.call_self
    rw [hself] at hk
    generalize hc₀ : s.call i = c₀ at hturn
    cases hturn with
    | begin t r =>
      cases hk
      refine .inr ⟨t, r, rfl, ?_, rfl, hallow t r rfl, hself⟩
      by_contra hi
      simp only [State.step, Option.ite_none_right_eq_some, Option.some.injEq] at hstep
      obtain ⟨-, rfl⟩ := hstep
      simp [setCall, hi, hc₀] at hself
    | wait | dropGuard | poll => exact .inl hk
    | cancel => cases hk

/-- An invariant of the reachable states, kept by every event. -/
theorem Reachable.by_steps {P : State V → Prop} (h : s.Reachable) (init : ∀ cfg : Config, P cfg.init)
    (step : ∀ s s' e, s.Reachable → P s → s.step e = some s' → P s') : P s := by
  obtain ⟨cfg, hr⟩ := h
  have hP : s.Reachable ∧ P s :=
    hr.invariant (P := fun s => s.Reachable ∧ P s) ⟨⟨cfg, .refl⟩, init cfg⟩
      fun s s' e hs _ hstep => ⟨hs.1.step hstep, step s s' e hs.1 hs.2 hstep⟩
  exact hP.2

/-! ## The senders -/

/-- A `Sender` is being dropped: it was before, or the drop begins, and nobody sends with it. -/
theorem Reachable.drops_step (h : s.Reachable) (hstep : s.step e = some s') {i : CallId} {σ : SenderId}
    (hi : (s'.call i).dropsSender σ = true) : (s.call i).dropsSender σ = true ∨
      i = s.used ∧ s.usable σ ∧ (∀ j, (s.call j).sendsVia σ = false) ∧ ∃ t, e = .begin t (.dropSender σ) := by
  rw [dropsSender_iff] at hi ⊢
  rcases h.caller_step hstep hi with hold | ⟨t, r, rfl, rfl, hr, hallow, -⟩
  · exact .inl hold
  · refine .inr ⟨rfl, ?_⟩
    cases r with
    | dropSender σ' =>
      cases hr
      refine ⟨hallow.1, fun j => ?_, t, rfl⟩
      by_cases hj : j < s.used
      · exact hallow.2 j hj
      · rw [h.sane.numbered j (Nat.le_of_not_lt hj)]; rfl
    | _ => cases hr

theorem Reachable.sends_step (h : s.Reachable) (hstep : s.step e = some s') {i : CallId} {σ : SenderId}
    (hi : (s'.call i).sendsVia σ = true) : (s.call i).sendsVia σ = true ∨
      s.usable σ ∧ ∃ t st v, e = .begin t (.send σ st v) := by
  obtain ⟨st, v, hk⟩ := sendsVia_iff.mp hi
  rcases h.caller_step hstep hk with hold | ⟨t, r, rfl, -, hr, hallow, -⟩
  · exact .inl (sendsVia_iff.mpr ⟨st, v, hold⟩)
  · cases r with
    | send σ' st' v' => cases hr; exact .inr ⟨hallow, t, st, v, rfl⟩
    | _ => cases hr

theorem Reachable.fetchSub_step (h : s.Reachable) (hstep : s.step e = some s') {i : CallId}
    {t : ThreadId} {σ : SenderId} (hi : s'.call i = .running t (.dropSender σ) .fetchSub) :
    s.call i = .running t (.dropSender σ) .fetchSub ∨ s.usable σ ∧ ∃ t, e = .begin t (.dropSender σ) := by
  rcases call_cases h.sane.numbered hstep i with hcall | ⟨a, t', k', pc, n, -, ha⟩ | ⟨c, ht⟩
  · rw [hcall] at hi; exact .inl hi
  · rw [ha.call_self] at hi
    have hpc : n.pc? = some .fetchSub := by cases n <;> cases hi; rfl
    exact absurd hpc ha.step.ne_fetchSub
  · have hturn := ht.turn
    have hallow := ht.allowed
    have hpend := h.sane.pending i
    rw [ht.call_self] at hi
    subst hi
    generalize s.call i = c₀ at hturn hpend
    generalize hc : Call.running t (.dropSender σ) .fetchSub = c at hturn
    cases hturn with
    | begin t' r =>
      have hr : r = .dropSender σ := by
        cases r <;> cases hc; rfl
      subst hr
      exact .inr ⟨(hallow t' _ rfl).1, t', rfl⟩
    | wait t' c w k r => cases w <;> cases hc
    | dropGuard | cancel => cases hc
    | poll t' k pc => cases hc; cases hpend _ _ rfl

theorem Borrowed.step (h : s.Reachable) (hs : s.Borrowed) (hstep : s.step e = some s') : s'.Borrowed := by
  -- A send and a drop never meet.
  have hapart : ∀ i σ, (s'.call i).sendsVia σ = true → ∀ j, (s'.call j).dropsSender σ = false := by
    intro i σ hi j
    by_contra hj
    rw [Bool.not_eq_false] at hj
    rcases h.sends_step hstep hi with hi | ⟨hσ, t, st, v, rfl⟩ <;>
      rcases h.drops_step hstep hj with hj | ⟨-, -, hnone, t', he⟩
    · rw [(hs.sends i σ hi).2 j] at hj; cases hj
    · rw [hnone i] at hi; cases hi
    · rw [usable_all h.sane.numbered hσ j] at hj; cases hj
    · cases he
  have hone : ∀ i j σ, (s'.call i).dropsSender σ = true → (s'.call j).dropsSender σ = true → i = j := by
    intro i j σ hi hj
    rcases h.drops_step hstep hi with hi | ⟨rfl, hσ, -⟩ <;>
      rcases h.drops_step hstep hj with hj | ⟨rfl, hσ', -⟩
    · exact hs.one i j σ hi hj
    · rw [usable_all h.sane.numbered hσ' i] at hi; cases hi
    · rw [usable_all h.sane.numbered hσ j] at hj; cases hj
    · rfl
  obtain ⟨hnodup, hcount, hlt⟩ := hs.listed (h.channel_step hstep)
  refine ⟨hnodup, hcount, hlt, fun i σ hi => ⟨?_, hapart i σ hi⟩, fun i t σ hi => ?_, hone⟩
  · rcases h.sends_step hstep hi with hi | ⟨hσ, t, st, v, rfl⟩
    · obtain ⟨hmem, hnone⟩ := hs.sends i σ hi
      refine ((h.channel_step hstep).keeps hmem).resolve_right ?_
      rintro ⟨j, t, old, hj, -⟩
      have := hnone j
      rw [hj] at this
      simp [Call.dropsSender, Call.caller?] at this
    · refine ((h.channel_step hstep).keeps hσ.1).resolve_right ?_
      rintro ⟨j, t, old, -, he, -⟩
      cases he
  · rcases h.fetchSub_step hstep hi with hold | ⟨hσ, t, rfl⟩
    · refine ((h.channel_step hstep).keeps (hs.drops i t σ hold)).resolve_right ?_
      rintro ⟨j, t', old, hj, -, hpc⟩
      obtain rfl : i = j := hs.one i j σ (by rw [hold]; simp [Call.dropsSender, Call.caller?])
        (by rw [hj]; simp [Call.dropsSender, Call.caller?])
      rw [hi] at hpc
      exact hpc rfl
    · refine ((h.channel_step hstep).keeps hσ.1).resolve_right ?_
      rintro ⟨j, t, old, -, he, -⟩
      cases he

theorem Reachable.borrowed (h : s.Reachable) : s.Borrowed := by
  refine h.by_steps ?_ fun s s' e hr hs hstep => hs.step hr hstep
  intro cfg
  refine ⟨List.nodup_cons.mpr ⟨List.not_mem_nil, List.nodup_nil⟩, rfl, ?_, fun _ _ h => ?_, fun _ _ _ h => ?_, fun _ _ _ h => ?_⟩
  · intro σ hσ
    rw [List.mem_singleton.mp hσ]
    exact Nat.zero_lt_one
  all_goals cases h

/-- Once all are dropped there is no way to make another one. -/
theorem Reachable.senders_nil (h : s.Reachable) (hnil : s.sh.chan.senders = []) (hstep : s.step e = some s') :
    s'.sh.chan.senders = [] := by
  have hch := h.channel_step hstep
  cases hch with
  | cloned σ hσ =>
    have := hσ.1
    rw [hnil] at this; cases this
  | same _ hc | pushed _ _ _ _ _ _ _ hc | popped _ _ _ _ _ _ _ _ hc | cleared _ _ _ _ hc
  | dropped _ _ _ _ _ _ hc => rw [hc]; simp [hnil]

/-! ## The receiver -/

theorem Reachable.receiver_home (h : s.Reachable) {i : CallId} {t : ThreadId} {rk : RecvKind} {pc : Pc V}
    (hi : s.call i = .running t (.recv rk) pc) : t = s.receiverThread := by
  revert i t rk pc
  refine h.induction (P := fun s => ∀ {i t rk pc}, s.call i = .running t (.recv rk) pc →
    t = s.receiverThread) ?_ ?_ ?_ ?_
  · intro cfg i t rk pc hi; cases hi
  · intro s s' j t' k pc' a n _ hs ha i t rk pc hi
    rw [ha.receiver.1]
    by_cases hj : i = j
    · subst hj
      rw [ha.call_self] at hi
      cases n <;> cases hi
      exact hs ha.running
    · rw [ha.call_ne hj] at hi; exact hs hi
  · intro s s' e j c hr hs ht i t rk pc hi
    rw [ht.receiver]
    by_cases hj : i = j
    · subst hj
      have hturn := ht.turn
      have hallow := ht.allowed
      have hpoll := ht.polled
      have hf := hr.fits i
      rw [ht.call_self] at hi
      subst hi
      generalize s.call i = c₀ at hturn hf hpoll
      generalize hc : Call.running t (.recv rk) pc = c at hturn
      cases hturn with
      | begin t' r =>
        cases r with
        | recv rk' => cases hc; exact (hallow t _ rfl).2
        | _ => cases hc
      | wait t' c w k r => cases hc; cases hf
      | dropGuard t' k r => cases hc; cases hf
      | poll t' k pc => cases hc; exact hpoll t rfl rfl
      | cancel => cases hc
    · rw [ht.call_ne hj] at hi; exact hs hi
  · intro s s' e hr hs ha i t rk pc hi
    rw [ha.call] at hi
    rcases ha.receiver with he | hnone
    · rw [he]; exact hs hi
    · have hlt : i < s.used := hr.sane.numbered.lt_used (by simp [hi])
      have := hnone i hlt
      rw [hi] at this; cases this

/-- At most one receive runs at a time. The others are futures that nobody polls now. -/
theorem Reachable.one_receive (h : s.Reachable) {i j : CallId} {t t' : ThreadId} {rk rk' : RecvKind}
    {pc pc' : Pc V} (hi : s.call i = .running t (.recv rk) pc)
    (hj : s.call j = .running t' (.recv rk') pc') : i = j := by
  obtain rfl := h.receiver_home hi
  obtain rfl := h.receiver_home hj
  exact h.sane.oneCall i j _ (by rw [hi]; rfl) (by rw [hj]; rfl)

/-- Only the beginning of its drop takes the `Receiver` away. -/
theorem alive_step (hstep : s.step e = some s') :
    s'.receiverAlive = s.receiverAlive ∨ (∃ t, e = .begin t .dropReceiver) ∧ s'.receiverAlive = false := by
  cases e with
  | act i a =>
    obtain ⟨t, k, pc, n, ha⟩ := act_acted hstep
    exact .inl ha.receiver.2
  | begin t r =>
    simp only [State.step, Option.ite_none_right_eq_some, Option.some.injEq] at hstep
    obtain ⟨-, rfl⟩ := hstep
    cases r with
    | dropReceiver => exact .inr ⟨⟨t, rfl⟩, rfl⟩
    | _ => exact .inl rfl
  | wait i t c w | dropGuard i t | poll i t =>
    simp only [State.step] at hstep
    split at hstep
    case h_2 => cases hstep
    case h_1 =>
      obtain ⟨-, hs⟩ := Option.ite_none_right_eq_some.mp hstep
      cases hs; exact .inl rfl
  | cancel i =>
    simp only [State.step] at hstep
    split at hstep <;> cases hstep
    exact .inl rfl
  | clone | moveReceiver | fire =>
    obtain ⟨-, hs⟩ := Option.ite_none_right_eq_some.mp hstep
    cases hs; exact .inl rfl
  | unpark | tick => cases hstep; exact .inl rfl

/-- Who receives has the `Receiver`, and who drops it has taken it away. -/
structure ReceiverHeld (s : State V) : Prop where
  received : ∀ i rk, (s.call i).caller? = some (.recv rk) → s.receiverAlive = true
  dropped : ∀ i, (s.call i).caller? = some .dropReceiver → s.receiverAlive = false

theorem Reachable.receiverHeld (h : s.Reachable) : s.ReceiverHeld := by
  refine h.by_steps ?_ fun s s' e hr hs hstep => ⟨fun i rk hi => ?_, fun i hi => ?_⟩
  · intro cfg
    constructor
    · intro i rk hi; cases hi
    · intro i hi; cases hi
  · rcases alive_step hstep with hsame | ⟨⟨t, rfl⟩, -⟩
    · rw [hsame]
      rcases hr.caller_step hstep hi with hold | ⟨t, r, rfl, -, hrk, hallow, -⟩
      · exact hs.received i rk hold
      · cases r with
        | recv rk' => exact hallow.1
        | _ => cases hrk
    · rcases hr.caller_step hstep hi with hold | ⟨t', r, he, -, hrk, -⟩
      · simp only [State.step, Option.ite_none_right_eq_some, Option.some.injEq] at hstep
        have hlt : i < s.used := hr.sane.numbered.lt_used (by rintro hidle; rw [hidle] at hold; cases hold)
        have hnone := hstep.1.2.2 i hlt
        simp [Call.receives, hold] at hnone
      · cases he; cases hrk
  · rcases alive_step hstep with hsame | ⟨-, hgone⟩
    · rw [hsame]
      rcases hr.caller_step hstep hi with hold | ⟨t, r, rfl, -, hrk, -⟩
      · exact hs.dropped i hold
      · cases r with
        | dropReceiver =>
          simp only [State.step, Option.ite_none_right_eq_some, Option.some.injEq] at hstep
          obtain ⟨-, rfl⟩ := hstep
          exact hsame.symm
        | _ => cases hrk
    · exact hgone

/-- A receive comes to such places by a step of its own. -/
theorem Reachable.into_receiveAt (hr : s.Reachable) (hstep : s.step e = some s') {ν : Pc V → Bool}
    (hfirst : ∀ l, ν (.lock l .first) = false) {i : CallId} (hi : (s'.call i).receiveAt ν = true) :
    (s.call i).receiveAt ν = true ∨ ∃ t rk pc a n q, e = .act i a ∧ Acted s s' i t (.recv rk) pc a n ∧
      n.pc? = some q ∧ ν q = true := by
  rcases call_cases hr.sane.numbered hstep i with hcall | ⟨a, t, k, pc, n, rfl, ha⟩ | ⟨c, ht⟩
  · rw [hcall] at hi; exact .inl hi
  · rw [ha.call_self] at hi
    cases n with
    | goto q | yield q =>
      cases k with
      | recv rk => exact .inr ⟨t, rk, pc, a, _, q, rfl, ha, rfl, hi⟩
      | _ => cases hi
    | hold | finish => cases hi
  · rw [ht.call_self] at hi
    have hturn := ht.turn
    have hfits := hr.fits i
    generalize s.call i = c₀ at hturn hfits
    cases hturn with
    | begin t r => cases r <;> first | cases hi | (rw [← hi]; exact .inl (hfirst _).symm)
    | wait t c w k r | dropGuard t k r => cases k <;> first | cases hi | cases hfits
    | poll t k pc => cases k <;> first | cases hi | exact .inl hi
    | cancel => cases hi

/-- From the look that finds the queue empty until it registers, a receive holds the lock. -/
theorem Reachable.saw_empty (h : s.Reachable) {i : CallId} (hi : (s.call i).receiveAt Pc.sawEmpty = true) :
    s.sh.chan.queue = [] := by
  revert i
  refine h.by_steps (P := fun s => ∀ {i}, (s.call i).receiveAt Pc.sawEmpty = true → s.sh.chan.queue = []) ?_ ?_
  · intro cfg i hi; cases hi
  · intro s s' e hr hs hstep i hi
    have hkeeps : (s.call i).receiveAt Pc.sawEmpty = true → s'.sh.chan.queue = [] := by
      intro hold
      have hempty := hs hold
      cases hr.channel_step hstep with
      | same _ hc | cloned _ _ _ hc | dropped _ _ _ _ _ _ hc | cleared _ _ _ _ hc => rw [hc]; exact hempty
      | popped _ _ _ _ _ _ _ hq => rw [hempty] at hq; cases hq
      | pushed j t σ st v hj =>
        -- The sender would hold the lock too.
        have hother : (s.call j).owns .queue = true := by rw [hj]; rfl
        obtain rfl := (hr.exclusive .queue).exact.unique (Call.owns_of_sawEmpty hold) hother
        rw [hj] at hold
        cases hold
    rcases hr.into_receiveAt hstep (fun _ => rfl) hi with hold | ⟨t, rk, pc, a, n, q, rfl, ha, hn, hq⟩
    · exact hkeeps hold
    · rcases ha.step.into_sawEmpty (ha.running ▸ hr.fits i :) hn hq with hold | rfl
      · exact hkeeps (by rw [ha.running]; exact hold)
      · exact ha.queue_nil.2

end State

end WasmSafeMutex
