import WasmSafeMutex.Channel.Fifo

/-!
# Receives that time out

A timed receive whose wait reports a timeout returns `Err(Timeout)` when it has the lock again.
It looks at the queue before each wait, and after the waits that report no timeout.
-/

namespace WasmSafeMutex

open Interleaving

variable {V : Type}

/-! ## Between two looks at the queue -/

/-- A receive at this place has found the queue empty, and has not looked at it again. -/
def Pc.emptied : Pc V → Bool
  | .recvCount | .waitProbe _ _ | .wait _ _ | .unlock _ (.wait _ _) | .lock _ (.relock _)
  | .unlock _ (.finish .timeout) => true
  | _ => false

/-- The last wait of a receive at this place has reported a timeout. -/
def Pc.gaveUp : Pc V → Bool
  | .lock _ (.relock (some true)) | .unlock _ (.finish .timeout) => true
  | _ => false

theorem Call.receiveAt_mono {ν ν' : Pc V → Bool} (h : ∀ pc, ν pc = true → ν' pc = true) {c : Call V}
    (hc : c.receiveAt ν = true) : c.receiveAt ν' = true := by
  unfold Call.receiveAt at hc ⊢
  split at hc
  · exact h _ hc
  · exact h _ hc
  · cases hc

theorem Pc.emptied_of_gaveUp (pc : Pc V) (h : pc.gaveUp = true) : pc.emptied = true := by
  unfold Pc.gaveUp at h
  split at h <;> first | rfl | cases h

/-- Call `i` calls `pop_front`. -/
def Event.popsFront (i : CallId) : Event V → Prop
  | .act j (.chan (.popFront _)) => j = i
  | _ => False

theorem Pc.Step.into_emptied {rk : RecvKind} {pc q : Pc V} {a : Act V} {n : Next V}
    (h : pc.Step (.recv rk) a n) (hn : n.pc? = some q) (hq : q.emptied = true) :
    pc.emptied = true ∨ a = .chan (.popFront none) := by
  cases h with
  | lock l ret a o ho =>
    cases ret with
    | relock r => exact .inl rfl
    | first =>
      cases o with
      | goto | yield | acquired => cases hn; cases hq
      | failed => cases hn
  | unlock u ret a o ho =>
    cases o with
    | goto u' =>
      cases hn
      cases ret with
      | finish o => exact .inl (by cases o <;> exact hq)
      | _ => exact .inl hq
    | finished =>
      cases ret with
      | wait f w => exact .inl rfl
      | finish => cases hn
      | notify => cases hn; cases hq
  | wait f w a o ho => exact .inl rfl
  | waitProbe c d b => exact .inl rfl
  | recvCount rk m hk => exact .inl rfl
  | popNone => exact .inr rfl
  | notify c x a o ho => cases o <;> cases hn; cases hq
  | popSome v | clearActive => cases hn; cases hq
  | sendCheck1 _ _ _ _ hk | sendCheck2 _ _ _ _ hk | sendPush _ _ _ hk | fetchSub _ _ hk => cases hk

theorem Pc.Step.into_gaveUp {rk : RecvKind} {pc q : Pc V} {a : Act V} {n : Next V}
    (h : pc.Step (.recv rk) a n) (hn : n.pc? = some q) (hq : q.gaveUp = true) :
    pc.gaveUp = true ∨ ∃ f w, pc = .wait f w ∧ w.Step f a (.relock (some true)) := by
  cases h with
  | lock l ret a o ho =>
    rcases ret with _ | _ | _ | _
    case relock.some.true => exact .inl rfl
    all_goals
      cases o with
      | goto | yield | acquired => cases hn; cases hq
      | failed => cases hn
  | unlock u ret a o ho =>
    cases o with
    | goto u' =>
      cases hn
      cases ret with
      | finish o => exact .inl (by cases o <;> exact hq)
      | _ => exact .inl hq
    | finished =>
      cases ret with
      | finish => cases hn
      | wait | notify => cases hn; cases hq
  | wait f w a o ho =>
    cases o with
    | relock r =>
      cases hn
      rcases r with _ | _ | _
      · cases hq
      · cases hq
      · exact .inr ⟨f, w, rfl, ho⟩
    | goto | yield | drop => cases hn; cases hq
  | recvCount rk m hk =>
    rcases rk.onEmpty_pc (V := V) m with he | he | ⟨d, he⟩ | ⟨f, -, he⟩ <;> rw [he] at hn <;> cases hn <;>
      cases hq
  | notify c x a o ho => cases o <;> cases hn; cases hq
  | waitProbe | popNone | popSome | clearActive => cases hn; cases hq
  | sendCheck1 _ _ _ _ hk | sendCheck2 _ _ _ _ hk | sendPush _ _ _ hk | fetchSub _ _ hk => cases hk

namespace State

variable [DecidableEq V] {s s' : State V} {e : Event V}

/-- A receive pops where it has not yet found the queue empty. -/
theorem not_popsFront {i : CallId} (hi : (s.call i).receiveAt Pc.emptied = true)
    (hstep : s.step e = some s') : ¬ e.popsFront i := by
  intro he
  unfold Event.popsFront at he
  split at he
  case h_2 => exact he
  case h_1 j v =>
    subst he
    obtain ⟨t, k, pc, n, ha⟩ := act_acted hstep
    rw [ha.running] at hi
    cases ha.step with
    | popSome | popNone => cases k <;> cases hi
    | lock l ret a o ho => cases ho
    | unlock u ret a o ho => cases ho
    | wait f w a o ho => cases ho
    | notify c x a o ho => cases ho

/-- How a receive has come to return `Err(Timeout)` with the queue locked: at `u` it found the
queue empty, and it did not look again. At `x` its wait reports a timeout. -/
def TimedOut (cfg : Config) (s : State V) (i : CallId) : Prop :=
  ∃ (u v x y : State V) (t : ThreadId) (rk : RecvKind) (f : WaitFrame) (w : WaitPc) (a : Act V),
    Run step cfg.init u ∧ u.sh.chan.queue = [] ∧ u.step (.act i (.chan (.popFront none))) = some v ∧
      RunWhere step (fun _ e => ¬ e.popsFront i) v x ∧
      x.call i = .running t (.recv rk) (.wait f w) ∧ w.Step f a (.relock (some true)) ∧
      x.step (.act i a) = some y ∧
      RunWhere step (fun z e => ¬ e.popsFront i ∧ (z.call i).receiveAt Pc.gaveUp = true) y s

theorem timed_out_after_look {cfg : Config} (hrun : Run step cfg.init s) {i : CallId}
    (hi : (s.call i).receiveAt Pc.gaveUp = true) : TimedOut cfg s i := by
  have hstart : ∀ ν : Pc V → Bool, ¬ ((cfg.init : State V).call i).receiveAt ν = true := by
    intro ν h
    cases h
  -- the last step that brings the call to a place where it has given up
  obtain ⟨x, y, e, hx, hbefore, -, hxy, hy, hys⟩ := hrun.exists_last_entry
    (P := fun s => (s.call i).receiveAt Pc.gaveUp = true) (hstart _) hi
  obtain ⟨t, rk, pc, a, n, q, rfl, ha, hn, hq⟩ :=
    (Reachable.into_receiveAt ⟨cfg, hx⟩ hxy (fun _ => rfl) hy).resolve_left hbefore
  have hpc : pc.gaveUp ≠ true := fun h => hbefore (by rw [ha.running]; exact h)
  obtain ⟨f, w, rfl, hw⟩ := (ha.step.into_gaveUp hn hq).resolve_left hpc
  -- the last step before that which finds the queue empty
  obtain ⟨u, v, e, hu, hbefore, -, huv, hv, hvx⟩ := hx.exists_last_entry
    (P := fun s => (s.call i).receiveAt Pc.emptied = true) (hstart _) (by rw [ha.running]; rfl)
  obtain ⟨t', rk', pc', a', n', q', rfl, ha', hn', hq'⟩ :=
    (Reachable.into_receiveAt ⟨cfg, hu⟩ huv (fun _ => rfl) hv).resolve_left hbefore
  have hpc' : pc'.emptied ≠ true := fun h => hbefore (by rw [ha'.running]; exact h)
  obtain rfl := (ha'.step.into_emptied hn' hq').resolve_left hpc'
  refine ⟨u, v, x, y, t, rk, f, w, a, hu, ha'.queue_nil.1, huv, ?_, ha.running, hw, hxy, ?_⟩
  · exact hvx.mono_of_step fun z e z' hz hstep => not_popsFront hz.2 hstep
  · refine hys.mono_of_step fun z e z' hz hstep => ⟨not_popsFront ?_ hstep, hz.2⟩
    exact Call.receiveAt_mono (fun pc => pc.emptied_of_gaveUp) hz.2

/-! ## A look after the wait -/

/-- Where a receive is that has locked the queue with `v` at its front, and has not given up. -/
def Takes (s : State V) (i : CallId) (v : V) : Prop :=
  match s.call i with
  | .running _ (.recv _) (.lock (.leaveOwner _) ret) =>
    ret ≠ .relock (some true) ∧ s.sh.chan.queue.head? = some v
  | .running _ (.recv _) .recvPop => s.sh.chan.queue.head? = some v
  | .running _ (.recv _) (.unlock _ (.finish o)) => o = .received v
  | .done o => o = .received v
  | _ => False

omit [DecidableEq V] in
/-- The front of the queue stays until it is popped. -/
theorem head_step (h : ChannelStep s s' e) {v : V} (hq : s.sh.chan.queue.head? = some v) :
    s'.sh.chan.queue.head? = some v ∨ ∃ j t k, s.call j = .running t k .recvPop ∧
      s'.call j ≠ s.call j := by
  cases h with
  | same _ hc | cloned _ _ _ hc | dropped _ _ _ _ _ _ hc | cleared _ _ _ _ hc => rw [hc]; exact .inl hq
  | pushed _ _ _ _ _ _ _ hc => rw [hc]; simp [hq]
  | popped j t k v' vs hj hj' =>
    refine .inr ⟨j, t, k, hj, ?_⟩
    rw [hj, hj']
    simp [unlockAndReturn]

/-- What the other calls do leaves it so: it holds the lock until it has popped. -/
theorem Takes.keeps (hr : s.Reachable) {i : CallId} {v : V} (h : s.Takes i v) (hstep : s.step e = some s')
    (hcall : s'.call i = s.call i) : s'.Takes i v := by
  have hhead : (s.call i).owns .queue = true → s.sh.chan.queue.head? = some v →
      s'.sh.chan.queue.head? = some v := by
    intro hown hq
    refine (head_step (hr.channel_step hstep) hq).resolve_right ?_
    rintro ⟨j, t, k, hj, hne⟩
    have hj' : (s.call j).owns .queue = true := by
      have hf := hr.fits j
      rw [hj] at hf ⊢
      cases k <;> first | rfl | cases hf
    obtain rfl := (hr.exclusive .queue).exact.unique hown hj'
    exact hne hcall
  unfold Takes at h ⊢
  rw [hcall]
  split at h
  case h_1 hi => exact ⟨h.1, hhead (by rw [hi]; rfl) h.2⟩
  case h_2 hi => exact hhead (by rw [hi]; rfl) h
  case h_3 => exact h
  case h_4 => exact h
  case h_5 => exact h

omit [DecidableEq V] in
/-- What it does itself: it leaves the section of a waiting list, pops and unlocks. -/
theorem Takes.acts {i : CallId} {v : V} (h : s.Takes i v) {t : ThreadId} {k : Caller V} {pc : Pc V}
    {a : Act V} {n : Next V} (ha : Acted s s' i t k pc a n) : s'.Takes i v := by
  have hself := ha.call_self
  have hstep := ha.step
  have hchan := ha.channel
  unfold Takes at h ⊢
  rw [ha.running] at h
  rw [hself]
  split at h
  case h_1 t' rk side ret hc =>
    cases hc
    cases hstep with
    | lock l ret a o ho =>
      cases ho
      have hnext : (Caller.recv rk : Caller V).onLocked ret = .goto .recvPop := by
        rcases ret with _ | _ | _ | _ <;> first | rfl | exact absurd rfl h.1
      cases hchan with
      | same _ hc =>
        simp only [LockOut.toNext, hnext, Next.call, hc]
        exact h.2
  case h_2 t' rk hc =>
    cases hc
    cases hstep with
    | popNone =>
      rw [ha.queue_nil.1] at h
      cases h
    | popSome v' =>
      rw [ha.head_of_pop] at h
      cases h
      rfl
  case h_3 t' rk u o hc =>
    cases hc
    cases hstep with
    | unlock u ret a out ho =>
      subst h
      cases out <;> rfl
  case h_4 hc => cases hc
  case h_5 => exact h.elim

theorem Takes.step (hr : s.Reachable) {i : CallId} {v : V} (h : s.Takes i v) (hstep : s.step e = some s') :
    s'.Takes i v := by
  rcases call_cases hr.sane.numbered hstep i with hcall | ⟨a, t, k, pc, n, rfl, ha⟩ | ⟨c, ht⟩
  · exact h.keeps hr hstep hcall
  · exact h.acts ha
  · unfold Takes at h
    have hturn := ht.turn
    generalize s.call i = c₀ at h hturn
    cases hturn <;> cases h

/-- A receive wins the lock, and its last wait has not reported a timeout. -/
theorem takes_of_wins {i : CallId} {t : ThreadId} {rk : RecvKind} {l : LockPc} {ret : LockRet} {a : Act V}
    {v : V} (hi : s.call i = .running t (.recv rk) (.lock l ret)) (hw : a.wins = true)
    (hret : ret ≠ .relock (some true)) (hq : s.sh.chan.queue.head? = some v)
    (hstep : s.step (.act i a) = some s') : s'.Takes i v := by
  obtain ⟨t', k, pc, n, ha⟩ := act_acted hstep
  cases hi.symm.trans ha.running
  obtain ⟨l', ret', o, hpc, rfl, ho⟩ := ha.step.wins hw
  cases hpc
  have hhead : s'.sh.chan.queue.head? = some v := by
    refine (head_step ha.channel hq).resolve_right ?_
    rintro ⟨j, t', k, hj, hne⟩
    by_cases hji : j = i
    · subst hji; cases hj.symm.trans hi
    · exact hne (ha.call_ne hji)
  unfold Takes
  rw [ha.call_self]
  rcases (ho.wins hw).2 with rfl | ⟨side, rfl⟩
  · rcases ret with _ | _ | _ | _ <;> first | exact hhead | exact absurd rfl hret
  · exact ⟨hret, hhead⟩

/-! ## What a timed receive returns -/

/-- A timeout is the answer of the last wait, and the queue was empty at the last look before
it. Who takes the lock otherwise looks at the queue again, and returns what is at its front. -/
structure AnswersLook (cfg : Config) (s : State V) : Prop where
  timeout : ∀ i t rk, s.call i = .running t (.recv rk) (unlockAndReturn .timeout) → TimedOut cfg s i
  received : ∀ (u w : State V) i t rk l ret a v, Run step cfg.init u →
    u.call i = .running t (.recv rk) (.lock l ret) → a.wins = true → ret ≠ .relock (some true) →
    u.sh.chan.queue.head? = some v → u.step (.act i a) = some w → Run step w s →
    ∀ o, s.call i = .done o → o = .received v

theorem timed_receives {cfg : Config} (hrun : Run step cfg.init s) : AnswersLook cfg s where
  timeout i t rk hi := timed_out_after_look hrun (by rw [hi]; rfl)
  received u w i t rk l ret a v hu hi hw hret hq hstep hws o ho := by
    have hwr : w.Reachable := Reachable.step ⟨cfg, hu⟩ hstep
    have htakes : s.Reachable ∧ s.Takes i v := by
      refine hws.invariant (P := fun s => s.Reachable ∧ s.Takes i v)
        ⟨hwr, takes_of_wins hi hw hret hq hstep⟩ ?_
      intro x y e hx _ hxy
      exact ⟨hx.1.step hxy, hx.2.step hx.1 hxy⟩
    have h := htakes.2
    unfold Takes at h
    rw [ho] at h
    exact h

/-- The receive has taken its handle out of the list, and then a value is sent before it has
the lock again. -/
def lateEvents : List (Event Nat) :=
  [.begin 0 (.recv (.recv .spin (some 0))), .act 0 (.mutex (.swap true)), .act 0 (.chan (.popFront none)),
    .act 0 (.chan (.loadCount 1)), .act 0 (.register .channel .spin 0), .act 0 (.mutex .store),
    .act 0 (.mutex (.take .sync [])), .act 0 (.mutex (.take .async [])), .act 0 (.observe (.flag 0) false),
    .act 0 (.now 0), .act 0 (.condvar .channel (.remove .spin 0 true)),
    .begin 1 (.send 0 .spin 7), .act 1 (.chan (.loadActive true)), .act 1 (.mutex (.swap true)),
    .act 1 (.chan (.loadActive true)), .act 1 (.chan (.pushBack 7)), .act 1 (.mutex .store),
    .act 1 (.mutex (.take .sync [])), .act 1 (.mutex (.take .async [])),
    .act 1 (.condvar .channel (.pop .spin none)), .act 1 (.condvar .channel (.pop .sync none)),
    .act 1 (.condvar .channel (.pop .async none)), .act 0 (.probe true), .act 0 (.mutex (.enter .sync)),
    .act 0 (.mutex (.cas true)), .act 0 (.mutex (.leave .sync))]

theorem late_run : ∃ s : State Nat, exec step (⟨fun _ => true, 0, 0⟩ : Config).init lateEvents = some s ∧
    s.call 0 = .running 0 (.recv (.recv .spin (some 0))) (unlockAndReturn .timeout) ∧
    s.sh.chan.queue = [7] := ⟨_, rfl, rfl, rfl⟩

/-- It returns `Err(Timeout)` over the value in the queue. -/
theorem times_out_over_value : ¬ ∀ s : State Nat, s.Reachable →
    ∀ i t rk, s.call i = .running t (.recv rk) (unlockAndReturn .timeout) → s.sh.chan.queue = [] := by
  intro hall
  obtain ⟨s, hexec, hcall, hqueue⟩ := late_run
  have hnil := hall s (reachable_of_exec hexec) 0 0 _ hcall
  rw [hqueue] at hnil
  cases hnil

theorem timed_receives_late : ∃ s : State Nat,
    exec step (⟨fun _ => true, 0, 0⟩ : Config).init lateEvents = some s ∧
      AnswersLook ⟨fun _ => true, 0, 0⟩ s := by
  obtain ⟨s, hexec, -⟩ := late_run
  exact ⟨s, hexec, timed_receives (run_of_exec hexec)⟩

end State

end WasmSafeMutex
