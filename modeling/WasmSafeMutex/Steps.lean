import WasmSafeMutex.System

/-!
# What one event can do

Every event is one of three things: an operation of one call, a change of one call that
touches nothing shared, or a change around the calls.
-/

namespace WasmSafeMutex

open Interleaving

variable {V : Type}

/-- A change of call `i` by an event that touches nothing shared. -/
inductive Call.Turn (i : CallId) : Event V → Call V → Call V → Prop
  | begin (t : ThreadId) (r : Request V) :
    Turn i (.begin t r) .idle (.running t r.caller r.entry)
  | wait (t : ThreadId) (c : Nat) (w : WaitCall) (k : Caller V) (r : Option Bool) :
    Turn i (.wait i t c w) (.holding k r) (.running t k (w.entry (.user c)))
  | dropGuard (t : ThreadId) (k : Caller V) (r : Option Bool) :
    Turn i (.dropGuard i t) (.holding k r) (.running t k (unlockAndReturn .released))
  | poll (t : ThreadId) (k : Caller V) (pc : Pc V) :
    Turn i (.poll i t) (.suspended k pc) (.running t k pc)
  | cancel (k : Caller V) (pc : Pc V) : Turn i (.cancel i) (.suspended k pc) (.done .cancelled)

theorem Call.Turn.not_suspended {i : CallId} {e : Event V} {c : Call V} {k : Caller V} {pc : Pc V} :
    ¬ Call.Turn i e c (.suspended k pc) := by
  intro h
  cases h

theorem RecvKind.begins_entry (rk : RecvKind) : rk.entry.begins = true := by
  cases rk with
  | tryRecv => rfl
  | recv st d => exact st.begins_lock d

theorem Request.begins_entry (r : Request V) : r.entry.begins = true := by
  cases r with
  | lock m c => cases c <;> rfl
  | recv rk => exact rk.begins_entry
  | _ => rfl

theorem WaitCall.begins_entry (w : WaitCall) (c : CondvarId) : (w.entry c : Pc V).begins = true := by
  cases w <;> rfl

/-- A change that no call makes: a clone, an unpark, the clock, or a timeout thread. -/
structure Shared.Around (sh sh' : Shared V) : Prop where
  mutex : sh'.mutex = sh.mutex
  condvar : sh'.condvar = sh.condvar
  woken : ∀ w, sh.woken w = true → sh'.woken w = true
  fresh : sh'.fresh = sh.fresh
  clock : sh.clock ≤ sh'.clock
  atomicsWait : sh'.atomicsWait = sh.atomicsWait
  timers : sh'.timers = sh.timers ∧
      (∀ w, sh'.woken w = true → sh.woken w = true ∨ ∃ t, w = .thread t) ∨
    ∃ d n, (d, n) ∈ sh.timers ∧ sh'.timers = sh.timers.erase (d, n) ∧
      sh'.woken = Function.update sh.woken (.cont n) true

namespace State

variable {s s' : State V} {e : Event V}

/-- What an `act` event does: one operation of a running call. -/
structure Acted (s s' : State V) (i : CallId) (t : ThreadId) (k : Caller V) (pc : Pc V) (a : Act V)
    (n : Next V) : Prop where
  running : s.call i = .running t k pc
  step : pc.Step k a n
  applied : s.sh.Applied k.mutex i t a s'.sh
  call : s'.call = Function.update s.call i (n.call k t)
  used : s'.used = s.used
  receiver : s'.receiverThread = s.receiverThread ∧ s'.receiverAlive = s.receiverAlive
  returned : s'.returned = s.returned ++ n.returned i
  nextSender : s'.nextSender = s.nextSender

/-- What an event does that only moves a call between its caller and the code. -/
structure Turned (s s' : State V) (e : Event V) (i : CallId) (c : Call V) : Prop where
  turn : Call.Turn i e (s.call i) c
  free : ∀ t, c.thread? = some t → ∀ j, (s.call j).thread? ≠ some t
  allowed : ∀ t r, e = .begin t r → s.allows t r
  polled : ∀ t, e = .poll i t → (s.call i).receives = true → t = s.receiverThread
  sh : s'.sh = s.sh
  call : s'.call = Function.update s.call i c
  used : s.used ≤ s'.used ∧ i < s'.used
  returned : s'.returned = s.returned
  receiver : s'.receiverThread = s.receiverThread
  alive : s'.receiverAlive = true → s.receiverAlive = true ∧ ∀ t, e ≠ .begin t .dropReceiver
  nextSender : s'.nextSender = s.nextSender

/-- What an event does that leaves every call alone. -/
structure Surrounded (s s' : State V) (e : Event V) : Prop where
  around : s.sh.Around s'.sh
  call : s'.call = s.call
  used : s'.used = s.used
  returned : s'.returned = s.returned
  receiver : s'.receiverThread = s.receiverThread ∨ s.noReceive
  alive : s'.receiverAlive = s.receiverAlive
  chan : s'.sh.chan = s.sh.chan ∧ s'.nextSender = s.nextSender ∨
    ∃ σ, e = .clone σ ∧ s.usable σ ∧ s'.nextSender = s.nextSender + 1 ∧
      s'.sh.chan = { s.sh.chan with
        senderCount := s.sh.chan.senderCount + 1
        senders := s.nextSender :: s.sh.chan.senders }

theorem Acted.call_self {i : CallId} {t : ThreadId} {k : Caller V} {pc : Pc V} {a : Act V}
    {n : Next V} (h : Acted s s' i t k pc a n) : s'.call i = n.call k t := by
  rw [h.call, Function.update_self]

theorem Acted.call_ne {i j : CallId} {t : ThreadId} {k : Caller V} {pc : Pc V} {a : Act V}
    {n : Next V} (h : Acted s s' i t k pc a n) (hj : j ≠ i) : s'.call j = s.call j := by
  rw [h.call, Function.update_of_ne hj]

theorem Turned.call_self {i : CallId} {c : Call V} (h : Turned s s' e i c) : s'.call i = c := by
  rw [h.call, Function.update_self]

theorem Turned.call_ne {i j : CallId} {c : Call V} (h : Turned s s' e i c) (hj : j ≠ i) :
    s'.call j = s.call j := by
  rw [h.call, Function.update_of_ne hj]

/-- Calls that have not begun are idle. -/
def Numbered (s : State V) : Prop := ∀ j, s.used ≤ j → s.call j = .idle

theorem Numbered.free {t : ThreadId} (hn : s.Numbered) (h : s.freeThread t) (j : CallId) :
    (s.call j).thread? ≠ some t := by
  by_cases hj : j < s.used
  · exact h j hj
  · rw [hn j (Nat.le_of_not_lt hj)]; simp [Call.thread?]

theorem Numbered.lt_used (hn : s.Numbered) {i : CallId} (h : s.call i ≠ .idle) : i < s.used := by
  by_contra hi
  exact h (hn i (Nat.le_of_not_lt hi))

/-! ## Threads -/

/-- A thread runs one call at a time, and a future that is not being polled stands where it
returned `Poll::Pending`. -/
structure Sane (s : State V) : Prop where
  numbered : s.Numbered
  oneCall : ∀ i j t, (s.call i).thread? = some t → (s.call j).thread? = some t → i = j
  pending : ∀ i k pc, s.call i = .suspended k pc → pc.pending = true

theorem sane_init (cfg : Config) : (cfg.init : State V).Sane :=
  ⟨fun _ _ => rfl, fun _ _ _ h => by simp [Config.init, Call.thread?] at h,
    fun _ _ _ h => by simp [Config.init] at h⟩

theorem Acted.thread {i : CallId} {t : ThreadId} {k : Caller V} {pc : Pc V} {a : Act V}
    {n : Next V} (h : Acted s s' i t k pc a n) (j : CallId) (t' : ThreadId)
    (hj : (s'.call j).thread? = some t') : (s.call j).thread? = some t' := by
  rw [h.call] at hj
  by_cases hji : j = i
  · subst hji
    rw [h.running]
    cases n <;> simp_all [Next.call, Call.thread?]
  · rwa [Function.update_of_ne hji] at hj

theorem Acted.sane {i : CallId} {t : ThreadId} {k : Caller V} {pc : Pc V} {a : Act V} {n : Next V}
    (h : Acted s s' i t k pc a n) (hs : s.Sane) : s'.Sane := by
  refine ⟨fun j hj => ?_, fun x y t' hx hy => ?_, fun j k' pc' hj => ?_⟩
  · rw [h.used] at hj
    have hji : j ≠ i := by
      rintro rfl
      exact Nat.not_lt.mpr hj (hs.numbered.lt_used (by simp [h.running]))
    rw [h.call, Function.update_of_ne hji]
    exact hs.numbered j hj
  · exact hs.oneCall x y t' (h.thread x t' hx) (h.thread y t' hy)
  · rw [h.call] at hj
    by_cases hji : j = i
    · subst hji
      rw [Function.update_self] at hj
      cases n with
      | yield pc'' => cases hj; exact h.step.pending
      | goto | hold | finish => cases hj
    · rw [Function.update_of_ne hji] at hj
      exact hs.pending j k' pc' hj

theorem Turned.sane {i : CallId} {c : Call V} (h : Turned s s' e i c) (hs : s.Sane) : s'.Sane := by
  refine ⟨fun j hj => ?_, fun x y t hx hy => ?_, fun j k pc hj => ?_⟩
  · have hji : j ≠ i := by
      rintro rfl
      exact Nat.not_lt.mpr hj h.used.2
    rw [h.call, Function.update_of_ne hji]
    exact hs.numbered j (Nat.le_trans h.used.1 hj)
  · rw [h.call] at hx hy
    by_cases hxi : x = i <;> by_cases hyi : y = i
    · rw [hxi, hyi]
    · subst hxi
      rw [Function.update_self] at hx
      rw [Function.update_of_ne hyi] at hy
      exact absurd hy (h.free t hx y)
    · subst hyi
      rw [Function.update_self] at hy
      rw [Function.update_of_ne hxi] at hx
      exact absurd hx (h.free t hy x)
    · rw [Function.update_of_ne hxi] at hx
      rw [Function.update_of_ne hyi] at hy
      exact hs.oneCall x y t hx hy
  · rw [h.call] at hj
    by_cases hji : j = i
    · subst hji
      rw [Function.update_self] at hj
      exact absurd (hj ▸ h.turn) Call.Turn.not_suspended
    · rw [Function.update_of_ne hji] at hj
      exact hs.pending j k pc hj

/-! ## Steps and runs -/

variable [DecidableEq V]

theorem act_acted {i : CallId} {a : Act V} (h : s.act i a = some s') :
    ∃ t k pc n, Acted s s' i t k pc a n := by
  unfold act at h
  split at h
  case h_2 => cases h
  case h_1 t k pc hc =>
    simp only [Option.bind_eq_some_iff, Option.map_eq_some_iff] at h
    obtain ⟨n, hn, sh, hsh, rfl⟩ := h
    exact ⟨t, k, pc, n, hc, Pc.step_of_next hn, Shared.applied_of_apply hsh, rfl, rfl, ⟨rfl, rfl⟩,
      rfl, rfl⟩

/-- The inversion rule of `step`. -/
theorem step_cases (hn : s.Numbered) (h : s.step e = some s') :
    (∃ i a t k pc n, e = .act i a ∧ Acted s s' i t k pc a n) ∨ (∃ i c, Turned s s' e i c) ∨
      Surrounded s s' e := by
  cases e with
  | act i a =>
    obtain ⟨t, k, pc, n, ha⟩ := act_acted h
    exact .inl ⟨i, a, t, k, pc, n, rfl, ha⟩
  | begin t r =>
    simp only [step, Option.ite_none_right_eq_some, Option.some.injEq] at h
    obtain ⟨⟨hfree, hallow⟩, rfl⟩ := h
    refine .inr (.inl ⟨s.used, _, ?_, ?_, ?_, ?_, rfl, rfl, ⟨by simp, by simp⟩, rfl, rfl, ?_, rfl⟩)
    · rw [hn s.used (Nat.le_refl _)]; exact .begin t r
    · intro t' ht j
      rw [← Option.some.inj ht]
      exact hn.free hfree j
    · rintro t' r' ⟨⟩; exact hallow
    · rintro t' ⟨⟩
    · intro hr
      cases r with
      | dropReceiver => cases hr
      | _ => exact ⟨hr, fun _ he => by cases he⟩
  | wait i t c w =>
    simp only [step] at h
    split at h
    case h_2 => cases h
    case h_1 k r hc =>
      simp only [Option.ite_none_right_eq_some, Option.some.injEq] at h
      obtain ⟨hfree, rfl⟩ := h
      have hi : i < s.used := hn.lt_used (by simp [hc])
      refine .inr (.inl ⟨i, _, hc ▸ .wait t c w k r, ?_, by simp, by simp, rfl, rfl,
        ⟨Nat.le_refl _, hi⟩, rfl, rfl, fun hr => ⟨hr, by simp⟩, rfl⟩)
      intro t' ht j
      rw [← Option.some.inj ht]
      exact hn.free hfree j
  | dropGuard i t =>
    simp only [step] at h
    split at h
    case h_2 => cases h
    case h_1 k r hc =>
      simp only [Option.ite_none_right_eq_some, Option.some.injEq] at h
      obtain ⟨hfree, rfl⟩ := h
      have hi : i < s.used := hn.lt_used (by simp [hc])
      refine .inr (.inl ⟨i, _, hc ▸ .dropGuard t k r, ?_, by simp, by simp, rfl, rfl,
        ⟨Nat.le_refl _, hi⟩, rfl, rfl, fun hr => ⟨hr, by simp⟩, rfl⟩)
      intro t' ht j
      rw [← Option.some.inj ht]
      exact hn.free hfree j
  | poll i t =>
    simp only [step] at h
    split at h
    case h_2 => cases h
    case h_1 k pc hc =>
      simp only [Option.ite_none_right_eq_some, Option.some.injEq] at h
      obtain ⟨⟨hfree, hthread⟩, rfl⟩ := h
      have hi : i < s.used := hn.lt_used (by simp [hc])
      refine .inr (.inl ⟨i, _, hc ▸ .poll t k pc, ?_, by simp, ?_, rfl, rfl,
        ⟨Nat.le_refl _, hi⟩, rfl, rfl, fun hr => ⟨hr, by simp⟩, rfl⟩)
      · intro t' ht j
        rw [← Option.some.inj ht]
        exact hn.free hfree j
      · rintro t' ⟨⟩; exact hthread
  | cancel i =>
    simp only [step] at h
    split at h
    case h_2 => cases h
    case h_1 k pc hc =>
      simp only [Option.some.injEq] at h
      subst h
      have hi : i < s.used := hn.lt_used (by simp [hc])
      exact .inr (.inl ⟨i, _, hc ▸ .cancel k pc, by simp [Call.thread?], by simp, by simp, rfl, rfl,
        ⟨Nat.le_refl _, hi⟩, rfl, rfl, fun hr => ⟨hr, by simp⟩, rfl⟩)
  | clone σ =>
    simp only [step, Option.ite_none_right_eq_some, Option.some.injEq] at h
    obtain ⟨hσ, rfl⟩ := h
    exact .inr (.inr ⟨⟨rfl, rfl, fun _ hw => hw, rfl, Nat.le_refl _, rfl, .inl ⟨rfl, fun _ hw => .inl hw⟩⟩,
      rfl, rfl, rfl, .inl rfl, rfl, .inr ⟨σ, rfl, hσ, rfl, rfl⟩⟩)
  | unpark t =>
    simp only [step, Option.some.injEq] at h
    subst h
    refine .inr (.inr ⟨⟨rfl, rfl, fun w => Shared.woken_wake, rfl, Nat.le_refl _, rfl,
      .inl ⟨rfl, fun w hw => ?_⟩⟩, rfl, rfl, rfl, .inl rfl, rfl, .inl ⟨rfl, rfl⟩⟩)
    by_cases ht : w = .thread t
    · exact .inr ⟨t, ht⟩
    · exact .inl (by simpa [Shared.wake, ht] using hw)
  | moveReceiver t =>
    simp only [step, Option.ite_none_right_eq_some, Option.some.injEq] at h
    obtain ⟨hr, rfl⟩ := h
    exact .inr (.inr ⟨⟨rfl, rfl, fun _ hw => hw, rfl, Nat.le_refl _, rfl, .inl ⟨rfl, fun _ hw => .inl hw⟩⟩,
      rfl, rfl, rfl, .inr hr, rfl, .inl ⟨rfl, rfl⟩⟩)
  | tick =>
    simp only [step, Option.some.injEq] at h
    subst h
    exact .inr (.inr ⟨⟨rfl, rfl, fun _ hw => hw, rfl, Nat.le_succ _, rfl, .inl ⟨rfl, fun _ hw => .inl hw⟩⟩,
      rfl, rfl, rfl, .inl rfl, rfl, .inl ⟨rfl, rfl⟩⟩)
  | fire d n =>
    simp only [step, Option.ite_none_right_eq_some, Option.some.injEq] at h
    obtain ⟨⟨htimer, -⟩, rfl⟩ := h
    exact .inr (.inr ⟨⟨rfl, rfl, fun w => Shared.woken_wake, rfl, Nat.le_refl _, rfl,
      .inr ⟨d, n, htimer, rfl, rfl⟩⟩, rfl, rfl, rfl, .inl rfl, rfl, .inl ⟨rfl, rfl⟩⟩)

/-- One event, seen from one call: it leaves the call alone, the call acts, or its caller moves it. -/
theorem call_cases (hn : s.Numbered) (h : s.step e = some s') (i : CallId) :
    s'.call i = s.call i ∨ (∃ a t k pc n, e = .act i a ∧ Acted s s' i t k pc a n) ∨
      ∃ c, Turned s s' e i c := by
  rcases step_cases hn h with ⟨j, a, t, k, pc, n, he, ha⟩ | ⟨j, c, ht⟩ | ha
  · by_cases hj : i = j
    · subst hj; exact .inr (.inl ⟨a, t, k, pc, n, he, ha⟩)
    · exact .inl (ha.call_ne hj)
  · by_cases hj : i = j
    · subst hj; exact .inr (.inr ⟨c, ht⟩)
    · exact .inl (ht.call_ne hj)
  · exact .inl (congrFun ha.call i)

/-- Where no future rests, the code goes on by its own operations alone. -/
theorem Sane.goes_on (hs : s.Sane) (h : s.step e = some s') {i : CallId} {pc : Pc V}
    (hpc : (s.call i).pc? = some pc) (hp : pc.pending = false) :
    s'.call i = s.call i ∨ ∃ a t k n, e = .act i a ∧ Acted s s' i t k pc a n := by
  rcases call_cases hs.numbered h i with hcall | ⟨a, t, k, pc', n, he, ha⟩ | ⟨c, ht⟩
  · exact .inl hcall
  · rw [ha.running] at hpc
    cases hpc
    exact .inr ⟨a, t, k, n, he, ha⟩
  · have hturn := ht.turn
    have hpend := hs.pending i
    generalize s.call i = c₀ at hturn hpc hpend
    cases hturn with
    | poll t k pc' | cancel k pc' =>
      cases hpc
      have hp' := hpend k pc rfl
      rw [hp] at hp'
      cases hp'
    | begin | wait | dropGuard => cases hpc

/-- A call was at its code before, or begins with it, or has come to it by an operation. -/
theorem Numbered.comes_to (hn : s.Numbered) (h : s.step e = some s') {i : CallId} {pc : Pc V}
    (hpc : (s'.call i).pc? = some pc) : (s.call i).pc? = some pc ∨ pc.begins = true ∨
      ∃ a t k pc' n, e = .act i a ∧ Acted s s' i t k pc' a n ∧ n.pc? = some pc := by
  rcases call_cases hn h i with hcall | ⟨a, t, k, pc', n, he, ha⟩ | ⟨c, ht⟩
  · rw [hcall] at hpc; exact .inl hpc
  · rw [ha.call_self] at hpc
    refine .inr (.inr ⟨a, t, k, pc', n, he, ha, ?_⟩)
    cases n <;> exact hpc
  · rw [ht.call_self] at hpc
    have hturn := ht.turn
    generalize s.call i = c₀ at hturn
    cases hturn with
    | begin t r => cases hpc; exact .inr (.inl r.begins_entry)
    | wait t c w k r => cases hpc; exact .inr (.inl (w.begins_entry _))
    | dropGuard t k r => cases hpc; exact .inr (.inl rfl)
    | poll t k pc' => exact .inl hpc
    | cancel k pc' => cases hpc

theorem Sane.step (hs : s.Sane) (h : s.step e = some s') : s'.Sane := by
  rcases step_cases hs.numbered h with ⟨i, a, t, k, pc, n, -, ha⟩ | ⟨i, c, ht⟩ | ha
  · exact ha.sane hs
  · exact ht.sane hs
  · refine ⟨fun j hj => ?_, fun x y t => ?_, fun j k pc => ?_⟩
    · rw [ha.call]; exact hs.numbered j (ha.used ▸ hj)
    · rw [ha.call]; exact hs.oneCall x y t
    · rw [ha.call]; exact hs.pending j k pc

/-- A call that has ended stays so. -/
theorem Numbered.done_step (hn : s.Numbered) (h : s.step e = some s') {i : CallId} {o : Outcome V}
    (hi : s.call i = .done o) : s'.call i = .done o := by
  rcases call_cases hn h i with hcall | ⟨a, t, k, pc, n, -, ha⟩ | ⟨c, ht⟩
  · exact hcall.trans hi
  · cases hi.symm.trans ha.running
  · have hturn := ht.turn
    rw [hi] at hturn
    cases hturn

theorem Reachable.sane (h : s.Reachable) : s.Sane := by
  obtain ⟨cfg, hr⟩ := h
  exact hr.invariant (sane_init cfg) fun _ _ _ hs _ hstep => hs.step hstep

theorem Reachable.step (h : s.Reachable) (hstep : s.step e = some s') : s'.Reachable := by
  obtain ⟨cfg, hr⟩ := h
  exact ⟨cfg, hr.tail trivial hstep⟩

theorem Reachable.run (h : s.Reachable) (hrun : Run State.step s s') : s'.Reachable :=
  hrun.invariant h fun _ _ _ hu _ hstep => hu.step hstep

/-- An invariant of the reachable states: it holds at the start, and the three kinds of
event keep it. -/
theorem Reachable.induction {P : State V → Prop} (h : s.Reachable) (init : ∀ cfg : Config, P cfg.init)
    (acted : ∀ s s' i t k pc a n, s.Reachable → P s → Acted s s' i t k pc a n → P s')
    (turned : ∀ s s' e i c, s.Reachable → P s → Turned s s' e i c → P s')
    (surrounded : ∀ s s' e, s.Reachable → P s → Surrounded s s' e → P s') : P s := by
  obtain ⟨cfg, hr⟩ := h
  have hP : s.Reachable ∧ P s := by
    refine hr.invariant (P := fun s => s.Reachable ∧ P s) ⟨⟨cfg, .refl⟩, init cfg⟩ ?_
    rintro s s' e ⟨hreach, hs⟩ - hstep
    refine ⟨hreach.step hstep, ?_⟩
    rcases step_cases hreach.sane.numbered hstep with ⟨i, a, t, k, pc, n, -, ha⟩ | ⟨i, c, ht⟩ | ha
    · exact acted s s' i t k pc a n hreach hs ha
    · exact turned s s' e i c hreach hs ht
    · exact surrounded s s' e hreach hs ha
  exact hP.2

end State

end WasmSafeMutex
