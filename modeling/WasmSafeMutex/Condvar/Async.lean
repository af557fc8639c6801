import WasmSafeMutex.Condvar.Returns

/-!
# Async waits

A future that times out looks for its own entry. If a notifier has been there first, the call
returns that it timed out all the same, and the notification is lost. Where no future comes
too late, notifications and answers agree.
-/

namespace WasmSafeMutex

open Interleaving

variable {V : Type}

namespace State

variable {s s' : State V} {e : Event V} {h : History V}

/-- No timed out future looks for its entry once a notifier has taken it. -/
def LooksInTime (s : State V) (e : Event V) : Prop :=
  ∀ i c found r, e = .act i (.condvar c (.remove .async r.number found)) →
    (s.call i).registration = some r → r.entry ∈ s.entriesAt r.spot

/-- The answers of the async waits tell who has removed their entries. -/
structure AsyncVerdicts (s : State V) (h : History V) : Prop where
  timed_out : ∀ ex ∈ h.exits, ex.wait.frame.kind = .async → ex.wait.frame.deadline.isSome = true →
    (ex.answer = some true ↔
      ∃ m ∈ h.removals, m.Of ex.wait ∧ m.notified = false ∧ m.remover = ex.call)
  notified : ∀ ex ∈ h.exits, ex.wait.frame.kind = .async → ex.wait.frame.deadline.isSome = true →
    (ex.answer = some false ↔ ∃ m ∈ h.removals, m.Of ex.wait ∧ m.notified = true)
  /-- The call returns the answer of its last wait. -/
  returned : ∀ i b, (s.call i).answer? = some b → ∃ ex, h.lastExit i = some ex ∧ ex.answer = b
  one_each : ∀ i r, (i, r) ∈ h.begun → r.notifiesOne = true → (h.taken i).length ≤ 1
  /-- What a notifier pops is the entry of one wait, and its wake comes. When this wait has
  returned, it has returned as notified. -/
  one_return : ∀ m ∈ h.removals, m.kind = .async → m.notified = true →
    (s.sh.woken m.entry.waker = true ∨ m.entry ∈ (s.call m.remover).held) ∧
    ∃ x ∈ h.registered, m.Of x.2 ∧ (∀ y ∈ h.registered, m.Of y.2 → y = x) ∧
      ((s.call x.1).registration = some x.2 ∨ (∃ b, ⟨x.1, x.2, b⟩ ∈ h.exits ∧ b ≠ some true) ∨
        s.call x.1 = .done .cancelled)

/-- What is kept along a run. -/
def AsyncExplained (h : History V) : Prop :=
  ∀ ex ∈ h.exits, ex.wait.frame.kind = .async →
    h.Explains ex ∧ ex.answer.isSome = ex.wait.frame.deadline.isSome

/-- The entry of an async or spinning wait has its own waker. -/
theorem Attributed.entry_eq (hatt : s.Attributed h) {i : CallId} {r : Registration}
    (hr : (i, r) ∈ h.registered) (hk : r.frame.kind = .async) : r.entry = ⟨r.number, .cont r.number⟩ := by
  obtain ⟨t, ht⟩ := hatt.waker _ hr
  rw [hk] at ht
  rw [Registration.entry, ht]
  rfl

variable [DecidableEq V]

/-- A future that finds its entry gone. -/
theorem absent_of_missed (hstep : s.step e = some s') {i : CallId} {c : CondvarId} {n : Nat}
    (he : e = .act i (.condvar c (.remove .async n false))) :
    (⟨n, .cont n⟩ : Entry) ∉ s.entriesAt (.list c .async) := by
  subst he
  obtain ⟨t, k, pc, m, ha⟩ := act_acted hstep
  intro hmem
  generalize hsh : s'.sh = sh'
  cases hsh ▸ ha.applied with
  | condvar c a y hy =>
    cases hy with
    | absent kind m hnone => exact hnone _ hmem rfl

theorem AsyncExplained.step (hr : s.Reachable) (hacc : s.Accounted h) (hatt : s.Attributed h)
    (hs : AsyncExplained h) (hok : s.LooksInTime e) (hstep : s.step e = some s') :
    AsyncExplained (s.record h e) := by
  intro ex hex hk
  rcases List.mem_append.mp hex with hex | hex
  · exact ⟨(hs ex hex hk).1.record e, (hs ex hex hk).2⟩
  · obtain ⟨t, k, w, a, rfl, hrun, hreg, ho, hf⟩ := exit_cases hr hstep hex
    refine ⟨hatt.explains hr hacc hstep hex (by simp [hk]) fun _ he => ?_, ho.timed hf⟩
    have hi : (s.call ex.call).registration = some ex.wait := by rw [hrun]; exact hreg
    -- It was in time, so it has not missed its entry.
    have hmem := hok ex.call _ false ex.wait he hi
    rw [hatt.entry_eq (hacc.now _ _ hi).1 hk, Registration.spot, hk] at hmem
    exact absent_of_missed hstep he hmem

theorem Recorded.asyncExplained (hr : Recorded LooksInTime s h) :
    s.Accounted h ∧ s.Attributed h ∧ AsyncExplained h :=
  (hr.induction (P := fun s h => s.Accounted h ∧ s.Attributed h ∧ AsyncExplained h)
    (fun cfg => ⟨accounted_init cfg, attributed_init cfg, fun ex hex => by cases hex⟩)
    fun _ _ _ _ hs hp hok hstep => ⟨hp.1.step hs hstep, hp.2.1.step hs hp.1 hstep,
      hp.2.2.step hs hp.1 hp.2.1 hok hstep⟩).2

theorem async_waits_exact (hr : Recorded LooksInTime s h) : s.AsyncVerdicts h := by
  obtain ⟨hacc, hatt, hs⟩ := hr.asyncExplained
  obtain ⟨hanswered, hones⟩ := hr.returns
  refine ⟨fun ex hex hk hd => ?_, fun ex hex hk hd => ?_, hanswered,
    fun i r hi hreq => (hones.one (i, r) hi hreq).length_le, fun m hm hk hn => ⟨?_, ?_⟩⟩
  · obtain ⟨hexp, htimed⟩ := hs ex hex hk
    exact (hacc.answer_iff hexp (htimed.trans hd)).1
  · obtain ⟨hexp, htimed⟩ := hs ex hex hk
    exact (hacc.answer_iff hexp (htimed.trans hd)).2
  · exact hatt.delivers hacc hm (by simp [hk]) hn
  · obtain ⟨x, hx, ho⟩ := hacc.wait_of_removal hm
    refine ⟨x, hx, ho, fun y hy hy' => ?_, ?_⟩
    · have hentry := hy'.entry.symm.trans ho.entry
      obtain ⟨h₁, h₂⟩ := hacc.unique hy hx (congrArg Entry.wait hentry)
      exact Prod.ext h₁ h₂
    · rcases hacc.ended x.1 x.2 hx with hreg | ⟨b, hex⟩ | hdone
      · exact .inl hreg
      · refine .inr (.inl ⟨b, hex, fun hb => ?_⟩)
        obtain ⟨m', hm', ho', hn', -⟩ := (hs _ hex (ho.kind.symm.trans hk)).1.timed_out hb
        rw [hacc.removal_unique hm hm' ho ho', hn'] at hn
        cases hn
      · exact .inr (.inr hdone)

/-! ## A future that comes too late -/

/-- A timed wait has polled its continuation. Then the timeout thread sends, and a `notify_one`
pops the entry. -/
def missedEvents : List (Event Nat) :=
  [.begin 0 (.lock 0 .tryLock), .act 0 (.mutex (.cas true)), .wait 0 0 1 (.waitAsyncTimeout 0),
    .act 0 (.register (.user 1) .async 0), .act 0 (.spawn 0 1), .act 0 (.mutex .store),
    .act 0 (.mutex (.take .sync [])), .act 0 (.mutex (.take .async [])),
    .act 0 (.observe (.cont 0) false), .fire 0 1, .begin 1 (.notifyOne 1),
    .act 1 (.condvar (.user 1) (.pop .spin none)), .act 1 (.condvar (.user 1) (.pop .sync none)),
    .act 1 (.condvar (.user 1) (.pop .async (some ⟨0, .cont 0⟩)))]

/-- The future sees the timeout, and finds its entry gone. -/
def missedEnd : List (Event Nat) :=
  [.act 0 (.observe (.cont 1) true), .act 0 (.condvar (.user 1) (.remove .async 0 false)),
    .act 1 (.wake (.cont 0))]

/-- The wait of the future. -/
def missedWait : Registration := ⟨⟨.user 1, .async, some 0⟩, 0, .cont 0⟩

theorem missed_run : ∃ (s : State Nat) (h : History Nat),
    exec stepRecorded ((⟨fun _ => true, 0, 0⟩ : Config).init, .new) (missedEvents ++ missedEnd) = some (s, h) ∧
      ⟨0, missedWait, some true⟩ ∈ h.exits ∧ ⟨1, .user 1, .async, ⟨0, .cont 0⟩, true⟩ ∈ h.removals := by
  refine ⟨_, _, rfl, ?_, ?_⟩ <;> decide

/-- It returns that it timed out, and the notification is lost. -/
theorem async_timeout_swallows : ¬ ∀ (s : State Nat) (h : History Nat),
    Recorded (fun _ e => ∀ i, e ≠ .cancel i) s h →
      ∀ ex ∈ h.exits, ex.wait.frame.kind = .async → ex.wait.frame.deadline.isSome = true →
        (ex.answer = some false ↔ ∃ m ∈ h.removals, m.Of ex.wait ∧ m.notified = true) := by
  intro hall
  obtain ⟨s, h, hexec, hexit, hremoval⟩ := missed_run
  have hok : ∀ e ∈ missedEvents ++ missedEnd, ∀ _ : State Nat, ∀ i, e ≠ .cancel i := by
    intro e he _ i hi
    subst hi
    revert he
    simp [missedEvents, missedEnd]
  have hr : Recorded (fun _ e => ∀ i, e ≠ .cancel i) s h :=
    ⟨_, RunWhere.refl.extend (.of_forall fun e he x => hok e he x.1) hexec⟩
  have hfalse := (hall s h hr _ hexit rfl rfl).mpr ⟨_, hremoval, ⟨rfl, rfl, rfl⟩, rfl⟩
  cases hfalse

/-- A future that looks for its entry finds it. -/
def removesListed (s : State V) : Event V → Bool
  | .act i (.condvar _ (.remove .async _ _)) =>
    (s.call i).registration.all fun r => r.entry ∈ s.entriesAt r.spot
  | _ => true

omit [DecidableEq V] in
theorem looksInTime_of_check (h : s.removesListed e = true) : s.LooksInTime e := by
  rintro i c found r rfl hr
  have hall : (s.call i).registration.all (fun r => r.entry ∈ s.entriesAt r.spot) = true := h
  rw [hr] at hall
  simpa using hall

/-- Two futures wait until a deadline. A `notify_one` sends to the second one, and the first one
times out while its entry is in the list. -/
theorem async_waits_exact_notified : ∃ (s : State Nat) (h : History Nat),
    exec stepRecorded ((⟨fun _ => true, 0, 0⟩ : Config).init, .new)
      [.begin 0 (.lock 0 .tryLock), .act 0 (.mutex (.cas true)), .wait 0 0 1 (.waitAsyncTimeout 0),
        .act 0 (.register (.user 1) .async 0), .act 0 (.spawn 0 1), .act 0 (.mutex .store),
        .act 0 (.mutex (.take .sync [])), .act 0 (.mutex (.take .async [])),
        .act 0 (.observe (.cont 0) false), .act 0 (.observe (.cont 1) false),
        .begin 1 (.lock 0 .tryLock), .act 1 (.mutex (.cas true)), .wait 1 1 1 (.waitAsyncTimeout 0),
        .act 1 (.register (.user 1) .async 2), .act 1 (.spawn 0 3), .act 1 (.mutex .store),
        .act 1 (.mutex (.take .sync [])), .act 1 (.mutex (.take .async [])),
        .act 1 (.observe (.cont 2) false), .act 1 (.observe (.cont 3) false), .begin 2 (.notifyOne 1),
        .act 2 (.condvar (.user 1) (.pop .spin none)), .act 2 (.condvar (.user 1) (.pop .sync none)),
        .act 2 (.condvar (.user 1) (.pop .async (some ⟨2, .cont 2⟩))), .act 2 (.wake (.cont 2)),
        .poll 1 1, .act 1 (.observe (.cont 2) true), .fire 0 1, .poll 0 0,
        .act 0 (.observe (.cont 0) false), .act 0 (.observe (.cont 1) true),
        .act 0 (.condvar (.user 1) (.remove .async 0 true)), .act 0 (.wake (.cont 0))] = some (s, h) ∧
      s.AsyncVerdicts h :=
  exists_recorded removesListed rfl (fun _ _ _ h => looksInTime_of_check h) fun _ _ hr => async_waits_exact hr

end State

end WasmSafeMutex
