import WasmSafeMutex.Condvar.Async

/-!
# Dropped futures

The drop of a future that waits leaves its entry in the list, and a later `notify_one` may pop
it. If every future that is dropped has been notified before, or does not wait yet or any
more, `notify_one` completes only waits that are still wanted.
-/

namespace WasmSafeMutex

open Interleaving

variable {V : Type}

/-- Before the `pop` of the async list, or with a future to complete. -/
def NotifyPc.seeksFuture : NotifyPc → Bool
  | .pop _ => true
  | .wakeOne x => x.waker.isCont
  | _ => false

namespace State

variable {s s' : State V} {e : Event V} {h : History V}

/-- No future is dropped while its entry is in the list, or with a notifier that has still to
complete it. -/
def DropsNotified (s : State V) (e : Event V) : Prop :=
  ∀ i r, e = .cancel i → (s.call i).registration = some r → ∀ q, r.number ∉ s.waitsAt q

/-- The future of this wait has not been dropped: it still waits, or it has left the wait. -/
def Live (s : State V) (h : History V) (i : CallId) (r : Registration) : Prop :=
  (i, r) ∈ h.registered ∧ ((s.call i).registration = some r ∨ ∃ b, ⟨i, r, b⟩ ∈ h.exits)

/-- What is kept along a run. -/
structure FuturesLive (s : State V) (h : History V) : Prop where
  live : ∀ i r, (i, r) ∈ h.registered → r.frame.kind = .async →
    s.Live h i r ∨ ∀ q, r.number ∉ s.waitsAt q
  left : ∀ ex ∈ h.exits, ex.wait.frame.kind = .async → ex.wait.number ∉ s.waitsAt ex.wait.spot
  held : ∀ N c y, (s.call N).pc? = some (.notify c y) → ∀ x ∈ y.held,
    ∃ i r, (i, r) ∈ h.registered ∧ r.frame.cv = c ∧ r.entry = x

theorem Live.record {i : CallId} {r : Registration} (hl : s.Live h i r)
    (hi : (s.call i).registration = some r → (s'.call i).registration = some r ∨
      ∃ b, ⟨i, r, b⟩ ∈ s.exits e) : s'.Live (s.record h e) i r := by
  refine ⟨List.mem_append_left _ hl.1, ?_⟩
  rcases hl.2 with hreg | ⟨b, hb⟩
  · refine (hi hreg).imp_right ?_
    rintro ⟨b, hb⟩
    exact ⟨b, List.mem_append_right _ hb⟩
  · exact .inr ⟨b, List.mem_append_left _ hb⟩

theorem futuresLive_init (cfg : Config) : (cfg.init : State V).FuturesLive .new where
  live i r hi := by cases hi
  left ex hex := by cases hex
  held N c y hN := by cases hN

variable [DecidableEq V]

/-- A number that is at no spot stays away. -/
theorem FuturesLive.live_step (hr : s.Reachable) (hacc : s.Accounted h) (hs : s.FuturesLive h)
    (hok : s.DropsNotified e) (hstep : s.step e = some s') {i : CallId} {r : Registration}
    (hi : (i, r) ∈ h.registered ++ s.registers e) (hk : r.frame.kind = .async) :
    s'.Live (s.record h e) i r ∨ ∀ q, r.number ∉ s'.waitsAt q := by
  rcases List.mem_append.mp hi with hi | hi
  · have hlt : r.number < s.sh.fresh := hacc.fresh _ hi
    rcases hs.live i r hi hk with hl | hout
    · by_cases he : e = .cancel i ∧ (s.call i).registration = some r
      · exact .inr fun q => hr.stays_gone hstep hlt (hok i r he.1 he.2) q
      · refine .inl (hl.record fun hreg => ?_)
        rcases hr.registration_ends hstep hreg with hreg' | ⟨b, hone⟩ | ⟨hcancel, -⟩
        · exact .inl hreg'
        · exact .inr ⟨b, by rw [hone]; exact List.mem_singleton_self _⟩
        · exact absurd ⟨hcancel, hreg⟩ he
    · exact .inr fun q => hr.stays_gone hstep hlt hout q
  · rcases registers_step hstep with hnil | ⟨j, r', -, -, -, hone, hj⟩
    · rw [hnil] at hi; cases hi
    · have hi' := hi
      rw [hone] at hi'
      cases List.mem_singleton.mp hi'
      exact .inl ⟨List.mem_append_right _ hi, .inl hj⟩

theorem FuturesLive.left_step (hr : s.Reachable) (hacc : s.Accounted h) (hatt : s.Attributed h)
    (hs : s.FuturesLive h) (hstep : s.step e = some s') {ex : Exit} (hex : ex ∈ h.exits ++ s.exits e)
    (hk : ex.wait.frame.kind = .async) : ex.wait.number ∉ s'.waitsAt ex.wait.spot := by
  rcases List.mem_append.mp hex with hex | hex
  · exact hr.stays_unlisted hstep (hacc.fresh _ (hacc.exits ex hex)) (hs.left ex hex hk)
  · obtain ⟨t, k, w, a, rfl, hrun, hreg, -⟩ := exit_cases hr hstep hex
    have hi : (s.call ex.call).registration = some ex.wait := by rw [hrun]; exact hreg
    have hin := (hacc.now _ _ hi).1
    have hacc' := hacc.step hr hstep
    -- The entry itself is what could carry its number.
    have hself : ex.wait.entry ∉ s'.entriesAt ex.wait.spot → ex.wait.number ∉ s'.waitsAt ex.wait.spot := by
      intro hout hmem
      obtain ⟨x, hx, hn⟩ := mem_waitsAt.mp hmem
      obtain ⟨t', he⟩ := (hr.step hstep).entry_of_kind ex.wait.frame.cv ex.wait.frame.kind x hx
      apply hout
      rw [hatt.entry_eq hin hk, ← hn]
      rw [hk] at he
      exact he ▸ hx
    by_cases hmiss : a = .condvar ex.wait.frame.cv (.remove .async ex.wait.number false)
    · apply hr.stays_unlisted hstep (hacc.fresh _ hin)
      intro hmem
      obtain ⟨x, hx, hn⟩ := mem_waitsAt.mp hmem
      rw [hk] at hx
      obtain ⟨t', he⟩ := hr.entry_of_kind ex.wait.frame.cv .async x hx
      apply absent_of_missed hstep (by rw [hmiss])
      rw [← hn]
      exact he ▸ hx
    · apply hself
      have hexp := hatt.explains hr hacc hstep hex (by simp [hk]) fun _ he => hmiss (by injection he)
      by_cases hb : ex.answer = some true
      · obtain ⟨m, hm, ho, -⟩ := hexp.timed_out hb
        exact hacc'.absent hm ho
      · obtain ⟨m, hm, ho, -⟩ := hexp.notified hb
        exact hacc'.absent hm ho

omit [DecidableEq V] in
/-- What is in a list has been put there by a wait. -/
theorem Accounted.wait_of_listed (hacc : s.Accounted h) {c : CondvarId} {k : Kind} {x : Entry}
    (hx : x ∈ s.entriesAt (.list c k)) :
    ∃ i r, (i, r) ∈ h.registered ∧ r.frame.cv = c ∧ r.frame.kind = k ∧ r.entry = x := by
  obtain ⟨y, hy, he⟩ := List.mem_map.mp ((hacc.ledger c k).mem.mpr (.inl hx))
  obtain ⟨hreg, hspot⟩ := List.mem_filter.mp hy
  injection of_decide_eq_true hspot with hc hk
  exact ⟨y.1, y.2, hreg, hc, hk, he⟩

theorem FuturesLive.step (hr : s.Reachable) (hacc : s.Accounted h) (hatt : s.Attributed h)
    (hs : s.FuturesLive h) (hok : s.DropsNotified e) (hstep : s.step e = some s') :
    s'.FuturesLive (s.record h e) := by
  refine ⟨fun i r hi hk => hs.live_step hr hacc hok hstep hi hk,
    fun ex hex hk => hs.left_step hr hacc hatt hstep hex hk, fun N c y hN x hx => ?_⟩
  rcases hr.held_step hstep hN hx with ⟨y', hN', hx'⟩ | ⟨k, hx'⟩
  · obtain ⟨i, r, hi, hrest⟩ := hs.held N c y' hN' x hx'
    exact ⟨i, r, List.mem_append_left _ hi, hrest⟩
  · obtain ⟨i, r, hi, hc, -, he⟩ := hacc.wait_of_listed hx'
    exact ⟨i, r, List.mem_append_left _ hi, hc, he⟩

theorem Recorded.futuresLive (hr : Recorded DropsNotified s h) :
    s.Reachable ∧ s.Accounted h ∧ s.Attributed h ∧ s.FuturesLive h :=
  hr.induction (P := fun s h => s.Accounted h ∧ s.Attributed h ∧ s.FuturesLive h)
    (fun cfg => ⟨accounted_init cfg, attributed_init cfg, futuresLive_init cfg⟩)
    fun _ _ _ _ hs hp hok hstep => ⟨hp.1.step hs hstep, hp.2.1.step hs hp.1 hstep,
      hp.2.2.step hs hp.1 hp.2.1 hok hstep⟩

/-! ## What `notify_one` completes -/

omit [DecidableEq V] in
theorem FuturesLive.live_of_mem (hs : s.FuturesLive h) {i : CallId} {r : Registration}
    (hi : (i, r) ∈ h.registered) (hk : r.frame.kind = .async) {q : Spot} (hq : r.number ∈ s.waitsAt q) :
    s.Live h i r :=
  (hs.live i r hi hk).resolve_right fun hout => hout q hq

omit [DecidableEq V] in
theorem Attributed.kind_of_cont (hatt : s.Attributed h) {i : CallId} {r : Registration}
    (hi : (i, r) ∈ h.registered) (hc : r.waker.isCont = true) : r.frame.kind = .async := by
  obtain ⟨t, ht⟩ := hatt.waker _ hi
  have ht : r.waker = r.frame.kind.waker t r.number := ht
  rw [ht] at hc
  cases hk : r.frame.kind with
  | async => rfl
  | spin | sync => rw [hk] at hc; cases hc

/-- While call `i` waits, and no other kind of waiter does, `notify_one` goes on to a future,
until it completes one. -/
theorem seeks_step (hr : s.Reachable) {i N : CallId} {c : CondvarId} {r : Registration}
    (hc : r.frame.cv = c) (hk : r.frame.kind = .async) (hi : s.Awaits i N r)
    (hspin : s.entriesAt (.list c .spin) = []) (hsync : s.entriesAt (.list c .sync) = [])
    {y : NotifyPc} (hN : (s.call N).pc? = some (.notify c y)) (hy : y.seeksFuture = true)
    (hstep : s.step e = some s') :
    (∃ y', (s'.call N).pc? = some (.notify c y') ∧ y'.seeksFuture = true) ∨
      ∃ x : Entry, y = .wakeOne x ∧ x.waker.isCont = true ∧ e = .act N (.wake x.waker) := by
  have hheld := held_of_notify hN
  rcases notifier_step hr hN hstep with hstay | ⟨t, k, a, o, rfl, ho, ha⟩
  · exact .inl ⟨y, hstay, hy⟩
  have happ := ha.applied
  have hcall := ha.call_self
  cases ho with
  | popSome kind x =>
    have hmem : x ∈ s.entriesAt (.list c kind) := happ.got (.inl rfl)
    refine .inl ⟨.wakeOne x, by rw [hcall]; rfl, ?_⟩
    cases kind with
    | spin => rw [hspin] at hmem; cases hmem
    | sync => rw [hsync] at hmem; cases hmem
    | async =>
      obtain ⟨t', hx⟩ := hr.entry_of_kind c .async x hmem
      rw [hx]
      rfl
  | popNone kind =>
    cases kind with
    | spin => exact .inl ⟨.pop .sync, by rw [hcall]; rfl, rfl⟩
    | sync => exact .inl ⟨.pop .async, by rw [hcall]; rfl, rfl⟩
    | async =>
      -- The entry of call `i` is in this list.
      have hnil : s.entriesAt (.list c .async) = [] := happ.popped_none
      rcases hi.2 with hmem | hmem
      · rw [Registration.spot, hc, hk, hnil] at hmem; cases hmem
      · rw [hheld] at hmem; cases hmem
  | wakeOne x => exact .inr ⟨x, rfl, hy, rfl⟩
  | take | wakeAll => cases hy

/-- A `notify_one` that begins now, and during which call `i` waits and no other kind of waiter
does, completes a wait that is live. All its steps, and those beside it, meet `ok`. -/
def CompletesWaiting (ok : State V → Event V → Prop) (s : State V) (h : History V) : Prop :=
  ∀ s' h' es N t k c o i r, s.call N = .running t k (.notify c notifyOne) →
    s'.call N = .done o → r.spot = .list c .async →
    exec stepRecorded (s, h) es = some (s', h') →
    Along stepRecorded (fun x e => ok x.1 e ∧ x.1.Awaits i N r ∧
      x.1.entriesAt (.list c .spin) = [] ∧ x.1.entriesAt (.list c .sync) = []) (s, h) es →
    ∃ es₁ es₂ u hu j r', es = es₁ ++ .act N (.wake r'.waker) :: es₂ ∧
      exec stepRecorded (s, h) es₁ = some (u, hu) ∧
      (u.call N).pc? = some (.notify c (.wakeOne r'.entry)) ∧ u.Live hu j r' ∧ r'.spot = .list c .async

/-- What `notify_one` takes and completes, where only futures wait. -/
structure CompletesLive (ok : State V → Event V → Prop) (s : State V) (h : History V) : Prop where
  pops : ∀ N c x s', s.step (.act N (.condvar c (.pop .async (some x)))) = some s' →
    ∃ i r, (s.call i).registration = some r ∧ r.spot = .list c .async ∧ r.entry = x
  sends : ∀ N c y, (s.call N).pc? = some (.notify c y) → ∀ x ∈ y.held, x.waker.isCont = true →
    ∃ i r, s.Live h i r ∧ r.spot = .list c .async ∧ r.entry = x
  completes : s.CompletesWaiting ok h

theorem futures_completed (hr : Recorded DropsNotified s h) : s.CompletesLive DropsNotified h := by
  have hsends : ∀ {s : State V} {h : History V}, Recorded DropsNotified s h → ∀ N c y,
      (s.call N).pc? = some (.notify c y) → ∀ x ∈ y.held, x.waker.isCont = true →
      ∃ i r, s.Live h i r ∧ r.spot = .list c .async ∧ r.entry = x := by
    intro s h hr N c y hN x hx hcont
    obtain ⟨-, -, hatt, hs⟩ := hr.futuresLive
    obtain ⟨i, r, hi, rfl, rfl⟩ := hs.held N c y hN x hx
    have hk := hatt.kind_of_cont hi hcont
    refine ⟨i, r, hs.live_of_mem hi hk (q := .call N) ?_, by rw [Registration.spot, hk], rfl⟩
    exact mem_waitsAt.mpr ⟨_, held_of_notify hN ▸ hx, rfl⟩
  refine ⟨fun N c x s' hstep => ?_, hsends hr, fun s' h' es N t k c o i r hN hdone hspot hexec halong => ?_⟩
  · obtain ⟨hreach, hacc, hatt, hs⟩ := hr.futuresLive
    obtain ⟨t, k, pc, n, ha⟩ := act_acted hstep
    have hmem : x ∈ s.entriesAt (.list c .async) := ha.applied.got (.inl rfl)
    obtain ⟨i, r, hi, rfl, hk, rfl⟩ := hacc.wait_of_listed hmem
    have hspot : r.spot = .list r.frame.cv .async := by rw [Registration.spot, hk]
    have hnum : r.number ∈ s.waitsAt r.spot := mem_waitsAt.mpr ⟨_, hspot ▸ hmem, rfl⟩
    rcases (hs.live_of_mem hi hk hnum).2 with hreg | ⟨b, hb⟩
    · exact ⟨i, r, hreg, hspot, rfl⟩
    · exact absurd hnum (hs.left _ hb hk)
  · injection hspot with hc hk
    -- Somewhere the `notify_one` stops looking for a future, and only by completing one.
    obtain ⟨es₁, e, es₂, ⟨u, hu⟩, ⟨v, hv⟩, rfl, hexec₁, halong₁, hstep, ⟨-, hi, hspin, hsync⟩,
      ⟨y, hy, hseeks⟩, hlost⟩ :=
      halong.exists_loss (P := fun x => ∃ y, (x.1.call N).pc? = some (.notify c y) ∧
        y.seeksFuture = true) hexec ⟨notifyOne, by rw [hN]; rfl, rfl⟩
        (by rintro ⟨y, hy, -⟩; rw [hdone] at hy; cases hy)
    have hru : Recorded DropsNotified u hu := by
      obtain ⟨cfg, hrun⟩ := hr
      exact ⟨cfg, hrun.extend (halong₁.mono fun _ _ h => h.1) hexec₁⟩
    obtain ⟨w, hw, hpair⟩ := Option.map_eq_some_iff.mp hstep
    cases hpair
    obtain ⟨x, rfl, hcont, rfl⟩ :=
      (seeks_step hru.reachable hc hk hi hspin hsync hy hseeks hw).resolve_left hlost
    obtain ⟨j, r', hlive, hspot', rfl⟩ := hsends hru N c _ hy x List.mem_cons_self hcont
    exact ⟨es₁, es₂, u, hu, j, r', rfl, hexec₁, hy, hlive, hspot'⟩

/-- Two futures wait. -/
def pendingEvents : List (Event Nat) :=
  [.begin 0 (.lock 0 .tryLock), .act 0 (.mutex (.cas true)), .wait 0 0 1 .waitAsync,
    .act 0 (.register (.user 1) .async 0), .act 0 (.mutex .store), .act 0 (.mutex (.take .sync [])),
    .act 0 (.mutex (.take .async [])), .act 0 (.observe (.cont 0) false),
    .begin 1 (.lock 0 .tryLock), .act 1 (.mutex (.cas true)), .wait 1 1 1 .waitAsync,
    .act 1 (.register (.user 1) .async 1), .act 1 (.mutex .store), .act 1 (.mutex (.take .sync [])),
    .act 1 (.mutex (.take .async [])), .act 1 (.observe (.cont 1) false)]

/-- A future that is dropped has been sent to. -/
def dropsWoken (s : State V) : Event V → Bool
  | .cancel i =>
    (s.call i).registration.all fun r => r.waker.asEntry = some r.entry && s.sh.woken r.waker
  | _ => true

theorem DropsNotified.of_check (hr : s.Reachable) (h : s.dropsWoken e = true) : s.DropsNotified e := by
  rintro i r rfl hi
  have hall : (s.call i).registration.all
      (fun r => r.waker.asEntry = some r.entry && s.sh.woken r.waker) = true := h
  rw [hi] at hall
  simp only [Option.all_some, Bool.and_eq_true, decide_eq_true_eq] at hall
  exact (hr.entriesApart.woken r.waker r.entry hall.1 hall.2).2

/-- A `notify_one` completes the second future, which is then dropped. Another one begins. -/
theorem futures_completed_begun : ∃ (s : State Nat) (h : History Nat),
    exec stepRecorded ((⟨fun _ => true, 0, 0⟩ : Config).init, .new)
      (pendingEvents ++ [.begin 2 (.notifyOne 1), .act 2 (.condvar (.user 1) (.pop .spin none)),
        .act 2 (.condvar (.user 1) (.pop .sync none)),
        .act 2 (.condvar (.user 1) (.pop .async (some ⟨1, .cont 1⟩))), .act 2 (.wake (.cont 1)),
        .cancel 1, .begin 2 (.notifyOne 1)]) = some (s, h) ∧ s.CompletesLive DropsNotified h :=
  exists_recorded dropsWoken rfl (fun _ _ hr h => .of_check hr h) fun _ _ hr => futures_completed hr

/-! ## A future that was dropped while it waited -/

/-- Two futures wait, and the second one is dropped. Then comes a `notify_one`. -/
def droppedEvents : List (Event Nat) := pendingEvents ++ [.cancel 1, .begin 2 (.notifyOne 1)]

def popNoSpin : Event Nat := .act 2 (.condvar (.user 1) (.pop .spin none))
def popNoSync : Event Nat := .act 2 (.condvar (.user 1) (.pop .sync none))
def popDropped : Event Nat := .act 2 (.condvar (.user 1) (.pop .async (some ⟨1, .cont 1⟩)))
def sendDropped : Event Nat := .act 2 (.wake (.cont 1))

/-- The wait of the first future. -/
def firstFuture : Registration := ⟨⟨.user 1, .async, none⟩, 0, .cont 0⟩

/-- The first future waits with its entry in the list, and no other kind of waiter does. -/
def OnlyFirstWaits (s : State Nat) : Prop :=
  ((s.call 0).registration = some firstFuture ∧ firstFuture.entry ∈ s.entriesAt firstFuture.spot) ∧
    s.entriesAt (.list (.user 1) .spin) = [] ∧ s.entriesAt (.list (.user 1) .sync) = []

instance (s : State Nat) : Decidable s.OnlyFirstWaits := inferInstanceAs (Decidable (_ ∧ _))

theorem OnlyFirstWaits.along {s : State Nat} (h : s.OnlyFirstWaits) :
    True ∧ s.Awaits 0 2 firstFuture ∧ s.entriesAt (.list (.user 1) .spin) = [] ∧
      s.entriesAt (.list (.user 1) .sync) = [] :=
  ⟨trivial, ⟨h.1.1, .inl h.1.2⟩, h.2.1, h.2.2⟩

/-- Nobody wants the entry of wait 1 any more. -/
def SecondDropped (s : State Nat) (h : History Nat) : Prop :=
  ∀ x ∈ h.registered, x.2.number = 1 → (s.call x.1).registration ≠ some x.2 ∧ h.exits = []

instance (s : State Nat) (h : History Nat) : Decidable (s.SecondDropped h) :=
  inferInstanceAs (Decidable (∀ x ∈ h.registered, _))

theorem dropped_run : ∃ x x₁ x₂ x₃ x₄ : State Nat × History Nat,
    exec stepRecorded ((⟨fun _ => true, 0, 0⟩ : Config).init, .new) droppedEvents = some x ∧
    stepRecorded x popNoSpin = some x₁ ∧ stepRecorded x₁ popNoSync = some x₂ ∧
    stepRecorded x₂ popDropped = some x₃ ∧ stepRecorded x₃ sendDropped = some x₄ ∧
    x.1.call 2 = .running 2 .notify (.notify (.user 1) notifyOne) ∧
    (x₃.1.call 2).pc? = some (.notify (.user 1) (.wakeOne ⟨1, .cont 1⟩)) ∧
    x₄.1.call 2 = .done .notified ∧ x.1.OnlyFirstWaits ∧ x₁.1.OnlyFirstWaits ∧ x₂.1.OnlyFirstWaits ∧
    x₃.1.OnlyFirstWaits ∧ x₃.1.SecondDropped x₃.2 := by
  refine ⟨_, _, _, _, _, rfl, rfl, rfl, rfl, rfl, rfl, rfl, rfl, ?_, ?_, ?_, ?_, ?_⟩ <;> decide

/-- It completes the continuation of the dropped future, while the other one waits. -/
theorem notify_one_completes_dropped : ¬ ∀ (s : State Nat) (h : History Nat),
    Recorded (fun _ _ => True) s h → s.CompletesWaiting (fun _ _ => True) h := by
  intro hall
  obtain ⟨⟨s, h⟩, x₁, x₂, ⟨u, hu⟩, x₄, hs, h₁, h₂, h₃, h₄, hbegin, hholds, hend, hw, hw₁, hw₂, hw₃, hdropped⟩ :=
    dropped_run
  have hr : Recorded (fun _ _ => True) s h :=
    ⟨_, RunWhere.refl.extend (.of_forall fun _ _ _ => trivial) hs⟩
  have hexec : exec stepRecorded (s, h) [popNoSpin, popNoSync, popDropped, sendDropped] =
      some (x₄.1, x₄.2) := by
    simp [exec, h₁, h₂, h₃, h₄]
  have halong : Along stepRecorded (fun x _ => True ∧ x.1.Awaits 0 2 firstFuture ∧
      x.1.entriesAt (.list (.user 1) .spin) = [] ∧ x.1.entriesAt (.list (.user 1) .sync) = []) (s, h)
      [popNoSpin, popNoSync, popDropped, sendDropped] := by
    refine ⟨hw.along, fun t ht => ?_⟩
    cases h₁.symm.trans ht
    refine ⟨hw₁.along, fun t ht => ?_⟩
    cases h₂.symm.trans ht
    refine ⟨hw₂.along, fun t ht => ?_⟩
    cases h₃.symm.trans ht
    exact ⟨hw₃.along, fun _ _ => trivial⟩
  obtain ⟨es₁, es₂, v, hv, j, r, hes, hexec₁, hpc, hlive, -⟩ := hall s h hr x₄.1 x₄.2 _ 2 2 .notify
    (.user 1) .notified 0 firstFuture hbegin hend rfl hexec halong
  rcases es₁ with _ | ⟨e₁, _ | ⟨e₂, _ | ⟨e₃, _ | ⟨e₄, es₁⟩⟩⟩⟩
  · cases hes
  · cases hes
  · cases hes
  · simp only [List.cons_append, List.nil_append, List.cons.injEq] at hes
    obtain ⟨rfl, rfl, rfl, -⟩ := hes
    have hpopped : exec stepRecorded (s, h) [popNoSpin, popNoSync, popDropped] = some (u, hu) := by
      simp [exec, h₁, h₂, h₃]
    cases hpopped.symm.trans hexec₁
    have hentry : (⟨1, .cont 1⟩ : Entry) = r.entry := by
      simpa using hholds.symm.trans hpc
    obtain ⟨hnow, hexits⟩ := hdropped (j, r) hlive.1 (congrArg Entry.wait hentry).symm
    rcases hlive.2 with hreg | ⟨b, hb⟩
    · exact hnow hreg
    · rw [hexits] at hb; cases hb
  · cases es₁ <;> simp at hes

end State

end WasmSafeMutex
