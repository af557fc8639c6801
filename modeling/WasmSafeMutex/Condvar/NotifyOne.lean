import WasmSafeMutex.Condvar.Owners
import WasmSafeMutex.Condvar.Wakeup

/-!
# Whom `notify_one` wakes

A spinning call leaves nothing behind when it leaves its wait. A blocking call may: its park
returns without a notification, and its handle stays in the list. As long as none does,
`notify_one` wakes a thread that still waits.
-/

namespace WasmSafeMutex

open Interleaving

variable {V : Type}

def Waker.isCont : Waker → Bool
  | .cont _ => true
  | _ => false

/-- What the operation takes from the list of this kind. -/
def Act.gets (c : CondvarId) (k : Kind) (x : Entry) (a : Act V) : Prop :=
  a = .condvar c (.pop k (some x)) ∨ ∃ es, x ∈ es ∧ a = .condvar c (.take k es)

theorem Shared.Applied.got {sh sh' : Shared V} {m : MutexId} {i : CallId} {t : ThreadId} {a : Act V}
    (h : sh.Applied m i t a sh') {c : CondvarId} {k : Kind} {x : Entry} (ha : a.gets c k x) :
    x ∈ sh.entriesAt (.list c k) := by
  cases h with
  | condvar c' a y hy =>
    cases hy with
    | popSome k' es z hk =>
      rcases ha with ha | ⟨es', -, ha⟩ <;> cases ha
      rw [Shared.entriesAt, hk]
      exact List.mem_append_right _ List.mem_cons_self
    | take k' =>
      rcases ha with ha | ⟨es', hx, ha⟩ <;> cases ha
      exact hx
    | _ => rcases ha with ha | ⟨es', -, ha⟩ <;> cases ha
  | _ => rcases ha with ha | ⟨es', -, ha⟩ <;> cases ha

theorem NotifyPc.held_of_drain {kind : Kind} {es : List Entry} {x : NotifyPc}
    (h : drain kind es = .goto x) : x.held = es := by
  have := NotifyPc.held_drain (V := Nat) .notify .channel kind es
  rwa [h] at this

theorem NotifyPc.Step.held_of {c : CondvarId} {x x' : NotifyPc} {a : Act V}
    (h : x.Step c a (.goto x')) {y : Entry} (hy : y ∈ x'.held) :
    y ∈ x.held ∨ ∃ k, a.gets c k y := by
  generalize ho : NotifyOut.goto x' = o at h
  cases h with
  | popSome k e =>
    cases ho
    obtain rfl := List.mem_singleton.mp hy
    exact .inr ⟨k, .inl rfl⟩
  | popNone k => cases k <;> cases ho <;> cases hy
  | wakeOne e => cases ho
  | take k es =>
    rw [held_of_drain ho.symm] at hy
    exact .inr ⟨k, .inr ⟨es, hy, rfl⟩⟩
  | wakeAll k e es =>
    rw [held_of_drain ho.symm] at hy
    exact .inl (List.mem_cons_of_mem _ hy)

theorem WaitPc.kind_of_early {f : WaitFrame} {w : WaitPc} (hf : w.fits f = true)
    (h : (∃ a : Act V, w.early a = true) ∨ w.pending = true) : f.kind ≠ .spin := by
  intro hk
  rcases h with ⟨a, h⟩ | h
  · cases w with
    | park | blockCheck | blockRemove | asyncRemove => simp [WaitPc.fits, hk] at hf
    | _ => cases h
  · cases w with
    | await | raceNotify => simp [WaitPc.fits, hk] at hf
    | _ => cases h

namespace State

variable {s s' : State V} {e : Event V}

/-- No blocking call leaves its wait by this event while its handle is in the list or with a
notifier, unless it removes the handle itself. -/
def LeavesWoken (s : State V) (e : Event V) : Prop :=
  ∀ i r, (s.call i).registration = some r → r.frame.kind = .sync → s.LeavesEarly i e →
    ∀ q, r.number ∉ s.waitsAt q

/-- The entries of threads, in the lists and with the notifiers, belong to calls that wait. -/
structure ThreadsOwned (s : State V) : Prop where
  listed : ∀ c k, k ≠ .async → s.Owned c k
  held : ∀ N c y, (s.call N).pc? = some (.notify c y) → ∀ x ∈ y.held, x.waker.isCont = false →
    ∃ i r, (s.call i).registration = some r ∧ r.frame.cv = c ∧ r.frame.kind ≠ .async ∧ r.entry = x

theorem held_of_notify {N : CallId} {c : CondvarId} {y : NotifyPc} (h : (s.call N).pc? = some (.notify c y)) :
    s.entriesAt (.call N) = y.held := by
  change (s.call N).held = y.held
  revert h
  cases s.call N with
  | running t k pc | suspended k pc => rintro ⟨⟩; rfl
  | _ => rintro ⟨⟩

theorem threadsOwned_init (cfg : Config) : (cfg.init : State V).ThreadsOwned :=
  ⟨fun _ _ _ _ hx => absurd hx List.not_mem_nil, fun _ _ _ h => by cases h⟩

variable [DecidableEq V]

theorem Reachable.entry_of_kind (h : s.Reachable) (c : CondvarId) (k : Kind) :
    ∀ x ∈ s.entriesAt (.list c k), ∃ t, x = k.entry t x.wait := by
  refine h.induction (P := fun s => ∀ x ∈ s.entriesAt (.list c k), ∃ t, x = k.entry t x.wait) ?_ ?_ ?_ ?_
  · intro cfg x hx; cases hx
  · intro s s' i t k' pc a n _ hs ha x hx
    rcases ha.applied.listed hx with hx | ⟨-, rfl⟩
    · exact hs x hx
    · exact ⟨t, rfl⟩
  · intro s s' e i c' _ hs ht x hx
    exact hs x (by simpa [entriesAt, ht.sh] using hx)
  · intro s s' e _ hs ha x hx
    exact hs x (by simpa [entriesAt, Shared.entriesAt, ha.around.condvar] using hx)

/-- A spinning call never leaves early. -/
theorem Reachable.early_kind (h : s.Reachable) (hstep : s.step e = some s') {i : CallId}
    {r : Registration} (hr : (s.call i).registration = some r) (he : s.LeavesEarly i e) :
    r.frame.kind ≠ .spin := by
  have hpend := h.sane.pending i
  obtain ⟨pc, hpc, hreg⟩ := Option.bind_eq_some_iff.mp hr
  obtain ⟨f, w, rfl, hleave⟩ : ∃ f w, pc = .wait f w ∧ ((∃ a : Act V, w.early a = true) ∨ w.pending = true) := by
    cases e with
    | act j a =>
      obtain ⟨rfl, hearly⟩ := he
      rw [hpc, Option.any_some] at hearly
      cases pc with
      | wait f w => exact ⟨f, w, rfl, .inl ⟨a, hearly⟩⟩
      | _ => cases hearly
    | cancel j =>
      obtain rfl : j = i := he
      simp only [State.step] at hstep
      split at hstep
      case h_2 => cases hstep
      case h_1 k pc' hc =>
        rw [hc] at hpc
        cases hpc
        have hp := hpend k pc hc
        cases pc with
        | wait f w => exact ⟨f, w, rfl, .inr hp⟩
        | unlock => cases hp
        | _ => cases hreg
    | _ => exact he.elim
  obtain ⟨n, hn, hw⟩ := Option.bind_eq_some_iff.mp hreg
  rw [(WaitPc.of_registration hreg hn).1]
  exact WaitPc.kind_of_early (h.wait_fits hpc) hleave

/-- What a thread has put into a list or what a notifier holds keeps the thread waiting. -/
theorem LeavesWoken.stays (h : s.Reachable) (hstep : s.step e = some s') (hok : s.LeavesWoken e)
    (hown : ∀ c k, k ≠ .async → s.Owned c k) {i : CallId} {r : Registration}
    (hr : (s.call i).registration = some r) (hk : r.frame.kind ≠ .async) {q : Spot}
    (hq : r.number ∈ s'.waitsAt q) : (s'.call i).registration = some r := by
  refine h.owner_stays hstep hr (hown _ _ hk) (fun he => ?_) hq
  have hsync : r.frame.kind = .sync := by
    have hspin := h.early_kind hstep hr he
    cases hkind : r.frame.kind with
    | sync => rfl
    | spin => exact absurd hkind hspin
    | async => exact absurd hkind hk
  exact h.stays_gone hstep (h.number_lt_fresh hr) (hok i r hr hsync he) q hq

theorem ThreadsOwned.listed_step (h : s.Reachable) (hstep : s.step e = some s') (hok : s.LeavesWoken e)
    (hs : s.ThreadsOwned) {c : CondvarId} {k : Kind} (hk : k ≠ .async) : s'.Owned c k := by
  intro x hx
  rcases State.listed_step h hstep hx with hold | hnew
  · obtain ⟨i, r, hr, hspot, rfl⟩ := hs.listed c k hk x hold
    have hkind : r.frame.kind ≠ .async := by
      injection hspot with _ hkind
      rwa [hkind]
    exact ⟨i, r, hok.stays h hstep hs.listed hr hkind (mem_waitsAt.mpr ⟨_, hx, rfl⟩), hspot, rfl⟩
  · exact hnew

/-- What a notifier holds, it held before or has just taken from a list. -/
theorem Reachable.held_step (h : s.Reachable) (hstep : s.step e = some s') {N : CallId} {c : CondvarId}
    {y : NotifyPc} (hN : (s'.call N).pc? = some (.notify c y)) {x : Entry} (hx : x ∈ y.held) :
    (∃ y', (s.call N).pc? = some (.notify c y') ∧ x ∈ y'.held) ∨ ∃ k, x ∈ s.entriesAt (.list c k) := by
  rcases h.sane.numbered.comes_to hstep hN with hold | hbegin | ⟨a, t, k, pc, n, -, ha, hpc⟩
  · exact .inl ⟨y, hold, hx⟩
  · have hnil : y.held = [] := Pc.held_of_begins hbegin
    rw [hnil] at hx
    cases hx
  · rcases ha.step.into_notify hpc with ⟨y₀, rfl, hy⟩ | ⟨-, rfl | rfl⟩
    · rw [ha.running]
      rcases hy.held_of hx with hold | ⟨kind, hget⟩
      · exact .inl ⟨y₀, rfl, hold⟩
      · exact .inr ⟨kind, ha.applied.got hget⟩
    · cases hx
    · cases hx

theorem ThreadsOwned.step (h : s.Reachable) (hstep : s.step e = some s') (hok : s.LeavesWoken e)
    (hs : s.ThreadsOwned) : s'.ThreadsOwned := by
  refine ⟨fun c k hk => hs.listed_step h hstep hok hk, fun N c y hN x hx hcont => ?_⟩
  have howner : ∃ i r, (s.call i).registration = some r ∧ r.frame.cv = c ∧ r.frame.kind ≠ .async ∧
      r.entry = x := by
    rcases h.held_step hstep hN hx with ⟨y', hN', hx'⟩ | ⟨k, hx'⟩
    · exact hs.held N c y' hN' x hx' hcont
    · have hk : k ≠ .async := by
        rintro rfl
        obtain ⟨t, ht⟩ := h.entry_of_kind c .async x hx'
        rw [ht] at hcont; cases hcont
      obtain ⟨i, r, hr, hspot, hx⟩ := hs.listed c k hk x hx'
      injection hspot with hc hkind
      exact ⟨i, r, hr, hc, hkind ▸ hk, hx⟩
  obtain ⟨i, r, hr, hc, hk, rfl⟩ := howner
  refine ⟨i, r, hok.stays h hstep hs.listed hr hk (q := .call N) ?_, hc, hk, rfl⟩
  exact mem_waitsAt.mpr ⟨_, held_of_notify hN ▸ hx, rfl⟩

/-! ## A call of `notify_one` -/

/-- Call `i` is registered and has not been woken: its entry is in the list, or with `N`. -/
def Awaits (s : State V) (i N : CallId) (r : Registration) : Prop :=
  (s.call i).registration = some r ∧
    (r.entry ∈ s.entriesAt r.spot ∨ r.entry ∈ s.entriesAt (.call N))

/-- What `notify_one` pops is the entry of a thread that waits. -/
def PopsWaiting (s : State V) : Prop :=
  ∀ N c k x s', k ≠ .async → s.step (.act N (.condvar c (.pop k (some x)))) = some s' →
    ∃ i r, (s.call i).registration = some r ∧ r.spot = .list c k ∧ r.entry = x

/-- A `notify_one` that begins now, and during which some thread waits, wakes one that does.
All its steps, and those beside it, meet `ok`. -/
def WakesWaiting (ok : State V → Event V → Prop) (s : State V) : Prop :=
  ∀ s' es N t k c o i r, s.call N = .running t k (.notify c notifyOne) → s'.call N = .done o →
    r.frame.cv = c → r.frame.kind ≠ .async → exec State.step s es = some s' →
    Along State.step (fun u e => ok u e ∧ u.Awaits i N r) s es →
    ∃ es₁ es₂ u j r', es = es₁ ++ .act N (.wake r'.waker) :: es₂ ∧ exec State.step s es₁ = some u ∧
      (u.call N).pc? = some (.notify c (.wakeOne r'.entry)) ∧
      (u.call j).registration = some r' ∧ r'.frame.cv = c

end State

/-- The `notify_one` has still to look into the list of this kind, or has got a thread. -/
def NotifyPc.reaches (k : Kind) : NotifyPc → Bool
  | .pop k' => k'.rank ≤ k.rank
  | .wakeOne x => !x.waker.isCont
  | _ => false

theorem NotifyPc.reaches_popNext {k k' : Kind} (h : k'.rank < k.rank) :
    ∃ y, popNext k' = .goto y ∧ y.reaches k = true := by
  cases k' <;> cases k <;> first | exact ⟨_, rfl, rfl⟩ | simp [Kind.rank] at h

theorem Shared.Applied.popped_none {sh sh' : Shared V} {m : MutexId} {i : CallId} {t : ThreadId}
    {c : CondvarId} {k : Kind} (h : sh.Applied m i t (.condvar c (.pop k none)) sh') :
    sh.entriesAt (.list c k) = [] := by
  cases h with
  | condvar c a x hx =>
    cases hx with
    | popNone k hk => exact hk

namespace State

variable [DecidableEq V] {s s' : State V} {e : Event V}

/-- A notifier goes on by its own operations alone. -/
theorem notifier_step (h : s.Reachable) {N : CallId} {c : CondvarId} {y : NotifyPc}
    (hN : (s.call N).pc? = some (.notify c y)) (hstep : s.step e = some s') :
    (s'.call N).pc? = some (.notify c y) ∨ ∃ t k a o, e = .act N a ∧ y.Step c a o ∧
      Acted s s' N t k (.notify c y) a (o.toNext k c) := by
  rcases h.sane.goes_on hstep hN rfl with hcall | ⟨a, t, k, n, rfl, ha⟩
  · rw [hcall]; exact .inl hN
  · cases hst : ha.step with
    | notify c y a o ho => exact .inr ⟨t, k, a, o, rfl, ho, ha⟩

/-- While call `i` waits, `notify_one` goes on to a thread, until it wakes one. -/
theorem reaches_step (h : s.Reachable) {i N : CallId} {c : CondvarId}
    {r : Registration} (hc : r.frame.cv = c) (hk : r.frame.kind ≠ .async) (hi : s.Awaits i N r)
    {y : NotifyPc} (hN : (s.call N).pc? = some (.notify c y)) (hy : y.reaches r.frame.kind = true)
    (hstep : s.step e = some s') :
    (∃ y', (s'.call N).pc? = some (.notify c y') ∧ y'.reaches r.frame.kind = true) ∨
      ∃ x : Entry, y = .wakeOne x ∧ x.waker.isCont = false ∧ e = .act N (.wake x.waker) := by
  have hheld := held_of_notify hN
  rcases notifier_step h hN hstep with hstay | ⟨t, k, a, o, rfl, ho, ha⟩
  · exact .inl ⟨y, hstay, hy⟩
  have happ := ha.applied
  have hcall := ha.call_self
  cases ho with
  | popSome kind x =>
    refine .inl ⟨.wakeOne x, by rw [hcall]; rfl, ?_⟩
    obtain ⟨t', hx⟩ := h.entry_of_kind _ kind x (happ.got (.inl rfl))
    have hrank : kind.rank ≤ r.frame.kind.rank := of_decide_eq_true hy
    rw [hx]
    revert hrank hk
    cases kind <;> cases r.frame.kind <;> simp [Kind.rank, NotifyPc.reaches, Kind.entry,
      Kind.waker, Waker.isCont]
  | popNone kind =>
    have hnil := happ.popped_none
    have hne : kind ≠ r.frame.kind := by
      rintro rfl
      rcases hi.2 with hmem | hmem
      · rw [Registration.spot, hc] at hmem
        have hmem : r.entry ∈ s.sh.entriesAt (.list c r.frame.kind) := hmem
        rw [hnil] at hmem; cases hmem
      · rw [hheld] at hmem; cases hmem
    have hrank : kind.rank ≤ r.frame.kind.rank := of_decide_eq_true hy
    obtain ⟨y', hy', hreach⟩ := NotifyPc.reaches_popNext
      (Nat.lt_of_le_of_ne hrank fun he => hne (Kind.rank_inj he))
    exact .inl ⟨y', by rw [hcall, hy']; rfl, hreach⟩
  | wakeOne x => exact .inr ⟨x, rfl, by simpa [NotifyPc.reaches] using hy, rfl⟩
  | take | wakeAll => cases hy

/-- The run lemma. -/
theorem threadsOwned_of_run {cfg : Config} (h : RunWhere State.step LeavesWoken cfg.init s) :
    s.Reachable ∧ s.ThreadsOwned := by
  refine h.invariant (P := fun s => s.Reachable ∧ s.ThreadsOwned) ⟨⟨cfg, .refl⟩, threadsOwned_init cfg⟩ ?_
  rintro s s' e ⟨hr, hs⟩ hok hstep
  exact ⟨hr.step hstep, hs.step hr hstep hok⟩

theorem notifies_waiting {cfg : Config} (h : RunWhere State.step LeavesWoken cfg.init s) :
    s.PopsWaiting ∧ s.WakesWaiting LeavesWoken := by
  obtain ⟨-, hown⟩ := threadsOwned_of_run h
  refine ⟨fun N c k x s' hk hstep => ?_, fun s' es N t k c o i r hN hdone hc hk hexec halong => ?_⟩
  · obtain ⟨t, k', pc, n, ha⟩ := act_acted hstep
    exact hown.listed c k hk x (ha.applied.got (.inl rfl))
  · -- Somewhere the `notify_one` stops looking for a thread, and only by waking one.
    obtain ⟨es₁, e, es₂, u, v, rfl, hu, halong', hstep, ⟨-, hi⟩, ⟨y, hy, hreach⟩, hlost⟩ :=
      halong.exists_loss (P := fun u => ∃ y, (u.call N).pc? = some (.notify c y) ∧
        y.reaches r.frame.kind = true) hexec ⟨notifyOne, by rw [hN]; rfl, by simp [notifyOne,
          NotifyPc.reaches, Kind.rank]⟩ (by rintro ⟨y, hy, -⟩; rw [hdone] at hy; cases hy)
    obtain ⟨hru, hownu⟩ := threadsOwned_of_run (h.extend (halong'.mono fun _ _ h => h.1) hu)
    obtain ⟨x, rfl, hcont, rfl⟩ := (reaches_step hru hc hk hi hy hreach hstep).resolve_left hlost
    obtain ⟨j, r', hj, hcv, -, rfl⟩ := hownu.held N c _ hy x List.mem_cons_self hcont
    exact ⟨es₁, es₂, u, j, r', rfl, hu, hy, hj, hcv⟩

omit [DecidableEq V] in
theorem LeavesWoken.of_not_leaves (h : e.leaves = false) : s.LeavesWoken e := by
  intro i r _ _ he
  rw [he.leaves] at h
  cases h

/-- What a `notify_one` has woken is in no list, and nobody holds it. -/
theorem Reachable.gone_of_wake (h : s.Reachable) {N : CallId} {c : CondvarId} {x : Entry}
    (hN : (s.call N).pc? = some (.notify c (.wakeOne x)))
    (hstep : s.step (.act N (.wake x.waker)) = some s') (q : Spot) : x.wait ∉ s'.waitsAt q := by
  intro hq
  obtain ⟨t, k, pc, n, ha⟩ := act_acted hstep
  have hx : x.wait ∈ s.waitsAt (.call N) :=
    mem_waitsAt.mpr ⟨x, held_of_notify hN ▸ List.mem_singleton_self x, rfl⟩
  rw [ha.running] at hN
  obtain rfl : pc = .notify c (.wakeOne x) := Option.some.inj hN
  have hlists : s'.sh.entriesAt = Function.update s.sh.entriesAt (.call N) (s.sh.entriesAt (.call N)) := by
    have happ := ha.applied
    generalize s'.sh = sh' at happ
    cases happ
    rw [Function.update_eq_self]
    rfl
  obtain ⟨y, hy, hyx⟩ := mem_waitsAt.mp hq
  by_cases he : q = .call N
  · subst he
    have hnil : s'.entriesAt (.call N) = [] := by
      change (s'.call N).held = []
      rw [ha.call_self, Next.held_call]
      cases ha.step with
      | notify c y a o ho => cases ho; cases k <;> rfl
    rw [hnil] at hy
    cases hy
  · have hother : ∀ j, q = .call j → (s'.call j).held = (s.call j).held := by
      rintro j rfl
      rw [ha.call_ne fun hj => he (hj ▸ rfl)]
    rw [entriesAt_ne hlists he hother] at hy
    exact he (h.entriesApart.separated.apart q (.call N) x.wait (mem_waitsAt.mpr ⟨y, hy, hyx⟩) hx)

/-- Two threads wait, and a `notify_one` has popped the handle of the second one. -/
def poppedEvents : List (Event Nat) :=
  [.begin 0 (.lock 0 .tryLock), .act 0 (.mutex (.cas true)), .wait 0 0 1 .waitBlock,
    .act 0 (.register (.user 1) .sync 0), .act 0 (.mutex .store), .act 0 (.mutex (.take .sync [])),
    .act 0 (.mutex (.take .async [])),
    .begin 1 (.lock 0 .tryLock), .act 1 (.mutex (.cas true)), .wait 1 1 1 .waitBlock,
    .act 1 (.register (.user 1) .sync 1), .act 1 (.mutex .store), .act 1 (.mutex (.take .sync [])),
    .act 1 (.mutex (.take .async [])), .begin 2 (.notifyOne 1),
    .act 2 (.condvar (.user 1) (.pop .spin none)),
    .act 2 (.condvar (.user 1) (.pop .sync (some ⟨1, .thread 1⟩)))]

/-- The second thread has been woken and leaves. Then another `notify_one` begins, while the
first thread waits. -/
theorem notifies_waiting_begun : ∃ s₁ s₂ s₃ s : State Nat,
    exec State.step (⟨fun _ => true, 0, 0⟩ : Config).init poppedEvents = some s₁ ∧
      s₁.step (.act 2 (.wake (.thread 1))) = some s₂ ∧ s₂.step (.act 1 (.park true)) = some s₃ ∧
      s₃.step (.begin 2 (.notifyOne 1)) = some s ∧
      s.call 3 = .running 2 .notify (.notify (.user 1) notifyOne) ∧
      s.Awaits 0 3 ⟨⟨.user 1, .sync, none⟩, 0, .thread 0⟩ ∧ s.PopsWaiting ∧ s.WakesWaiting LeavesWoken := by
  have hrun : ∃ s₁ s₂ s₃ s : State Nat,
      exec State.step (⟨fun _ => true, 0, 0⟩ : Config).init poppedEvents = some s₁ ∧
      s₁.step (.act 2 (.wake (.thread 1))) = some s₂ ∧ s₂.step (.act 1 (.park true)) = some s₃ ∧
      s₃.step (.begin 2 (.notifyOne 1)) = some s ∧
      (s₁.call 2).pc? = some (.notify (.user 1) (.wakeOne ⟨1, .thread 1⟩)) ∧
      (s₂.call 1).registration = some ⟨⟨.user 1, .sync, none⟩, 1, .thread 1⟩ ∧
      s.call 3 = .running 2 .notify (.notify (.user 1) notifyOne) ∧
      (s.call 0).registration = some ⟨⟨.user 1, .sync, none⟩, 0, .thread 0⟩ ∧
      s.entriesAt (.list (.user 1) .sync) = [⟨0, .thread 0⟩] :=
    ⟨_, _, _, _, rfl, rfl, rfl, rfl, rfl, rfl, rfl, rfl, rfl⟩
  obtain ⟨s₁, s₂, s₃, s, h₁, h₂, h₃, h₄, hholds, hleaver, hbegin, hwaiter, hlist⟩ := hrun
  have hquiet : ∀ e ∈ poppedEvents, ∀ s : State Nat, s.LeavesWoken e := by
    intro e he s
    apply LeavesWoken.of_not_leaves
    revert e
    decide
  have hrun₁ : RunWhere State.step LeavesWoken (⟨fun _ => true, 0, 0⟩ : Config).init s₁ :=
    RunWhere.refl.extend (.of_forall hquiet) h₁
  have hrun₂ := hrun₁.tail (.of_not_leaves rfl) h₂
  have hpark : s₂.LeavesWoken (.act 1 (.park true)) := by
    rintro i r hi - ⟨rfl, -⟩ q
    cases hleaver.symm.trans hi
    exact (reachable_of_exec h₁).gone_of_wake hholds h₂ q
  have hrun₄ := (hrun₂.tail hpark h₃).tail (.of_not_leaves rfl) h₄
  refine ⟨s₁, s₂, s₃, s, h₁, h₂, h₃, h₄, hbegin, ⟨hwaiter, .inl ?_⟩, notifies_waiting hrun₄⟩
  change _ ∈ s.entriesAt (.list (.user 1) .sync)
  rw [hlist]
  exact List.mem_singleton_self _

/-! ## A handle that was left behind -/

/-- Two threads wait, and the park of the second one returns without a notification. It takes
the mutex, leaves its handle in the list, and unlocks. Then comes a `notify_one`. -/
def spentEvents : List (Event Nat) :=
  [.begin 0 (.lock 0 .tryLock), .act 0 (.mutex (.cas true)), .wait 0 0 1 .waitBlock,
    .act 0 (.register (.user 1) .sync 0), .act 0 (.mutex .store), .act 0 (.mutex (.take .sync [])),
    .act 0 (.mutex (.take .async [])),
    .begin 1 (.lock 0 .tryLock), .act 1 (.mutex (.cas true)), .wait 1 1 1 .waitBlock,
    .act 1 (.register (.user 1) .sync 1), .act 1 (.mutex .store), .act 1 (.mutex (.take .sync [])),
    .act 1 (.mutex (.take .async [])),
    .act 1 (.park false), .act 1 (.probe true), .act 1 (.mutex (.enter .sync)),
    .act 1 (.mutex (.cas true)), .act 1 (.mutex (.leave .sync)), .dropGuard 1 1,
    .act 1 (.mutex .store), .act 1 (.mutex (.take .sync [])), .act 1 (.mutex (.take .async [])),
    .begin 2 (.notifyOne 1)]

def popSpin : Event Nat := .act 2 (.condvar (.user 1) (.pop .spin none))
def popLeft : Event Nat := .act 2 (.condvar (.user 1) (.pop .sync (some ⟨1, .thread 1⟩)))
def wakeLeft : Event Nat := .act 2 (.wake (.thread 1))

/-- The wait of the first thread. -/
def firstWait : Registration := ⟨⟨.user 1, .sync, none⟩, 0, .thread 0⟩

/-- The first thread waits, with its entry in the list, and nobody is in wait 1. -/
def StillWaits (s : State Nat) : Prop :=
  ((s.call 0).registration = some firstWait ∧ firstWait.entry ∈ s.entriesAt firstWait.spot) ∧
    ∀ i < s.used, ∀ r, (s.call i).registration = some r → r.number ≠ 1

instance (s : State Nat) : Decidable s.StillWaits := inferInstanceAs (Decidable (_ ∧ _))

theorem StillWaits.awaits {s : State Nat} (h : s.StillWaits) : s.Awaits 0 2 firstWait :=
  ⟨h.1.1, .inl h.1.2⟩

theorem StillWaits.nobody {s : State Nat} (h : s.StillWaits) (hs : s.Reachable) {i : CallId}
    {r : Registration} (hr : (s.call i).registration = some r) : r.number ≠ 1 := by
  by_cases hi : i < s.used
  · exact h.2 i hi r hr
  · rw [hs.sane.numbered i (Nat.le_of_not_lt hi)] at hr; cases hr

theorem spent_run : ∃ s s₁ s₂ s₃ : State Nat, s.Reachable ∧ s.step popSpin = some s₁ ∧
    s₁.step popLeft = some s₂ ∧ s₂.step wakeLeft = some s₃ ∧
    s.call 2 = .running 2 .notify (.notify (.user 1) notifyOne) ∧
    (s₂.call 2).pc? = some (.notify (.user 1) (.wakeOne ⟨1, .thread 1⟩)) ∧
    s₃.call 2 = .done .notified ∧ s.StillWaits ∧ s₁.StillWaits ∧ s₂.StillWaits := by
  have hrun : ∃ s, exec State.step (⟨fun _ => true, 0, 0⟩ : Config).init spentEvents = some s ∧
      ∃ s₁ s₂ s₃ : State Nat, s.step popSpin = some s₁ ∧ s₁.step popLeft = some s₂ ∧
        s₂.step wakeLeft = some s₃ ∧ s.call 2 = .running 2 .notify (.notify (.user 1) notifyOne) ∧
        (s₂.call 2).pc? = some (.notify (.user 1) (.wakeOne ⟨1, .thread 1⟩)) ∧
        s₃.call 2 = .done .notified ∧ s.StillWaits ∧ s₁.StillWaits ∧ s₂.StillWaits := by
    refine ⟨_, rfl, _, _, _, rfl, rfl, rfl, rfl, rfl, rfl, ?_, ?_, ?_⟩ <;> decide
  obtain ⟨s, hs, s₁, s₂, s₃, h⟩ := hrun
  exact ⟨s, s₁, s₂, s₃, reachable_of_exec hs, h⟩

/-- It pops the handle of a thread that has left, and wakes nobody who waits. -/
theorem notify_one_spent : (¬ ∀ s : State Nat, s.Reachable → s.PopsWaiting) ∧
    ¬ ∀ s : State Nat, s.Reachable → s.WakesWaiting fun _ _ => True := by
  obtain ⟨s, s₁, s₂, s₃, hs, h₁, h₂, h₃, hbegin, hholds, hend, hw, hw₁, hw₂⟩ := spent_run
  refine ⟨fun hall => ?_, fun hall => ?_⟩
  · obtain ⟨i, r, hr, -, hx⟩ := hall s₁ (hs.step h₁) 2 (.user 1) .sync ⟨1, .thread 1⟩ s₂ (by simp) h₂
    exact hw₁.nobody (hs.step h₁) hr (congrArg Entry.wait hx)
  · have hexec : exec State.step s [popSpin, popLeft, wakeLeft] = some s₃ := by
      simp [exec, h₁, h₂, h₃]
    have halong : Along State.step (fun u e => True ∧ u.Awaits 0 2 firstWait) s
        [popSpin, popLeft, wakeLeft] := by
      refine ⟨⟨trivial, hw.awaits⟩, fun t ht => ?_⟩
      cases h₁.symm.trans ht
      refine ⟨⟨trivial, hw₁.awaits⟩, fun t ht => ?_⟩
      cases h₂.symm.trans ht
      exact ⟨⟨trivial, hw₂.awaits⟩, fun _ _ => trivial⟩
    obtain ⟨es₁, es₂, u, j, r, hes, hu, hpc, hr, -⟩ := hall s hs s₃ _ 2 2 .notify (.user 1) .notified 0
      firstWait hbegin hend rfl (by simp [firstWait]) hexec halong
    rcases es₁ with _ | ⟨x, _ | ⟨y, _ | ⟨z, zs⟩⟩⟩
    · cases hes
    · cases hes
    · simp only [List.cons_append, List.nil_append, List.cons.injEq] at hes
      obtain ⟨rfl, rfl, -⟩ := hes
      have hs₂ : exec State.step s [popSpin, popLeft] = some s₂ := by simp [exec, h₁, h₂]
      cases hs₂.symm.trans hu
      have hentry : (⟨1, .thread 1⟩ : Entry) = r.entry := by
        simpa using hholds.symm.trans hpc
      exact hw₂.nobody ((hs.step h₁).step h₂) hr (congrArg Entry.wait hentry).symm
    · cases es₂ <;> simp at hes

end State

end WasmSafeMutex
