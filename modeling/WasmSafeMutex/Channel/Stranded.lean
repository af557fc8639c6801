import WasmSafeMutex.Lib.Supply
import WasmSafeMutex.Channel.Notified

/-!
# No value is stranded

Each `push_back` is followed by one `notify_one`. While receives wait in a list, there is for
each value in the queue a send that has still to look into this list, or a receive that has
been notified and has still to look at the queue.
-/

namespace WasmSafeMutex

open Interleaving

variable {V : Type}

namespace State

variable [DecidableEq V] {s s' : State V} {e : Event V} {i : CallId}

/-! ## Whose entry a send pops -/

/-- Where all entries of a list are owned, no two of them have one waker. -/
theorem Owned.unique (hr : s.Reachable) {c : CondvarId} {k : Kind} (hown : s.Owned c k) {x y : Entry}
    (hx : x ∈ s.entriesAt (.list c k)) (hy : y ∈ s.entriesAt (.list c k)) (hw : x.waker = y.waker) : x = y := by
  obtain ⟨i, r, hi, hspot, rfl⟩ := hown x hx
  obtain ⟨j, r', hj, hspot', rfl⟩ := hown y hy
  injection hspot with hc hk
  injection hspot' with hc' hk'
  cases hkind : k with
  | sync => rw [(hr.registration_of_thread hi hj (hk.trans hkind) (hk'.trans hkind) hw).2]
  | spin | async =>
    -- The waker tells the number.
    have hwi := Call.waker_of_registration hi
    have hwj := Call.waker_of_registration hj
    simp only [WaitFrame.waker?, hk, hk', hkind, Option.some.injEq] at hwi hwj
    have hwaker : r.waker = r'.waker := hw
    have hnum := hwi.trans (hwaker.trans hwj.symm)
    injection hnum with hnum
    rw [Registration.entry, Registration.entry, hnum, hwaker]

theorem Owned.popped (hr : s.Reachable) {c : CondvarId} {k : Kind} (hown : s.Owned c k) {N : CallId}
    {x : Entry} (hstep : s.step (.act N (.condvar c (.pop k (some x)))) = some s') :
    ∃ i r, s'.call i = s.call i ∧ (s.call i).registration = some r ∧ r.spot = .list c k ∧
      r.entry ∈ s.entriesAt r.spot ∧ r.waker ∉ s'.sh.waitingAt r.place := by
  obtain ⟨t, k', pc, n, ha⟩ := act_acted hstep
  have hx : x ∈ s.entriesAt (.list c k) := ha.applied.got (.inl rfl)
  obtain ⟨i, r, hi, hspot, rfl⟩ := hown x hx
  have hne : i ≠ N := by
    rintro rfl
    rw [ha.running] at hi
    cases ha.step with
    | lock l ret a o ho | unlock u ret a o ho | wait f w a o ho => cases ho
    | notify => cases hi
  refine ⟨i, r, ha.call_ne hne, hi, hspot, hspot ▸ hx, ?_⟩
  injection hspot with hc hk
  rw [Registration.place, hc, hk]
  have happ := ha.applied
  generalize s'.sh = sh' at happ
  cases happ with
  | condvar c a y hy =>
    cases hy with
    | popSome k es z hlist =>
      have hnodup := hr.entriesApart.separated.nodup (.list c k)
      have hlist : s.entriesAt (.list c k) = es ++ [r.entry] := hlist
      rw [waitsAt, hlist, List.map_append, List.nodup_append] at hnodup
      rw [s.sh.waitingAt_update_condvar, Function.update_self]
      intro hmem
      obtain ⟨y, hy, hw⟩ := List.mem_map.mp hmem
      obtain rfl := hown.unique hr (y := r.entry) (hlist ▸ List.mem_append_left _ hy) hx hw
      exact hnodup.2.2 _ (List.mem_map_of_mem hy) _ (List.mem_singleton_self _) rfl

theorem Reachable.receives_of_registration (hr : s.Reachable) {r : Registration}
    (hi : (s.call i).registration = some r) (hc : r.frame.cv = .channel) : (s.call i).receives = true := by
  have hf := hr.fits i
  generalize s.call i = c at hi hf
  have hrecv : ∀ o k pc, Pc.registration o pc = some r → pc.fits k = true → ∃ rk, k = Caller.recv (V := V) rk := by
    intro o k pc hreg hfits
    unfold Pc.registration at hreg
    split at hreg
    case h_1 f w | h_2 u f w =>
      obtain ⟨m, hm, -⟩ := Option.bind_eq_some_iff.mp hreg
      obtain ⟨rfl, -, -⟩ := WaitPc.of_registration hreg hm
      simp only [Pc.fits, Bool.and_eq_true, hc] at hfits
      cases k <;> simp_all [Caller.waits, Caller.uses]
    case h_3 => cases hreg
  cases c with
  | running t k pc | suspended k pc =>
    obtain ⟨rk, rfl⟩ := hrecv _ k pc hi hf
    rfl
  | _ => cases hi

/-- A future that completes its own notification has taken its entry out of the list. -/
theorem Reachable.not_sendsItself (hr : s.Reachable) {r : Registration} (hi : (s.call i).registration = some r)
    (hmem : r.entry ∈ s.entriesAt r.spot) : (s.call i).pc?.any Pc.sendsItself = false := by
  by_contra h
  rw [Bool.not_eq_false, Option.any_eq_true] at h
  obtain ⟨pc, hpc, hself⟩ := h
  unfold Pc.sendsItself at hself
  split at hself
  case h_2 => cases hself
  case h_1 f n =>
    rw [Call.registration, hpc, Option.bind_some] at hi
    obtain ⟨-, hnum, -⟩ := WaitPc.of_registration hi rfl
    have hheld : ⟨n, .cont n⟩ ∈ s.entriesAt (.call i) := by
      change _ ∈ (s.call i).held
      generalize s.call i = c at hpc
      cases c <;> cases hpc <;> exact List.mem_singleton_self _
    have hspot := hr.entriesApart.separated.apart r.spot (.call i) n
      (mem_waitsAt.mpr ⟨_, hmem, hnum⟩) (mem_waitsAt.mpr ⟨_, hheld, rfl⟩)
    cases hspot

/-- The entry of a receive comes into a list while the queue is empty. -/
theorem Reachable.listed_empty (hr : s.Reachable) (hstep : s.step e = some s') {k : Kind} {x : Entry}
    (hx : x ∈ s'.entriesAt (.list .channel k)) :
    x ∈ s.entriesAt (.list .channel k) ∨ s'.sh.chan.queue = [] := by
  refine (hr.entry_registers hstep hx).imp_right ?_
  rintro ⟨i, t, k', pc, n, ha, -⟩
  have hsame : s'.sh.chan = s.sh.chan := by
    have happ := ha.applied
    generalize s'.sh = sh' at happ
    cases happ; rfl
  obtain ⟨f, rfl, hc, -⟩ := ha.step.of_register
  have hf := hr.fits i
  rw [ha.running] at hf
  simp only [Call.fits, Pc.fits, ← hc, Bool.and_eq_true] at hf
  rw [hsame]
  refine hr.saw_empty (i := i) ?_
  rw [ha.running]
  cases k' with
  | recv rk => rfl
  | _ => simp [Caller.waits, Caller.uses] at hf

omit [DecidableEq V] in
theorem Acted.queue_cons {t : ThreadId} {k : Caller V} {pc : Pc V} {v : V} {n : Next V}
    (h : Acted s s' i t k pc (.chan (.popFront (some v))) n) : s.sh.chan.queue = v :: s'.sh.chan.queue := by
  have happ := h.applied
  generalize s'.sh = sh' at happ
  cases happ with
  | chan a x hx =>
    cases hx with
    | popSome v vs hq => exact hq

/-! ## The invariant -/

/-- No receive leaves its wait by this event while its entry is in the list, and none that has
been notified gives up while there is a value. -/
def Heeds (s : State V) (e : Event V) : Prop :=
  (∀ i r, (s.call i).registration = some r → r.frame.cv = .channel → s.LeavesEarly i e →
    r.entry ∉ s.entriesAt r.spot) ∧
  (s.sh.chan.queue ≠ [] → ∀ i, s.Notified i → ¬ e.givesUp i)

structure Provided (s : State V) : Prop where
  owned : ∀ k, s.Owned .channel k
  /-- While somebody waits in a list, there is for each value a call that sees to it. -/
  supply : ∀ k, s.entriesAt (.list .channel k) ≠ [] →
    Supply s.sh.chan.queue.length {i | s.SeesTo k i}

omit [DecidableEq V] in
theorem provided_init (cfg : Config) : (cfg.init : State V).Provided where
  owned k x hx := by cases hx
  supply k hne := absurd rfl hne

theorem Provided.owned_step (hr : s.Reachable) (hs : s.Provided) (hok : s.Heeds e)
    (hstep : s.step e = some s') (k : Kind) : s'.Owned .channel k := by
  intro x hx
  rcases State.listed_step hr hstep hx with hold | hnew
  · obtain ⟨i, r, hi, hspot, rfl⟩ := hs.owned k x hold
    refine ⟨i, r, ?_, hspot, rfl⟩
    injection hspot with hc hk
    refine hr.owner_stays hstep hi (hc ▸ hk ▸ hs.owned k) (fun he => ?_) (mem_waitsAt.mpr ⟨_, hx, rfl⟩)
    exact hok.1 i r hi hc he (by rw [Registration.spot, hc, hk]; exact hold)
  · exact hnew

omit [DecidableEq V] in
/-- A send that has still to push does not see to a value. -/
theorem not_seesTo_of_push {t : ThreadId} {σ : SenderId} {st : Strategy} {v : V} {kind : Kind}
    (hi : s.call i = .running t (.send σ st v) .sendPush) : ¬ s.SeesTo kind i := by
  unfold SeesTo Notified
  rw [hi]
  rintro (h | h | ⟨h, -⟩) <;> cases h

omit [DecidableEq V] in
/-- Nor does a receive whose entry is in the list. -/
theorem not_seesTo_of_listed {kind : Kind} {r : Registration} (hi : (s.call i).registration = some r)
    (hw : r.waker ∈ s.sh.waitingAt r.place) : ¬ s.SeesTo kind i := by
  obtain ⟨hdue, hlooks⟩ := Call.not_due_of_registration hi
  rintro (h | h | ⟨-, r', hi', hout, -⟩)
  · rw [hdue] at h; cases h
  · rw [hlooks] at h; cases h
  · cases hi.symm.trans hi'
    exact hout hw

/-- A `notify_one` that gets an entry passes its care for a value on. -/
theorem Provided.passes_on (hr : s.Reachable) (hs : s.Provided) {N : CallId} {k kind : Kind} {x : Entry}
    (hstep : s.step (.act N (.condvar .channel (.pop k (some x)))) = some s')
    (hsup : Supply s.sh.chan.queue.length {i | s.SeesTo kind i}) :
    Supply s.sh.chan.queue.length {i | s'.SeesTo kind i} := by
  obtain ⟨i, r, hcall, hi, hspot, hmem, hout⟩ := (hs.owned k).popped hr hstep
  have hcv : r.frame.cv = .channel := by injection hspot
  have hwaker : r.waker ∈ s.sh.waitingAt r.place := List.mem_map.mpr ⟨r.entry, hmem, rfl⟩
  have hnot : s'.Notified i := by
    unfold Notified
    rw [hcall]
    exact .inr ⟨hr.receives_of_registration hi hcv, r, hi, hout, hr.not_sendsItself hi hmem⟩
  refine hsup.exchange (a := N) (b := i) (not_seesTo_of_listed hi hwaker) (.inr hnot) ?_
  · intro j hj
    rcases SeesTo.step hr hstep hj with h | ⟨o, he⟩ | ⟨-, hg⟩ | ⟨k', y, he⟩ | he
    · exact .inr h
    · cases he
    · cases hg
    · cases he; exact .inl rfl
    · cases he

/-- Where there is a value and no `notify_one` takes an entry, only a look at the queue ends the care
for a value. -/
theorem SeesTo.kept (hr : s.Reachable) (hok : s.Heeds e) (hstep : s.step e = some s') {kind : Kind}
    {j : CallId} (hj : s.SeesTo kind j) (hold : s.entriesAt (.list .channel kind) ≠ [])
    (hq : s.sh.chan.queue ≠ []) (hpop : ¬ ∃ N k x, e = .act N (.condvar .channel (.pop k (some x)))) :
    s'.SeesTo kind j ∨ ∃ v, e = .act j (.chan (.popFront (some v))) := by
  rcases hj.step hr hstep with h | ⟨o, rfl⟩ | ⟨hnot, hg⟩ | ⟨k, x, rfl⟩ | rfl
  · exact .inl h
  · cases o with
    | some v => exact .inr ⟨v, rfl⟩
    | none =>
      obtain ⟨t, k, pc, n, ha⟩ := act_acted hstep
      exact absurd ha.queue_nil.1 hq
  · exact absurd hg (hok.2 hq j hnot)
  · exact absurd ⟨j, k, x, rfl⟩ hpop
  · obtain ⟨t, k, pc, n, ha⟩ := act_acted hstep
    exact absurd ha.applied.popped_none hold

theorem Provided.supply_step (hr : s.Reachable) (hs : s.Provided) (hok : s.Heeds e)
    (hstep : s.step e = some s') {kind : Kind} (hne : s'.entriesAt (.list .channel kind) ≠ []) :
    Supply s'.sh.chan.queue.length {i | s'.SeesTo kind i} := by
  by_cases hq' : s'.sh.chan.queue = []
  · rw [hq']; exact .zero _
  have hold : s.entriesAt (.list .channel kind) ≠ [] := by
    obtain ⟨x, hx⟩ := List.exists_mem_of_ne_nil _ hne
    exact List.ne_nil_of_mem ((hr.listed_empty hstep hx).resolve_right hq')
  have hsup := hs.supply kind hold
  by_cases hpop : ∃ N k x, e = .act N (.condvar .channel (.pop k (some x)))
  · obtain ⟨N, k, x, rfl⟩ := hpop
    have hc : s'.sh.chan = s.sh.chan := by
      cases hr.channel_step hstep
      assumption
    rw [hc]
    exact hs.passes_on hr hstep hsup
  have hkeeps := fun hq j (hj : s.SeesTo kind j) => hj.kept hr hok hstep hold hq hpop
  cases hr.channel_step hstep with
  | pushed N t σ st v hi hi' hc hn =>
    rw [hc, List.length_append]
    refine hsup.add (not_seesTo_of_push hi) (Set.insert_subset (.inl ?_) ?_)
    · rw [hi']; rfl
    · intro j hj
      rcases SeesTo.step hr hstep hj with h | ⟨o, he⟩ | ⟨-, hg⟩ | ⟨k, x, he⟩ | he
      · exact h
      · cases he
      · cases hg
      · cases he
      · cases he
  | popped N t k v vs hi hi' hq hc hn =>
    rw [hq] at hsup
    rw [hc]
    refine hsup.use (a := N) fun j hj => ?_
    rcases hkeeps (by rw [hq]; exact List.cons_ne_nil v vs) j hj with h | ⟨v', he⟩
    · exact .inr h
    · cases he; exact .inl rfl
  | same _ hc | cloned _ _ _ hc | dropped _ _ _ _ _ _ hc | cleared _ _ _ _ hc =>
    have hsame : s'.sh.chan.queue = s.sh.chan.queue := by rw [hc]
    rw [hsame] at hq' ⊢
    refine hsup.mono fun j hj => (hkeeps hq' j hj).resolve_right ?_
    rintro ⟨v, he⟩
    obtain ⟨t, k, pc, n, ha⟩ := act_acted (he ▸ hstep)
    have hcons := ha.queue_cons
    rw [hsame] at hcons
    exact List.cons_ne_self v _ hcons.symm

theorem Provided.step (hr : s.Reachable) (hs : s.Provided) (hok : s.Heeds e) (hstep : s.step e = some s') :
    s'.Provided := by
  constructor
  · exact hs.owned_step hr hok hstep
  · intro k hne
    exact hs.supply_step hr hok hstep hne

/-! ## Stranded values -/

/-- Call `i` waits in the condition variable of the channel, and has not been woken. -/
def Blocked (s : State V) (i : CallId) : Prop :=
  ∃ r, (s.call i).registration = some r ∧ r.frame.cv = .channel ∧ s.sh.woken r.waker = false ∧
    (s.call i).leaves = false

/-- There is a value, nobody has still to tell of it or to wake, and all receives that are under
way are blocked. -/
structure Stranded (s : State V) : Prop where
  queued : s.sh.chan.queue ≠ []
  told : ∀ j, (s.call j).pc?.any Pc.announces = false
  woken : ∀ j k, (s.call j).delivers (.condvar .channel k) = []
  blocked : ∃ i, s.Blocked i
  others : ∀ i, (s.call i).receives = true → s.Blocked i

theorem Provided.not_stranded (hr : s.Reachable) (hs : s.Provided) : ¬ s.Stranded := by
  intro h
  have hlisted : ∀ i r, (s.call i).registration = some r → r.frame.cv = .channel →
      s.sh.woken r.waker = false → (s.call i).leaves = false → r.waker ∈ s.sh.waitingAt r.place := by
    intro i r hi hcv hwoken hl
    rcases hr.wake_due hi with hw | ⟨j, hj⟩ | hw | ⟨-, hw⟩
    · exact hw
    · rw [Registration.place, hcv, h.woken] at hj; cases hj
    · rw [hwoken] at hw; cases hw
    · rw [hl] at hw; cases hw
  obtain ⟨i, r, hi, hcv, hwoken, hl⟩ := h.blocked
  have hne : s.entriesAt (.list .channel r.frame.kind) ≠ [] := by
    have hmem := hlisted i r hi hcv hwoken hl
    rw [Registration.place, hcv] at hmem
    obtain ⟨x, hx, -⟩ := List.mem_map.mp hmem
    exact List.ne_nil_of_mem hx
  obtain ⟨j, hj⟩ := (hs.supply _ hne).exists_mem (List.length_pos_iff.mpr h.queued)
  rcases hj with hdue | hlooks | ⟨hrec, r', hi', hout, -⟩
  · rw [Option.any_eq_true] at hdue
    obtain ⟨pc, hpc, hdue⟩ := hdue
    have htold := h.told j
    rw [hpc, Option.any_some, Pc.announces_of_due hdue] at htold
    cases htold
  · obtain ⟨r', hi', -⟩ := h.others j (Call.receives_of_receiveAt hlooks)
    rw [(Call.not_due_of_registration hi').2] at hlooks
    cases hlooks
  · obtain ⟨r'', hi'', hcv', hwoken', hl'⟩ := h.others j hrec
    cases hi'.symm.trans hi''
    exact hout (hlisted j r' hi' hcv' hwoken' hl')

theorem no_stranded {cfg : Config} (hrun : RunWhere step Heeds cfg.init s) : ¬ s.Stranded := by
  have hs : s.Reachable ∧ s.Provided := by
    refine hrun.invariant (P := fun s => s.Reachable ∧ s.Provided) ⟨⟨cfg, .refl⟩, provided_init cfg⟩ ?_
    intro u v e hu hok huv
    exact ⟨hu.1.step huv, hu.2.step hu.1 hok huv⟩
  exact hs.2.not_stranded hs.1

omit [DecidableEq V] in
theorem Heeds.of_not_leaves (h : e.leaves = false) : s.Heeds e := by
  constructor
  · intro i r _ _ he
    rw [he.leaves] at h; cases h
  · intro _ i _ hg
    unfold Event.givesUp at hg
    split at hg
    case h_1 | h_2 => cases h
    case h_3 => exact hg

/-- Two futures wait. -/
def twoFutures : List (Event Nat) :=
  [.begin 0 (.recv (.recv .async none)), .act 0 (.mutex (.enter .async)), .act 0 (.mutex (.cas true)),
    .act 0 (.mutex (.leave .async)), .act 0 (.chan (.popFront none)), .act 0 (.chan (.loadCount 1)),
    .act 0 (.register .channel .async 0), .act 0 (.mutex .store), .act 0 (.mutex (.take .sync [])),
    .act 0 (.mutex (.take .async [])), .act 0 (.observe (.cont 0) false),
    .begin 0 (.recv (.recv .async none)), .act 1 (.mutex (.enter .async)), .act 1 (.mutex (.cas true)),
    .act 1 (.mutex (.leave .async)), .act 1 (.chan (.popFront none)), .act 1 (.chan (.loadCount 1)),
    .act 1 (.register .channel .async 1), .act 1 (.mutex .store), .act 1 (.mutex (.take .sync [])),
    .act 1 (.mutex (.take .async [])), .act 1 (.observe (.cont 1) false)]

/-- Call `N` sends `v`, and its `notify_one` pops the entry of the future with number `n`. -/
def sendEvents (N : CallId) (v n : Nat) : List (Event Nat) :=
  [.begin 1 (.send 0 .spin v), .act N (.chan (.loadActive true)), .act N (.mutex (.swap true)),
    .act N (.chan (.loadActive true)), .act N (.chan (.pushBack v)), .act N (.mutex .store),
    .act N (.mutex (.take .sync [])), .act N (.mutex (.take .async [])),
    .act N (.condvar .channel (.pop .spin none)), .act N (.condvar .channel (.pop .sync none)),
    .act N (.condvar .channel (.pop .async (some ⟨n, .cont n⟩))), .act N (.wake (.cont n))]

/-- A `try_recv` takes the value that the second future was notified of. -/
def takeSeven : List (Event Nat) :=
  [.begin 0 (.recv .tryRecv), .act 3 (.mutex (.cas true)), .act 3 (.chan (.popFront (some 7))),
    .act 3 (.mutex .store), .act 3 (.mutex (.take .sync [])), .act 3 (.mutex (.take .async []))]

/-- A future that is dropped is not in the list, and the queue is empty. -/
def dropsHeeded (s : State V) : Event V → Bool
  | .cancel i =>
    (s.call i).registration.all (fun r => r.entry ∉ s.entriesAt r.spot) && s.sh.chan.queue.isEmpty
  | e => !e.leaves

omit [DecidableEq V] in
theorem Heeds.of_check (h : s.dropsHeeded e = true) : s.Heeds e := by
  unfold dropsHeeded at h
  split at h
  case h_1 i =>
    simp only [Bool.and_eq_true, List.isEmpty_iff] at h
    refine ⟨?_, fun hne => absurd h.2 hne⟩
    rintro j r hr - rfl
    rw [hr] at h
    simpa using h.1
  case h_2 => exact .of_not_leaves (by simpa using h)

/-- Two values are sent. The second future is dropped between the two, when the value that it was
notified of is gone, and the first one has still to be polled. -/
theorem no_stranded_notified : ∃ s : State Nat,
    exec State.step (⟨fun _ => true, 0, 0⟩ : Config).init
      (twoFutures ++ sendEvents 2 7 1 ++ takeSeven ++ .cancel 1 :: sendEvents 4 8 0) = some s ∧
      ¬ s.Stranded :=
  exists_of_passes dropsHeeded rfl (fun _ _ _ h => .of_check h) fun _ hrun => no_stranded hrun

/-! ## A future that was dropped -/

/-- The second future is dropped before the send. -/
theorem stranded_run : ∃ s : State Nat,
    exec State.step (⟨fun _ => true, 0, 0⟩ : Config).init (twoFutures ++ .cancel 1 :: sendEvents 2 7 1) = some s ∧
      s.sh.chan.queue = [7] ∧ s.sh.woken (.cont 0) = false ∧
      s.call 0 = .suspended (.recv (.recv .async none)) (.wait ⟨.channel, .async, none⟩ (.await 0)) ∧
      ∀ j < s.used, j ≠ 0 → (s.call j).caller? = none :=
  ⟨_, rfl, rfl, rfl, rfl, by decide⟩

/-- The first future stays blocked, with the value in the queue. -/
theorem stranded_by_drop : ¬ ∀ s : State Nat, s.Reachable → ¬ s.Stranded := by
  intro hall
  obtain ⟨s, hexec, hqueue, hwoken, hrecv, hothers⟩ := stranded_run
  have hr : s.Reachable := reachable_of_exec hexec
  have hquiet : ∀ j, j ≠ 0 → s.call j = .idle ∨ ∃ o, s.call j = .done o := by
    intro j hj
    by_cases hlt : j < s.used
    · have hnone := hothers j hlt hj
      generalize s.call j = c at hnone
      cases c with
      | idle => exact .inl rfl
      | done o => exact .inr ⟨o, rfl⟩
      | _ => cases hnone
    · exact .inl (hr.sane.numbered j (Nat.le_of_not_lt hlt))
  have hblocked : s.Blocked 0 :=
    ⟨⟨⟨.channel, .async, none⟩, 0, .cont 0⟩, by rw [hrecv]; rfl, rfl, hwoken, by rw [hrecv]; rfl⟩
  refine hall s hr ⟨by rw [hqueue]; simp, fun j => ?_, fun j k => ?_, ⟨0, hblocked⟩, fun j hj => ?_⟩
  · by_cases h0 : j = 0
    · rw [h0, hrecv]; rfl
    · rcases hquiet j h0 with h | ⟨o, h⟩ <;> rw [h] <;> rfl
  · by_cases h0 : j = 0
    · rw [h0, hrecv]; rfl
    · rcases hquiet j h0 with h | ⟨o, h⟩ <;> rw [h] <;> rfl
  · by_cases h0 : j = 0
    · rw [h0]; exact hblocked
    · rcases hquiet j h0 with h | ⟨o, h⟩ <;> rw [h] at hj <;> cases hj

end State

end WasmSafeMutex
