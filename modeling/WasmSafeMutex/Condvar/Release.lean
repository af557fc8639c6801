import WasmSafeMutex.Condvar.Handles

/-!
# Releasing the mutex and waiting is one step

A call puts its entry into the list before it drops its guard. From then on this entry is in
the list or with a notifier, or the wake is there, until the call leaves the wait. That takes
a list without handles left behind: a call that finds one parks again, and its wake is spent.
-/

namespace WasmSafeMutex

open Interleaving

variable {V : Type}

/-- What a notifier still holds after an operation, it goes on to wake. -/
theorem Pc.Step.holds {k : Caller V} {c : CondvarId} {y : NotifyPc} {a : Act V} {n : Next V}
    (h : (Pc.notify c y).Step k a n) {x : Entry} (hx : x ∈ n.held) :
    ∃ y', n = .goto (.notify c y') ∧ x ∈ y'.held := by
  cases h with
  | notify c y a o ho =>
    cases o with
    | goto y' => exact ⟨y', rfl, hx⟩
    | finished => cases hx

/-- A token is gone only by a park of its thread. -/
theorem Shared.Applied.spends {sh sh' : Shared V} {m : MutexId} {i : CallId} {t : ThreadId} {a : Act V}
    (h : sh.Applied m i t a sh') {w : Waker} (hw : sh.woken w = true) :
    sh'.woken w = true ∨ a = .park true ∧ w = .thread t := by
  cases h with
  | wake w' => exact .inl (Shared.woken_wake hw)
  | unparked ht =>
    by_cases he : w = .thread t
    · exact .inr ⟨rfl, he⟩
    · exact .inl (by simpa [he] using hw)
  | _ => exact .inl hw

/-- A registered call that parks goes on to look for its handle, or to take the mutex. -/
theorem Pc.Step.parks {k : Caller V} {pc : Pc V} {b : Bool} {n : Next V} (h : pc.Step k (.park b) n)
    {r : Registration} {t : ThreadId} (hr : (n.call k t).registration = some r) :
    n.pc?.any Pc.leaves = true := by
  generalize ha : Act.park b = a at h
  cases h with
  | lock l ret a o ho =>
    cases ho with
    | park d b => cases hr
    | _ => cases ha
  | unlock u ret a o ho => cases ho <;> cases ha
  | wait f w a o ho =>
    cases ho with
    | park x b => cases hr
    | parkTimeout x d b => rfl
    | _ => cases ha
  | notify c y a o ho => cases ho <;> cases ha
  | _ => cases ha

namespace State

variable {s s' : State V} {e : Event V} {i : CallId} {r : Registration}

/-- Where the wake of a registered call is. -/
inductive WakeAt (s : State V) (i : CallId) (r : Registration) : Prop
  | listed (hmem : r.entry ∈ s.entriesAt r.spot)
  /-- With a notifier that has still to wake it. -/
  | held (N : CallId) (y : NotifyPc) (hN : (s.call N).pc? = some (.notify r.frame.cv y))
    (hy : r.entry ∈ y.held)
  | woken (hw : s.sh.woken r.waker = true)
  /-- The call has returned from its park, or seen its timeout, and the entry is gone. -/
  | leaving (hout : r.entry ∉ s.entriesAt r.spot) (hl : (s.call i).leaves = true)

variable [DecidableEq V]

/-! ## One event -/

/-- The entry that a registered call has just put into its list. -/
theorem Reachable.listed_of_new (hr : s.Reachable) (hstep : s.step e = some s')
    (hi : (s'.call i).registration = some r) (hold : (s.call i).registration ≠ some r) :
    r.entry ∈ s'.entriesAt r.spot := by
  obtain ⟨rfl, -⟩ := (registration_step hr hstep hi).resolve_left hold
  obtain ⟨t, k, pc, n, ha⟩ := act_acted hstep
  rcases ha.registers with ⟨hne, -⟩ | ⟨r', hact, -, hentry, -, -, hnew⟩
  · exact absurd rfl (hne _ _ _)
  · cases hi.symm.trans hnew
    rcases ha.list_change r.frame.cv r.frame.kind with ⟨-, hperm⟩ | ⟨hne, -⟩
    · rw [hentry]
      exact hperm.symm.subset List.mem_cons_self
    · exact absurd rfl (hne _)

/-- An entry of a wait that goes on is taken out by a notifier, or by a future that times out. -/
theorem Reachable.wakeAt_of_taken (hr : s.Reachable) (hs : ∀ c, s.Owned c .sync)
    (hi : (s.call i).registration = some r) (hstep : s.step e = some s')
    (hi' : (s'.call i).registration = some r) (hmem : r.entry ∈ s.entriesAt r.spot)
    (hout : r.entry ∉ s'.entriesAt r.spot) : s'.WakeAt i r := by
  obtain ⟨m, hm, hc, hk, hentry⟩ : ∃ m ∈ s.removals e, m.cv = r.frame.cv ∧ m.kind = r.frame.kind ∧
      m.entry = r.entry := by
    rcases list_step hr hstep r.frame.cv r.frame.kind with ⟨j, r', -, -, -, hperm, -⟩ | ⟨-, hperm⟩
    · exact absurd (hperm.symm.subset (List.mem_cons_of_mem _ hmem)) hout
    · exact Removal.mem_from.mp ((List.mem_append.mp (hperm.subset hmem)).resolve_left hout)
  by_cases hn : m.notified = true
  · obtain ⟨a, rfl, hget, hheld⟩ := removals_notified hstep hm hn
    obtain ⟨t, k, pc, n, ha⟩ := act_acted hstep
    obtain ⟨⟨y, rfl⟩, hnheld⟩ := ha.step.gets hget
    obtain ⟨y', rfl, hy'⟩ := ha.step.holds hnheld
    refine .held m.remover y' ?_ (hentry ▸ hy')
    rw [ha.call_self, hc]
    rfl
  · obtain ⟨r', hself⟩ := removals_own hr hstep hm (by simpa using hn)
    have hown := hr.own_entry hs hself.registered hself.listed hself.waker
    have hnum : r'.number = r.number := congrArg Entry.wait (hown.symm.trans hentry)
    obtain rfl : m.remover = i := hr.numbersApart.apart _ _ r.number
      (hnum ▸ Call.mem_numbers hself.registered) (Call.mem_numbers hi)
    cases hi.symm.trans hself.registered
    rcases hself.answer with hexit | ⟨-, -, hpc⟩
    · rcases exits_step hstep with hnil | ⟨j, r', b, a, t, k, -, hone, -, hcall⟩
      · rw [hnil] at hexit; cases hexit
      · cases hexit.symm.trans hone
        rw [hcall] at hi'; cases hi'
    · exact .leaving hout (by simp [Call.leaves, hpc, Pc.leaves, WaitPc.leaves])

/-- What a notifier holds it wakes, or goes on holding. -/
theorem Reachable.wakeAt_of_held (hr : s.Reachable) {N : CallId} {y : NotifyPc}
    (hN : (s.call N).pc? = some (.notify r.frame.cv y)) (hy : r.entry ∈ y.held)
    (hstep : s.step e = some s') : s'.WakeAt i r := by
  rcases notifier_step hr hN hstep with hstay | ⟨t, k, a, o, rfl, ho, ha⟩
  · exact .held N y hstay hy
  · rcases (ho.moves k).keeps hy with hkeep | rfl
    · obtain ⟨y', hy', hmem⟩ := ha.step.holds hkeep
      refine .held N y' ?_ hmem
      rw [ha.call_self, hy']
      rfl
    · refine .woken ?_
      have happ := ha.applied
      generalize s'.sh = sh' at happ
      cases happ with
      | wake w => exact Function.update_self ..

/-- A wake stays until its call has returned from the park. -/
theorem Reachable.wakeAt_of_woken (hr : s.Reachable) (hi : (s.call i).registration = some r)
    (hw : s.sh.woken r.waker = true) (hstep : s.step e = some s')
    (hi' : (s'.call i).registration = some r) : s'.WakeAt i r := by
  rcases step_cases hr.sane.numbered hstep with ⟨j, a, t, k, pc, n, rfl, ha⟩ | ⟨j, c, ht⟩ | ha
  · rcases ha.applied.spends hw with hkeep | ⟨rfl, hthread⟩
    · exact .woken hkeep
    · -- The thread of the wait is busy with it.
      have hbusy : (s.call i).thread? = some t := by
        have hwaker := Call.waker_of_registration hi
        unfold WaitFrame.waker? at hwaker
        rw [hthread] at hwaker
        split at hwaker
        case h_2 =>
          obtain ⟨t', ht', hwt⟩ := Option.map_eq_some_iff.mp hwaker
          rw [ht', Waker.thread.inj hwt]
        all_goals cases hwaker
      obtain rfl := hr.sane.oneCall i j t hbusy (by rw [ha.running]; rfl)
      by_cases hmem : r.entry ∈ s'.entriesAt r.spot
      · exact .listed hmem
      · refine .leaving hmem ?_
        rw [ha.call_self] at hi' ⊢
        have hleaves := ha.step.parks hi'
        cases n <;> exact hleaves
  · exact .woken (ht.sh ▸ hw)
  · exact .woken (ha.around.woken _ hw)

/-- A call that leaves its wait, and whose entry is gone, goes to take the mutex. -/
theorem Reachable.entry_relocks (hr : s.Reachable) (hs : ∀ c, s.Owned c .sync)
    (hi : (s.call i).registration = some r) (hl : (s.call i).leaves = true)
    (hout : r.entry ∉ s.entriesAt r.spot) {a : Act V} (hstep : s.step (.act i a) = some s') :
    (s'.call i).pc?.any Pc.relocks = true := by
  refine hr.leaves_relocks hi hl (fun hw => hout ?_) hstep
  obtain ⟨x, hx, hxw⟩ := List.mem_map.mp hw
  exact hr.own_entry hs hi hx hxw ▸ hx

theorem Reachable.wakeAt_of_leaving (hr : s.Reachable) (hs : ∀ c, s.Owned c .sync)
    (hi : (s.call i).registration = some r) (hout : r.entry ∉ s.entriesAt r.spot)
    (hl : (s.call i).leaves = true) (hstep : s.step e = some s')
    (hi' : (s'.call i).registration = some r) : s'.WakeAt i r := by
  have hout' : r.entry ∉ s'.entriesAt r.spot := by
    intro hmem
    rcases hr.entry_registers hstep hmem with hold | ⟨j, t, k, pc, n, -, hnew⟩
    · exact hout hold
    · have hlt := hr.number_lt_fresh hi
      have hnum : r.number = s.sh.fresh := congrArg Entry.wait hnew
      exact absurd hlt (by rw [hnum]; exact Nat.lt_irrefl _)
  refine .leaving hout' ?_
  obtain ⟨pc, hpc, hleaves⟩ := (Option.any_eq_true ..).mp hl
  have hp : pc.pending = false := by
    cases pc with
    | wait f w => cases w <;> first | rfl | cases hleaves
    | _ => cases hleaves
  rcases hr.sane.goes_on hstep hpc hp with hcall | ⟨a, t, k, n, rfl, -⟩
  · rw [hcall]; exact hl
  · have hrelocks := hr.entry_relocks hs hi hl hout hstep
    obtain ⟨q, hq, hrel⟩ := (Option.any_eq_true ..).mp hrelocks
    rw [Call.registration, hq] at hi'
    cases q with
    | wait f w =>
      rw [Call.leaves, hq]
      cases w <;> first | rfl | cases hrel
    | lock => cases hi'
    | _ => cases hrel

/-- The step lemma. -/
theorem WakeAt.step (hr : s.Reachable) (hs : ∀ c, s.Owned c .sync) (hw : s.WakeAt i r)
    (hi : (s.call i).registration = some r) (hstep : s.step e = some s')
    (hi' : (s'.call i).registration = some r) : s'.WakeAt i r := by
  cases hw with
  | listed hmem =>
    by_cases hmem' : r.entry ∈ s'.entriesAt r.spot
    · exact .listed hmem'
    · exact hr.wakeAt_of_taken hs hi hstep hi' hmem hmem'
  | held N y hN hy => exact hr.wakeAt_of_held hN hy hstep
  | woken hw => exact hr.wakeAt_of_woken hi hw hstep hi'
  | leaving hout hl => exact hr.wakeAt_of_leaving hs hi hout hl hstep hi'

/-! ## A whole run -/

/-- The run lemma. -/
theorem wakeAt_of_run {cfg : Config} (h : RunWhere State.step ParksUntilPopped cfg.init s)
    (hi : (s.call i).registration = some r) : s.WakeAt i r := by
  have hrun := h.invariant (P := fun s => (s.Reachable ∧ ∀ c, s.Owned c .sync) ∧
    ∀ i r, (s.call i).registration = some r → s.WakeAt i r) ⟨owned_of_run .refl, ?_⟩ ?_
  · exact hrun.2 i r hi
  · intro j r' hj; cases hj
  · rintro s s' e ⟨⟨hr, hs⟩, hw⟩ hok hstep
    refine ⟨⟨hr.step hstep, owned_step hr hs hok hstep⟩, fun j r' hj => ?_⟩
    by_cases hold : (s.call j).registration = some r'
    · exact (hw j r' hold).step hr hs hold hstep hj
    · exact .listed (hr.listed_of_new hstep hj hold)

/-- Releasing the mutex and waiting is one step for the notifiers. -/
structure WaitAtomic (s : State V) : Prop where
  registered : ∀ i f w, (s.call i).pc? = some (.wait f w) → w.released = true →
    ∃ r, (s.call i).registration = some r ∧ r.frame = f
  due : ∀ i r, (s.call i).registration = some r → s.WakeAt i r
  leaves : ∀ i r a s', (s.call i).registration = some r → (s.call i).leaves = true →
    r.entry ∉ s.entriesAt r.spot → s.step (.act i a) = some s' → (s'.call i).pc?.any Pc.relocks = true
  /-- A `notify_all` that begins now leaves nobody behind, once it is done and no notifier
  holds a wake back. -/
  swept : ∀ s' i N t k o r, Run State.step s s' → (s.call i).registration = some r →
    s.call N = .running t k (.notify r.frame.cv notifyAll) → s'.call N = .done o →
    (s'.call i).registration = some r → (∀ j, r.waker ∉ (s'.call j).delivers r.place) →
    s'.sh.woken r.waker = true ∨ r.waker ∉ s'.sh.waitingAt r.place ∧ (s'.call i).leaves = true

theorem wait_atomic {cfg : Config} (h : RunWhere State.step ParksUntilPopped cfg.init s) :
    s.WaitAtomic := by
  obtain ⟨hr, hs⟩ := owned_of_run h
  constructor
  · intro i f w hpc hw
    exact hr.registered hpc hw
  · intro i r hi
    exact wakeAt_of_run h hi
  · intro i r a s' hi hl hout hstep
    exact hr.entry_relocks hs hi hl hout hstep
  · intro s' i N t k o r hrun hi hN hdone hi' hnone
    have hout := hr.swept hrun hi hN hdone hi'
    rcases (hr.run hrun).wake_due hi' with hw | ⟨j, hw⟩ | hw
    · exact absurd hw hout
    · exact absurd hw (hnone j)
    · exact hw

/-- A `notify_one` wakes a thread, which leaves its wait. Another thread waits, with a deadline,
and a `notify_all` begins. -/
theorem wait_atomic_woken : ∃ s : State Nat,
    exec State.step (⟨fun _ => true, 0, 0⟩ : Config).init
      [.begin 0 (.lock 0 .tryLock), .act 0 (.mutex (.cas true)), .wait 0 0 1 .waitBlock,
        .act 0 (.register (.user 1) .sync 0), .act 0 (.mutex .store), .act 0 (.mutex (.take .sync [])),
        .act 0 (.mutex (.take .async [])), .begin 1 (.notifyOne 1),
        .act 1 (.condvar (.user 1) (.pop .spin none)),
        .act 1 (.condvar (.user 1) (.pop .sync (some ⟨0, .thread 0⟩))), .act 1 (.wake (.thread 0)),
        .act 0 (.park true), .begin 2 (.lock 0 .tryLock), .act 2 (.mutex (.cas true)),
        .wait 2 2 1 (.waitBlockTimeout 5), .act 2 (.register (.user 1) .sync 1), .act 2 (.mutex .store),
        .act 2 (.mutex (.take .sync [])), .act 2 (.mutex (.take .async [])),
        .begin 1 (.notifyAll 1)] = some s ∧ s.WaitAtomic :=
  exists_of_passes parksPopped rfl (fun _ _ _ h => .of_check h) fun _ h => wait_atomic h

/-! ## A handle that was left behind -/

/-- The park of a `wait_block` returns without a notification, and the thread waits again, with
a deadline. A `notify_one` pops the second handle and wakes the thread, which finds the first
one and parks again. -/
def lostEvents : List (Event Nat) :=
  [.begin 0 (.lock 0 .tryLock), .act 0 (.mutex (.cas true)), .wait 0 0 1 .waitBlock,
    .act 0 (.register (.user 1) .sync 0), .act 0 (.mutex .store), .act 0 (.mutex (.take .sync [])),
    .act 0 (.mutex (.take .async [])), .act 0 (.park false), .act 0 (.probe true),
    .act 0 (.mutex (.enter .sync)), .act 0 (.mutex (.cas true)), .act 0 (.mutex (.leave .sync)),
    .wait 0 0 1 (.waitBlockTimeout 5), .act 0 (.register (.user 1) .sync 1), .act 0 (.mutex .store),
    .act 0 (.mutex (.take .sync [])), .act 0 (.mutex (.take .async [])), .act 0 (.now 0),
    .begin 1 (.notifyOne 1), .act 1 (.condvar (.user 1) (.pop .spin none)),
    .act 1 (.condvar (.user 1) (.pop .sync (some ⟨1, .thread 0⟩))), .act 1 (.wake (.thread 0)),
    .act 0 (.park true), .act 0 (.condvar (.user 1) (.has true)), .act 0 (.now 0)]

/-- The second wait of the thread. -/
def lostWait : Registration := ⟨⟨.user 1, .sync, some 5⟩, 1, .thread 0⟩

theorem lost_run : ∃ s : State Nat,
    exec State.step (⟨fun _ => true, 0, 0⟩ : Config).init lostEvents = some s ∧
      s.call 0 = .running 0 (.user 0) (.wait lostWait.frame (.parkTimeout 1 5)) ∧
      s.entriesAt lostWait.spot = [⟨0, .thread 0⟩] ∧ s.sh.woken (.thread 0) = false ∧
      ∀ j < s.used, j ≠ 0 → (s.call j).pc? = none := by
  refine ⟨_, rfl, rfl, rfl, rfl, ?_⟩
  decide

/-- The thread is parked, its own entry is gone, and nobody is going to wake it. -/
theorem wake_lost : ¬ ∀ s : State Nat, s.Reachable →
    ∀ i r, (s.call i).registration = some r → s.WakeAt i r := by
  intro hall
  obtain ⟨s, hexec, hcall, hlist, htoken, hothers⟩ := lost_run
  have hr : s.Reachable := reachable_of_exec hexec
  have hi : (s.call 0).registration = some lostWait := by rw [hcall]; rfl
  cases hall s hr 0 lostWait hi with
  | listed hmem =>
    rw [hlist] at hmem
    cases List.mem_singleton.mp hmem
  | held N y hN hy =>
    by_cases h0 : N = 0
    · rw [h0, hcall] at hN
      cases hN
    · by_cases hlt : N < s.used
      · rw [hothers N hlt h0] at hN
        cases hN
      · rw [hr.sane.numbered N (Nat.le_of_not_lt hlt)] at hN
        cases hN
  | woken hw => cases htoken.symm.trans hw
  | leaving hout hl =>
    rw [hcall] at hl
    cases hl

end State

end WasmSafeMutex
