import WasmSafeMutex.Condvar.Handles
import WasmSafeMutex.Condvar.Returns

/-!
# Blocking waits

A handle names a thread and not a wait. A `wait_block` whose park returns too early leaves its
handle behind, and a later `wait_block_timeout` of the same thread takes it for its own. Where
none does, the handles of a thread in a list are those of the wait that it is in.
-/

namespace WasmSafeMutex

open Interleaving

variable {V : Type}

namespace State

variable {s s' : State V} {e : Event V} {h : History V}

/-- What is kept along a run. -/
structure HandlesOwned (s : State V) (h : History V) : Prop where
  owned : ∀ c, s.Owned c .sync
  own : ∀ m ∈ h.removals, m.notified = false → m.kind = .sync →
    ∃ r, m.Of r ∧ (m.remover, r) ∈ h.registered ∧ ⟨m.remover, r, some true⟩ ∈ h.exits
  exits : ∀ ex ∈ h.exits, ex.wait.frame.kind = .sync → ex.wait.frame.deadline.isSome = true →
    h.Explains ex ∧ ex.answer.isSome = true

theorem handlesOwned_init (cfg : Config) : (cfg.init : State V).HandlesOwned .new where
  owned c x hx := by cases hx
  own m hm := by cases hm
  exits ex hex := by cases hex

variable [DecidableEq V]

theorem HandlesOwned.own_step (hr : s.Reachable) (hacc : s.Accounted h) (hs : s.HandlesOwned h)
    (hstep : s.step e = some s') {m : Removal} (hm : m ∈ h.removals ++ s.removals e)
    (hn : m.notified = false) (hk : m.kind = .sync) :
    ∃ r, m.Of r ∧ (m.remover, r) ∈ h.registered ++ s.registers e ∧
      ⟨m.remover, r, some true⟩ ∈ h.exits ++ s.exits e := by
  rcases List.mem_append.mp hm with hm | hm
  · obtain ⟨r, ho, hreg, hex⟩ := hs.own m hm hn hk
    exact ⟨r, ho, List.mem_append_left _ hreg, List.mem_append_left _ hex⟩
  · obtain ⟨r, hself⟩ := removals_own hr hstep hm hn
    have hspot := hself.spot
    injection hspot with hc hkind
    have hentry := hr.own_entry hs.owned hself.registered hself.listed hself.waker
    refine ⟨r, ⟨hc.symm, hkind.symm, hentry⟩, List.mem_append_left _ (hacc.now _ r hself.registered).1, ?_⟩
    rcases hself.answer with hone | ⟨hasync, -⟩
    · exact List.mem_append_right _ (by rw [hone]; exact List.mem_singleton_self _)
    · rw [hk] at hasync; cases hasync

omit [DecidableEq V] in
/-- A blocking wait whose handle is gone has been notified. -/
theorem HandlesOwned.notified_of_absent (hacc : s.Accounted h) (hs : s.HandlesOwned h) {i : CallId}
    {r : Registration} (hi : (s.call i).registration = some r) (hk : r.frame.kind = .sync)
    (habsent : r.entry ∉ s.entriesAt r.spot) : ∃ m ∈ h.removals, m.Of r ∧ m.notified = true := by
  obtain ⟨hreg, hout⟩ := hacc.now i r hi
  obtain ⟨m, hm, ho⟩ := hacc.removed hreg habsent
  refine ⟨m, hm, ho, ?_⟩
  by_contra hn
  obtain ⟨r', ho', hreg', hex⟩ := hs.own m hm (by simpa using hn) (ho.kind.trans hk)
  have hentry := ho'.entry.symm.trans ho.entry
  exact hout _ hex (hacc.unique hreg' hreg (congrArg Entry.wait hentry)).2

theorem HandlesOwned.explains (hr : s.Reachable) (hacc : s.Accounted h) (hs : s.HandlesOwned h)
    (hstep : s.step e = some s') {ex : Exit} (hex : ex ∈ s.exits e) (hk : ex.wait.frame.kind = .sync)
    (hd : ex.wait.frame.deadline.isSome = true) : (s.record h e).Explains ex := by
  obtain ⟨t, k, w, a, rfl, hrun, hreg, ho, hf⟩ := exit_cases hr hstep hex
  obtain ⟨t', k', pc', n', ha⟩ := act_acted hstep
  cases hrun.symm.trans ha.running
  have hi : (s.call ex.call).registration = some ex.wait := by rw [hrun]; exact hreg
  have hw := registration_thread hrun hi hk
  have hnone : ∀ {c : CondvarId} {m : Nat}, a = .condvar c (.has false) ∨
      a = .condvar c (.remove .sync m false) → c = ex.wait.frame.cv →
      ∃ m ∈ h.removals ++ s.removals (.act ex.call a), m.Of ex.wait ∧ m.notified = true := by
    rintro c m hact rfl
    obtain ⟨m, hm, hof⟩ := hs.notified_of_absent hacc hi hk (by
      intro hmem
      rw [Registration.spot, hk] at hmem
      exact ha.no_handle hact _ hmem hw)
    exact ⟨m, List.mem_append_left _ hm, hof⟩
  generalize hb : WaitOut.relock ex.answer = o at ho
  cases ho with
  | blockRemove x found =>
    injection hb with hb
    cases found with
    | true =>
      refine ⟨fun _ => ?_, fun hne => absurd hb hne⟩
      obtain ⟨y, hy, hyw, hremovals⟩ := ha.own_removal
      have hyw : y.waker = ex.wait.waker := by rw [hyw, hw]; rfl
      have hentry := hr.own_entry hs.owned hi (by rw [Registration.spot, hk]; exact hy) hyw
      refine ⟨⟨ex.call, ex.wait.frame.cv, .sync, y, false⟩, ?_, ⟨rfl, hk.symm, hentry⟩, rfl, rfl⟩
      change _ ∈ h.removals ++ s.removals _
      rw [hremovals]; exact List.mem_append_right _ (List.mem_singleton_self _)
    | false => exact ⟨fun htrue => (by rw [hb] at htrue; cases htrue), fun _ => hnone (.inr rfl) rfl⟩
  | blockCheck x d found =>
    cases found with
    | true => cases hb
    | false =>
      injection hb with hb
      exact ⟨fun htrue => (by rw [hb] at htrue; cases htrue), fun _ => hnone (m := 0) (.inl rfl) rfl⟩
  | park x token =>
    have hnever := And.right (of_decide_eq_true hf)
    rw [hnever] at hd; cases hd
  | register x => unfold WaitFrame.registered at hb; split at hb <;> cases hb
  | spinLoad x b | spinRemove x b | spinDrain x b | await x b | raceNotify x m b | asyncRemove x b
  | asyncSend x =>
    have hkind : ex.wait.frame.kind ≠ .sync := by
      intro hsync
      simp [WaitPc.fits, hsync] at hf
    exact absurd hk hkind
  | spinNow x d y | blockNow x d y => split at hb <;> cases hb
  | raceTimeout x m b => cases b <;> cases hb
  | _ => cases hb

theorem HandlesOwned.step (hr : s.Reachable) (hacc : s.Accounted h) (hs : s.HandlesOwned h)
    (hok : s.ParksUntilPopped e) (hstep : s.step e = some s') : s'.HandlesOwned (s.record h e) := by
  refine ⟨owned_step hr hs.owned hok hstep, fun m hm hn hk => hs.own_step hr hacc hstep hm hn hk,
    fun ex hex hk hd => ?_⟩
  rcases List.mem_append.mp hex with hex | hex
  · exact ⟨(hs.exits ex hex hk hd).1.record e, (hs.exits ex hex hk hd).2⟩
  · obtain ⟨t, k, w, a, -, -, -, ho, hf⟩ := exit_cases hr hstep hex
    exact ⟨hs.explains hr hacc hstep hex hk hd, (ho.timed hf).trans hd⟩

theorem Recorded.handlesOwned (hr : Recorded ParksUntilPopped s h) :
    s.Reachable ∧ s.Accounted h ∧ s.HandlesOwned h :=
  hr.induction (P := fun s h => s.Accounted h ∧ s.HandlesOwned h)
    (fun cfg => ⟨accounted_init cfg, handlesOwned_init cfg⟩)
    fun _ _ _ _ hs hp hok hstep => ⟨hp.1.step hs hstep, hp.2.step hs hp.1 hok hstep⟩

/-! ## Exact answers -/

/-- The answers of the timed blocking waits, in a run whose steps meet `ok`. -/
structure BlockVerdicts (ok : State V → Event V → Prop) (s : State V) (h : History V) : Prop where
  timed_out : ∀ ex ∈ h.exits, ex.wait.frame.kind = .sync → ex.wait.frame.deadline.isSome = true →
    (ex.answer = some true ↔
      ∃ m ∈ h.removals, m.Of ex.wait ∧ m.notified = false ∧ m.remover = ex.call)
  notified : ∀ ex ∈ h.exits, ex.wait.frame.kind = .sync → ex.wait.frame.deadline.isSome = true →
    (ex.answer = some false ↔ ∃ m ∈ h.removals, m.Of ex.wait ∧ m.notified = true)
  /-- A notifier takes a handle of the thread, whoever has put it into the list. -/
  popped : ∀ N a x s' s'' h'' i r, (s.call i).registration = some r → r.frame.kind = .sync →
    r.frame.deadline.isSome = true → a.gets r.frame.cv .sync x → x.waker = r.waker →
    s.step (.act N a) = some s' →
    RunWhere stepRecorded (fun y e => ok y.1 e) (s', s.record h (.act N a)) (s'', h'') →
    ∀ b, ⟨i, r, b⟩ ∈ h''.exits → b = some false
  /-- On its way to the mutex the thread has no handle that a notifier could take. -/
  relocking : ∀ i t k l b, s.call i = .running t k (.lock l (.relock b)) →
    ∀ c, ∀ x ∈ s.entriesAt (.list c .sync), x.waker ≠ .thread t
  /-- The call returns the answer of its last wait. -/
  returned : ∀ i b, (s.call i).answer? = some b → ∃ ex, h.lastExit i = some ex ∧ ex.answer = b
  left : ∀ ex ∈ h.exits, ex.wait.frame.kind = .sync → ex.wait.frame.deadline.isSome = true →
    ex.wait.entry ∉ s.entriesAt ex.wait.spot

theorem removals_mono {ok : State V → Event V → Prop} {x y : State V × History V}
    (hrun : RunWhere stepRecorded (fun y e => ok y.1 e) x y) {m : Removal} (hm : m ∈ x.2.removals) :
    m ∈ y.2.removals := by
  refine hrun.invariant (P := fun y => m ∈ y.2.removals) hm ?_
  intro u v e hu _ hstep
  obtain ⟨w, -, rfl⟩ := Option.map_eq_some_iff.mp hstep
  exact List.mem_append_left _ hu

omit [DecidableEq V] in
theorem removals_of_gets {N : CallId} {a : Act V} {c : CondvarId} {k : Kind} {x : Entry}
    (ha : a.gets c k x) : ⟨N, c, k, x, true⟩ ∈ s.removals (.act N a) := by
  rcases ha with rfl | ⟨es, hx, rfl⟩
  · exact List.mem_singleton_self _
  · exact List.mem_map.mpr ⟨x, hx, rfl⟩

theorem block_timeouts_exact (hr : Recorded ParksUntilPopped s h) : s.BlockVerdicts ParksUntilPopped h := by
  obtain ⟨hreach, hacc, hs⟩ := hr.handlesOwned
  obtain ⟨hanswered, -⟩ := hr.returns
  have hrelocking : ∀ i t k l b, s.call i = .running t k (.lock l (.relock b)) →
      ∀ c, ∀ x ∈ s.entriesAt (.list c .sync), x.waker ≠ .thread t := by
    intro i t k l b hcall
    apply hreach.no_handle hs.owned (i := i)
    · rw [hcall]; rfl
    · rw [hcall]; rfl
  refine ⟨fun ex hex hk hd => ?_, fun ex hex hk hd => ?_, ?_, hrelocking, hanswered, fun ex hex hk hd => ?_⟩
  · obtain ⟨hexp, hsome⟩ := hs.exits ex hex hk hd
    exact (hacc.answer_iff hexp hsome).1
  · obtain ⟨hexp, hsome⟩ := hs.exits ex hex hk hd
    exact (hacc.answer_iff hexp hsome).2
  · intro N a x s' s'' h'' i r hi hk hd hget hw hstep hrun b hb
    obtain ⟨t, k, pc, n, ha⟩ := act_acted hstep
    have hx : x ∈ s.entriesAt r.spot := by
      rw [Registration.spot, hk]; exact ha.applied.got hget
    obtain rfl := hreach.own_entry hs.owned hi hx hw
    have hr' : Recorded ParksUntilPopped s'' h'' := by
      obtain ⟨cfg, hstart⟩ := hr
      have hone : stepRecorded (s, h) (.act N a) = some (s', s.record h (.act N a)) := by
        simp [stepRecorded, hstep]
      refine ⟨cfg, (hstart.tail ?_ hone).trans hrun⟩
      intro j token r' he
      rcases hget with rfl | ⟨es, -, rfl⟩ <;> cases he
    obtain ⟨-, hacc'', hs''⟩ := hr'.handlesOwned
    obtain ⟨hexp, hsome⟩ := hs''.exits _ hb hk hd
    refine (hacc''.answer_iff hexp hsome).2.mpr ⟨⟨N, r.frame.cv, .sync, r.entry, true⟩, ?_, ⟨rfl, hk.symm, rfl⟩, rfl⟩
    exact removals_mono hrun (List.mem_append_right _ (removals_of_gets hget))
  · obtain ⟨hexp, -⟩ := hs.exits ex hex hk hd
    by_cases hb : ex.answer = some true
    · obtain ⟨m, hm, ho, -⟩ := hexp.timed_out hb
      exact hacc.absent hm ho
    · obtain ⟨m, hm, ho, -⟩ := hexp.notified hb
      exact hacc.absent hm ho

/-- The park of a timed wait times out, and its handle is popped before the call looks for it.
The thread waits again, its handle is popped, and the token of the first wait ends its park. -/
theorem block_timeouts_exact_late : ∃ (s : State Nat) (h : History Nat),
    exec stepRecorded ((⟨fun _ => true, 0, 0⟩ : Config).init, .new)
      [.begin 0 (.lock 0 .tryLock), .act 0 (.mutex (.cas true)), .wait 0 0 1 (.waitBlockTimeout 0),
        .act 0 (.register (.user 1) .sync 0), .act 0 (.mutex .store), .act 0 (.mutex (.take .sync [])),
        .act 0 (.mutex (.take .async [])), .act 0 (.now 0), .begin 1 (.notifyOne 1),
        .act 1 (.condvar (.user 1) (.pop .spin none)),
        .act 1 (.condvar (.user 1) (.pop .sync (some ⟨0, .thread 0⟩))),
        .act 0 (.condvar (.user 1) (.remove .sync 0 false)), .act 1 (.wake (.thread 0)),
        .act 0 (.probe true), .act 0 (.mutex (.enter .sync)), .act 0 (.mutex (.cas true)),
        .act 0 (.mutex (.leave .sync)), .wait 0 0 1 .waitBlock, .act 0 (.register (.user 1) .sync 1),
        .act 0 (.mutex .store), .act 0 (.mutex (.take .sync [])), .act 0 (.mutex (.take .async [])),
        .begin 1 (.notifyOne 1), .act 2 (.condvar (.user 1) (.pop .spin none)),
        .act 2 (.condvar (.user 1) (.pop .sync (some ⟨1, .thread 0⟩))), .act 0 (.park true)] = some (s, h) ∧
      s.BlockVerdicts ParksUntilPopped h :=
  exists_recorded parksPopped rfl (fun _ _ _ h => .of_check h) fun _ _ hr => block_timeouts_exact hr

/-! ## A handle that was left behind -/

/-- The park of a `wait_block` returns without a notification, and the thread waits again, with
a deadline. A `notify_one` pops the second handle, and the call finds the first one. -/
def mistakenEvents : List (Event Nat) :=
  [.begin 0 (.lock 0 .tryLock), .act 0 (.mutex (.cas true)), .wait 0 0 1 .waitBlock,
    .act 0 (.register (.user 1) .sync 0), .act 0 (.mutex .store), .act 0 (.mutex (.take .sync [])),
    .act 0 (.mutex (.take .async [])), .act 0 (.park false), .act 0 (.probe true),
    .act 0 (.mutex (.enter .sync)), .act 0 (.mutex (.cas true)), .act 0 (.mutex (.leave .sync)),
    .wait 0 0 1 (.waitBlockTimeout 0), .act 0 (.register (.user 1) .sync 1), .act 0 (.mutex .store),
    .act 0 (.mutex (.take .sync [])), .act 0 (.mutex (.take .async [])), .begin 1 (.notifyOne 1),
    .act 1 (.condvar (.user 1) (.pop .spin none)),
    .act 1 (.condvar (.user 1) (.pop .sync (some ⟨1, .thread 0⟩))), .act 1 (.wake (.thread 0)),
    .act 0 (.now 0), .act 0 (.condvar (.user 1) (.remove .sync 1 true))]

/-- The second wait of the thread. -/
def mistakenWait : Registration := ⟨⟨.user 1, .sync, some 0⟩, 1, .thread 0⟩

theorem mistaken_run : ∃ (s : State Nat) (h : History Nat),
    exec stepRecorded ((⟨fun _ => true, 0, 0⟩ : Config).init, .new) mistakenEvents = some (s, h) ∧
      ⟨0, mistakenWait, some true⟩ ∈ h.exits ∧
      ⟨1, .user 1, .sync, mistakenWait.entry, true⟩ ∈ h.removals := by
  refine ⟨_, _, rfl, ?_, ?_⟩ <;> decide

/-- It returns that it timed out, though it was notified. -/
theorem block_timeout_mistaken : ¬ ∀ (s : State Nat) (h : History Nat), Recorded (fun _ _ => True) s h →
    ∀ ex ∈ h.exits, ex.wait.frame.kind = .sync → ex.wait.frame.deadline.isSome = true →
      (ex.answer = some false ↔ ∃ m ∈ h.removals, m.Of ex.wait ∧ m.notified = true) := by
  intro hall
  obtain ⟨s, h, hexec, hexit, hremoval⟩ := mistaken_run
  have hr : Recorded (fun _ _ => True) s h :=
    ⟨_, RunWhere.refl.extend (.of_forall fun _ _ _ => trivial) hexec⟩
  have hfalse := (hall s h hr _ hexit rfl rfl).mpr ⟨_, hremoval, ⟨rfl, rfl, rfl⟩, rfl⟩
  cases hfalse

end State

end WasmSafeMutex
