import WasmSafeMutex.Mutex.Handles

/-!
# What a lock call leaves behind

A lock call that gives up does not look for the handles that it has put into the list. They
are gone only where an unlocking call has been faster.
-/

namespace WasmSafeMutex

open Interleaving

variable {V : Type}

/-- The numbered wakers that a call has still to wake are entries that it holds. -/
theorem Call.held_of_toWake {c : Call V} {w : Waker} {x : Entry} (hw : w ∈ c.toWake)
    (hx : w.asEntry = some x) : x ∈ c.held := by
  cases c with
  | running t k pc =>
    cases pc with
    | unlock u ret =>
      cases u with
      | wake side w' ws => exact List.mem_filterMap.mpr ⟨w, hw, hx⟩
      | _ => cases hw
    | _ => cases hw
  | _ => cases hw

/-! ## The sender of a lock future -/

/-- The sender that the call has put into the list and has not yet seen used. -/
def LockPc.sender? : LockPc → Option Nat
  | .leave .async _ n | .await n | .spawn _ n | .raceNotify _ n _ | .raceTimeout _ n _ => some n
  | _ => none

theorem LockPc.no_sender {l : LockPc} (h : l.begins = true) : l.sender? = none := by
  cases l <;> first | rfl | cases h

theorem LockPc.Step.sender {l l' : LockPc} {a : Act V} {o : LockOut} (h : l.Step a o)
    (ho : o = .goto l' ∨ o = .yield l') {x : Nat} (hx : l'.sender? = some x) :
    l.sender? = some x ∨ a = .push .async x := by
  cases h with
  | push k d n =>
    rcases ho with ho | ho <;> cases ho
    cases k <;> cases hx
    exact .inr rfl
  | leave k d n =>
    cases k <;> cases d <;> rcases ho with ho | ho <;> cases ho
    all_goals exact .inl hx
  | spawn d n m | awaitPending n | racePending d n m =>
    rcases ho with ho | ho <;> cases ho
    exact .inl hx
  | raceNotify d n m b =>
    cases b <;> rcases ho with ho | ho <;> cases ho
    all_goals first | exact .inl hx | cases hx
  | tryLock won | lastTry won => cases won <;> rcases ho with ho | ho <;> cases ho
  | tryIn k d won => cases won <;> rcases ho with ho | ho <;> cases ho <;> cases hx
  | spinNow d y | now k d y => split at ho <;> rcases ho with ho | ho <;> cases ho <;> cases hx
  | probe d b => cases b <;> cases d <;> rcases ho with ho | ho <;> cases ho <;> cases hx
  | park d b => cases d <;> rcases ho with ho | ho <;> cases ho <;> cases hx
  | spinWon | leaveOwner | raceTimedOut => rcases ho with ho | ho <;> cases ho
  | spinLost | spinTimed | enter | awaitReady =>
    rcases ho with ho | ho <;> cases ho
    cases hx

/-- A call goes on from its sender when that has been used, or when it gives up. -/
theorem LockPc.Step.sender_kept {l : LockPc} {a : Act V} {o : LockOut} (h : l.Step a o) {x : Nat}
    (hx : l.sender? = some x) :
    (∃ l', (o = .goto l' ∨ o = .yield l') ∧ l'.sender? = some x) ∨ a = .observe (.cont x) true ∨
      o = .failed := by
  cases h with
  | leave k d n =>
    cases k <;> cases hx
    cases d <;> exact .inl ⟨_, .inl rfl, rfl⟩
  | spawn d n m => exact .inl ⟨_, .inl rfl, hx⟩
  | awaitPending n | racePending d n m => exact .inl ⟨_, .inr rfl, hx⟩
  | awaitReady n => cases hx; exact .inr (.inl rfl)
  | raceNotify d n m b =>
    cases hx
    cases b with
    | true => exact .inr (.inl rfl)
    | false => exact .inl ⟨_, .inl rfl, rfl⟩
  | raceTimedOut => exact .inr (.inr rfl)
  | _ => cases hx

/-- A call that still has a sender in the list gives up only at its timeout. -/
theorem LockPc.race_of_failed {l : LockPc} {a : Act V} (h : l.Step a .failed) {x : Nat}
    (hx : l.sender? = some x) : ∃ d m, l = .raceTimeout d x m := by
  generalize ho : LockOut.failed = o at h
  cases h with
  | raceTimedOut d n m => cases hx; exact ⟨d, m, rfl⟩
  | leave k d n => cases k <;> cases ho
  | _ => first | cases ho | cases hx

namespace State

variable {s s' u : State V} {h h' g : Handles} {e : Event V} {i : CallId} {a : Act V} {l : LockPc} {ret : LockRet}
  {x : Nat} {is : List CallId}

/-! ## Senders -/

/-- A sender that has been used has been used by an unlocking call: its number is in no list and
with no call any more. -/
theorem Tracked.woken_of_sent [DecidableEq V] (hs : s.Tracked h) (hr : s.Reachable) {y : Handle}
    (hy : y ∈ h.registered) (hside : y.side = .async) (hw : s.sh.woken (.cont y.number) = true) :
    y ∈ h.woken := by
  obtain ⟨t, hwaker⟩ := hs.waker y hy
  rw [hside] at hwaker
  have hout := (hr.entriesApart.woken _ _ rfl hw).2
  refine hs.ledger.gone_of_absent hy fun hpresent => ?_
  rcases List.mem_append.mp hpresent with hlist | hcall
  · have hin : y ∈ h.listedIn y.mutex y.side := Handles.mem_listedIn hlist
    have hmem := List.mem_map_of_mem (f := Handle.waker) hin
    rw [hs.lists, hwaker] at hmem
    exact hout (.mutex y.mutex y.side)
      (mem_waitsAt.mpr ⟨⟨y.number, .cont y.number⟩, List.mem_filterMap.mpr ⟨_, hmem, rfl⟩, rfl⟩)
  · obtain ⟨⟨j, z⟩, hz, rfl⟩ := List.mem_map.mp hcall
    have hin : z ∈ h.heldBy j := Handles.mem_heldBy hz
    have hmem := List.mem_map_of_mem (f := Handle.waker) hin
    rw [hs.calls, hwaker] at hmem
    exact hout (.call j) (mem_waitsAt.mpr ⟨_, Call.held_of_toWake hmem rfl, rfl⟩)

/-- The senders that lock calls have put into the lists. -/
structure Senders (s : State V) (h : Handles) : Prop where
  sent : ∀ y ∈ h.woken, y.side = .async → s.sh.woken (.cont y.number) = true
  current : ∀ i l ret x, (s.call i).pc? = some (.lock l ret) → l.sender? = some x →
    ∃ y ∈ h.registered, y.call = i ∧ y.side = .async ∧ y.number = x
  /-- A call goes on from a sender only when it has been used. -/
  earlier : ∀ y ∈ h.registered, y.side = .async → y ∈ h.woken ∨ (∃ o, s.call y.call = .done o) ∨
    ∃ l ret, (s.call y.call).pc? = some (.lock l ret) ∧ l.sender? = some y.number

theorem Senders.sent_step [DecidableEq V] (hs : s.Senders h) (hn : s.Noted h) (hstep : s.step e = some s')
    {y : Handle} (hy : y ∈ (s.note h e).woken) (hside : y.side = .async) :
    s'.sh.woken (.cont y.number) = true := by
  rcases hn.tracked.mem_woken_note hstep hy with hy | ⟨i, rfl⟩
  · exact hn.reachable.woken_keeps hstep rfl (hs.sent y hy hside)
  · have hreg := (hn.step hstep).tracked.ledger.mem.mpr (.inr hy)
    obtain ⟨t, hwaker⟩ := (hn.step hstep).tracked.waker y hreg
    obtain ⟨t', k, pc, n, ha⟩ := act_acted hstep
    have hset := ha.applied.woken_of_wake rfl
    rwa [hwaker, hside] at hset

theorem Senders.current_step [DecidableEq V] (hs : s.Senders h) (hn : s.Noted h) (hstep : s.step e = some s')
    (hpc : (s'.call i).pc? = some (.lock l ret)) (hl : l.sender? = some x) :
    ∃ y ∈ (s.note h e).registered, y.call = i ∧ y.side = .async ∧ y.number = x := by
  have hold : ∀ l₀ ret₀, (s.call i).pc? = some (.lock l₀ ret₀) → l₀.sender? = some x →
      ∃ y ∈ (s.note h e).registered, y.call = i ∧ y.side = .async ∧ y.number = x := by
    intro l₀ ret₀ hpc₀ hl₀
    obtain ⟨y, hy, heq⟩ := hs.current i l₀ ret₀ x hpc₀ hl₀
    exact ⟨y, (s.note_step h e).registered hy, heq⟩
  rcases hn.reachable.sane.numbered.comes_to hstep hpc with hpc₀ | hb | ⟨a, t, k, pc, n, rfl, ha, hnext⟩
  · exact hold l ret hpc₀ hl
  · rw [LockPc.no_sender hb] at hl
    cases hl
  · rcases ha.step.into_lock hnext with ⟨l₀, o, rfl, ho, hout⟩ | hb
    · rcases ho.sender hout hl with hl₀ | rfl
      · exact hold l₀ ret (by rw [ha.running]; rfl) hl₀
      · refine ⟨⟨i, k.mutex, .async, x, Side.waker .async t x⟩, ?_, rfl, rfl, rfl⟩
        rw [note_act ha.running]
        exact List.mem_append_right _ (List.mem_singleton_self _)
    · rw [LockPc.no_sender hb] at hl
      cases hl

/-- A call stays with its sender until that has been used, or the call ends. -/
theorem Reachable.sender_step [DecidableEq V] (hr : s.Reachable) (hstep : s.step e = some s')
    (hpc : (s.call i).pc? = some (.lock l ret)) (hl : l.sender? = some x) :
    (∃ l' ret', (s'.call i).pc? = some (.lock l' ret') ∧ l'.sender? = some x) ∨
      s.sh.woken (.cont x) = true ∨ ∃ o, s'.call i = .done o := by
  rcases call_cases hr.sane.numbered hstep i with hcall | ⟨a, t, k, pc, n, rfl, ha⟩ | ⟨c, ht⟩
  · rw [hcall]; exact .inl ⟨l, ret, hpc, hl⟩
  · rw [ha.running] at hpc
    cases hpc
    rw [ha.call_self]
    cases hst : ha.step with
    | lock l ret a o ho =>
      rcases ho.sender_kept hl with ⟨l', rfl | rfl, hl'⟩ | rfl | rfl
      · exact .inl ⟨l', ret, rfl, hl'⟩
      · exact .inl ⟨l', ret, rfl, hl'⟩
      · exact .inr (.inl ha.applied.observed.symm)
      · exact .inr (.inr ⟨_, rfl⟩)
  · rw [ht.call_self]
    have hturn := ht.turn
    generalize s.call i = c₀ at hturn hpc
    cases hturn with
    | poll t k pc => exact .inl ⟨l, ret, hpc, hl⟩
    | cancel k pc => exact .inr (.inr ⟨_, rfl⟩)
    | begin | wait | dropGuard => cases hpc

theorem Senders.earlier_step [DecidableEq V] (hs : s.Senders h) (hn : s.Noted h) (hstep : s.step e = some s')
    {y : Handle} (hy : y ∈ (s.note h e).registered) (hside : y.side = .async) :
    y ∈ (s.note h e).woken ∨ (∃ o, s'.call y.call = .done o) ∨
      ∃ l ret, (s'.call y.call).pc? = some (.lock l ret) ∧ l.sender? = some y.number := by
  have hnote := s.note_step h e
  rcases hnote.of_registered hy with hreg | ⟨t, k, pc, rfl, hi⟩
  · rcases hs.earlier y hreg hside with hwoken | ⟨o, hdone⟩ | ⟨l, ret, hpc, hl⟩
    · exact .inl (hnote.woken hwoken)
    · exact .inr (.inl ⟨o, hn.reachable.sane.numbered.done_step hstep hdone⟩)
    · rcases hn.reachable.sender_step hstep hpc hl with hkept | hset | hdone
      · exact .inr (.inr hkept)
      · exact .inl (hnote.woken (hn.tracked.woken_of_sent hn.reachable hreg hside hset))
      · exact .inr (.inl hdone)
  · obtain ⟨t, k, pc, n, ha⟩ := act_acted hstep
    rw [ha.call_self]
    cases hst : ha.step with
    | lock l ret a o ho =>
      cases ho with
      | push side d x => exact .inr (.inr ⟨_, ret, rfl, by rw [hside]; rfl⟩)
    | unlock u ret a o ho | wait f w a o ho | notify c x a o ho => cases ho

theorem senders_init (cfg : Config) : (cfg.init : State V).Senders .new where
  sent y hy := by cases hy
  current i l ret x hpc := by cases hpc
  earlier y hy := by cases hy

theorem Noted.senders [DecidableEq V] (hn : s.Noted h) : s.Senders h :=
  hn.induction senders_init fun _ _ _ _ hn hs hstep =>
    ⟨fun _ hy hside => hs.sent_step hn hstep hy hside, fun _ _ _ _ hpc hl => hs.current_step hn hstep hpc hl,
      fun _ hy hside => hs.earlier_step hn hstep hy hside⟩

/-! ## What is left of a call -/

variable [DecidableEq V]

/-- No list and no unlocking call has a handle of these calls any more, none of them is woken
later, and a list is no longer than the other calls have made it. By `Tracked`, the notes are
what the lists hold and what the unlocking calls have still to wake. -/
structure LeavesNoTrace (s : State V) (h : Handles) (is : List CallId) : Prop where
  listed : ∀ m k, ∀ y ∈ h.listedIn m k, y.call ∉ is
  detached : ∀ j, ∀ y ∈ h.heldBy j, y.call ∉ is
  silent : ∀ u g, Run stepNoted (s, h) (u, g) → ∀ y ∈ g.woken, y.call ∈ is → y ∈ h.woken
  steady : ∀ u g, u.Noted g → Run stepNoted (u, g) (s, h) → ∀ m k,
    ((s.sh.mutex m).waiting k).length + g.putByOthers is m k ≤
      ((u.sh.mutex m).waiting k).length + h.putByOthers is m k

omit [DecidableEq V] in
theorem Tracked.length_waiting (hs : s.Tracked h) (m : MutexId) (k : Side) :
    ((s.sh.mutex m).waiting k).length = h.listed.countP (Handle.isIn m k) := by
  rw [← hs.lists, List.length_map, List.countP_eq_length_filter]
  rfl

/-- A call that has ended registers nothing more. -/
theorem Noted.registered_run (hn : s.Noted h) (hdone : ∀ j ∈ is, ∃ o, s.call j = .done o)
    (hrun : Run stepNoted (s, h) (u, g)) {y : Handle} (hy : y ∈ g.registered) (hcall : y.call ∈ is) :
    y ∈ h.registered := by
  have hinv : u.Noted g ∧ (∀ j ∈ is, ∃ o, u.call j = .done o) ∧
      ∀ y ∈ g.registered, y.call ∈ is → y ∈ h.registered := by
    refine noting_invariant (P := fun u g => u.Noted g ∧ (∀ j ∈ is, ∃ o, u.call j = .done o) ∧
      ∀ y ∈ g.registered, y.call ∈ is → y ∈ h.registered) hrun ⟨hn, hdone, fun y hy _ => hy⟩ ?_
    intro v f e w hv _ hstep
    refine ⟨hv.1.step hstep, fun j hj => ?_, fun y hy hj => ?_⟩
    · obtain ⟨o, ho⟩ := hv.2.1 j hj
      exact ⟨o, hv.1.reachable.sane.numbered.done_step hstep ho⟩
    · rcases (v.note_step f e).of_registered hy with hy | ⟨t, k, pc, -, hi⟩
      · exact hv.2.2 y hy hj
      · obtain ⟨o, ho⟩ := hv.2.1 _ hj
        cases hi.symm.trans ho
  exact hinv.2.2 y hy hcall

theorem Noted.countP_run (hrun : Run stepNoted (u, g) (s, h)) (p : Handle → Bool) :
    h.listed.countP p + g.registered.countP p ≤ g.listed.countP p + h.registered.countP p := by
  refine noting_invariant (P := fun _ f => f.listed.countP p + g.registered.countP p ≤
    g.listed.countP p + f.registered.countP p) hrun (Nat.le_refl _) ?_
  intro v f e w hle _ _
  have hnote := (v.note_step f e).countP p
  omega

/-- Calls that have ended leave nothing where all their handles have been woken. -/
theorem Noted.traceless (hn : s.Noted h) (hdone : ∀ j ∈ is, ∃ o, s.call j = .done o) :
    LeavesNoTrace s h is ↔ ∀ y ∈ h.registered, y.call ∈ is → y ∈ h.woken := by
  have hledger := hn.tracked.ledger
  constructor
  · intro hno y hy hcall
    refine hledger.gone_of_absent hy fun hpresent => ?_
    rcases List.mem_append.mp hpresent with hlist | hheld
    · exact hno.listed y.mutex y.side y (Handles.mem_listedIn hlist) hcall
    · obtain ⟨⟨j, z⟩, hz, rfl⟩ := List.mem_map.mp hheld
      exact hno.detached j z (Handles.mem_heldBy hz) hcall
  · intro hall
    have habsent : ∀ y ∈ h.present, y.call ∉ is := fun y hy hcall =>
      hledger.not_present (hall y (hledger.mem.mpr (.inl hy)) hcall) hy
    refine ⟨fun m k y hy => ?_, fun j y hy => ?_, fun u g hrun y hy hcall => ?_, fun u g hu hrun m k => ?_⟩
    · exact habsent y (List.mem_append_left _ (List.mem_filter.mp hy).1)
    · obtain ⟨z, hz, rfl⟩ := List.mem_map.mp hy
      exact habsent _ (List.mem_append_right _ (List.mem_map_of_mem (List.mem_filter.mp hz).1))
    · have hreg := (hn.run hrun).tracked.ledger.mem.mpr (.inr hy)
      exact hall y (hn.registered_run hdone hrun hreg hcall) hcall
    · have hcount := Noted.countP_run hrun fun y => y.isIn m k && decide (y.call ∉ is)
      have hhere : h.listed.countP (Handle.isIn m k) =
          h.listed.countP fun y => y.isIn m k && decide (y.call ∉ is) := by
        refine List.countP_congr fun y hy => ?_
        simp [habsent y (List.mem_append_left _ hy)]
      have hthere : (g.listed.countP fun y => y.isIn m k && decide (y.call ∉ is)) ≤
          g.listed.countP (Handle.isIn m k) :=
        List.countP_mono_left fun y _ hp => (Bool.and_eq_true_iff.mp hp).1
      rw [hn.tracked.length_waiting, hu.tracked.length_waiting, hhere]
      unfold Handles.putByOthers
      omega

/-! ## Giving up -/

/-- When call `i` gives up at `l`, unlocking calls have used the sender that it raced with its
timeout, and have unparked it for each handle that it has registered. -/
structure Cleared (s : State V) (h : Handles) (i : CallId) (l : LockPc) : Prop where
  sent : ∀ d x timeout, l = .raceTimeout d x timeout → s.sh.woken (.cont x) = true
  unparked : ∀ y ∈ h.registered, y.call = i → y.side = .sync → y ∈ h.woken

theorem Noted.cleared (hn : s.Noted h) (hpc : (s.call i).pc? = some (.lock l ret))
    (hfail : l.next a = some .failed) :
    Cleared s h i l ↔ ∀ y ∈ h.registered, y.call = i → y ∈ h.woken := by
  have hsenders := hn.senders
  constructor
  · rintro hc y hy rfl
    cases hside : y.side with
    | sync => exact hc.unparked y hy rfl hside
    | async =>
      rcases hsenders.earlier y hy hside with hwoken | ⟨o, hdone⟩ | ⟨l', ret', hpc', hl'⟩
      · exact hwoken
      · rw [hdone] at hpc; cases hpc
      · cases hpc.symm.trans hpc'
        obtain ⟨d, m, rfl⟩ := LockPc.race_of_failed (LockPc.step_of_next hfail) hl'
        exact hn.tracked.woken_of_sent hn.reachable hy hside (hc.sent d _ m rfl)
  · intro hall
    refine ⟨?_, fun y hy hcall _ => hall y hy hcall⟩
    rintro d x m rfl
    obtain ⟨y, hy, hcall, hside, rfl⟩ := hsenders.current i _ ret x hpc rfl
    exact hsenders.sent y (hall y hy hcall) hside

/-- A call that gives up does nothing to the handles. -/
theorem gives_up_step (hpc : (s.call i).pc? = some (.lock l ret)) (hfail : l.next a = some .failed)
    (hstep : s.step (.act i a) = some s') : s.note h (.act i a) = h ∧ ∃ o, s'.call i = .done o := by
  obtain ⟨t, k, pc, n, ha⟩ := act_acted hstep
  rw [ha.running] at hpc
  cases hpc
  constructor
  · rw [note_act ha.running]
    rcases (LockPc.step_of_next hfail).gives_up with rfl | ⟨d, y, -, rfl, -⟩ | ⟨d, n, y, -, rfl⟩ <;> rfl
  · have hself := ha.call_self
    cases hst : ha.step with
    | lock l ret a o ho =>
      cases (LockPc.next_of_step ho).symm.trans hfail
      exact ⟨_, hself⟩

theorem failed_lock_traceless (hn : s.Noted h) (hpc : (s.call i).pc? = some (.lock l ret))
    (hfail : l.next a = some .failed) (hdone : ∀ j ∈ is, ∃ o, s.call j = .done o)
    (hstep : stepNoted (s, h) (.act i a) = some (s', h')) :
    LeavesNoTrace s' h' (i :: is) ↔ Cleared s h i l ∧ ∀ y ∈ h.registered, y.call ∈ is → y ∈ h.woken := by
  obtain ⟨hs, hh⟩ := noting_eq_some.mp hstep
  obtain ⟨hnote, hend⟩ := gives_up_step (h := h) hpc hfail hs
  obtain rfl : h' = h := hh.trans hnote
  have hn' : s'.Noted h' := hnote ▸ hn.step hs
  rw [hn'.traceless, hn.cleared hpc hfail]
  · simp only [List.mem_cons]
    constructor
    · intro hall
      exact ⟨fun y hy hcall => hall y hy (.inl hcall), fun y hy hcall => hall y hy (.inr hcall)⟩
    · rintro ⟨hi, his⟩ y hy (hcall | hcall)
      · exact hi y hy hcall
      · exact his y hy hcall
  · intro j hj
    rcases List.mem_cons.mp hj with rfl | hj
    · exact hend
    · obtain ⟨o, ho⟩ := hdone j hj
      exact ⟨o, hn.reachable.sane.numbered.done_step hs ho⟩

/-! ## Two runs that leave something -/

/-- On thread 1, two timed locks give up while call 0 holds the lock. -/
def twoAttempts : List (Event Nat) :=
  [.begin 0 (.lock 0 .tryLock), .act 0 (.mutex (.cas true)),
    .begin 1 (.lock 0 (.lockBlockTimeout 1)), .act 1 (.now 0), .act 1 (.mutex (.enter .sync)),
    .act 1 (.mutex (.cas false)), .act 1 (.push .sync 0), .act 1 (.mutex (.leave .sync)), .act 1 (.park false),
    .tick, .act 1 (.now 1), .act 1 (.mutex (.cas false)),
    .begin 1 (.lock 0 (.lockBlockTimeout 2)), .act 2 (.now 1), .act 2 (.mutex (.enter .sync)),
    .act 2 (.mutex (.cas false)), .act 2 (.push .sync 1), .act 2 (.mutex (.leave .sync)), .act 2 (.park false),
    .tick, .act 2 (.now 2)]

/-- The race of call 1 sees its timeout, and call 0 still holds the lock. -/
def lateRace : List (Event Nat) :=
  [.begin 0 (.lock 0 .tryLock), .act 0 (.mutex (.cas true)), .begin 1 (.lock 0 (.lockAsyncTimeout 1)),
    .act 1 (.now 0), .act 1 (.mutex (.enter .async)), .act 1 (.mutex (.cas false)), .act 1 (.push .async 0),
    .act 1 (.mutex (.leave .async)), .act 1 (.spawn 1 1), .act 1 (.observe (.cont 0) false), .tick, .fire 1 1]

theorem attempts_fail : ∃ (s s' : State Nat) (h h' : Handles),
    exec stepNoted ((⟨fun _ => true, 0, 0⟩ : Config).init, Handles.new) twoAttempts = some (s, h) ∧
      stepNoted (s, h) (.act 2 (.mutex (.cas false))) = some (s', h') ∧
      s.call 2 = .running 1 (.user 0) (.lock .lastTry .first) ∧ s.call 1 = .done .failed ∧
      (s'.sh.mutex (.user 0)).waiting .sync = [.thread 1, .thread 1] ∧
      h'.putByOthers [2, 1] (.user 0) .sync = 0 :=
  ⟨_, _, _, _, rfl, rfl, rfl, rfl, rfl, rfl⟩

theorem race_fails : ∃ (s s' : State Nat) (h h' : Handles),
    exec stepNoted ((⟨fun _ => true, 0, 0⟩ : Config).init, Handles.new) lateRace = some (s, h) ∧
      stepNoted (s, h) (.act 1 (.observe (.cont 1) true)) = some (s', h') ∧
      s.call 1 = .running 1 (.user 0) (.lock (.raceTimeout 1 0 1) .first) ∧
      h'.listedIn (.user 0) .async = [⟨1, .user 0, .async, 0, .cont 0⟩] :=
  ⟨_, _, _, _, rfl, rfl, rfl, rfl⟩

theorem failed_lock_leaves :
    (¬ ∀ (s s' : State Nat) h h' i a ret is, s.Noted h → (s.call i).pc? = some (.lock .lastTry ret) →
      LockPc.lastTry.next a = some .failed → (∀ j ∈ is, ∃ o, s.call j = .done o) →
      stepNoted (s, h) (.act i a) = some (s', h') → LeavesNoTrace s' h' (i :: is)) ∧
    ¬ ∀ (s s' : State Nat) h h' i a ret, s.Noted h →
      (s.call i).pc? = some (.lock (.raceTimeout 1 0 1) ret) →
      (LockPc.raceTimeout 1 0 1).next a = some .failed →
      stepNoted (s, h) (.act i a) = some (s', h') → LeavesNoTrace s' h' [i] := by
  constructor
  · intro hall
    obtain ⟨s, s', h, h', hexec, hstep, hcall, hdone, hwaiting, hothers⟩ := attempts_fail
    have hrun := run_of_exec hexec
    have hno := hall s s' h h' 2 _ .first [1] ⟨_, hrun⟩ (by rw [hcall]; rfl) rfl (by simp [hdone]) hstep
    -- The list has grown by two since the start.
    have hgrown := hno.steady _ _ ⟨_, .refl⟩ (hrun.tail trivial hstep) (.user 0) .sync
    rw [hwaiting, hothers] at hgrown
    cases hgrown
  · intro hall
    obtain ⟨s, s', h, h', hexec, hstep, hcall, hlisted⟩ := race_fails
    have hno := hall s s' h h' 1 _ .first ⟨_, run_of_exec hexec⟩ (by rw [hcall]; rfl) rfl hstep
    exact hno.listed (.user 0) .async _ (by rw [hlisted]; exact List.mem_singleton_self _) (by simp)

/-- Call 0 wakes the timed lock, and another call has the lock by the time of its last try. -/
def wokenAttempt : List (Event Nat) :=
  [.begin 0 (.lock 0 .tryLock), .act 0 (.mutex (.cas true)),
    .begin 1 (.lock 0 (.lockBlockTimeout 1)), .act 1 (.now 0), .act 1 (.mutex (.enter .sync)),
    .act 1 (.mutex (.cas false)), .act 1 (.push .sync 0), .act 1 (.mutex (.leave .sync)),
    .dropGuard 0 0, .act 0 (.mutex .store), .act 0 (.mutex (.take .sync [.thread 1])), .act 0 (.wake (.thread 1)),
    .act 0 (.mutex (.take .async [])), .begin 2 (.lock 0 .tryLock), .act 2 (.mutex (.cas true)), .act 1 (.park true),
    .tick, .act 1 (.now 1)]

/-- The run above, and one that leaves nothing. -/
theorem failed_lock_traceless_two :
    (∃ (s s' : State Nat) (h h' : Handles),
      exec stepNoted ((⟨fun _ => true, 0, 0⟩ : Config).init, Handles.new) twoAttempts = some (s, h) ∧
        stepNoted (s, h) (.act 2 (.mutex (.cas false))) = some (s', h') ∧
        (LeavesNoTrace s' h' [2, 1] ↔
          Cleared s h 2 .lastTry ∧ ∀ y ∈ h.registered, y.call ∈ [1] → y ∈ h.woken)) ∧
    ∃ (s s' : State Nat) (h h' : Handles),
      exec stepNoted ((⟨fun _ => true, 0, 0⟩ : Config).init, Handles.new) wokenAttempt = some (s, h) ∧
        stepNoted (s, h) (.act 1 (.mutex (.cas false))) = some (s', h') ∧ s'.call 1 = .done .failed ∧
        h.registered = [⟨1, .user 0, .sync, 0, .thread 1⟩] ∧ LeavesNoTrace s' h' [1] := by
  constructor
  · obtain ⟨s, s', h, h', hexec, hstep, hcall, hdone, -⟩ := attempts_fail
    exact ⟨s, s', h, h', hexec, hstep, failed_lock_traceless ⟨_, run_of_exec hexec⟩
      (show (s.call 2).pc? = some (.lock .lastTry .first) by rw [hcall]; rfl) rfl (by simp [hdone]) hstep⟩
  · have hrun : ∃ (s s' : State Nat) (h h' : Handles),
        exec stepNoted ((⟨fun _ => true, 0, 0⟩ : Config).init, Handles.new) wokenAttempt = some (s, h) ∧
          stepNoted (s, h) (.act 1 (.mutex (.cas false))) = some (s', h') ∧ s'.call 1 = .done .failed ∧
          s.call 1 = .running 1 (.user 0) (.lock .lastTry .first) ∧
          h.registered = [⟨1, .user 0, .sync, 0, .thread 1⟩] ∧ h.woken = h.registered :=
      ⟨_, _, _, _, rfl, rfl, rfl, rfl, rfl, rfl⟩
    obtain ⟨s, s', h, h', hexec, hstep, hdone, hcall, hreg, hwoken⟩ := hrun
    have hnobody : ∀ j ∈ ([] : List CallId), ∃ o, s.call j = .done o := by simp
    refine ⟨s, s', h, h', hexec, hstep, hdone, hreg, (failed_lock_traceless ⟨_, run_of_exec hexec⟩
      (show (s.call 1).pc? = some (.lock .lastTry .first) by rw [hcall]; rfl) rfl hnobody hstep).mpr ⟨⟨?_, ?_⟩, ?_⟩⟩
    · intro d x m he
      cases he
    · intro y hy _ _
      rw [hwoken]
      exact hy
    · intro y _ hy
      cases hy

end State

end WasmSafeMutex
