import WasmSafeMutex.Entries

/-!
# Every continuation is completed once

A `Sender` of a continuation is used up by its `send`, and its receiver waits until then. So it must
not be lost on its way from a list to the call that takes it out, or with a timeout thread. The locks
and their lists live all the time: nothing here drops a `Mutex` or a `Condvar`.
-/

namespace WasmSafeMutex

open Interleaving

variable {V : Type}

theorem Shared.Applied.keeps_timers {sh sh' : Shared V} {m : MutexId} {i : CallId} {t : ThreadId} {a : Act V}
    (h : sh.Applied m i t a sh') {x : Instant × Nat} (hx : x ∈ sh.timers) : x ∈ sh'.timers := by
  cases h with
  | spawn d => exact List.mem_cons_of_mem _ hx
  | _ => exact hx

/-- The event makes the continuation `n`. -/
def Event.makes (n : Nat) : Event V → Prop
  | .act _ (.push .async m) | .act _ (.register _ .async m) | .act _ (.spawn _ m) => m = n
  | _ => False

/-- The event sends to it. -/
def Event.sendsTo (n : Nat) : Event V → Prop
  | .act _ (.wake w) => w = .cont n
  | .fire _ m => m = n
  | _ => False

namespace State

/-- The `Sender` of `n` is at this spot. -/
def SenderAt (s : State V) (n : Nat) (q : Spot) : Prop := (⟨n, .cont n⟩ : Entry) ∈ s.entriesAt q

/-- The `Sender` has been used, and is nowhere any more. -/
def Sent (s : State V) (n : Nat) : Prop := s.sh.woken (.cont n) = true ∧ ∀ q, n ∉ s.waitsAt q

/-- The `Sender` has not been used, and there is one of it. -/
def Unsent (s : State V) (n : Nat) : Prop :=
  s.sh.woken (.cont n) = false ∧
    ∃ q, s.SenderAt n q ∧ (s.waitsAt q).count n = 1 ∧ ∀ q', q' ≠ q → n ∉ s.waitsAt q'

variable {s s' : State V} {e : Event V} {n : Nat} {q : Spot}

/-! ## One step -/

theorem senderAt_of_applied {m : MutexId} {i : CallId} {t : ThreadId} {a : Act V} {sh : Shared V}
    (h : sh.Applied m i t a s'.sh) (he : (Event.act i a).makes n) : ∃ q, s'.SenderAt n q := by
  generalize hsh : s'.sh = sh' at h
  cases h with
  | push k =>
    cases k with
    | sync => cases he
    | async =>
      obtain rfl : sh.fresh = n := he
      refine ⟨.mutex m .async, ?_⟩
      simp [SenderAt, entriesAt, Shared.entriesAt, hsh, Shared.setMutex, MutexState.push, Side.waker, Waker.asEntry]
  | register c k =>
    cases k with
    | spin | sync => cases he
    | async =>
      obtain rfl : sh.fresh = n := he
      refine ⟨.list c .async, ?_⟩
      simp [SenderAt, entriesAt, Shared.entriesAt, hsh, Shared.setCondvar, CondvarState.push, CondvarState.set,
        Kind.entry, Kind.waker]
  | spawn d =>
    obtain rfl : sh.fresh = n := he
    refine ⟨.timers, ?_⟩
    simp [SenderAt, entriesAt, Shared.entriesAt, hsh]
  | _ => cases he

theorem mem_list_of_senderAt {c : CondvarId} {k : Kind} (h : s.SenderAt n (.list c k)) :
    Waker.cont n ∈ s.sh.waitingAt (.condvar c k) := List.mem_map.mpr ⟨_, h, rfl⟩

theorem mem_mutex_of_senderAt {m : MutexId} {k : Side} (h : s.SenderAt n (.mutex m k)) :
    Waker.cont n ∈ s.sh.waitingAt (.mutex m k) := by
  obtain ⟨w, hw, he⟩ := List.mem_filterMap.mp h
  cases w with
  | thread t => cases he
  | cont m => cases he; exact hw
  | flag m => cases he

/-- A `Sender` that a call holds stays with it, or is used. -/
theorem Acted.sends_held {i : CallId} {t : ThreadId} {k : Caller V} {pc : Pc V} {a : Act V} {o : Next V}
    (ha : Acted s s' i t k pc a o) (hm : a.Moves (s.call i).held (s'.call i).held)
    (h : s.SenderAt n (.call i)) : (∃ q, s'.SenderAt n q) ∨ s'.sh.woken (.cont n) = true := by
  change _ ∈ (s.call i).held at h
  unfold Act.Moves at hm
  split at hm
  case h_5 w =>
    rcases hm with ⟨x, hx, he⟩ | ⟨-, he⟩
    · rw [he] at h
      rcases List.mem_cons.mp h with rfl | h
      · exact .inr (ha.applied.woken_of_wake (hx ▸ rfl))
      · exact .inl ⟨.call i, h⟩
    · rw [he] at h
      exact .inl ⟨.call i, h⟩
  all_goals
    rw [hm.1] at h
    cases h

variable [DecidableEq V]

theorem Reachable.unsent (hr : s.Reachable) (h : s.SenderAt n q) : s.Unsent n := by
  have hapart := hr.entriesApart
  have hmem : n ∈ s.waitsAt q := mem_waitsAt.mpr ⟨_, h, rfl⟩
  refine ⟨?_, q, h, List.count_eq_one_of_mem (hapart.separated.nodup q) hmem, fun q' hq' hn => ?_⟩
  · by_contra hw
    exact (hapart.woken (.cont n) _ rfl ((Bool.not_eq_false _).mp hw)).2 q hmem
  · exact hq' (hapart.separated.apart q' q n hn hmem)

theorem Reachable.sent (hr : s.Reachable) (h : s.sh.woken (.cont n) = true) : s.Sent n :=
  ⟨h, (hr.entriesApart.woken (.cont n) _ rfl h).2⟩

/-- Who holds a handle of the continuation has the `Sender`. -/
theorem Reachable.senderAt (hr : s.Reachable) {x : Entry} (hx : x ∈ s.entriesAt q) (hw : x.waker = .cont n) :
    s.SenderAt n q := by
  have hnum : ⟨n, .cont n⟩ = x := hr.entriesApart.numbered q x hx _ (by rw [hw]; rfl)
  rw [SenderAt, hnum]
  exact hx

theorem Reachable.senderAt_of_waiting (hr : s.Reachable) {p : Place} (h : Waker.cont n ∈ s.sh.waitingAt p) :
    ∃ q, s.SenderAt n q := by
  cases p with
  | mutex m k => exact ⟨.mutex m k, List.mem_filterMap.mpr ⟨_, h, rfl⟩⟩
  | condvar c k =>
    obtain ⟨x, hx, hw⟩ := List.mem_map.mp h
    exact ⟨.list c k, hr.senderAt hx hw⟩

/-- A `Sender` that the operation takes out of a list is with the call then. -/
theorem Acted.sends_listed (hr' : s'.Reachable) {i : CallId} {t : ThreadId} {k : Caller V} {pc : Pc V} {a : Act V}
    {o : Next V} (ha : Acted s s' i t k pc a o) (hm : a.Moves (s.call i).held (s'.call i).held) {p : Place}
    (h : Waker.cont n ∈ s.sh.waitingAt p) : ∃ q, s'.SenderAt n q := by
  rcases ha.applied.keeps h with hstay | hdet | hrem
  · exact hr'.senderAt_of_waiting hstay
  · unfold Act.detached at hdet
    split at hdet
    case h_1 k' ws =>
      obtain ⟨-, hw⟩ := List.mem_ite_nil_right.mp hdet
      have hheld : (s'.call i).held = ws.filterMap Waker.asEntry := hm.2
      refine ⟨.call i, ?_⟩
      change _ ∈ (s'.call i).held
      rw [hheld]
      exact List.mem_filterMap.mpr ⟨_, hw, rfl⟩
    case h_2 c k' x =>
      obtain ⟨-, hw⟩ := List.mem_ite_nil_right.mp hdet
      have hheld : (s'.call i).held = [x] := hm.2
      have hx : x ∈ s'.entriesAt (.call i) := by
        change x ∈ (s'.call i).held
        rw [hheld]
        exact List.mem_singleton_self x
      exact ⟨.call i, hr'.senderAt hx (List.mem_singleton.mp hw).symm⟩
    case h_3 c k' xs =>
      obtain ⟨-, hw⟩ := List.mem_ite_nil_right.mp hdet
      obtain ⟨x, hx, hw⟩ := List.mem_map.mp hw
      have hheld : (s'.call i).held = xs := hm.2
      have hx' : x ∈ s'.entriesAt (.call i) := by
        change x ∈ (s'.call i).held
        rw [hheld]
        exact hx
      exact ⟨.call i, hr'.senderAt hx' hw⟩
    case h_4 => cases hdet
  · unfold Act.removes at hrem
    split at hrem
    case h_2 => cases hrem
    case h_1 c k' m =>
      cases k' with
      | spin | sync => cases hrem
      | async =>
        cases hrem
        have hheld : (s'.call i).held = [⟨n, .cont n⟩] := hm.2
        refine ⟨.call i, ?_⟩
        change _ ∈ (s'.call i).held
        rw [hheld]
        exact List.mem_singleton_self _

theorem Reachable.senderAt_step (hr : s.Reachable) (hstep : s.step e = some s') (h : s.SenderAt n q) :
    (∃ q', s'.SenderAt n q') ∨ s'.sh.woken (.cont n) = true := by
  rcases step_cases hr.sane.numbered hstep with ⟨i, a, t, k, pc, o, -, ha⟩ | ⟨i, c, ht⟩ | ha
  · have hm : a.Moves (s.call i).held (s'.call i).held := by
      have hf := hr.fits i
      rw [ha.running] at hf
      rw [ha.running, ha.call_self, Next.held_call]
      exact ha.step.moves hf
    cases q with
    | call j =>
      by_cases hj : j = i
      · subst hj
        exact ha.sends_held hm h
      · refine .inl ⟨.call j, ?_⟩
        change _ ∈ (s'.call j).held
        rw [ha.call_ne hj]
        exact h
    | list c k' => exact .inl (ha.sends_listed (hr.step hstep) hm (mem_list_of_senderAt h))
    | mutex m k' => exact .inl (ha.sends_listed (hr.step hstep) hm (mem_mutex_of_senderAt h))
    | timers =>
      obtain ⟨x, hx, he⟩ := List.mem_map.mp h
      exact .inl ⟨.timers, List.mem_map.mpr ⟨x, ha.applied.keeps_timers hx, he⟩⟩
  · have hheld : ∀ j, (s'.call j).held = (s.call j).held := by
      intro j
      by_cases hj : j = i
      · subst hj
        rw [ht.call_self]
        exact ht.turn.held (hr.sane.pending j)
      · rw [ht.call_ne hj]
    refine .inl ⟨q, ?_⟩
    rw [SenderAt, entriesAt_same (congrArg Shared.entriesAt ht.sh) hheld]
    exact h
  · cases q with
    | call j =>
      refine .inl ⟨.call j, ?_⟩
      change _ ∈ (s'.call j).held
      rw [ha.call]
      exact h
    | list c k =>
      exact .inl ⟨.list c k, by simpa [SenderAt, entriesAt, Shared.entriesAt, ha.around.condvar] using h⟩
    | mutex m k =>
      exact .inl ⟨.mutex m k, by simpa [SenderAt, entriesAt, Shared.entriesAt, ha.around.mutex] using h⟩
    | timers =>
      obtain ⟨⟨d, m⟩, hx, he⟩ := List.mem_map.mp h
      obtain rfl : m = n := congrArg Entry.wait he
      rcases ha.around.timers with ⟨htimers, -⟩ | ⟨d', m', -, htimers, hwoken⟩
      · exact .inl ⟨.timers, List.mem_map.mpr ⟨_, htimers ▸ hx, rfl⟩⟩
      · by_cases hm : m' = m
        · subst hm
          exact .inr (by rw [hwoken, Function.update_self])
        · refine .inl ⟨.timers, List.mem_map.mpr ⟨(d, m), ?_, rfl⟩⟩
          rw [htimers]
          exact (List.mem_erase_of_ne fun he => hm (congrArg Prod.snd he).symm).mpr hx

/-! ## The result -/

/-- What is known of a continuation from its making on. -/
structure CompletedOnce (s : State V) (n : Nat) : Prop where
  state : s.Sent n ∨ s.Unsent n
  /-- It is sent to only where it had not been before. -/
  once : ∀ e s', s.step e = some s' → e.sendsTo n → s.Unsent n ∧ s'.Sent n

theorem Reachable.sends (hr : s.Reachable) (hstep : s.step e = some s') (he : e.sendsTo n) :
    s.Unsent n ∧ s'.Sent n := by
  cases e with
  | act i a =>
    cases a with
    | wake w =>
      obtain rfl : w = .cont n := he
      obtain ⟨t, k, pc, o, ha⟩ := act_acted hstep
      have hm : (Act.wake (.cont n) : Act V).Moves pc.held o.held := by
        have hf := hr.fits i
        rw [ha.running] at hf
        exact ha.step.moves hf
      rcases hm with ⟨x, hx, hheld⟩ | ⟨hnone, -⟩
      · have hmem : x ∈ s.entriesAt (.call i) := by
          change x ∈ (s.call i).held
          rw [ha.running]
          change x ∈ pc.held
          rw [hheld]
          exact List.mem_cons_self
        exact ⟨hr.unsent (hr.senderAt hmem hx), (hr.step hstep).sent (ha.applied.woken_of_wake rfl)⟩
      · cases hnone
    | _ => cases he
  | fire d m =>
    obtain rfl : m = n := he
    obtain ⟨⟨hmem, -⟩, hs'⟩ := Option.ite_none_right_eq_some.mp hstep
    have hq : s.SenderAt m .timers := List.mem_map.mpr ⟨_, hmem, rfl⟩
    refine ⟨hr.unsent hq, (hr.step hstep).sent ?_⟩
    cases hs'
    exact Function.update_self ..
  | _ => cases he

theorem Reachable.made (hr : s.Reachable) (hstep : s.step e = some s') (he : e.makes n) : s'.Unsent n := by
  cases e with
  | act i a =>
    obtain ⟨t, k, pc, o, ha⟩ := act_acted hstep
    exact (senderAt_of_applied ha.applied he).elim fun q hq => (hr.step hstep).unsent hq
  | _ => cases he

/-- From the moment at which it is made, a continuation is in one place until it is sent to: in a list,
with the call that has taken it out, or with its timeout thread. As long as the locks live, it
is never lost, and it is never sent to twice. -/
theorem continuations_completed {u v : State V} (hu : u.Reachable) (hstep : u.step e = some v) (he : e.makes n)
    (hrun : Run State.step v s) : s.CompletedOnce n := by
  have hkept := hrun.invariant (P := fun s => s.Reachable ∧ (s.Sent n ∨ s.Unsent n))
    ⟨hu.step hstep, .inr (hu.made hstep he)⟩ fun s s' e hs _ hstep => ?_
  · exact ⟨hkept.2, fun e s' hstep he => hkept.1.sends hstep he⟩
  · have hr' := hs.1.step hstep
    refine ⟨hr', ?_⟩
    rcases hs.2 with hsent | ⟨-, q, hq, -⟩
    · exact .inl (hr'.sent (hs.1.woken_keeps (x := ⟨n, .cont n⟩) hstep rfl hsent.1))
    · rcases hs.1.senderAt_step hstep hq with ⟨q', hq'⟩ | hw
      · exact .inr (hr'.unsent hq')
      · exact .inl (hr'.sent hw)

/-- After the push of a `lock_async` its future is dropped, and then the mutex is unlocked. -/
def dropAndSend : List (Event Nat) :=
  [.act 1 (.mutex (.leave .async)), .act 1 (.observe (.cont 0) false), .cancel 1, .dropGuard 0 0,
    .act 0 (.mutex .store), .act 0 (.mutex (.take .sync [])), .act 0 (.mutex (.take .async [.cont 0])),
    .act 0 (.wake (.cont 0))]

theorem continuations_completed_pushed : ∃ u v s : State Nat,
    exec step (⟨fun _ => true, 0, 0⟩ : Config).init
      [.begin 0 (.lock 0 .tryLock), .act 0 (.mutex (.cas true)), .begin 1 (.lock 0 .lockAsync),
        .act 1 (.mutex (.enter .async)), .act 1 (.mutex (.cas false))] = some u ∧
      u.step (.act 1 (.push .async 0)) = some v ∧ v.sh.woken (.cont 0) = false ∧
      exec step v dropAndSend = some s ∧ s.call 1 = .done .cancelled ∧ s.sh.woken (.cont 0) = true ∧
      s.CompletedOnce 0 := by
  have hrun : ∃ u v s : State Nat,
      exec step (⟨fun _ => true, 0, 0⟩ : Config).init
        [.begin 0 (.lock 0 .tryLock), .act 0 (.mutex (.cas true)), .begin 1 (.lock 0 .lockAsync),
          .act 1 (.mutex (.enter .async)), .act 1 (.mutex (.cas false))] = some u ∧
        u.step (.act 1 (.push .async 0)) = some v ∧ v.sh.woken (.cont 0) = false ∧
        exec step v dropAndSend = some s ∧ s.call 1 = .done .cancelled ∧ s.sh.woken (.cont 0) = true :=
    ⟨_, _, _, rfl, rfl, rfl, rfl, rfl, rfl⟩
  obtain ⟨u, v, s, hu, hv, hnew, hs, hcall, hsent⟩ := hrun
  exact ⟨u, v, s, hu, hv, hnew, hs, hcall, hsent,
    continuations_completed (reachable_of_exec hu) hv rfl (run_of_exec hs)⟩

end State

end WasmSafeMutex
