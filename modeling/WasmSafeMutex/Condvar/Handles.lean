import WasmSafeMutex.Condvar.Verdicts

/-!
# The handles of a thread

A handle in a list names a thread, and not the wait that has put it there. Where no park of a
`wait_block` returns too early, every handle in a list is that of a wait, and a thread finds
none but its own.
-/

namespace WasmSafeMutex

open Interleaving

variable {V : Type}

namespace State

variable {s s' : State V} {e : Event V}

/-- No `park` of a `wait_block` returns while the handle of this wait is still in the list. -/
def ParksUntilPopped (s : State V) (e : Event V) : Prop :=
  ∀ i token r, e = .act i (.park token) → (s.call i).registration = some r → r.frame.deadline = none →
    r.entry ∉ s.entriesAt r.spot

/-- The waker of a blocking wait is the thread that it runs on. -/
theorem registration_thread {i : CallId} {t : ThreadId} {k : Caller V} {pc : Pc V} {r : Registration}
    (hrun : s.call i = .running t k pc) (hi : (s.call i).registration = some r)
    (hk : r.frame.kind = .sync) : r.waker = .thread t := by
  have hw := Call.waker_of_registration hi
  unfold WaitFrame.waker? at hw
  rw [hk, hrun] at hw
  exact (Option.some.inj hw).symm

/-- A call that looks for a handle of its thread and finds none. -/
theorem Acted.no_handle {i : CallId} {t : ThreadId} {k : Caller V} {pc : Pc V} {a : Act V} {n : Next V}
    {c : CondvarId} {m : Nat} (ha : Acted s s' i t k pc a n)
    (hact : a = .condvar c (.has false) ∨ a = .condvar c (.remove .sync m false)) :
    ∀ x ∈ s.entriesAt (.list c .sync), x.waker ≠ .thread t := by
  generalize hsh : s'.sh = sh'
  have happ := hsh ▸ ha.applied
  intro x hx hw
  rcases hact with rfl | rfl
  · cases happ with
    | condvar c a y hy =>
      generalize hb : CondvarAct.has false = a at hy
      cases hy with
      | has =>
        injection hb with hb
        have hnone := List.any_eq_false.mp hb.symm x hx
        simp [Entry.isOf, hw] at hnone
      | _ => cases hb
  · cases happ with
    | condvar c a y hy =>
      cases hy with
      | absent kind m hnone => exact hnone x hx hw

/-- The handle of a `wait_block` whose park returns is not in the list. -/
def parksPopped (s : State V) : Event V → Bool
  | .act i (.park _) =>
    (s.call i).registration.all fun r => r.frame.deadline.isSome || r.entry ∉ s.entriesAt r.spot
  | _ => true

theorem ParksUntilPopped.of_check (h : s.parksPopped e = true) : s.ParksUntilPopped e := by
  rintro i token r rfl hr hd
  have hall : (s.call i).registration.all
      (fun r => r.frame.deadline.isSome || r.entry ∉ s.entriesAt r.spot) = true := h
  rw [hr] at hall
  simpa [hd] using hall

variable [DecidableEq V]

/-- A blocking wait that leaves early has no handle in the list. -/
theorem early_absent (hr : s.Reachable) (hok : s.ParksUntilPopped e) (hstep : s.step e = some s')
    {i : CallId} {r : Registration} (hi : (s.call i).registration = some r) (hk : r.frame.kind = .sync)
    (he : s.LeavesEarly i e) : r.entry ∉ s.entriesAt r.spot := by
  cases e with
  | act j a =>
    obtain ⟨rfl, hearly⟩ := he
    obtain ⟨t, k, pc, n, ha⟩ := act_acted hstep
    rw [ha.running] at hearly
    have hw := registration_thread ha.running hi hk
    cases pc with
    | wait f w =>
      have hreg : w.registration f (some t) = some r := by rw [ha.running] at hi; exact hi
      have hf : w.fits f = true := hr.wait_fits (i := j) (by rw [ha.running]; rfl)
      obtain ⟨m, hm, -⟩ := Option.bind_eq_some_iff.mp hreg
      obtain ⟨rfl, -, -⟩ := WaitPc.of_registration hreg hm
      have hearly : w.early a = true := hearly
      have hlooks : ∀ {c : CondvarId} {m : Nat}, a = .condvar c (.has false) ∨
          a = .condvar c (.remove .sync m false) → c = r.frame.cv → r.entry ∉ s.entriesAt r.spot := by
        rintro c m hact rfl hmem
        rw [Registration.spot, hk] at hmem
        exact ha.no_handle hact _ hmem hw
      cases ha.step with
      | wait f w a o ho =>
        cases ho with
        | park x b => exact hok j b r rfl hi (And.right (of_decide_eq_true hf))
        | blockCheck x d b =>
          cases b with
          | true => cases hearly
          | false => exact hlooks (m := 0) (.inl rfl) rfl
        | blockRemove x b =>
          cases b with
          | true => cases hearly
          | false => exact hlooks (.inr rfl) rfl
        | asyncRemove x b =>
          have hasync : r.frame.kind = .async := And.left (of_decide_eq_true hf)
          rw [hk] at hasync; cases hasync
        | _ => cases hearly
    | _ => cases hearly
  | cancel j =>
    obtain rfl : j = i := he
    rw [hr.cancel_kind hi hstep] at hk; cases hk
  | _ => exact he.elim

theorem owned_step (hr : s.Reachable) (hs : ∀ c, s.Owned c .sync) (hok : s.ParksUntilPopped e)
    (hstep : s.step e = some s') (c : CondvarId) : s'.Owned c .sync := by
  intro x hx
  rcases listed_step hr hstep hx with hold | hnew
  · obtain ⟨i, r, hi, hspot, rfl⟩ := hs c x hold
    injection hspot with hc hk
    refine ⟨i, r, ?_, by rw [Registration.spot, hc, hk], rfl⟩
    refine hr.owner_stays hstep hi (hc ▸ hk ▸ hs c) (fun he => ?_) (mem_waitsAt.mpr ⟨_, hx, rfl⟩)
    exact early_absent hr hok hstep hi hk he (by rw [Registration.spot, hc, hk]; exact hold)
  · exact hnew

/-- The run lemma. -/
theorem owned_of_run {cfg : Config} (h : RunWhere State.step ParksUntilPopped cfg.init s) :
    s.Reachable ∧ ∀ c, s.Owned c .sync := by
  refine h.invariant (P := fun s => s.Reachable ∧ ∀ c, s.Owned c .sync) ⟨⟨cfg, .refl⟩, ?_⟩ ?_
  · intro c x hx; cases hx
  · rintro s s' e ⟨hr, hs⟩ hok hstep
    exact ⟨hr.step hstep, owned_step hr hs hok hstep⟩

/-- An entry with the waker of a wait, in the list of this wait, is its own. -/
theorem Reachable.own_entry (hr : s.Reachable) (hs : ∀ c, s.Owned c .sync) {i : CallId} {r : Registration}
    (hi : (s.call i).registration = some r) {x : Entry} (hx : x ∈ s.entriesAt r.spot)
    (hw : x.waker = r.waker) : x = r.entry := by
  have hwaker := Call.waker_of_registration hi
  unfold WaitFrame.waker? at hwaker
  cases hk : r.frame.kind with
  | sync =>
    obtain ⟨j, r', hj, hspot, rfl⟩ := hs r.frame.cv x (by rw [Registration.spot, hk] at hx; exact hx)
    injection hspot with _ hk'
    rw [(hr.registration_of_thread hj hi hk' hk hw).2]
  | spin | async =>
    simp only [hk, Option.some.injEq] at hwaker
    refine (hr.entriesApart.numbered _ x hx r.entry ?_).symm
    rw [hw, Registration.entry, ← hwaker]
    rfl

/-- A thread that is in no wait has no handle in a list. -/
theorem Reachable.no_handle (hr : s.Reachable) (hs : ∀ c, s.Owned c .sync) {i : CallId} {t : ThreadId}
    (ht : (s.call i).thread? = some t) (hi : (s.call i).registration = none) (c : CondvarId) :
    ∀ x ∈ s.entriesAt (.list c .sync), x.waker ≠ .thread t := by
  intro x hx hw
  obtain ⟨j, r, hj, hspot, rfl⟩ := hs c x hx
  injection hspot with _ hk
  have hwaker := Call.waker_of_registration hj
  simp only [WaitFrame.waker?, hk, Option.map_eq_some_iff] at hwaker
  obtain ⟨t', ht', hwj⟩ := hwaker
  obtain rfl : t' = t := Waker.thread.inj (hwj.trans hw)
  obtain rfl := hr.sane.oneCall i j t' ht ht'
  rw [hi] at hj
  cases hj

end State

end WasmSafeMutex
