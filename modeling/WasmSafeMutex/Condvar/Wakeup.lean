import WasmSafeMutex.Entries

/-!
# A condition variable loses no wakeup

A call registers before it drops its guard. From then on its waker is in the list, or with
a notifier, or the wake is there, until the call leaves the wait.
-/

namespace WasmSafeMutex

open Interleaving

variable {V : Type}

/-! ## Leaving the wait -/

/-- After the deadline, or after a return from `park_timeout` that will be checked. -/
def WaitPc.leaves : WaitPc → Bool
  | .blockRemove _ | .blockCheck _ _ | .asyncRemove _ | .asyncSend _ => true
  | _ => false

theorem WaitPc.not_leaves_of_starts {w : WaitPc} (h : w.starts = true) : w.leaves = false := by
  cases w <;> first | rfl | cases h

def Pc.leaves : Pc V → Bool
  | .wait _ w => w.leaves
  | _ => false

def Call.leaves (c : Call V) : Bool := c.pc?.any Pc.leaves

/-- The call goes on to take the mutex again. The notification that a timed out future sends
to itself comes before that. -/
def Pc.relocks : Pc V → Bool
  | .lock _ (.relock _) | .wait _ (.asyncSend _) => true
  | _ => false

/-- A registered call waits with the waker that it has registered, until it leaves. -/
theorem WaitPc.awaits_of_registration {f : WaitFrame} {w : WaitPc} {o : Option ThreadId}
    {r : Registration} (hf : w.fits f = true) (hr : w.registration f o = some r) :
    w.awaits o = some (r.frame.kind, r.waker) ∧ r.frame = f ∨ w.leaves = true := by
  simp only [WaitPc.registration, Option.bind_eq_some_iff, Option.map_eq_some_iff] at hr
  obtain ⟨n, hn, x, hx, rfl⟩ := hr
  rcases f with ⟨cv, k, d⟩
  cases w <;> cases hn <;> simp_all [WaitPc.fits, WaitPc.awaits, WaitPc.leaves, WaitFrame.waker?]

/-! ## `notify_all` and the lists -/

def Kind.rank : Kind → Nat
  | .spin => 0
  | .sync => 1
  | .async => 2

theorem Kind.rank_inj {k k' : Kind} (h : k.rank = k'.rank) : k = k' := by
  cases k <;> cases k' <;> first | rfl | cases h

/-- The `notify_all` has still to take the list of this kind. -/
def NotifyPc.owes (k : Kind) : NotifyPc → Bool
  | .take k' => k'.rank ≤ k.rank
  | .wakeAll k' _ _ => k'.rank < k.rank
  | _ => false

def Pc.owesNotify (c : CondvarId) (k : Kind) : Pc V → Bool
  | .notify c' x => c' = c && x.owes k
  | _ => false

def Call.owesNotify (c : CondvarId) (k : Kind) (call : Call V) : Bool :=
  call.pc?.any (Pc.owesNotify c k)

theorem NotifyPc.owes_drain {k k' : Kind} (h : k'.rank < k.rank) (es : List Entry) :
    ∃ x, drain k' es = .goto x ∧ x.owes k = true := by
  cases es with
  | nil => cases k' <;> cases k <;> first | exact ⟨_, rfl, rfl⟩ | simp [Kind.rank] at h
  | cons e es => exact ⟨_, rfl, by simpa [NotifyPc.owes] using h⟩

theorem NotifyPc.Step.owes {c : CondvarId} {x : NotifyPc} {a : Act V} {o : NotifyOut}
    (h : x.Step c a o) {k : Kind} (hx : x.owes k = true) :
    (∃ x', o = .goto x' ∧ x'.owes k = true) ∨ ∃ es, a = .condvar c (.take k es) := by
  cases h with
  | take k' es =>
    by_cases hk : k' = k
    · subst hk; exact .inr ⟨es, rfl⟩
    · have hle : k'.rank ≤ k.rank := by simpa [NotifyPc.owes] using hx
      refine .inl (NotifyPc.owes_drain (Nat.lt_of_le_of_ne hle fun he => hk (Kind.rank_inj he)) es)
  | wakeAll k' e es => exact .inl (NotifyPc.owes_drain (by simpa [NotifyPc.owes] using hx) es)
  | _ => cases hx

theorem Pc.Step.owesNotify {k : Caller V} {pc : Pc V} {a : Act V} {n : Next V} (h : pc.Step k a n)
    {c : CondvarId} {kind : Kind} {t : ThreadId} (hpc : pc.owesNotify c kind = true) :
    (n.call k t).owesNotify c kind = true ∨ ∃ es, a = .condvar c (.take kind es) := by
  cases h with
  | notify c' x a o ho =>
    simp only [Pc.owesNotify, Bool.and_eq_true, decide_eq_true_eq] at hpc
    obtain ⟨rfl, hx⟩ := hpc
    rcases ho.owes hx with ⟨x', rfl, hx'⟩ | htake
    · exact .inl (by simp [NotifyOut.toNext, Next.call, Call.owesNotify, Call.pc?, Pc.owesNotify, hx'])
    · exact .inr htake
  | _ => cases hpc

/-- A waker comes into a list of a condition variable by a registration. -/
theorem Shared.Applied.comes {sh sh' : Shared V} {m : MutexId} {i : CallId} {t : ThreadId} {a : Act V}
    (h : sh.Applied m i t a sh') {c : CondvarId} {k : Kind} {w : Waker}
    (hw : w ∈ sh'.waitingAt (.condvar c k)) :
    w ∈ sh.waitingAt (.condvar c k) ∨ a = .register c k sh.fresh ∧ w = k.waker t sh.fresh := by
  obtain ⟨x, hx, rfl⟩ := List.mem_map.mp hw
  rcases h.listed hx with hx | ⟨rfl, rfl⟩
  · exact .inl (List.mem_map.mpr ⟨x, hx, rfl⟩)
  · exact .inr ⟨rfl, rfl⟩

theorem Shared.Applied.emptied {sh sh' : Shared V} {m : MutexId} {i : CallId} {t : ThreadId}
    {c : CondvarId} {k : Kind} {es : List Entry}
    (h : sh.Applied m i t (.condvar c (.take k es)) sh') : sh'.waitingAt (.condvar c k) = [] := by
  cases h with
  | condvar c a x hx =>
    cases hx
    rw [sh.waitingAt_update_condvar, Function.update_self]
    rfl

variable [DecidableEq V]

theorem Pc.awaits_of_registration {k : Caller V} {pc : Pc V} {o : Option ThreadId} {r : Registration}
    (hf : pc.fits k = true) (hr : pc.registration o = some r) :
    pc.awaits k o = some (r.place, r.waker) ∨ pc.leaves = true := by
  unfold Pc.registration at hr
  split at hr
  case h_1 f w =>
    simp only [Pc.fits, Bool.and_eq_true] at hf
    rcases WaitPc.awaits_of_registration hf.2 hr with ⟨ha, rfl⟩ | hl
    · exact .inl (by simp [Pc.awaits, ha, Registration.place])
    · exact .inr hl
  case h_2 u f w =>
    simp only [Pc.fits, Bool.and_eq_true] at hf
    rcases WaitPc.awaits_of_registration hf.1.2 hr with ⟨ha, rfl⟩ | hl
    · exact .inl (by simp [Pc.awaits, ha, Registration.place])
    · rw [WaitPc.not_leaves_of_starts hf.2] at hl; cases hl
  case h_3 => cases hr

theorem Call.awaits_of_registration {c : Call V} {r : Registration} (hf : c.fits = true)
    (hr : c.registration = some r) : c.awaits = some (r.place, r.waker) ∨ c.leaves = true := by
  cases c with
  | running t k pc | suspended k pc =>
    refine (Pc.awaits_of_registration hf hr).imp_right fun hl => ?_
    simpa [Call.leaves, Call.pc?] using hl
  | _ => cases hr

namespace State

variable {s s' : State V} {e : Event V}

theorem Reachable.wake_due (h : s.Reachable) {i : CallId} {r : Registration}
    (hr : (s.call i).registration = some r) :
    r.waker ∈ s.sh.waitingAt r.place ∨ (∃ j, r.waker ∈ (s.call j).delivers r.place) ∨
      s.sh.woken r.waker = true ∨ r.waker ∉ s.sh.waitingAt r.place ∧ (s.call i).leaves = true := by
  by_cases hl : r.waker ∈ s.sh.waitingAt r.place
  · exact .inl hl
  · rcases Call.awaits_of_registration (h.fits i) hr with ha | ha
    · rcases h.delivered i _ _ ha with hw | hw | hw
      · exact .inl hw
      · exact .inr (.inl hw)
      · exact .inr (.inr (.inl hw))
    · exact .inr (.inr (.inr ⟨hl, ha⟩))

/-- A call that leaves, and whose handle is gone from the list, goes to take the mutex. -/
theorem Reachable.leaves_relocks (h : s.Reachable) {i : CallId} {r : Registration} {a : Act V}
    (hr : (s.call i).registration = some r) (hl : (s.call i).leaves = true)
    (hw : r.waker ∉ s.sh.waitingAt r.place) (hstep : s.step (.act i a) = some s') :
    (s'.call i).pc?.any Pc.relocks = true := by
  obtain ⟨t, k, pc, n, ha⟩ := act_acted hstep
  have hf := h.fits i
  rw [ha.running] at hr hl hf
  have happ := ha.applied
  have hcall := ha.call_self
  cases ha.step with
  | wait f w a o ho =>
    simp only [Call.fits, Pc.fits, Bool.and_eq_true] at hf
    cases ho with
    | blockCheck x d b =>
      cases b with
      | false => simp [hcall, Next.call, WaitOut.toNext, Call.pc?, Pc.relocks]
      | true =>
        obtain ⟨-, hfound⟩ := happ.found
        exfalso
        have hk : f.kind = .sync := And.left (of_decide_eq_true hf.2)
        simp only [Call.registration, Call.pc?, Option.bind_some, Pc.registration,
          WaitPc.registration, WaitPc.number?, WaitFrame.waker?, hk, Call.thread?, Option.map_some,
          Option.some.injEq] at hr
        subst hr
        exact hw (by simpa [Registration.place, hk] using hfound)
    | blockRemove x b | asyncSend x => simp [hcall, Next.call, WaitOut.toNext, Call.pc?, Pc.relocks]
    | asyncRemove x b =>
      cases b <;> simp [hcall, Next.call, WaitOut.toNext, Call.pc?, Pc.relocks]
    | _ => cases hl
  | _ => cases hl

end State

/-! ## A whole run -/

namespace State

variable {s s' : State V} {e : Event V}

/-- Call `N` has still to take the list in which wait `r` of call `i` is registered, or the
handle of that wait is not in it. -/
structure Swept (s : State V) (i N : CallId) (r : Registration) : Prop where
  number : r.number < s.sh.fresh
  swept : ∀ r', (s.call i).registration = some r' → r'.number = r.number →
    r' = r ∧ ((s.call N).owesNotify r.frame.cv r.frame.kind = true ∨ r.waker ∉ s.sh.waitingAt r.place)

/-- While the wait goes on, its waker does not come back into the list. -/
theorem Reachable.stays_out (h : s.Reachable) {i : CallId} {r : Registration}
    (hr : (s.call i).registration = some r) (hw : r.waker ∉ s.sh.waitingAt r.place)
    (hstep : s.step e = some s') : r.waker ∉ s'.sh.waitingAt r.place := by
  rcases step_cases h.sane.numbered hstep with ⟨j, a, t, k, pc, n, -, ha⟩ | ⟨j, c, ht⟩ | ha
  · intro hw'
    obtain ⟨rfl, hwake⟩ := (ha.applied.comes hw').resolve_left hw
    have hlt := h.number_lt_fresh hr
    have hwaker := Call.waker_of_registration hr
    unfold WaitFrame.waker? at hwaker
    cases hk : r.frame.kind with
    | spin | async =>
      -- The pushed number is fresh, and the number of the wait is not.
      simp only [hk, Option.some.injEq] at hwaker
      rw [hk, ← hwaker] at hwake
      injection hwake with hnum
      exact absurd hlt (by rw [hnum]; exact Nat.lt_irrefl _)
    | sync =>
      -- The thread of the wait is busy with it.
      simp only [hk, Option.map_eq_some_iff] at hwaker
      obtain ⟨t', ht', hwaker⟩ := hwaker
      rw [hk, ← hwaker] at hwake
      cases hwake
      obtain rfl := h.sane.oneCall i j t ht' (by rw [ha.running]; rfl)
      obtain ⟨f, rfl, -⟩ := ha.step.of_register
      rw [ha.running] at hr
      cases hr
  · rw [ht.sh]; exact hw
  · have hlists : s'.sh.waitingAt r.place = s.sh.waitingAt r.place := by
      simp [Registration.place, Shared.waitingAt, ha.around.condvar]
    rw [hlists]; exact hw

/-- A `notify_all` goes on owing a list until it takes it. -/
theorem Reachable.owes_step (h : s.Reachable) {N : CallId} {c : CondvarId} {k : Kind}
    (hN : (s.call N).owesNotify c k = true) (hstep : s.step e = some s') :
    (s'.call N).owesNotify c k = true ∨ ∃ es, e = .act N (.condvar c (.take k es)) := by
  obtain ⟨pc, hpc, howes⟩ := (Option.any_eq_true ..).mp hN
  have hp : pc.pending = false := by cases pc <;> first | rfl | cases howes
  rcases h.sane.goes_on hstep hpc hp with hcall | ⟨a, t, k', n, rfl, ha⟩
  · rw [hcall]; exact .inl hN
  · rw [ha.call_self]
    refine (ha.step.owesNotify howes).imp_right ?_
    rintro ⟨es, rfl⟩
    exact ⟨es, rfl⟩

theorem take_empties {N : CallId} {c : CondvarId} {k : Kind} {es : List Entry}
    (hstep : s.step (.act N (.condvar c (.take k es))) = some s') : s'.sh.waitingAt (.condvar c k) = [] := by
  obtain ⟨t, k', pc, n, ha⟩ := act_acted hstep
  exact ha.applied.emptied

theorem Swept.step {i N : CallId} {r : Registration} (h : s.Reachable) (hs : s.Swept i N r)
    (hstep : s.step e = some s') : s'.Swept i N r := by
  refine ⟨Nat.lt_of_lt_of_le hs.number (fresh_mono h.sane.numbered hstep), fun r' hr' hnum => ?_⟩
  rcases registration_step h hstep hr' with hr | ⟨-, hfresh⟩
  · obtain ⟨rfl, hswept⟩ := hs.swept r' hr hnum
    refine ⟨rfl, ?_⟩
    rcases hswept with hN | hout
    · refine (h.owes_step hN hstep).imp_right ?_
      rintro ⟨es, rfl⟩
      rw [Registration.place, take_empties hstep]
      exact List.not_mem_nil
    · exact .inr (h.stays_out hr hout hstep)
  · exact absurd hs.number (by rw [← hnum, hfresh]; exact Nat.lt_irrefl _)

/-- A call that has dropped its guard is registered. -/
theorem Reachable.registered (h : s.Reachable) {i : CallId} {f : WaitFrame} {w : WaitPc}
    (hpc : (s.call i).pc? = some (.wait f w)) (hw : w.released = true) :
    ∃ r, (s.call i).registration = some r ∧ r.frame = f := by
  obtain ⟨n, hn⟩ : ∃ n, w.number? = some n := by
    cases w <;> first | exact ⟨_, rfl⟩ | cases hw
  obtain ⟨x, hx⟩ : ∃ x, f.waker? (s.call i).thread? n = some x := by
    have hf := h.fits i
    have hpend := h.sane.pending i
    generalize s.call i = c at hpc hf hpend
    cases c with
    | running t k pc => rcases f with ⟨cv, kind, d⟩; cases kind <;> exact ⟨_, rfl⟩
    | suspended k pc =>
      cases hpc
      have := hpend k _ rfl
      simp only [Call.fits, Pc.fits, Bool.and_eq_true] at hf
      have hk : f.kind = .async := by
        cases w with
        | await | raceNotify => exact And.left (of_decide_eq_true hf.2)
        | _ => cases this
      exact ⟨.cont n, by simp [WaitFrame.waker?, hk]⟩
    | _ => cases hpc
  exact ⟨⟨f, n, x⟩, by simp [Call.registration, hpc, Pc.registration, WaitPc.registration, hn, hx], rfl⟩

theorem Reachable.swept (h : s.Reachable) {i N : CallId} {t : ThreadId} {k : Caller V} {o : Outcome V}
    {r : Registration} (hrun : Run State.step s s') (hr : (s.call i).registration = some r)
    (hN : s.call N = .running t k (.notify r.frame.cv notifyAll)) (hdone : s'.call N = .done o)
    (hr' : (s'.call i).registration = some r) : r.waker ∉ s'.sh.waitingAt r.place := by
  have hstart : s.Swept i N r := by
    refine ⟨h.number_lt_fresh hr, fun r' he _ => ?_⟩
    cases hr.symm.trans he
    refine ⟨rfl, .inl ?_⟩
    simp [hN, Call.owesNotify, Call.pc?, Pc.owesNotify, notifyAll, NotifyPc.owes, Kind.rank]
  obtain ⟨-, hs⟩ := hrun.invariant (P := fun s => s.Reachable ∧ s.Swept i N r) ⟨h, hstart⟩
    fun u v a hu _ hstep => ⟨hu.1.step hstep, hu.2.step hu.1 hstep⟩
  obtain ⟨-, hs | hs⟩ := hs.swept r hr' rfl
  · rw [hdone] at hs; cases hs
  · exact hs

end State

end WasmSafeMutex
