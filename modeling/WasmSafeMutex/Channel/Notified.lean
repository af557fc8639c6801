import WasmSafeMutex.Channel.Halves
import WasmSafeMutex.Condvar.NotifyOne

/-!
# Who sees to a value

A send has told of its value when its `notify_one` is done. A receive that has been notified
goes on until it looks at the queue, unless it gives up.
-/

namespace WasmSafeMutex

open Interleaving

variable {V : Type}

/-! ## Who sees to a value -/

/-- A send between its `push_back` and its look into the list of this kind. -/
def Pc.due (kind : Kind) : Pc V → Bool
  | .unlock _ .notify => true
  | .notify c (.pop k) => c = .channel ∧ k.rank ≤ kind.rank
  | _ => false

/-- A send between its `push_back` and the end of its `notify_one`. -/
def Pc.announces : Pc V → Bool
  | .unlock _ .notify => true
  | .notify c x => c = .channel ∧ x.all = false
  | _ => false

/-- A receive that was notified goes to look at the queue. -/
def Pc.rechecks : Pc V → Bool
  | .lock _ (.relock r) => r ≠ some true
  | .recvPop => true
  | _ => false

def Pc.sendsItself : Pc V → Bool
  | .wait _ (.asyncSend _) => true
  | _ => false

/-- Receive `i` stops to wait, or its caller drops it, before it has looked at the queue again. -/
def Event.givesUp (i : CallId) : Event V → Prop
  | .cancel j => j = i
  | .act j (.condvar _ (.remove .async _ false)) => j = i
  | _ => False

theorem Pc.announces_of_due {pc : Pc V} {kind : Kind} (h : pc.due kind = true) : pc.announces = true := by
  unfold Pc.due at h
  split at h
  case h_1 => rfl
  case h_2 c k =>
    simp only [decide_eq_true_eq] at h
    simp [Pc.announces, h.1, NotifyPc.all]
  case h_3 => cases h

theorem Call.receives_of_receiveAt {c : Call V} {ν : Pc V → Bool} (h : c.receiveAt ν = true) :
    c.receives = true := by
  unfold Call.receiveAt at h
  split at h
  case h_1 | h_2 => rfl
  case h_3 => cases h

theorem Pc.Step.due {k : Caller V} {pc : Pc V} {a : Act V} {n : Next V} (h : pc.Step k a n) {kind : Kind}
    (hpc : pc.due kind = true) : (∃ q, n = .goto q ∧ q.due kind = true) ∨
      (∃ k' x, a = .condvar .channel (.pop k' (some x))) ∨ a = .condvar .channel (.pop kind none) := by
  cases h with
  | unlock u ret a o ho =>
    cases ret with
    | notify =>
      cases o with
      | goto u' => exact .inl ⟨_, rfl, rfl⟩
      | finished => exact .inl ⟨_, rfl, by simp [notifyOne, Pc.due, Kind.rank]⟩
    | _ => cases hpc
  | notify c x a o ho =>
    cases ho with
    | popSome k' x =>
      simp only [Pc.due, decide_eq_true_eq] at hpc
      obtain ⟨rfl, -⟩ := hpc
      exact .inr (.inl ⟨k', x, rfl⟩)
    | popNone k' =>
      simp only [Pc.due, decide_eq_true_eq] at hpc
      obtain ⟨rfl, hle⟩ := hpc
      by_cases hk : k' = kind
      · subst hk; exact .inr (.inr rfl)
      · -- The next list comes no later than this one.
        have hlt := Nat.lt_of_le_of_ne hle fun he => hk (Kind.rank_inj he)
        refine .inl ?_
        cases k' with
        | async => cases kind <;> simp [Kind.rank] at hlt
        | spin | sync =>
          refine ⟨_, rfl, ?_⟩
          simp only [Pc.due, decide_eq_true_eq]
          exact ⟨trivial, hlt⟩
    | _ => cases hpc
  | _ => cases hpc

theorem Pc.Step.rechecks [DecidableEq V] {rk : RecvKind} {pc : Pc V} {a : Act V} {n : Next V}
    (h : pc.Step (.recv rk) a n) (hf : pc.fits (.recv rk) = true) (hpc : pc.rechecks = true) :
    (∃ q, n.pc? = some q ∧ q.rechecks = true) ∨ ∃ o, a = .chan (.popFront o) := by
  cases h with
  | lock l ret a o ho =>
    cases ret with
    | first => cases hpc
    | relock r =>
      simp only [Pc.fits, Bool.and_eq_true] at hf
      have hr : r ≠ some true := by simpa [Pc.rechecks] using hpc
      cases o with
      | goto l' | yield l' => exact .inl ⟨_, rfl, hpc⟩
      | acquired =>
        refine .inl ⟨.recvPop, ?_, rfl⟩
        rcases r with _ | _ | _
        · rfl
        · rfl
        · exact absurd rfl hr
      | failed => cases ho.untimed hf.2
  | popSome v => exact .inr ⟨_, rfl⟩
  | popNone => exact .inr ⟨_, rfl⟩
  | _ => cases hpc

/-! ## One operation of a waiting receive -/

theorem WaitFrame.waker_some (f : WaitFrame) (t : ThreadId) (n : Nat) :
    f.waker? (some t) n = some (f.kind.waker t n) := by
  rcases f with ⟨cv, k, d⟩
  cases k <;> rfl

theorem Shared.Applied.found_own {sh sh' : Shared V} {m : MutexId} {i : CallId} {t : ThreadId}
    {c : CondvarId} {k : Kind} {n : Nat} (h : sh.Applied m i t (.condvar c (.remove k n true)) sh') :
    k.waker t n ∈ sh.waitingAt (.condvar c k) := by
  cases h with
  | condvar c a x hx =>
    cases hx with
    | removed k n es x es' hk hx =>
      refine List.mem_map.mpr ⟨x, ?_, hx⟩
      rw [hk]
      exact List.mem_append_right _ List.mem_cons_self

/-- A receive whose entry is gone from the list reports no timeout, unless it gives up. -/
theorem WaitPc.Step.hears {f : WaitFrame} {w : WaitPc} {a : Act V} {o : WaitOut} {sh sh' : Shared V}
    {m : MutexId} {i : CallId} {t : ThreadId} (h : w.Step f a o) (hf : w.fits f = true)
    (ha : sh.Applied m i t a sh') {r : Registration} (hr : w.registration f (some t) = some r)
    (hout : r.waker ∉ sh.waitingAt r.place) (hself : ∀ n, w ≠ .asyncSend n) :
    (∃ w', o.pc? = some w' ∧ ∀ n, w' ≠ .asyncSend n) ∨ (∃ b, o = .relock b ∧ b ≠ some true) ∨
      ∃ n, a = .condvar f.cv (.remove .async n false) := by
  have hfound : ∀ k n, w.number? = some n → f.kind = k → a ≠ .condvar f.cv (.remove k n true) := by
    rintro k n hn rfl rfl
    obtain ⟨hframe, -, hw⟩ := WaitPc.of_registration hr hn
    rw [f.waker_some, Option.some.injEq] at hw
    apply hout
    rw [Registration.place, hframe, ← hw]
    exact ha.found_own
  cases h with
  | register n => cases hr
  | spawn n d x => exact .inl ⟨_, rfl, by simp⟩
  | spinLoad n b =>
    rcases f with ⟨cv, k, d⟩
    cases b with
    | true => cases d <;> exact .inr (.inl ⟨_, rfl, by simp [WaitFrame.notified]⟩)
    | false => cases d <;> exact .inl ⟨_, rfl, by simp [WaitFrame.spinAgain]⟩
  | spinNow n d x | blockNow n d x => split <;> exact .inl ⟨_, rfl, by simp⟩
  | spinRemove n b =>
    cases b with
    | true => exact absurd rfl (hfound .spin n rfl (And.left (of_decide_eq_true hf)))
    | false => exact .inl ⟨_, rfl, by simp⟩
  | spinDrain n b | blockCheck n d b | raceNotify n x b =>
    cases b with
    | true => first | exact .inr (.inl ⟨_, rfl, by simp⟩) | exact .inl ⟨_, rfl, by simp⟩
    | false => first | exact .inr (.inl ⟨_, rfl, by simp⟩) | exact .inl ⟨_, rfl, by simp⟩
  | park n b => exact .inr (.inl ⟨_, rfl, by simp⟩)
  | parkTimeout n d b => exact .inl ⟨_, rfl, by simp⟩
  | blockRemove n b =>
    cases b with
    | true => exact absurd rfl (hfound .sync n rfl (And.left (of_decide_eq_true hf)))
    | false => exact .inr (.inl ⟨_, rfl, by simp⟩)
  | await n b =>
    cases b with
    | true => exact .inr (.inl ⟨_, rfl, by simp⟩)
    | false => exact .inl ⟨_, rfl, by simp⟩
  | raceTimeout n x b => cases b <;> exact .inl ⟨_, rfl, by simp⟩
  | asyncRemove n b =>
    cases b with
    | true => exact absurd rfl (hfound .async n rfl (And.left (of_decide_eq_true hf)))
    | false => exact .inr (.inr ⟨n, rfl⟩)
  | asyncSend n => exact absurd rfl (hself n)

theorem Call.not_due_of_registration {c : Call V} {r : Registration} (h : c.registration = some r) :
    (∀ kind, c.pc?.any (Pc.due kind) = false) ∧ c.receiveAt Pc.rechecks = false := by
  obtain ⟨pc, hpc, hreg⟩ := Option.bind_eq_some_iff.mp h
  have hplace : (∀ kind, pc.due kind = false) ∧ pc.rechecks = false := by
    unfold Pc.registration at hreg
    split at hreg
    case h_1 f w | h_2 u f w => exact ⟨fun _ => rfl, rfl⟩
    case h_3 => cases hreg
  cases c with
  | running t k pc | suspended k pc =>
    cases hpc
    refine ⟨hplace.1, ?_⟩
    cases k <;> first | rfl | exact hplace.2
  | _ => cases hpc

namespace State

variable {s s' : State V} {e : Event V} {i : CallId}

/-- Receive `i` has been notified, and has not looked at the queue since. -/
def Notified (s : State V) (i : CallId) : Prop :=
  (s.call i).receiveAt Pc.rechecks = true ∨
    (s.call i).receives = true ∧ ∃ r, (s.call i).registration = some r ∧
      r.waker ∉ s.sh.waitingAt r.place ∧ (s.call i).pc?.any Pc.sendsItself = false

/-- Call `i` will see to a value that a receive of this kind waits for. -/
def SeesTo (s : State V) (kind : Kind) (i : CallId) : Prop :=
  (s.call i).pc?.any (Pc.due kind) = true ∨ s.Notified i

theorem recv_of_receives {c : Call V} {t : ThreadId} {k : Caller V} {pc : Pc V} (hc : c = .running t k pc)
    (h : c.receives = true) : ∃ rk, k = .recv rk := by
  subst hc
  cases k with
  | recv rk => exact ⟨rk, rfl⟩
  | _ => cases h

variable [DecidableEq V]

/-- A receive that is registered and notified goes on to look at the queue. -/
theorem Acted.hears {t : ThreadId} {rk : RecvKind} {pc : Pc V} {a : Act V} {n : Next V} (hr : s.Reachable)
    (hstep : s.step (.act i a) = some s') (ha : Acted s s' i t (.recv rk) pc a n) {r : Registration}
    (hreg : pc.registration (some t) = some r) (hout : r.waker ∉ s.sh.waitingAt r.place)
    (hself : pc.sendsItself = false) :
    s'.Notified i ∨ ∃ c m, a = .condvar c (.remove .async m false) := by
  have hf : pc.fits (.recv rk) = true := by
    have := hr.fits i
    rwa [ha.running] at this
  have hold : (s.call i).registration = some r := by rw [ha.running]; exact hreg
  have hout' := hr.stays_out hold hout hstep
  unfold Notified
  rw [ha.call_self]
  cases ha.step with
  | unlock u ret a o ho =>
    cases ret with
    | wait f w =>
      simp only [Pc.fits, Bool.and_eq_true] at hf
      cases o with
      | goto u' => exact .inl (.inr ⟨rfl, r, hreg, hout', rfl⟩)
      | finished =>
        refine .inl (.inr ⟨rfl, r, hreg, hout', ?_⟩)
        cases w with
        | asyncSend => cases hf.2
        | _ => rfl
    | _ => cases hreg
  | wait f w a o ho =>
    simp only [Pc.fits, Bool.and_eq_true] at hf
    have hne : ∀ m, w ≠ .asyncSend m := by
      rintro m rfl
      cases hself
    rcases ho.hears hf.2 ha.applied hreg hout hne with ⟨w', ho', hne'⟩ | ⟨b, rfl, hb⟩ | ⟨m, rfl⟩
    · refine .inl (.inr ⟨?_, r, ho.stays ho' hf.2 hreg, hout', ?_⟩)
      · cases o <;> rfl
      · cases o with
        | drop => rfl
        | relock => cases ho'
        | goto w'' | yield w'' =>
          cases ho'
          cases w' <;> first | rfl | exact absurd rfl (hne' _)
    · refine .inl (.inl ?_)
      simpa [WaitOut.toNext, Next.call, Call.receiveAt, Pc.rechecks] using hb
    · exact .inr ⟨_, m, rfl⟩
  | _ => cases hreg

theorem Notified.acted {t : ThreadId} {k : Caller V} {pc : Pc V} {a : Act V} {n : Next V} (hr : s.Reachable)
    (hstep : s.step (.act i a) = some s') (ha : Acted s s' i t k pc a n) (hs : s.Notified i) :
    s'.Notified i ∨ (∃ o, a = .chan (.popFront o)) ∨ ∃ c m, a = .condvar c (.remove .async m false) := by
  have hf := hr.fits i
  unfold Notified at hs
  rw [ha.running] at hs hf
  rcases hs with hs | ⟨hrec, r, hreg, hout, hself⟩
  · cases k with
    | recv rk =>
      rcases ha.step.rechecks hf hs with ⟨q, hn, hq⟩ | hpop
      · refine .inl (.inl ?_)
        rw [ha.call_self]
        cases n <;> cases hn <;> exact hq
      · exact .inr (.inl hpop)
    | _ => cases hs
  · obtain ⟨rk, rfl⟩ := recv_of_receives rfl hrec
    exact (Acted.hears hr hstep ha hreg hout hself).imp_right .inr

theorem Notified.step (hr : s.Reachable) (hstep : s.step e = some s') (hs : s.Notified i) :
    s'.Notified i ∨ (∃ o, e = .act i (.chan (.popFront o))) ∨ e.givesUp i := by
  -- What happens elsewhere leaves it so.
  have hother : s'.call i = s.call i → s'.Notified i := by
    intro hcall
    unfold Notified
    rw [hcall]
    refine hs.imp_right ?_
    rintro ⟨hrec, r, hreg, hout, hself⟩
    exact ⟨hrec, r, hreg, hr.stays_out hreg hout hstep, hself⟩
  rcases call_cases hr.sane.numbered hstep i with hcall | ⟨a, t, k, pc, n, rfl, ha⟩ | ⟨c, ht⟩
  · exact .inl (hother hcall)
  · rcases hs.acted hr hstep ha with h | ⟨o, rfl⟩ | ⟨c, m, rfl⟩
    · exact .inl h
    · exact .inr (.inl ⟨o, rfl⟩)
    · exact .inr (.inr rfl)
  · have hturn := ht.turn
    have hself := ht.call_self
    have hsh := ht.sh
    unfold Notified at hs ⊢
    rw [hself, hsh]
    generalize s.call i = c₀ at hturn hs
    cases hturn with
    | begin t r => rcases hs with hs | ⟨hs, -⟩ <;> cases hs
    | wait t c w k r | dropGuard t k r =>
      rcases hs with hs | ⟨-, r, hs, -⟩ <;> cases hs
    | poll t k pc =>
      refine .inl ?_
      rcases hs with hs | ⟨hrec, r, hreg, hout, hself⟩
      · cases k <;> first | cases hs | exact .inl hs
      · exact .inr ⟨hrec, r, Pc.registration_mono t hreg, hout, hself⟩
    | cancel => exact .inr (.inr rfl)

theorem due_step (hr : s.Reachable) (hstep : s.step e = some s') {kind : Kind}
    (hs : (s.call i).pc?.any (Pc.due kind) = true) : (s'.call i).pc?.any (Pc.due kind) = true ∨
      (∃ k x, e = .act i (.condvar .channel (.pop k (some x)))) ∨
        e = .act i (.condvar .channel (.pop kind none)) := by
  obtain ⟨pc, hpc, hdue⟩ := (Option.any_eq_true ..).mp hs
  have hp : pc.pending = false := by cases pc <;> first | rfl | cases hdue
  rcases hr.sane.goes_on hstep hpc hp with hcall | ⟨a, t, k, n, rfl, ha⟩
  · rw [hcall]; exact .inl hs
  · rcases ha.step.due hdue with ⟨q, rfl, hq⟩ | ⟨k', x, rfl⟩ | rfl
    · rw [ha.call_self]; exact .inl hq
    · exact .inr (.inl ⟨k', x, rfl⟩)
    · exact .inr (.inr rfl)

/-- The ways in which a call stops to see to a value. -/
theorem SeesTo.step (hr : s.Reachable) (hstep : s.step e = some s') {kind : Kind} (hs : s.SeesTo kind i) :
    s'.SeesTo kind i ∨ (∃ o, e = .act i (.chan (.popFront o))) ∨ (s.Notified i ∧ e.givesUp i) ∨
      (∃ k x, e = .act i (.condvar .channel (.pop k (some x)))) ∨
        e = .act i (.condvar .channel (.pop kind none)) := by
  rcases hs with hs | hs
  · rcases due_step hr hstep hs with h | h
    · exact .inl (.inl h)
    · exact .inr (.inr (.inr h))
  · rcases hs.step hr hstep with h | h | h
    · exact .inl (.inr h)
    · exact .inr (.inl h)
    · exact .inr (.inr (.inl ⟨hs, h⟩))

end State

end WasmSafeMutex
