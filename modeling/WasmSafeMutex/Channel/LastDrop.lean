import WasmSafeMutex.Channel.Halves
import WasmSafeMutex.Condvar.Owners
import WasmSafeMutex.Condvar.Wakeup

/-!
# The notification of the last drop

`Sender::drop` does not take the lock of the queue. Its `notify_all` reaches every receive that
has put itself into a list before, and misses one that has seen a sender and is about to.
-/

namespace WasmSafeMutex

open Interleaving

variable {V : Type}

/-- An untimed receive that has seen a sender, and puts itself into the list of this kind next.
`wait_sync` spins on a thread that cannot block. -/
def Pc.aims (supported : Bool) (kind : Kind) : Pc V → Bool
  | .waitProbe c none => c = .channel ∧ kind = if supported then .sync else .spin
  | .wait f .register => f.cv = .channel ∧ f.kind = kind ∧ f.deadline = none
  | _ => false

def Call.aims (supported : ThreadId → Bool) (kind : Kind) : Call V → Bool
  | .running t _ pc => pc.aims (supported t) kind
  | _ => false

/-- The places that aim come after a look at `sender_count`. -/
theorem Pc.Step.aims [DecidableEq V] {k : Caller V} {pc q : Pc V} {a : Act V} {n : Next V}
    (h : pc.Step k a n) (hf : pc.fits k = true) (hn : n.pc? = some q) {supported : Bool}
    (ha : ∀ b, a = .probe b → b = supported) {kind : Kind} (hq : q.aims supported kind = true) :
    pc.aims supported kind = true ∨ ∃ m, m ≠ 0 ∧ a = .chan (.loadCount m) := by
  cases h with
  | lock l ret a o ho =>
    cases o with
    | goto | yield => cases hn; cases hq
    | acquired => rcases k.onLocked_pc ret hn with rfl | rfl | rfl <;> cases hq
    | failed => cases hn
  | unlock u ret a o ho =>
    cases o with
    | goto => cases hn; cases hq
    | finished =>
      cases ret with
      | finish => cases hn
      | notify => cases hn; cases hq
      | wait f w =>
        cases hn
        simp only [Pc.fits, Bool.and_eq_true] at hf
        cases w <;> first | cases hq | cases hf.2
  | wait f w a o ho =>
    cases o with
    | drop | relock => cases hn; cases hq
    | goto w' | yield w' =>
      cases hn
      have hne := ho.ne_register rfl
      cases w' <;> first | cases hq | exact absurd rfl hne
  | notify c x a o ho => cases o <;> cases hn; cases hq
  | waitProbe c d b =>
    cases hn
    obtain rfl := ha b rfl
    refine .inl ?_
    simp only [Pc.aims, decide_eq_true_eq] at hq
    obtain ⟨hc, hk, rfl⟩ := hq
    simp [Pc.aims, hc, hk]
  | sendCheck1 σ st v b hk | sendCheck2 σ st v b hk => cases b <;> cases hn <;> cases hq
  | recvCount rk m hk =>
    by_cases hm : m = 0
    · subst hm; cases hn; cases hq
    · exact .inr ⟨m, hm, rfl⟩
  | fetchSub σ old hk => split at hn <;> cases hn; cases hq
  | _ => cases hn; cases hq

theorem WaitPc.frame_of_registration {f : WaitFrame} {o : Option ThreadId} {w : WaitPc} {r : Registration}
    (h : w.registration f o = some r) : r.frame = f := by
  obtain ⟨n, hn, -⟩ := Option.bind_eq_some_iff.mp h
  exact (WaitPc.of_registration h hn).1

/-- The wait of an untimed receive has no deadline after which it would leave. -/
theorem Pc.untimed_stays [DecidableEq V] {pc : Pc V} {st : Strategy} {o : Option ThreadId} {r : Registration}
    (hf : pc.fits (.recv (.recv st none)) = true) (hr : pc.registration o = some r) :
    pc.leaves = false ∧ r.frame.cv = .channel := by
  unfold Pc.registration at hr
  split at hr
  case h_1 f w =>
    rw [WaitPc.frame_of_registration hr]
    simp only [Pc.fits, Bool.and_eq_true, Caller.timed, Caller.uses, Bool.or_eq_true, decide_eq_true_eq] at hf
    obtain ⟨⟨⟨-, hd⟩, hcv⟩, hw⟩ := hf
    refine ⟨?_, hcv⟩
    cases w <;> first | rfl | simp_all [WaitPc.fits]
  case h_2 u f w =>
    rw [WaitPc.frame_of_registration hr]
    simp only [Pc.fits, Bool.and_eq_true, Caller.uses, decide_eq_true_eq] at hf
    exact ⟨rfl, hf.1.1.2⟩
  case h_3 => cases hr

namespace State

/-- No `notify_all` of the channel takes a list while an untimed receive that has seen a sender is
about to put itself into it. -/
def TakesSettled (s : State V) (e : Event V) : Prop :=
  ∀ N kind es, e = .act N (.condvar .channel (.take kind es)) →
    ∀ i, (s.call i).aims s.sh.atomicsWait kind = false

/-- After the last drop: the list of an untimed receive that waits, or is about to, has still to be
taken by a `notify_all`. -/
structure Announced (s : State V) : Prop where
  aimed : s.sh.chan.senders = [] → ∀ i kind, (s.call i).aims s.sh.atomicsWait kind = true →
    ∃ N, (s.call N).owesNotify .channel kind = true
  listed : s.sh.chan.senders = [] → ∀ i st r, (s.call i).caller? = some (.recv (.recv st none)) →
    (s.call i).registration = some r → r.waker ∈ s.sh.waitingAt r.place →
    ∃ N, (s.call N).owesNotify .channel r.frame.kind = true

variable [DecidableEq V] {s s' : State V} {e : Event V}

theorem atomicsWait_step (hr : s.Reachable) (hstep : s.step e = some s') :
    s'.sh.atomicsWait = s.sh.atomicsWait := by
  rcases step_cases hr.sane.numbered hstep with ⟨i, a, t, k, pc, n, -, ha⟩ | ⟨i, c, ht⟩ | ha
  · have happ := ha.applied
    generalize s'.sh = sh' at happ
    cases happ <;> rfl
  · rw [ht.sh]
  · exact ha.around.atomicsWait

/-- Once all senders are gone, no receive aims at a list that did not before. -/
theorem Reachable.aims_step (hr : s.Reachable) (hstep : s.step e = some s') (hnil : s.sh.chan.senders = [])
    {i : CallId} {kind : Kind} (hi : (s'.call i).aims s'.sh.atomicsWait kind = true) :
    (s.call i).aims s.sh.atomicsWait kind = true := by
  rw [atomicsWait_step hr hstep] at hi
  rcases call_cases hr.sane.numbered hstep i with hcall | ⟨a, t, k, pc, n, rfl, ha⟩ | ⟨c, ht⟩
  · rw [hcall] at hi; exact hi
  · have hf := hr.fits i
    rw [ha.running] at hf ⊢
    rw [ha.call_self] at hi
    have happ := ha.applied
    generalize s'.sh = sh' at happ
    cases n with
    | goto q =>
      refine (ha.step.aims hf rfl ?_ hi).resolve_right ?_
      · rintro b rfl
        cases happ; rfl
      · rintro ⟨m, hm, rfl⟩
        cases happ with
        | chan a x hx =>
          cases hx
          apply hm
          rw [hr.borrowed.count, hnil]
          rfl
    | yield | hold | finish => cases hi
  · rw [ht.call_self] at hi
    have hturn := ht.turn
    have hpend := hr.sane.pending i
    have hfits := hr.fits i
    generalize s.call i = c₀ at hturn hpend hfits
    cases hturn with
    | begin t r => cases r <;> cases hi
    | wait t c w k r => cases w <;> cases hi
    | dropGuard | cancel => cases hi
    | poll t k pc =>
      have hp := hpend k pc rfl
      cases pc with
      | wait f w => cases w <;> first | cases hi | cases hp
      | waitProbe => cases hp
      | _ => cases hi

/-- The drop of the last sender goes on to `notify_all`. -/
theorem Reachable.last_drop (hr : s.Reachable) (hstep : s.step e = some s') (hsome : s.sh.chan.senders ≠ [])
    (hnil : s'.sh.chan.senders = []) : ∃ N, ∀ kind, (s'.call N).owesNotify .channel kind = true := by
  cases hr.channel_step hstep with
  | same _ hc | pushed _ _ _ _ _ _ _ hc | popped _ _ _ _ _ _ _ _ hc | cleared _ _ _ _ hc =>
    rw [hc] at hnil; exact absurd hnil hsome
  | cloned _ _ _ hc => rw [hc] at hnil; cases hnil
  | dropped i t σ old hi _ hc =>
    have hmem := hr.borrowed.drops i t σ hi
    have hone : s.sh.chan.senderCount = 1 := by
      rw [hc] at hnil
      have hlen := List.length_erase_of_mem hmem
      have hpos := List.length_pos_of_mem hmem
      simp only at hnil
      rw [hnil, List.length_nil] at hlen
      rw [hr.borrowed.count]
      omega
    obtain ⟨t', k, pc, n, ha⟩ := act_acted hstep
    refine ⟨i, fun kind => ?_⟩
    rw [ha.call_self]
    have happ := ha.applied
    generalize s'.sh = sh' at happ
    cases ha.step with
    | fetchSub σ old hk =>
      cases happ with
      | chan a x hx =>
        cases hx
        rw [hone]
        cases kind <;> rfl
    | lock l ret a o ho => cases ho
    | unlock u ret a o ho => cases ho
    | wait f w a o ho => cases ho
    | notify c x a o ho => cases ho

/-- An untimed receive does not leave its wait before it has been woken. -/
theorem Reachable.untimed_stays (hr : s.Reachable) {i : CallId} {st : Strategy} {r : Registration}
    (hi : (s.call i).caller? = some (.recv (.recv st none))) (hreg : (s.call i).registration = some r) :
    (s.call i).leaves = false ∧ r.frame.cv = .channel := by
  have hf := hr.fits i
  generalize s.call i = c at hi hreg hf
  cases c with
  | running t k pc =>
    cases hi
    exact Pc.untimed_stays hf hreg
  | suspended k pc =>
    cases hi
    exact Pc.untimed_stays hf hreg
  | _ => cases hreg

/-- What a `notify_all` owed before the event it owes after it, or has taken by it. -/
theorem Announced.aimed_step (hr : s.Reachable) (hs : s.Announced) (hok : s.TakesSettled e)
    (hstep : s.step e = some s') (hnil : s.sh.chan.senders = []) {i : CallId} {kind : Kind}
    (hi : (s'.call i).aims s'.sh.atomicsWait kind = true) :
    ∃ N, (s'.call N).owesNotify .channel kind = true := by
  have hbefore := hr.aims_step hstep hnil hi
  obtain ⟨N, hN⟩ := hs.aimed hnil i kind hbefore
  rcases hr.owes_step hN hstep with hN' | ⟨es, rfl⟩
  · exact ⟨N, hN'⟩
  · have hnot := hok N kind es rfl i
    rw [hbefore] at hnot
    cases hnot

theorem Announced.listed_step (hr : s.Reachable) (hs : s.Announced) (hstep : s.step e = some s')
    (hnil : s.sh.chan.senders = []) {i : CallId} {st : Strategy} {r : Registration}
    (hi : (s'.call i).caller? = some (.recv (.recv st none))) (hreg : (s'.call i).registration = some r)
    (hw : r.waker ∈ s'.sh.waitingAt r.place) : ∃ N, (s'.call N).owesNotify .channel r.frame.kind = true := by
  have hcv := ((hr.step hstep).untimed_stays hi hreg).2
  have hcaller : (s.call i).caller? = some (.recv (.recv st none)) := by
    rcases hr.caller_step hstep hi with hcaller | ⟨t, r', -, -, -, -, hrun⟩
    · exact hcaller
    · rw [hrun] at hreg
      cases r' <;> cases hreg
  rcases registration_step hr hstep hreg with hold | ⟨rfl, -⟩
  · -- It was in the list before, and has not been taken.
    have hlisted : r.waker ∈ s.sh.waitingAt r.place := by
      by_contra hout
      exact hr.stays_out hold hout hstep hw
    obtain ⟨N, hN⟩ := hs.listed hnil i st r hcaller hold hlisted
    rcases hr.owes_step hN hstep with hN' | ⟨es, rfl⟩
    · exact ⟨N, hN'⟩
    · rw [Registration.place, hcv, take_empties hstep] at hw
      cases hw
  · -- It puts itself into the list now.
    obtain ⟨t, k, pc, n, ha⟩ := act_acted hstep
    obtain ⟨f, rfl, hc, hk⟩ := ha.step.of_register
    have hd : f.deadline = none := by
      have hf := hr.fits i
      rw [ha.running] at hf hcaller
      cases hcaller
      simp only [Call.fits, Pc.fits, Bool.and_eq_true, Caller.timed, Bool.or_eq_true] at hf
      simpa using hf.1.1.2
    have haims : (s.call i).aims s.sh.atomicsWait r.frame.kind = true := by
      rw [ha.running]
      simp [Call.aims, Pc.aims, ← hc, hcv, hk, hd]
    obtain ⟨N, hN⟩ := hs.aimed hnil i _ haims
    rcases hr.owes_step hN hstep with hN' | ⟨es, he⟩
    · exact ⟨N, hN'⟩
    · cases he

theorem Announced.step (hr : s.Reachable) (hs : s.Announced) (hok : s.TakesSettled e)
    (hstep : s.step e = some s') : s'.Announced := by
  by_cases hnil : s.sh.chan.senders = []
  · constructor
    · intro _ i kind hi
      exact hs.aimed_step hr hok hstep hnil hi
    · intro _ i st r hi hreg hw
      exact hs.listed_step hr hstep hnil hi hreg hw
  · have hlast := fun hnil' => hr.last_drop hstep hnil hnil'
    constructor
    · intro hnil' i kind _
      obtain ⟨N, hN⟩ := hlast hnil'
      exact ⟨N, hN kind⟩
    · intro hnil' i st r _ _ _
      obtain ⟨N, hN⟩ := hlast hnil'
      exact ⟨N, hN r.frame.kind⟩

/-! ## The receives -/

/-- Every sender has been dropped, and each of the drops has returned. -/
def AllDropped (s : State V) : Prop :=
  s.sh.chan.senders = [] ∧ ∀ i σ, (s.call i).dropsSender σ = false

/-- Call `i` is an untimed receive in its wait, and nothing that could wake it has come or is
on its way. -/
def MissesWake (s : State V) (i : CallId) : Prop :=
  ∃ st r, (s.call i).caller? = some (.recv (.recv st none)) ∧ (s.call i).registration = some r ∧
    s.sh.woken r.waker = false ∧ ∀ j, r.waker ∉ (s.call j).delivers r.place

/-- Only the drop of a half of the channel owes its lists a `notify_all`. -/
theorem Reachable.drops_of_owes (hr : s.Reachable) {N i : CallId} {kind : Kind} {rk : RecvKind}
    (hN : (s.call N).owesNotify .channel kind = true) (hi : (s.call i).caller? = some (.recv rk)) :
    ∃ σ, (s.call N).dropsSender σ = true := by
  have hf := hr.fits N
  have hpend := hr.sane.pending N
  have hdrop := hr.receiverHeld.dropped N
  generalize s.call N = c at hN hf hpend hdrop
  cases c with
  | running t k pc =>
    cases pc with
    | notify c x =>
      simp only [Call.owesNotify, Call.pc?, Option.any_some, Pc.owesNotify, Bool.and_eq_true,
        decide_eq_true_eq] at hN
      obtain ⟨rfl, hx⟩ := hN
      have hall : x.all = true := by cases x <;> first | rfl | cases hx
      simp only [Call.fits, Pc.fits, Bool.and_eq_true] at hf
      cases k with
      | dropSender σ => exact ⟨σ, by simp [Call.dropsSender, Call.caller?]⟩
      | dropReceiver =>
        rw [hr.receiverHeld.received i rk hi] at hdrop
        cases hdrop rfl
      | notify | user | recv => simp [Caller.uses, Caller.notifies] at hf
      | send => simp [Caller.notifies, hall] at hf
    | _ => cases hN
  | suspended k pc =>
    have hp := hpend k pc rfl
    cases pc <;> first | cases hN | cases hp
  | _ => cases hN

theorem drops_announced {cfg : Config} (hrun : RunWhere step TakesSettled cfg.init s)
    (hdone : s.AllDropped) (i : CallId) : ¬ s.MissesWake i := by
  rintro ⟨st, r, hi, hreg, hwoken, hnone⟩
  have hs : s.Reachable ∧ s.Announced := by
    refine hrun.invariant (P := fun s => s.Reachable ∧ s.Announced) ⟨⟨cfg, .refl⟩, ?_⟩ ?_
    · constructor
      · intro hnil; cases hnil
      · intro hnil; cases hnil
    · intro u v e hu hok huv
      exact ⟨hu.1.step huv, hu.2.step hu.1 hok huv⟩
  obtain ⟨hr, hann⟩ := hs
  have hlisted : r.waker ∈ s.sh.waitingAt r.place := by
    rcases hr.wake_due hreg with hw | ⟨j, hj⟩ | hw | ⟨-, hl⟩
    · exact hw
    · exact absurd hj (hnone j)
    · rw [hwoken] at hw; cases hw
    · rw [(hr.untimed_stays hi hreg).1] at hl; cases hl
  obtain ⟨N, hN⟩ := hann.listed hdone.1 i st r hi hreg hlisted
  obtain ⟨σ, hσ⟩ := hr.drops_of_owes hN hi
  rw [hdone.2 N σ] at hσ
  cases hσ

/-- The last drop comes after the receive has put itself into the list. -/
def settledEvents : List (Event Nat) :=
  [.begin 0 (.recv (.recv .block none)), .act 0 (.mutex (.enter .sync)), .act 0 (.mutex (.cas true)),
    .act 0 (.mutex (.leave .sync)), .act 0 (.chan (.popFront none)), .act 0 (.chan (.loadCount 1)),
    .act 0 (.register .channel .sync 0), .begin 1 (.dropSender 0), .act 1 (.chan (.fetchSub 0 1))]

/-- Of two calls so far, neither aims at a list. -/
def NoneAims (s : State V) : Prop :=
  s.used = 2 ∧ ∀ kind, (s.call 0).aims s.sh.atomicsWait kind = false ∧
    (s.call 1).aims s.sh.atomicsWait kind = false

theorem Reachable.two_calls (hr : s.Reachable) (hused : s.used = 2) (i : CallId) :
    i = 0 ∨ i = 1 ∨ s.call i = .idle := by
  rcases Nat.lt_or_ge i 2 with hlt | hge
  · rcases Nat.lt_or_ge i 1 with h0 | h1
    · exact .inl (Nat.lt_one_iff.mp h0)
    · exact .inr (.inl (Nat.le_antisymm (Nat.le_of_lt_succ hlt) h1))
  · exact .inr (.inr (hr.sane.numbered i (hused ▸ hge)))

theorem NoneAims.settled (hr : s.Reachable) (hs : s.NoneAims) : s.TakesSettled e := by
  intro N kind es _ i
  rcases hr.two_calls hs.1 i with rfl | rfl | hi
  · exact (hs.2 kind).1
  · exact (hs.2 kind).2
  · rw [hi]; rfl

/-- The `notify_all` finds the receive in the list, and the drop returns. -/
theorem settled_run : ∃ s₀ s₁ s₂ s₃ s : State Nat,
    exec step (⟨fun _ => true, 0, 0⟩ : Config).init settledEvents = some s₀ ∧
      s₀.step (.act 1 (.condvar .channel (.take .spin []))) = some s₁ ∧
      s₁.step (.act 1 (.condvar .channel (.take .sync [⟨0, .thread 0⟩]))) = some s₂ ∧
      s₂.step (.act 1 (.wake (.thread 0))) = some s₃ ∧
      s₃.step (.act 1 (.condvar .channel (.take .async []))) = some s ∧
      (s₀.NoneAims ∧ s₁.NoneAims ∧ s₂.NoneAims ∧ s₃.NoneAims) ∧
      s.sh.chan.senders = [] ∧ s.used = 2 ∧ (∀ σ, (s.call 0).dropsSender σ = false) ∧
      s.call 1 = .done .dropped :=
  ⟨_, _, _, _, _, rfl, rfl, rfl, rfl, rfl, ⟨⟨rfl, fun _ => ⟨rfl, rfl⟩⟩, ⟨rfl, fun _ => ⟨rfl, rfl⟩⟩,
    ⟨rfl, fun _ => ⟨rfl, rfl⟩⟩, ⟨rfl, fun _ => ⟨rfl, rfl⟩⟩⟩, rfl, rfl, fun _ => rfl, rfl⟩

theorem drops_announced_taken : ∃ s : State Nat,
    RunWhere step TakesSettled (⟨fun _ => true, 0, 0⟩ : Config).init s ∧ s.AllDropped ∧ ¬ s.MissesWake 0 := by
  obtain ⟨s₀, s₁, s₂, s₃, s, hexec, h₁, h₂, h₃, h₄, ⟨ha₀, ha₁, ha₂, ha₃⟩, hnil, hused, hrecv, hdrop⟩ :=
    settled_run
  have hr₀ : s₀.Reachable := reachable_of_exec hexec
  have hr₁ := hr₀.step h₁
  have hr₂ := hr₁.step h₂
  have hr₃ := hr₂.step h₃
  have hr := hr₃.step h₄
  have hrun : RunWhere step TakesSettled (⟨fun _ => true, 0, 0⟩ : Config).init s := by
    refine ((((RunWhere.refl.extend (.of_forall ?_) hexec).tail (ha₀.settled hr₀) h₁).tail
      (ha₁.settled hr₁) h₂).tail (ha₂.settled hr₂) h₃).tail (ha₃.settled hr₃) h₄
    rintro e he s N kind es rfl
    simp [settledEvents] at he
  have hdone : s.AllDropped := by
    refine ⟨hnil, fun i σ => ?_⟩
    rcases hr.two_calls hused i with rfl | rfl | hi
    · exact hrecv σ
    · rw [hdrop]; rfl
    · rw [hi]; rfl
  exact ⟨s, hrun, hdone, drops_announced hrun hdone 0⟩

/-- The receive has seen a sender, and the last drop finds the lists empty before the receive
puts itself into one. -/
def missedDropEvents : List (Event Nat) :=
  [.begin 0 (.recv (.recv .block none)), .act 0 (.mutex (.enter .sync)), .act 0 (.mutex (.cas true)),
    .act 0 (.mutex (.leave .sync)), .act 0 (.chan (.popFront none)), .act 0 (.chan (.loadCount 1)),
    .begin 1 (.dropSender 0), .act 1 (.chan (.fetchSub 0 1)), .act 1 (.condvar .channel (.take .spin [])),
    .act 1 (.condvar .channel (.take .sync [])), .act 1 (.condvar .channel (.take .async [])),
    .act 0 (.register .channel .sync 0), .act 0 (.mutex .store), .act 0 (.mutex (.take .sync [])),
    .act 0 (.mutex (.take .async []))]

theorem missed_drop_run : ∃ s : State Nat, exec step (⟨fun _ => true, 0, 0⟩ : Config).init missedDropEvents = some s ∧
    s.sh.chan.senders = [] ∧ s.used = 2 ∧ s.sh.woken (.thread 0) = false ∧ s.call 1 = .done .dropped ∧
    s.call 0 = .running 0 (.recv (.recv .block none)) (.wait ⟨.channel, .sync, none⟩ (.park 0)) :=
  ⟨_, rfl, rfl, rfl, rfl, rfl, rfl⟩

/-- The receive parks after all of the last drop, and nobody is left to wake it. -/
theorem disconnect_missed : ¬ ∀ s : State Nat, s.Reachable → s.AllDropped → ∀ i, ¬ s.MissesWake i := by
  intro hall
  obtain ⟨s, hexec, hnil, hused, hwoken, hdrop, hrecv⟩ := missed_drop_run
  have hr : s.Reachable := reachable_of_exec hexec
  refine hall s hr ⟨hnil, fun i σ => ?_⟩ 0 ⟨.block, ⟨⟨.channel, .sync, none⟩, 0, .thread 0⟩, ?_⟩
  · rcases hr.two_calls hused i with rfl | rfl | hi
    · rw [hrecv]; rfl
    · rw [hdrop]; rfl
    · rw [hi]; rfl
  · refine ⟨by rw [hrecv]; rfl, by rw [hrecv]; rfl, hwoken, fun j => ?_⟩
    rcases hr.two_calls hused j with rfl | rfl | hj
    · rw [hrecv]; exact List.not_mem_nil
    · rw [hdrop]; exact List.not_mem_nil
    · rw [hj]; exact List.not_mem_nil

end State

end WasmSafeMutex
