import WasmSafeMutex.Condvar.Verdicts

/-!
# What a call returns and what a notification takes

The answer of a timed wait is the one of its last exit. A `notify_one` takes one entry at most.
-/

namespace WasmSafeMutex

open Interleaving

variable {V : Type}

/-! ## The answer of a call -/

def Pc.answer? : Pc V → Option (Option Bool)
  | .lock _ (.relock b) => some b
  | _ => none

def Next.answer? : Next V → Option (Option Bool)
  | .goto pc | .yield pc => pc.answer?
  | .hold b => b.map some
  | .finish _ => none

/-- The `WaitTimeoutResult` of a call that takes its mutex again, or has returned its guard. -/
def Call.answer? : Call V → Option (Option Bool)
  | .running _ _ pc | .suspended _ pc => pc.answer?
  | .holding _ b => b.map some
  | _ => none

theorem Next.answer_call (k : Caller V) (t : ThreadId) (n : Next V) : (n.call k t).answer? = n.answer? := by
  cases n <;> rfl

theorem Request.answer_entry (r : Request V) : r.entry.answer? = none := by
  cases r <;> rfl

theorem WaitCall.answer_entry (w : WaitCall) (c : CondvarId) : (w.entry c : Pc V).answer? = none := by
  cases w <;> rfl

theorem Pc.Step.answer {k : Caller V} {pc : Pc V} {a : Act V} {n : Next V} (h : pc.Step k a n)
    {b : Option Bool} (hb : n.answer? = some b) :
    pc.answer? = some b ∨ ∃ f w, pc = .wait f w ∧ w.Step f a (.relock b) := by
  cases h with
  | lock l ret a o ho =>
    cases o with
    | goto l' | yield l' => cases ret <;> exact .inl hb
    | failed => cases hb
    | acquired =>
      simp only [LockOut.toNext] at hb
      unfold Caller.onLocked at hb
      split at hb
      case h_2 m r =>
        obtain ⟨v, rfl, rfl⟩ := Option.map_eq_some_iff.mp hb
        exact .inl rfl
      all_goals cases hb
  | unlock u ret a o ho =>
    cases o with
    | goto u' => cases hb
    | finished => cases ret <;> cases hb
  | wait f w a o ho =>
    cases o with
    | relock b' => cases hb; exact .inr ⟨f, w, rfl, ho⟩
    | goto | yield | drop => cases hb
  | notify c x a o ho => cases o <;> cases hb
  | sendCheck1 σ st v b' hk | sendCheck2 σ st v b' hk => cases b' <;> cases hb
  | recvCount rk m hk =>
    rcases rk.onEmpty_pc (V := V) m with he | he | ⟨d, he⟩ | ⟨f, -, he⟩ <;>
      simp [Next.answer?, he, Pc.answer?, unlockAndReturn] at hb
  | fetchSub σ old hk => split at hb <;> cases hb
  | _ => cases hb

theorem WaitPc.Step.released_of_relock {f : WaitFrame} {w : WaitPc} {a : Act V} {b : Option Bool}
    (h : w.Step f a (.relock b)) : w.released = true := by
  generalize ho : WaitOut.relock b = o at h
  cases h with
  | register n => unfold WaitFrame.registered at ho; split at ho <;> cases ho
  | spawn n d m => cases ho
  | _ => rfl

/-- The last time that the call has left a wait. -/
def History.lastExit (h : History V) (i : CallId) : Option Exit :=
  (h.exits.filter fun ex => ex.call = i).getLast?

namespace State

variable [DecidableEq V] {s s' : State V} {e : Event V} {h : History V}

def Answered (s : State V) (h : History V) : Prop :=
  ∀ i b, (s.call i).answer? = some b → ∃ ex, h.lastExit i = some ex ∧ ex.answer = b

omit [DecidableEq V] in
theorem lastExit_ne {i : CallId} (hne : ∀ ex ∈ s.exits e, ex.call ≠ i) :
    (s.record h e).lastExit i = h.lastExit i := by
  have hnil : (s.exits e).filter (fun ex => ex.call = i) = [] := by
    apply List.filter_eq_nil_iff.mpr
    intro ex hex
    simpa using hne ex hex
  simp only [History.lastExit, record, List.filter_append, hnil, List.append_nil]

theorem answer_step (hr : s.Reachable) (hstep : s.step e = some s') {i : CallId} {b : Option Bool}
    (hb : (s'.call i).answer? = some b) :
    (s.call i).answer? = some b ∨ ∃ r, ⟨i, r, b⟩ ∈ s.exits e := by
  rcases call_cases hr.sane.numbered hstep i with hcall | ⟨a, t, k, pc, n, rfl, ha⟩ | ⟨c, ht⟩
  · rw [hcall] at hb; exact .inl hb
  · rw [ha.call_self, Next.answer_call] at hb
    rw [ha.running]
    rcases ha.step.answer hb with hold | ⟨f, w, rfl, ho⟩
    · exact .inl hold
    · have hw := ho.released_of_relock
      obtain ⟨r, hreg, rfl⟩ := hr.registered (i := i) (by rw [ha.running]; rfl) hw
      have hreg : w.registration r.frame (some t) = some r := by rw [ha.running] at hreg; exact hreg
      refine .inr ⟨r, ?_⟩
      simp [exits, ha.running, WaitPc.next_of_step ho, hreg]
  · rw [ht.call_self] at hb
    have hturn := ht.turn
    generalize s.call i = c₀ at hturn
    cases hturn with
    | begin t r => exact absurd (r.answer_entry.symm.trans hb) (by simp)
    | wait t c w k b' => exact absurd ((w.answer_entry (.user c)).symm.trans hb) (by simp)
    | poll t k pc => exact .inl hb
    | dropGuard t k b' => cases hb
    | cancel k pc => cases hb

theorem Answered.step (hr : s.Reachable) (hs : s.Answered h) (hstep : s.step e = some s') :
    s'.Answered (s.record h e) := by
  intro i b hb
  rcases answer_step hr hstep hb with hold | ⟨r, hex⟩
  · rw [lastExit_ne]
    · exact hs i b hold
    · rintro ex hex rfl
      obtain ⟨t, k, w, a, -, hrun, -⟩ := exit_cases hr hstep hex
      rw [hrun] at hold
      cases hold
  · rcases exits_step hstep with hnil | ⟨j, r', b', a, t, k, -, hone, -⟩
    · rw [hnil] at hex; cases hex
    · rw [hone] at hex
      obtain ⟨rfl, rfl, rfl⟩ : i = j ∧ r = r' ∧ b = b' := by simpa using hex
      refine ⟨⟨i, r, b⟩, ?_, rfl⟩
      simp [History.lastExit, record, List.filter_append, hone]

omit [DecidableEq V] in
theorem answered_init (cfg : Config) : (cfg.init : State V).Answered .new := by
  intro i b hb
  cases hb

end State

/-! ## What a `notify_one` takes -/

/-- `notify_one`, and the sends, which end with one. -/
def Request.notifiesOne : Request V → Bool
  | .notifyOne _ | .send _ _ _ => true
  | _ => false

/-- The entries that the call has taken as a notifier. -/
def History.taken (h : History V) (i : CallId) : List Removal :=
  h.removals.filter fun m => m.remover = i ∧ m.notified = true

def Call.popping (c : Call V) : Prop := ∀ cv x, c.pc? = some (.notify cv x) → x.all = false

/-- The call has taken an entry, and is about to wake it or done. -/
def Call.popped (c : Call V) : Prop := (∃ cv x, c.pc? = some (.notify cv (.wakeOne x))) ∨ ∃ o, c = .done o

theorem Call.Turn.popping {i : CallId} {e : Event V} {c c' : Call V} (h : Call.Turn i e c c')
    (hp : ∀ k pc, c = .suspended k pc → pc.pending = true) (hne : c ≠ .idle) :
    (c.popping → c'.popping) ∧ ¬ c.popped ∧
      ∀ k, c.caller? = some k → c'.caller? = some k ∨ ∃ o, c' = .done o := by
  cases h with
  | begin t r => exact absurd rfl hne
  | wait t cv w k b =>
    refine ⟨fun _ c x hx => ?_, ?_, fun _ hk => .inl hk⟩
    · cases w <;> cases hx
    · rintro (⟨c, x, hx⟩ | ⟨o, ho⟩)
      · cases hx
      · cases ho
  | dropGuard t k b =>
    refine ⟨fun _ c x hx => ?_, ?_, fun _ hk => .inl hk⟩
    · cases hx
    · rintro (⟨c, x, hx⟩ | ⟨o, ho⟩)
      · cases hx
      · cases ho
  | poll t k pc | cancel k pc =>
    have hpend := hp k pc rfl
    refine ⟨fun hold => ?_, ?_, fun _ hk => ?_⟩
    · first | exact hold | exact fun c x hx => by cases hx
    · rintro (⟨c, x, hx⟩ | ⟨o, ho⟩)
      · cases hx; cases hpend
      · cases ho
    · first | exact .inl hk | exact .inr ⟨_, rfl⟩

namespace State

variable [DecidableEq V] {s s' : State V} {e : Event V} {h : History V}

/-- A call of this request takes at most one entry. -/
structure TakesOne (s : State V) (h : History V) (i : CallId) (r : Request V) : Prop where
  used : i < s.used
  caller : (s.call i).caller? = some r.caller ∨ ∃ o, s.call i = .done o
  popping : (s.call i).popping
  taken : h.taken i = [] ∨ (h.taken i).length = 1 ∧ (s.call i).popped

omit [DecidableEq V] in
theorem taken_record (i : CallId) :
    (s.record h e).taken i = h.taken i ++ (s.removals e).filter fun m => m.remover = i ∧ m.notified = true :=
  List.filter_append ..

omit [DecidableEq V] in
/-- The call of a `notify_one` takes an entry only by its `pop`. -/
theorem Acted.taken {i : CallId} {t : ThreadId} {k : Caller V} {pc : Pc V} {a : Act V} {n : Next V}
    (ha : Acted s s' i t k pc a n) (hone : ∀ cv x, pc = .notify cv x → x.all = false) :
    (s.removals (.act i a)).filter (fun m => m.remover = i ∧ m.notified = true) = [] ∨
      ∃ c kind x, pc = .notify c (.pop kind) ∧ s.removals (.act i a) = [⟨i, c, kind, x, true⟩] ∧
        n = .goto (.notify c (.wakeOne x)) := by
  have hrun := ha.running
  cases ha.step with
  | notify c y a o ho =>
    cases ho with
    | popSome kind x => exact .inr ⟨c, kind, x, rfl, rfl, rfl⟩
    | take kind xs => exact absurd (hone _ _ rfl) (by simp [NotifyPc.all])
    | popNone | wakeOne | wakeAll => exact .inl rfl
  | wait f w a o ho =>
    refine .inl ?_
    apply List.filter_eq_nil_iff.mpr
    intro m hm
    cases ho with
    | spinRemove y b | blockRemove y b | asyncRemove y b =>
      cases b with
      | false => cases hm
      | true =>
        simp only [removals, hrun] at hm
        obtain ⟨z, -, rfl⟩ := List.mem_map.mp hm
        simp
    | _ => cases hm
  | lock l ret a o ho => exact .inl (by cases ho <;> rfl)
  | unlock u ret a o ho => exact .inl (by cases ho <;> rfl)
  | _ => exact .inl rfl

theorem Acted.popping {i : CallId} {t : ThreadId} {k : Caller V} {pc : Pc V} {a : Act V} {n : Next V}
    (hr : s'.Reachable) (ha : Acted s s' i t k pc a n) (hone : ∀ cv x, pc = .notify cv x → x.all = false)
    {r : Request V} (hk : k = r.caller) (hreq : r.notifiesOne = true) : (s'.call i).popping := by
  intro c x hx
  have hf := hr.fits i
  rw [ha.call_self] at hx hf
  have hpc : n.pc? = some (.notify c x) := by cases n <;> exact hx
  rcases ha.step.into_notify hpc with ⟨x₀, rfl, ho⟩ | ⟨rfl, rfl | rfl⟩
  · rw [ho.all]; exact hone c x₀ rfl
  · rfl
  · -- Only the drops notify all waits of the channel.
    have hfits : (Pc.notify .channel notifyAll : Pc V).fits k = true := by
      cases n <;> cases hx <;> exact hf
    cases r <;> cases hreq <;> simp [hk, Request.caller, Pc.fits, Caller.uses, Caller.notifies,
      notifyAll, NotifyPc.all] at hfits

omit [DecidableEq V] in
theorem removals_remover {j : CallId} {a : Act V} {m : Removal} (hm : m ∈ s.removals (.act j a)) :
    m.remover = j := by
  unfold removals at hm
  split at hm
  case h_1 he => cases he; rw [List.mem_singleton.mp hm]
  case h_2 he =>
    cases he
    obtain ⟨x, -, rfl⟩ := List.mem_map.mp hm
    rfl
  case h_3 he =>
    cases he
    split at hm
    · obtain ⟨x, -, rfl⟩ := List.mem_map.mp hm
      rfl
    · cases hm
  case h_4 => cases hm

omit [DecidableEq V] in
theorem removals_of_ne_act (h : ∀ j a, e ≠ .act j a) : s.removals e = [] := by
  cases e with
  | act j a => exact absurd rfl (h j a)
  | _ => rfl

omit [DecidableEq V] in
/-- A call that is left alone. -/
theorem TakesOne.keep {i : CallId} {r : Request V} (hs : s.TakesOne h i r) (hcall : s'.call i = s.call i)
    (hused : s.used ≤ s'.used)
    (hnil : (s.removals e).filter (fun m => m.remover = i ∧ m.notified = true) = []) :
    s'.TakesOne (s.record h e) i r := by
  refine ⟨Nat.lt_of_lt_of_le hs.used hused, hcall ▸ hs.caller, hcall ▸ hs.popping, ?_⟩
  rw [taken_record, hnil, List.append_nil, hcall]
  exact hs.taken

/-- A call that acts itself. -/
theorem TakesOne.own_step {i : CallId} {r : Request V} (hs : s.TakesOne h i r) (hr' : s'.Reachable)
    (hreq : r.notifiesOne = true) {t : ThreadId} {k : Caller V} {pc : Pc V} {a : Act V} {n : Next V}
    (ha : Acted s s' i t k pc a n) : s'.TakesOne (s.record h (.act i a)) i r := by
  have hk : k = r.caller := by
    rcases hs.caller with hc | ⟨o, ho⟩
    · rw [ha.running] at hc; exact Option.some.inj hc
    · rw [ha.running] at ho; cases ho
  have hone : ∀ cv x, pc = .notify cv x → x.all = false := by
    rintro cv x rfl
    exact hs.popping cv x (by rw [ha.running]; rfl)
  have hpopped : (s.call i).popped → ∃ cv x, pc = .notify cv (.wakeOne x) := by
    rintro (⟨cv, x, hx⟩ | ⟨o, ho⟩)
    · rw [ha.running] at hx; exact ⟨cv, x, Option.some.inj hx⟩
    · rw [ha.running] at ho; cases ho
  refine ⟨ha.used ▸ hs.used, ?_, ha.popping hr' hone hk hreq, ?_⟩
  · rw [ha.call_self]
    cases n with
    | finish o => exact .inr ⟨o, rfl⟩
    | goto | yield | hold => exact .inl (congrArg some hk)
  · rw [taken_record, ha.call_self]
    rcases ha.taken hone with hnil | ⟨c, kind, x, rfl, hrem, rfl⟩
    · rw [hnil, List.append_nil]
      refine hs.taken.imp_right fun ⟨hlen, hp⟩ => ⟨hlen, ?_⟩
      obtain ⟨cv, x, rfl⟩ := hpopped hp
      cases ha.step with
      | notify c y a o ho => cases ho; exact .inr ⟨_, rfl⟩
    · refine .inr ⟨?_, .inl ⟨c, x, rfl⟩⟩
      have hnil : h.taken i = [] := hs.taken.resolve_right fun ⟨_, hp⟩ => by
        obtain ⟨cv, y, hy⟩ := hpopped hp
        cases hy
      simp [hnil, hrem]

omit [DecidableEq V] in
/-- A call that its caller moves. -/
theorem TakesOne.turn_step {i : CallId} {r : Request V} {c : Call V} (hr : s.Sane) (hs : s.TakesOne h i r)
    (ht : Turned s s' e i c) (hdone : ∀ o, s.call i = .done o → s'.call i = .done o)
    (hnil : s.removals e = []) : s'.TakesOne (s.record h e) i r := by
  have hidle : s.call i ≠ .idle := by
    intro hidle
    rcases hs.caller with hc | ⟨o, ho⟩
    · rw [hidle] at hc; cases hc
    · rw [hidle] at ho; cases ho
  obtain ⟨hpopping, hpopped, hcaller⟩ := ht.turn.popping (hr.pending i) hidle
  rw [← ht.call_self] at hpopping hcaller
  refine ⟨Nat.lt_of_lt_of_le hs.used ht.used.1, ?_, hpopping hs.popping, .inl ?_⟩
  · rcases hs.caller with hc | ⟨o, ho⟩
    · exact hcaller _ hc
    · exact .inr ⟨o, hdone o ho⟩
  · rw [taken_record, hnil, hs.taken.resolve_right fun h => hpopped h.2]
    rfl

theorem TakesOne.step (hr : s.Reachable) {i : CallId} {r : Request V} (hreq : r.notifiesOne = true)
    (hs : s.TakesOne h i r) (hstep : s.step e = some s') : s'.TakesOne (s.record h e) i r := by
  have hdone : ∀ o, s.call i = .done o → s'.call i = .done o :=
    fun o ho => hr.sane.numbered.done_step hstep ho
  by_cases hact : ∃ j a, e = .act j a
  · obtain ⟨j, a, rfl⟩ := hact
    obtain ⟨t, k, pc, n, ha⟩ := act_acted hstep
    by_cases hj : i = j
    · subst hj
      exact hs.own_step (hr.step hstep) hreq ha
    · refine hs.keep (ha.call_ne hj) (Nat.le_of_eq ha.used.symm) ?_
      apply List.filter_eq_nil_iff.mpr
      intro m hm
      have hother := removals_remover hm
      simp only [decide_eq_true_eq, not_and]
      intro hi
      exact absurd (hi.symm.trans hother) hj
  · have hnil : s.removals e = [] := removals_of_ne_act fun j a he => hact ⟨j, a, he⟩
    rcases step_cases hr.sane.numbered hstep with ⟨j, a, -, -, -, -, he, -⟩ | ⟨j, c, ht⟩ | ha
    · exact absurd ⟨j, a, he⟩ hact
    · by_cases hj : i = j
      · subst hj
        exact hs.turn_step hr.sane ht hdone hnil
      · exact hs.keep (ht.call_ne hj) ht.used.1 (by rw [hnil]; rfl)
    · exact hs.keep (congrFun ha.call i) (Nat.le_of_eq ha.used.symm) (by rw [hnil]; rfl)

/-- Each notification of one waiter takes at most one. -/
structure NotifiesOne (s : State V) (h : History V) : Prop where
  one : ∀ x ∈ h.begun, x.2.notifiesOne = true → s.TakesOne h x.1 x.2
  remover : ∀ m ∈ h.removals, m.remover < s.used

theorem NotifiesOne.begin (hs : s.NotifiesOne h) {t : ThreadId} {r : Request V}
    (hreq : r.notifiesOne = true) (hstep : s.step (.begin t r) = some s') :
    s'.TakesOne (s.record h (.begin t r)) s.used r := by
  simp only [State.step, Option.ite_none_right_eq_some, Option.some.injEq] at hstep
  obtain ⟨-, rfl⟩ := hstep
  refine ⟨Nat.lt_succ_self _, .inl (by simp [setCall, Call.caller?]), fun c x hx => ?_, .inl ?_⟩
  · simp only [setCall, Function.update_self, Call.pc?, Option.some.injEq] at hx
    cases r with
    | notifyOne c' => cases hx; rfl
    | send => cases hx
    | _ => cases hreq
  · rw [taken_record]
    apply List.append_eq_nil_iff.mpr
    refine ⟨List.filter_eq_nil_iff.mpr fun m hm hd => ?_, rfl⟩
    have heq : m.remover = s.used := (of_decide_eq_true hd).1
    exact absurd (hs.remover m hm) (by rw [heq]; exact Nat.lt_irrefl _)

theorem NotifiesOne.step (hr : s.Reachable) (hs : s.NotifiesOne h) (hstep : s.step e = some s') :
    s'.NotifiesOne (s.record h e) := by
  have hused : s.used ≤ s'.used := by
    rcases step_cases hr.sane.numbered hstep with ⟨j, a, t, k, pc, n, -, ha⟩ | ⟨j, c, ht⟩ | ha
    · exact Nat.le_of_eq ha.used.symm
    · exact ht.used.1
    · exact Nat.le_of_eq ha.used.symm
  refine ⟨fun x hx hreq => ?_, fun m hm => ?_⟩
  · rcases List.mem_append.mp hx with hx | hx
    · exact (hs.one x hx hreq).step hr hreq hstep
    · cases e with
      | begin t r =>
        obtain rfl := List.mem_singleton.mp hx
        exact hs.begin hreq hstep
      | _ => cases hx
  · rcases List.mem_append.mp hm with hm | hm
    · exact Nat.lt_of_lt_of_le (hs.remover m hm) hused
    · cases e with
      | act j a =>
        obtain ⟨t, k, pc, n, ha⟩ := act_acted hstep
        rw [removals_remover hm]
        exact Nat.lt_of_lt_of_le (hr.sane.numbered.lt_used (by simp [ha.running])) hused
      | _ => cases hm

omit [DecidableEq V] in
theorem notifiesOne_init (cfg : Config) : (cfg.init : State V).NotifiesOne .new where
  one x hx := by cases hx
  remover m hm := by cases hm

omit [DecidableEq V] in
theorem TakesOne.length_le {i : CallId} {r : Request V} (hs : s.TakesOne h i r) :
    (h.taken i).length ≤ 1 := by
  rcases hs.taken with hnil | ⟨hlen, -⟩
  · simp [hnil]
  · omega

/-- Both facts, over a run. -/
theorem Recorded.returns {ok : State V → Event V → Prop} (hr : Recorded ok s h) :
    s.Answered h ∧ s.NotifiesOne h :=
  (hr.induction (P := fun s h => s.Answered h ∧ s.NotifiesOne h)
    (fun cfg => ⟨answered_init cfg, notifiesOne_init cfg⟩)
    fun _ _ _ _ hs hp _ hstep => ⟨hp.1.step hs hstep, hp.2.step hs hstep⟩).2

end State

end WasmSafeMutex
