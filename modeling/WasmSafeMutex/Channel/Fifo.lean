import WasmSafeMutex.Channel.Halves

/-!
# The channel is a FIFO queue

Each call pushes and pops what its place in the code says. What the receives return is what
they pop, in the same order, and that is what the sends push.
-/

namespace WasmSafeMutex

open Interleaving

variable {V : Type}

/-! ## What a call has pushed and popped -/

def Act.pushes : Act V → List V
  | .chan (.pushBack v) => [v]
  | _ => []

def Act.pops : Act V → List V
  | .chan (.popFront (some v)) => [v]
  | _ => []

/-- The value with which a call has returned `Ok`. -/
def Outcome.taken : Outcome V → List V
  | .received v => [v]
  | _ => []

/-- What a call at this place has popped: the value that it is about to return. -/
def Pc.taken : Pc V → List V
  | .unlock _ (.finish o) => o.taken
  | _ => []

def Next.taken : Next V → List V
  | .goto pc | .yield pc => pc.taken
  | .hold _ => []
  | .finish o => o.taken

/-- What a call of `k` at this place has pushed. -/
def Caller.given (k : Caller V) (pc : Pc V) : List V :=
  match k, pc with
  | .send _ _ v, .unlock _ .notify | .send _ _ v, .notify _ _ => [v]
  | _, _ => []

/-- What a call of `k` that has ended so has pushed. -/
def Caller.gave (k : Caller V) (o : Outcome V) : List V :=
  match k, o with
  | .send _ _ v, .sent => [v]
  | _, _ => []

def Next.given (k : Caller V) : Next V → List V
  | .goto pc | .yield pc => k.given pc
  | .hold _ => []
  | .finish o => k.gave o

theorem Caller.onLocked_taken (k : Caller V) (ret : LockRet) : (k.onLocked ret).taken = [] := by
  unfold Caller.onLocked
  split <;> rfl

theorem Caller.onLocked_given (k : Caller V) (ret : LockRet) : (k.onLocked ret).given k = [] := by
  unfold Caller.onLocked
  split <;> rfl

theorem Caller.onLockFailed_taken (k : Caller V) : k.onLockFailed.taken = [] := by
  unfold Caller.onLockFailed
  split <;> rfl

theorem Caller.onLockFailed_gave (k : Caller V) : k.gave k.onLockFailed = [] := by
  cases k with
  | recv rk => rfl
  | _ => rfl

theorem Caller.onNotified_taken (k : Caller V) : k.onNotified.taken = [] := by
  cases k <;> rfl

theorem Caller.gave_onNotified (k : Caller V) (c : CondvarId) (x : NotifyPc) :
    k.gave k.onNotified = k.given (.notify c x) := by
  cases k <;> rfl

theorem UnlockRet.onUnlocked_taken (ret : UnlockRet V) (u : UnlockPc) :
    ret.onUnlocked.taken = (Pc.unlock u ret).taken := by
  cases ret <;> rfl

theorem RecvKind.onEmpty_taken (rk : RecvKind) (n : Nat) : (rk.onEmpty n : Pc V).taken = [] := by
  rcases rk.onEmpty_pc (V := V) n with he | he | ⟨d, he⟩ | ⟨f, -, he⟩ <;> rw [he] <;> rfl

/-- A call pops with `pop_front`, and returns what it has popped. -/
theorem Pc.Step.taken {k : Caller V} {pc : Pc V} {a : Act V} {n : Next V} (h : pc.Step k a n) :
    n.taken = pc.taken ++ a.pops := by
  cases h with
  | lock l ret a o ho =>
    have hn : (o.toNext k ret : Next V).taken = [] := by
      cases o with
      | acquired => exact k.onLocked_taken ret
      | failed => exact k.onLockFailed_taken
      | goto | yield => rfl
    rw [hn]
    cases ho <;> rfl
  | unlock u ret a o ho =>
    have hpops : a.pops = [] := by cases ho <;> rfl
    rw [hpops, List.append_nil]
    cases o with
    | goto u' => cases ret <;> rfl
    | finished => exact ret.onUnlocked_taken u
  | wait f w a o ho =>
    have hn : (o.toNext f : Next V).taken = [] := by cases o <;> rfl
    rw [hn]
    cases ho <;> rfl
  | notify c x a o ho =>
    have hn : (o.toNext k c : Next V).taken = [] := by
      cases o with
      | goto => rfl
      | finished => exact k.onNotified_taken
    rw [hn]
    cases ho <;> rfl
  | sendCheck1 σ st v b hk | sendCheck2 σ st v b hk => cases b <;> rfl
  | recvCount rk m hk => exact rk.onEmpty_taken m
  | fetchSub σ old hk => split <;> rfl
  | _ => rfl

variable [DecidableEq V]

theorem Caller.gave_of_unlocksWith {k : Caller V} {o : Outcome V} (h : k.unlocksWith o = true) :
    k.gave o = [] := by
  unfold Caller.gave
  split
  · cases h
  · rfl

/-- A send pushes with `push_back`, and ends with `Ok` after that and only then. -/
theorem Pc.Step.given {k : Caller V} {pc : Pc V} {a : Act V} {n : Next V} (h : pc.Step k a n)
    (hf : pc.fits k = true) : n.given k = k.given pc ++ a.pushes := by
  cases h with
  | lock l ret a o ho =>
    have hn : (o.toNext k ret : Next V).given k = [] := by
      cases o with
      | acquired => exact k.onLocked_given ret
      | failed => exact k.onLockFailed_gave
      | goto | yield => cases k <;> rfl
    rw [hn]
    cases k <;> cases ho <;> rfl
  | unlock u ret a o ho =>
    have hpush : a.pushes = [] := by cases ho <;> rfl
    rw [hpush, List.append_nil]
    cases o with
    | goto u' => cases k <;> cases ret <;> rfl
    | finished =>
      cases ret with
      | finish o => exact (Caller.gave_of_unlocksWith hf).trans (by cases k <;> rfl)
      | wait | notify => cases k <;> rfl
  | wait f w a o ho =>
    have hn : (o.toNext f : Next V).given k = [] := by cases o <;> cases k <;> rfl
    rw [hn]
    cases k <;> cases ho <;> rfl
  | notify c x a o ho =>
    have hpush : a.pushes = [] := by cases ho <;> rfl
    rw [hpush, List.append_nil]
    cases o with
    | goto x' => cases k <;> rfl
    | finished => exact k.gave_onNotified c x
  | sendCheck1 σ st v b hk | sendCheck2 σ st v b hk => subst hk; cases b <;> rfl
  | sendPush σ st v hk => subst hk; rfl
  | recvCount rk m hk => subst hk; rfl
  | fetchSub σ old hk => subst hk; split <;> rfl
  | _ => cases k <;> first | rfl | cases hf

/-! ## The order of the values -/

/-- What a running call has popped and not yet returned. -/
def Call.inFlight : Call V → List V
  | .running _ _ pc => pc.taken
  | _ => []

omit [DecidableEq V] in
theorem Next.inFlight_call (k : Caller V) (t : ThreadId) (i : CallId) {n : Next V}
    (hp : ∀ pc, n = .yield pc → pc.taken = []) :
    n.taken.map (fun v => (i, v)) = n.returned i ++ (n.call k t).inFlight.map fun v => (i, v) := by
  cases n with
  | goto pc => rfl
  | yield pc => rw [Next.taken, hp pc rfl]; rfl
  | hold r => rfl
  | finish o => cases o <;> rfl

omit [DecidableEq V] in
theorem Pc.taken_of_pending {pc : Pc V} (h : pc.pending = true) : pc.taken = [] := by
  cases pc <;> first | rfl | cases h

omit [DecidableEq V] in
theorem Call.Turn.inFlight {i : CallId} {e : Event V} {c c' : Call V} (h : Call.Turn i e c c')
    (hp : ∀ k pc, c = .suspended k pc → pc.pending = true) : c'.inFlight = c.inFlight := by
  cases h with
  | begin t r => cases r <;> rfl
  | wait t c w k r => cases w <;> rfl
  | dropGuard t k r => rfl
  | poll t k pc => exact Pc.taken_of_pending (hp k pc rfl)
  | cancel k pc => rfl

/-- Only a receive has something in flight. -/
theorem Pc.recv_of_taken {k : Caller V} {pc : Pc V} (hf : pc.fits k = true) (h : pc.taken ≠ []) :
    ∃ rk, k = .recv rk := by
  cases pc with
  | unlock u ret =>
    cases ret with
    | finish o =>
      cases o with
      | received v => cases k <;> first | exact ⟨_, rfl⟩ | cases hf
      | _ => exact absurd rfl h
    | _ => exact absurd rfl h
  | _ => exact absurd rfl h

theorem Pc.recv_of_pop {k : Caller V} (hf : (Pc.recvPop : Pc V).fits k = true) : ∃ rk, k = .recv rk := by
  cases k <;> first | exact ⟨_, rfl⟩ | cases hf

omit [DecidableEq V] in
theorem Pc.Step.of_pops {k : Caller V} {pc : Pc V} {a : Act V} {n : Next V} (h : pc.Step k a n)
    (ha : a.pops ≠ []) : pc = .recvPop := by
  cases h with
  | popSome v => rfl
  | lock l ret a o ho | unlock u ret a o ho | wait f w a o ho | notify c x a o ho =>
    cases ho <;> exact absurd rfl ha
  | _ => exact absurd rfl ha

omit [DecidableEq V] in
theorem Pc.Step.pushes_nil {k : Caller V} {pc : Pc V} {a : Act V} {n : Next V} (h : pc.Step k a n)
    (hpc : pc ≠ .sendPush) : a.pushes = [] := by
  cases h with
  | sendPush => exact absurd rfl hpc
  | lock l ret a o ho | unlock u ret a o ho | wait f w a o ho | notify c x a o ho => cases ho <;> rfl
  | _ => rfl

omit [DecidableEq V] in
/-- The push comes after the second look at `receiver_active`. -/
theorem Pc.Step.into_push {k : Caller V} {pc : Pc V} {a : Act V} {n : Next V} (h : pc.Step k a n)
    (hn : n.pc? = some .sendPush) : a = .chan (.loadActive true) := by
  rcases h.into_own hn rfl with ⟨_, _, -, h | h⟩ | ⟨-, h⟩ | ⟨h, -⟩ <;> first | exact h | cases h

namespace State

variable {s s' : State V} {e : Event V}

theorem Reachable.recv_of_inFlight (h : s.Reachable) {i : CallId} (hi : (s.call i).inFlight ≠ []) :
    ∃ t rk pc, s.call i = .running t (.recv rk) pc := by
  have hf := h.fits i
  generalize s.call i = c at hi hf
  cases c with
  | running t k pc =>
    obtain ⟨rk, rfl⟩ := Pc.recv_of_taken hf hi
    exact ⟨t, rk, pc, rfl⟩
  | _ => exact absurd rfl hi

/-- What has been popped has been returned, but for the value of one receive that is about to
return it. -/
structure InOrder (s : State V) : Prop where
  queue : s.sh.chan.pushed.map Prod.snd = s.sh.chan.popped.map Prod.snd ++ s.sh.chan.queue
  flight : ∃ i, (∀ j, j ≠ i → (s.call j).inFlight = []) ∧
    s.sh.chan.popped = s.returned ++ (s.call i).inFlight.map fun v => (i, v)

omit [DecidableEq V] in
theorem queue_step (h : ChannelStep s s' e)
    (hs : s.sh.chan.pushed.map Prod.snd = s.sh.chan.popped.map Prod.snd ++ s.sh.chan.queue) :
    s'.sh.chan.pushed.map Prod.snd = s'.sh.chan.popped.map Prod.snd ++ s'.sh.chan.queue := by
  cases h with
  | same _ hc | cloned _ _ _ hc | dropped _ _ _ _ _ _ hc | cleared _ _ _ _ hc => simpa [hc] using hs
  | pushed _ _ _ _ _ _ _ hc => simp [hc, hs]
  | popped _ _ _ _ _ _ _ hq hc => simp [hc, hs, hq]

omit [DecidableEq V] in
theorem Acted.logs {i : CallId} {t : ThreadId} {k : Caller V} {pc : Pc V} {a : Act V} {n : Next V}
    (h : Acted s s' i t k pc a n) :
    s'.sh.chan.pushed = s.sh.chan.pushed ++ a.pushes.map (fun v => (i, v)) ∧
      s'.sh.chan.popped = s.sh.chan.popped ++ a.pops.map fun v => (i, v) := by
  have hnil : ∀ {l : List (CallId × V)}, l = l ++ [] := (List.append_nil _).symm
  generalize s'.sh = sh', h.applied = happ
  cases happ with
  | chan a x hx => cases hx <;> first | exact ⟨rfl, hnil⟩ | exact ⟨hnil, rfl⟩ | exact ⟨hnil, hnil⟩
  | _ => exact ⟨hnil, hnil⟩

theorem Acted.inOrder (hr : s.Reachable) {i : CallId} {t : ThreadId} {k : Caller V} {pc : Pc V} {a : Act V}
    {n : Next V} (h : Acted s s' i t k pc a n) (hs : s.InOrder) : s'.InOrder := by
  have hf := hr.fits i
  rw [h.running] at hf
  have hold : (s.call i).inFlight = pc.taken := by rw [h.running]; rfl
  have htaken := h.step.taken
  have hself := Next.inFlight_call k t i (n := n) fun pc' he => by
    subst he
    exact Pc.taken_of_pending h.step.pending
  rw [← h.call_self] at hself
  refine ⟨queue_step h.channel hs.queue, ?_⟩
  obtain ⟨j, hnone, hpop⟩ := hs.flight
  by_cases hlone : ∀ j', j' ≠ i → (s.call j').inFlight = []
  · refine ⟨i, fun j' hj' => by rw [h.call_ne hj']; exact hlone j' hj', ?_⟩
    have hpop' : s.sh.chan.popped = s.returned ++ pc.taken.map fun v => (i, v) := by
      by_cases hj : j = i
      · rw [hpop, hj, hold]
      · rw [hpop, hlone j hj, ← hold, hnone i (Ne.symm hj)]; rfl
    rw [h.logs.2, hpop', h.returned, List.append_assoc, List.append_assoc, ← hself, htaken, List.map_append]
  · -- Another receive has a value in flight, so this call is not one that pops.
    obtain ⟨j', hj', hflight⟩ : ∃ j', j' ≠ i ∧ (s.call j').inFlight ≠ [] := by simpa using hlone
    have hjj : j' = j := by
      by_contra hne
      exact hflight (hnone j' hne)
    have hij : i ≠ j := fun he => hj' (hjj.trans he.symm)
    have hi : pc.taken = [] := hold ▸ hnone i hij
    have hpops : a.pops = [] := by
      by_contra hne
      obtain rfl := h.step.of_pops hne
      obtain ⟨rk, rfl⟩ := Pc.recv_of_pop hf
      obtain ⟨t', rk', pc', hrun⟩ := hr.recv_of_inFlight hflight
      exact hj' (hr.one_receive hrun h.running)
    rw [hi, hpops] at htaken
    rw [htaken] at hself
    obtain ⟨hret, hin⟩ := List.append_eq_nil_iff.mp hself.symm
    refine ⟨j, fun x hx => ?_, ?_⟩
    · by_cases hxi : x = i
      · rw [hxi]; exact List.map_eq_nil_iff.mp hin
      · rw [h.call_ne hxi]; exact hnone x hx
    · rw [h.logs.2, hpops, hpop, h.returned, hret, h.call_ne (Ne.symm hij), List.append_nil]
      exact List.append_nil _

theorem Reachable.inOrder (h : s.Reachable) : s.InOrder := by
  refine h.induction (P := InOrder) ?_ ?_ ?_ ?_
  · exact fun cfg => ⟨rfl, 0, fun _ _ => rfl, rfl⟩
  · exact fun s s' i t k pc a n hr hs ha => ha.inOrder hr hs
  · intro s s' e i c hr hs ht
    have hcall : ∀ j, (s'.call j).inFlight = (s.call j).inFlight := by
      intro j
      by_cases hj : j = i
      · subst hj; rw [ht.call_self]; exact ht.turn.inFlight (hr.sane.pending j)
      · rw [ht.call_ne hj]
    refine ⟨by rw [ht.sh]; exact hs.queue, ?_⟩
    simp only [hcall, ht.sh, ht.returned]
    exact hs.flight
  · intro s s' e hr hs ha
    refine ⟨queue_step ha.channel hs.queue, ?_⟩
    have hpop : s'.sh.chan.popped = s.sh.chan.popped := by
      rcases ha.chan with ⟨hc, -⟩ | ⟨σ, -, -, -, hc⟩ <;> rw [hc]
    rw [hpop, ha.call, ha.returned]
    exact hs.flight

/-! ## The log of one call -/

/-- What call `i` has pushed. -/
def pushedBy (s : State V) (i : CallId) : List V :=
  (s.sh.chan.pushed.filter fun x => x.1 = i).map Prod.snd

def poppedBy (s : State V) (i : CallId) : List V :=
  (s.sh.chan.popped.filter fun x => x.1 = i).map Prod.snd

/-- The call was begun by `k`, and has pushed and popped what its place says. When it has
ended, its outcome says it. -/
def Tracks (s : State V) (i : CallId) (k : Caller V) : Prop :=
  match s.call i with
  | .idle => False
  | .running _ k' pc | .suspended k' pc =>
    k' = k ∧ s.pushedBy i = k.given pc ∧ s.poppedBy i = pc.taken
  | .holding k' _ => k' = k ∧ s.pushedBy i = [] ∧ s.poppedBy i = []
  | .done o => (k.ends o = true ∨ o = .cancelled) ∧ s.pushedBy i = k.gave o ∧ s.poppedBy i = o.taken

omit [DecidableEq V] in
theorem log_append (l : List (CallId × V)) (vs : List V) (i j : CallId) :
    ((l ++ vs.map fun v => (i, v)).filter fun x => x.1 = j).map Prod.snd =
      (l.filter fun x => x.1 = j).map Prod.snd ++ if j = i then vs else [] := by
  by_cases hj : j = i
  · subst hj; simp [List.filter_map, Function.comp_def]
  · simp [List.filter_map, Function.comp_def, hj, Ne.symm hj]

omit [DecidableEq V] in
theorem Acted.pushedBy {i : CallId} {t : ThreadId} {k : Caller V} {pc : Pc V} {a : Act V} {n : Next V}
    (h : Acted s s' i t k pc a n) (j : CallId) :
    s'.pushedBy j = s.pushedBy j ++ if j = i then a.pushes else [] := by
  rw [State.pushedBy, h.logs.1, log_append]; rfl

omit [DecidableEq V] in
theorem Acted.poppedBy {i : CallId} {t : ThreadId} {k : Caller V} {pc : Pc V} {a : Act V} {n : Next V}
    (h : Acted s s' i t k pc a n) (j : CallId) :
    s'.poppedBy j = s.poppedBy j ++ if j = i then a.pops else [] := by
  rw [State.poppedBy, h.logs.2, log_append]; rfl

omit [DecidableEq V] in
theorem Surrounded.logs (h : Surrounded s s' e) (j : CallId) :
    s'.pushedBy j = s.pushedBy j ∧ s'.poppedBy j = s.poppedBy j := by
  rcases h.chan with ⟨hc, -⟩ | ⟨σ, -, -, -, hc⟩ <;> simp [State.pushedBy, State.poppedBy, hc]

theorem Reachable.idle_logs (h : s.Reachable) {i : CallId} (hi : s.call i = .idle) :
    s.pushedBy i = [] ∧ s.poppedBy i = [] := by
  revert hi
  refine h.induction (P := fun s => s.call i = .idle → s.pushedBy i = [] ∧ s.poppedBy i = []) ?_ ?_ ?_ ?_
  · exact fun _ _ => ⟨rfl, rfl⟩
  · intro s s' j t k pc a n _ hs ha hi
    by_cases hj : i = j
    · subst hj
      rw [ha.call_self] at hi
      cases n <;> cases hi
    · rw [ha.pushedBy, ha.poppedBy, if_neg hj, if_neg hj, List.append_nil, List.append_nil]
      exact hs (ha.call_ne hj ▸ hi)
  · intro s s' e j c _ hs ht hi
    by_cases hj : i = j
    · subst hj
      have hturn := ht.turn
      rw [ht.call_self] at hi
      subst hi
      generalize s.call i = c₀ at hturn
      cases hturn
    · rw [State.pushedBy, State.poppedBy, ht.sh]
      exact hs (ht.call_ne hj ▸ hi)
  · intro s s' e _ hs ha hi
    rw [(ha.logs i).1, (ha.logs i).2]
    exact hs (ha.call ▸ hi)

theorem Tracks.acted (hr : s.Reachable) {i j : CallId} {t : ThreadId} {k k' : Caller V} {pc : Pc V}
    {a : Act V} {n : Next V} (h : Acted s s' j t k' pc a n) (hs : s.Tracks i k) : s'.Tracks i k := by
  by_cases hj : i = j
  · subst hj
    have hf := hr.fits i
    simp only [Tracks, h.running] at hs hf
    obtain ⟨rfl, hpush, hpop⟩ := hs
    have hgiven := h.step.given hf
    have htaken := h.step.taken
    have hpush' := h.pushedBy i
    have hpop' := h.poppedBy i
    rw [if_pos rfl, hpush, ← hgiven] at hpush'
    rw [if_pos rfl, hpop, ← htaken] at hpop'
    have hends := h.step.fits hf
    simp only [Tracks, h.call_self]
    cases n with
    | goto | yield | hold => exact ⟨rfl, hpush', hpop'⟩
    | finish o => exact ⟨.inl hends, hpush', hpop'⟩
  · simpa only [Tracks, h.call_ne hj, h.pushedBy, h.poppedBy, if_neg hj, List.append_nil] using hs

theorem Tracks.turned (hr : s.Reachable) {i j : CallId} {k : Caller V} {c : Call V}
    (h : Turned s s' e j c) (hs : s.Tracks i k) : s'.Tracks i k := by
  have hlog : s'.pushedBy i = s.pushedBy i ∧ s'.poppedBy i = s.poppedBy i := by
    simp [State.pushedBy, State.poppedBy, h.sh]
  by_cases hj : i = j
  · subst hj
    have hturn := h.turn
    have hpend := hr.sane.pending i
    simp only [Tracks, h.call_self, hlog] at hs ⊢
    generalize s.call i = c₀ at hturn hs hpend
    cases hturn with
    | begin => exact hs.elim
    | wait t c w k' r =>
      obtain ⟨rfl, hpush, hpop⟩ := hs
      refine ⟨rfl, hpush.trans ?_, hpop.trans ?_⟩
      · cases w <;> cases k' <;> rfl
      · cases w <;> rfl
    | dropGuard t k' r =>
      obtain ⟨rfl, hpush, hpop⟩ := hs
      exact ⟨rfl, hpush.trans (by cases k' <;> rfl), hpop⟩
    | poll => exact hs
    | cancel k' pc =>
      obtain ⟨rfl, hpush, hpop⟩ := hs
      have hp := hpend k' pc rfl
      refine ⟨.inr rfl, hpush.trans ?_, hpop.trans (Pc.taken_of_pending hp)⟩
      cases pc <;> first | (cases k' <;> rfl) | cases hp
  · simpa only [Tracks, h.call_ne hj, hlog] using hs

theorem Tracks.step (hr : s.Reachable) {i : CallId} {k : Caller V} (hs : s.Tracks i k)
    (hstep : s.step e = some s') : s'.Tracks i k := by
  rcases step_cases hr.sane.numbered hstep with ⟨j, a, t, k', pc, n, -, ha⟩ | ⟨j, c, ht⟩ | ha
  · exact hs.acted hr ha
  · exact hs.turned hr ht
  · simpa only [Tracks, ha.call, ha.logs] using hs

theorem Tracks.begun (hr : s.Reachable) {t : ThreadId} {r : Request V}
    (hstep : s.step (.begin t r) = some s') : s'.Tracks s.used r.caller := by
  obtain ⟨hpush, hpop⟩ := hr.idle_logs (hr.sane.numbered s.used (Nat.le_refl _))
  simp only [State.step, Option.ite_none_right_eq_some, Option.some.injEq] at hstep
  obtain ⟨-, rfl⟩ := hstep
  simp only [Tracks, setCall, Function.update_self]
  refine ⟨trivial, Eq.trans hpush ?_, Eq.trans hpop ?_⟩
  · cases r <;> rfl
  · cases r <;> rfl

/-- From its beginning to its end. -/
theorem Reachable.tracks (hr : s.Reachable) {t : ThreadId} {r : Request V} {s₁ : State V}
    (hbegin : s.step (.begin t r) = some s₁) (hrun : Run State.step s₁ s') :
    s'.Tracks s.used r.caller :=
  (hrun.invariant (P := fun u => u.Reachable ∧ u.Tracks s.used r.caller)
    ⟨hr.step hbegin, .begun hr hbegin⟩ fun _ _ _ hu _ hstep => ⟨hu.1.step hstep, hu.2.step hu.1 hstep⟩).2

theorem Reachable.tracks_caller (hr : s.Reachable) {i : CallId} {k : Caller V}
    (hk : (s.call i).caller? = some k) : s.Tracks i k := by
  revert i k
  refine hr.by_steps (P := fun s => ∀ {i k}, (s.call i).caller? = some k → s.Tracks i k) ?_ ?_
  · intro cfg i k hk; cases hk
  · intro s s' e hr hs hstep i k hk
    rcases hr.caller_step hstep hk with hold | ⟨t, r, rfl, rfl, rfl, -, -⟩
    · exact (hs hold).step hr hstep
    · exact .begun hr hstep

theorem Reachable.tracked (hr : s.Reachable) {i : CallId} (hi : s.call i ≠ .idle) : ∃ k, s.Tracks i k := by
  revert i
  refine hr.by_steps (P := fun s => ∀ {i}, s.call i ≠ .idle → ∃ k, s.Tracks i k) ?_ ?_
  · exact fun cfg i hi => absurd rfl hi
  · intro s s' e hr hs hstep i hi
    by_cases hidle : s.call i = .idle
    · rcases call_cases hr.sane.numbered hstep i with hcall | ⟨a, t, k, pc, n, -, ha⟩ | ⟨c, ht⟩
      · exact absurd (hcall.trans hidle) hi
      · cases hidle.symm.trans ha.running
      · have hturn := ht.turn
        rw [hidle] at hturn
        have hself := ht.call_self
        cases hturn with
        | begin t r => exact ⟨_, (hr.step hstep).tracks_caller (by rw [hself]; rfl)⟩
    · obtain ⟨k, hk⟩ := hs hidle
      exact ⟨k, hk.step hr hstep⟩

/-! ## Two sends in order -/

/-- A call that has ended stays so, and pushes nothing more. -/
theorem ended_step (hr : s.Reachable) (hstep : s.step e = some s') {i : CallId}
    {o : Outcome V} (hi : s.call i = .done o) : s'.call i = .done o ∧
      ∃ l, s'.sh.chan.pushed = s.sh.chan.pushed ++ l ∧ ∀ x ∈ l, x.1 ≠ i := by
  refine ⟨hr.sane.numbered.done_step hstep hi, ?_⟩
  cases hr.channel_step hstep with
  | pushed j t σ st v hj _ hc =>
    refine ⟨[(j, v)], by rw [hc], fun x hx => ?_⟩
    obtain rfl := List.mem_singleton.mp hx
    rintro rfl
    cases hi.symm.trans hj
  | same _ hc | cloned _ _ _ hc | dropped _ _ _ _ _ _ hc | popped _ _ _ _ _ _ _ _ hc | cleared _ _ _ _ hc =>
    exact ⟨[], by rw [hc, List.append_nil], by simp⟩

theorem Reachable.sends_ordered (hr : s.Reachable) {i j : CallId} {o : Outcome V}
    (hi : s.call i = .done o) (hj : s.call j = .idle) (hrun : Run State.step s s') {a b : Nat} {x y : V}
    (hx : s'.sh.chan.pushed[a]? = some (i, x)) (hy : s'.sh.chan.pushed[b]? = some (j, y)) : a < b := by
  obtain ⟨-, -, l, hl, hnot⟩ := hrun.invariant (P := fun u => u.Reachable ∧ u.call i = .done o ∧
      ∃ l, u.sh.chan.pushed = s.sh.chan.pushed ++ l ∧ ∀ x ∈ l, x.1 ≠ i)
    ⟨hr, hi, [], by simp, by simp⟩ fun u v e hu _ hstep => by
      obtain ⟨hru, hdone, l, hl, hnot⟩ := hu
      obtain ⟨hdone', l', hl', hnot'⟩ := ended_step hru hstep hdone
      refine ⟨hru.step hstep, hdone', l ++ l', by rw [hl', hl, List.append_assoc], fun x hx => ?_⟩
      exact (List.mem_append.mp hx).elim (hnot x) (hnot' x)
  have ha : a < s.sh.chan.pushed.length := by
    by_contra ha
    rw [hl, List.getElem?_append_right (Nat.le_of_not_lt ha)] at hx
    exact hnot _ (List.mem_of_getElem? hx) rfl
  refine Nat.lt_of_lt_of_le ha (Nat.le_of_not_lt fun hb => ?_)
  rw [hl, List.getElem?_append_left hb] at hy
  have hmem : (j, y) ∈ s.sh.chan.pushed.filter (fun x => x.1 = j) :=
    List.mem_filter.mpr ⟨List.mem_of_getElem? hy, decide_eq_true rfl⟩
  rw [List.map_eq_nil_iff.mp (hr.idle_logs hj).1] at hmem
  cases hmem

/-! ## After the drop of the receiver -/

/-- The call has not pushed, and the push is not what comes next. -/
def Unpushed (s : State V) (i : CallId) : Prop :=
  match s.call i with
  | .running _ k pc | .suspended k pc => pc ≠ .sendPush ∧ k.given pc = []
  | .done o => o ≠ .sent
  | _ => True

theorem Unpushed.step (hr : s.Reachable) (hstep : s.step e = some s')
    (hgone : s.sh.chan.receiverActive = false) {i : CallId} (hs : s.Unpushed i) :
    s'.Unpushed i ∧ s'.pushedBy i = s.pushedBy i := by
  rcases step_cases hr.sane.numbered hstep with ⟨j, a, t, k, pc, n, -, ha⟩ | ⟨j, c, ht⟩ | ha
  · by_cases hj : i = j
    · subst hj
      have hf := hr.fits i
      simp only [Unpushed, ha.running] at hs hf
      have hpush : a.pushes = [] := ha.step.pushes_nil hs.1
      have hgiven := ha.step.given hf
      have hends := ha.step.fits hf
      rw [hs.2, hpush] at hgiven
      refine ⟨?_, by rw [ha.pushedBy, if_pos rfl, hpush, List.append_nil]⟩
      simp only [Unpushed, ha.call_self]
      have hnext : n.pc? ≠ some .sendPush := by
        intro hn
        have happ := ha.applied
        rw [ha.step.into_push hn] at happ
        generalize s'.sh = sh' at happ
        cases happ with
        | chan a x hx =>
          generalize hb : ChannelAct.loadActive true = a at hx
          cases hx with
          | loadActive => exact absurd (ChannelAct.loadActive.inj hb) (by rw [hgone]; simp)
          | _ => cases hb
      cases n with
      | goto pc' | yield pc' => exact ⟨fun he => hnext (by rw [he]; rfl), hgiven⟩
      | hold r => trivial
      | finish o =>
        rintro rfl
        cases k <;> first | (cases hends; done) | cases hgiven
    · simp only [Unpushed, ha.call_ne hj, ha.pushedBy, if_neg hj, List.append_nil, and_true]
      exact hs
  · refine ⟨?_, by rw [State.pushedBy, ht.sh]; rfl⟩
    by_cases hj : i = j
    · subst hj
      have hturn := ht.turn
      simp only [Unpushed, ht.call_self] at hs ⊢
      generalize s.call i = c₀ at hturn hs
      cases hturn with
      | begin t r => cases r <;> exact ⟨by simp [Request.entry], rfl⟩
      | wait t c w k r => cases w <;> exact ⟨by simp [WaitCall.entry], by cases k <;> rfl⟩
      | dropGuard t k r => exact ⟨by simp [unlockAndReturn], by cases k <;> rfl⟩
      | poll => exact hs
      | cancel => simp
    · simpa only [Unpushed, ht.call_ne hj] using hs
  · exact ⟨by simpa only [Unpushed, ha.call] using hs, (ha.logs i).1⟩

theorem receiverActive_step (hr : s.Reachable) (hstep : s.step e = some s')
    (hgone : s.sh.chan.receiverActive = false) : s'.sh.chan.receiverActive = false := by
  cases hr.channel_step hstep with
  | same _ hc | cloned _ _ _ hc | dropped _ _ _ _ _ _ hc | cleared _ _ _ _ hc | pushed _ _ _ _ _ _ _ hc
  | popped _ _ _ _ _ _ _ _ hc => simp [hc, hgone]

/-- A send whose second look at `receiver_active` comes after the store of `Receiver::drop`. -/
theorem Reachable.closed (hr : s.Reachable) (hgone : s.sh.chan.receiverActive = false) {i : CallId}
    {t : ThreadId} {k : Caller V} (hi : s.call i = .running t k .sendCheck2)
    (hrun : Run State.step s s') : s'.pushedBy i = [] ∧ s'.call i ≠ .done .sent := by
  have hstart : s.Unpushed i ∧ s.pushedBy i = [] := by
    have htracks := hr.tracks_caller (i := i) (k := k) (by rw [hi]; rfl)
    simp only [Unpushed, Tracks, hi] at htracks ⊢
    have hnil : k.given .sendCheck2 = [] := by cases k <;> rfl
    exact ⟨⟨by simp, hnil⟩, htracks.2.1.trans hnil⟩
  obtain ⟨-, -, hun, hpush⟩ := hrun.invariant
    (P := fun u => u.Reachable ∧ u.sh.chan.receiverActive = false ∧ u.Unpushed i ∧ u.pushedBy i = [])
    ⟨hr, hgone, hstart⟩ fun u v e hu _ hstep => by
      obtain ⟨hru, hg, hun, hpush⟩ := hu
      obtain ⟨hun', hpush'⟩ := hun.step hru hstep hg
      exact ⟨hru.step hstep, receiverActive_step hru hstep hg, hun', hpush'.trans hpush⟩
  refine ⟨hpush, fun hsent => ?_⟩
  simp only [Unpushed, hsent] at hun
  exact hun rfl

/-! ## The queue -/

/-- The channel is an exact FIFO. A receive executes `return Ok(v)` at its `pop_front`, and has
only its guard to drop after that: `popped` is what the receives have returned, and `returned`
is what has arrived at their callers. -/
structure ExactFifo (s : State V) : Prop where
  queue : s.sh.chan.pushed.map Prod.snd = s.sh.chan.popped.map Prod.snd ++ s.sh.chan.queue
  arrived : ∃ i, (∀ j, j ≠ i → (s.call j).inFlight = []) ∧
    s.sh.chan.popped = s.returned ++ (s.call i).inFlight.map fun v => (i, v)
  sent : ∀ (u v : State V) t σ st x, u.Reachable → u.step (.begin t (.send σ st x)) = some v →
    Run State.step v s →
      (s.call u.used = .done .sent → s.pushedBy u.used = [x]) ∧
      ∀ y, s.call u.used = .done (.sendError y) → y = x ∧ s.pushedBy u.used = []
  received : ∀ (u v : State V) t rk, u.Reachable → u.step (.begin t (.recv rk)) = some v → Run State.step v s →
    s.pushedBy u.used = [] ∧
      ∀ o, s.call u.used = .done o → s.poppedBy u.used = o.taken
  cancelled : ∀ i, s.call i = .done .cancelled → s.pushedBy i = [] ∧ s.poppedBy i = []
  ordered : ∀ (u : State V) i j o, u.Reachable → u.call i = .done o → u.call j = .idle → Run State.step u s →
    ∀ (a b : Nat) x y, s.sh.chan.pushed[a]? = some (i, x) → s.sh.chan.pushed[b]? = some (j, y) → a < b
  closed : ∀ (u : State V) i t k, u.Reachable → u.sh.chan.receiverActive = false →
    u.call i = .running t k .sendCheck2 → Run State.step u s →
      s.pushedBy i = [] ∧ s.call i ≠ .done .sent

theorem Tracks.send {i : CallId} {σ : SenderId} {st : Strategy} {x : V} (h : s.Tracks i (.send σ st x)) :
    (s.call i = .done .sent → s.pushedBy i = [x]) ∧
      ∀ y, s.call i = .done (.sendError y) → y = x ∧ s.pushedBy i = [] := by
  refine ⟨fun hi => ?_, fun y hi => ?_⟩ <;> simp only [Tracks, hi] at h
  · exact h.2.1
  · exact ⟨by simpa [Caller.ends, Caller.unlocksWith] using h.1, h.2.1⟩

theorem Tracks.recv {i : CallId} {rk : RecvKind} (h : s.Tracks i (.recv rk)) :
    s.pushedBy i = [] ∧ ∀ o, s.call i = .done o → s.poppedBy i = o.taken := by
  simp only [Tracks] at h
  split at h
  · exact h.elim
  · exact ⟨h.2.1, fun o ho => by simp_all⟩
  · exact ⟨h.2.1, fun o ho => by simp_all⟩
  · exact ⟨h.2.1, fun o ho => by simp_all⟩
  · rename_i o ho
    exact ⟨h.2.1, fun o' ho' => by rw [Call.done.inj (ho'.symm.trans ho)]; exact h.2.2⟩

theorem Reachable.exact_fifo (h : s.Reachable) : s.ExactFifo where
  queue := h.inOrder.queue
  arrived := h.inOrder.flight
  sent _ _ _ _ _ _ hu hbegin hrun := (hu.tracks hbegin hrun).send
  received _ _ _ _ hu hbegin hrun := (hu.tracks hbegin hrun).recv
  cancelled i hi := by
    obtain ⟨k, hk⟩ := h.tracked (i := i) (by simp [hi])
    simp only [Tracks, hi] at hk
    exact ⟨hk.2.1.trans (by cases k <;> rfl), hk.2.2⟩
  ordered _ _ _ _ hu hi hj hrun _ _ _ _ := hu.sends_ordered hi hj hrun
  closed _ _ _ _ hu hgone hi hrun := hu.closed hgone hi hrun

/-- A send, and the receive that takes its value. -/
def sentEvents : List (Event Nat) :=
  [.begin 0 (.send 0 .spin 7), .act 0 (.chan (.loadActive true)), .act 0 (.mutex (.swap true)),
    .act 0 (.chan (.loadActive true)), .act 0 (.chan (.pushBack 7)), .act 0 (.mutex .store),
    .act 0 (.mutex (.take .sync [])), .act 0 (.mutex (.take .async [])),
    .act 0 (.condvar .channel (.pop .spin none)), .act 0 (.condvar .channel (.pop .sync none)),
    .act 0 (.condvar .channel (.pop .async none)),
    .begin 1 (.recv .tryRecv), .act 1 (.mutex (.cas true)), .act 1 (.chan (.popFront (some 7))),
    .act 1 (.mutex .store), .act 1 (.mutex (.take .sync [])), .act 1 (.mutex (.take .async []))]

theorem exact_fifo_received : ∃ s : State Nat,
    exec State.step (⟨fun _ => true, 1, 0⟩ : Config).init sentEvents = some s ∧
      s.returned = [(1, 7)] ∧ s.ExactFifo :=
  exists_of_exec (fun s => decide (s.returned = [(1, 7)])) rfl fun _ hs hq =>
    ⟨of_decide_eq_true hq, hs.exact_fifo⟩

end State

end WasmSafeMutex
