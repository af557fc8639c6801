import WasmSafeMutex.Channel.Fifo

/-!
# What `try_recv` sees

`try_recv` tries the lock of the queue once. Where it loses, it answers `Empty` without a
look at the queue.
-/

namespace WasmSafeMutex

open Interleaving

variable {V : Type}

namespace State

/-- Call `i` is a `try_recv` that has still to try the lock. -/
def Trying (s : State V) (i : CallId) : Prop :=
  ∃ t, s.call i = .running t (.recv .tryRecv) (.lock .tryLock .first)

/-- Call `i` has its answer, and at most its guard is still to drop. -/
def Settled (s : State V) (i : CallId) (o : Outcome V) : Prop :=
  s.call i = .done o ∨ ∃ t u, s.call i = .running t (.recv .tryRecv) (.unlock u (.finish o))

variable [DecidableEq V] {s s' s₁ v : State V} {e : Event V} {es : List (Event V)} {i : CallId}
  {o o' : Outcome V}

/-! ## One step -/

theorem Settled.step (hr : s.Reachable) (hs : s.Settled i o) (hstep : s.step e = some s') :
    s'.Settled i o := by
  rcases hs with hdone | ⟨t, u, hi⟩
  · exact .inl (hr.sane.numbered.done_step hstep hdone)
  · have hpc : (s.call i).pc? = some (.unlock u (.finish o)) := by rw [hi]; rfl
    rcases hr.sane.goes_on hstep hpc rfl with hcall | ⟨a, t', k, n, rfl, ha⟩
    · exact .inr ⟨t, u, hcall.trans hi⟩
    · cases hi.symm.trans ha.running
      have hself := ha.call_self
      cases ha.step with
      | unlock u ret a out ho =>
        cases out with
        | goto u' => exact .inr ⟨t, u', hself⟩
        | finished => exact .inl hself

/-- While one receive runs, nobody else takes values. -/
theorem Reachable.queue_kept (hr : s.Reachable) {t : ThreadId} {rk : RecvKind} {pc : Pc V}
    (hi : s.call i = .running t (.recv rk) pc) (hne : ∀ a, e ≠ .act i a) (hq : s.sh.chan.queue ≠ [])
    (hstep : s.step e = some s') : s'.sh.chan.queue ≠ [] := by
  cases hr.channel_step hstep with
  | same _ hc | cloned _ _ _ hc | dropped _ _ _ _ _ _ hc | cleared _ _ _ _ hc => rw [hc]; exact hq
  | pushed _ _ _ _ _ _ _ hc => rw [hc]; simp
  | popped j t' k x xs hj =>
    have hf := hr.fits j
    rw [hj] at hf
    obtain ⟨rk', rfl⟩ : ∃ rk', k = .recv rk' := by cases k <;> first | exact ⟨_, rfl⟩ | cases hf
    obtain rfl := hr.one_receive hi hj
    exact absurd rfl (hne _)

/-- A call goes on by its own operations, unless it can rest. -/
theorem Reachable.stays_running (hr : s.Reachable) {t : ThreadId} {k : Caller V} {pc : Pc V}
    (hi : s.call i = .running t k pc) (hp : pc.pending = false) (hne : ∀ a, e ≠ .act i a)
    (hstep : s.step e = some s') : s'.call i = .running t k pc := by
  have hpc : (s.call i).pc? = some pc := by rw [hi]; rfl
  rcases hr.sane.goes_on hstep hpc hp with hcall | ⟨a, _, _, _, he, _⟩
  · exact hcall.trans hi
  · exact absurd he (hne a)

theorem Settled.answers (hr : s.Reachable) (hs : s.Settled i o) (hexec : exec State.step s es = some v)
    (hdone : v.call i = .done o') : o' = o := by
  have hv : v.Reachable ∧ v.Settled i o := by
    refine (run_of_exec hexec).invariant (P := fun u => u.Reachable ∧ u.Settled i o) ⟨hr, hs⟩ ?_
    intro x y e hx _ hxy
    exact ⟨hx.1.step hxy, hx.2.step hx.1 hxy⟩
  rcases hv.2 with h | ⟨t, u, h⟩
  · exact Call.done.inj (hdone.symm.trans h)
  · cases hdone.symm.trans h

/-! ## The answer -/

/-- The queue is empty at some moment of the call. -/
def EmptyDuring (s : State V) (i : CallId) (es : List (Event V)) : Prop :=
  Sometime State.step (fun u _ => (u.call i).caller?.isSome = true ∧ u.sh.chan.queue = []) s es

/-- The lock of the queue is free when the call tries it. -/
def TriesFree (s : State V) (i : CallId) (es : List (Event V)) : Prop :=
  Sometime State.step (fun u e => (∃ a, e = .act i a) ∧ u.Trying i ∧
    (u.sh.mutex .queue).dataLock = false) s es

/-- A call that has ended tries no more, and none of these moments belongs to it. -/
theorem ended_answers (hr : s.Reachable) (hi : s.call i = .done o) (hexec : exec State.step s es = some v) :
    ¬ s.TriesFree i es ∧ ¬ s.EmptyDuring i es := by
  induction es generalizing s with
  | nil => exact ⟨id, id⟩
  | cons e es ih =>
    obtain ⟨s', hstep, hrest⟩ := Option.bind_eq_some_iff.mp hexec
    have hnext := ih (hr.step hstep) (hr.sane.numbered.done_step hstep hi) hrest
    unfold TriesFree EmptyDuring at hnext ⊢
    rw [sometime_cons hstep, sometime_cons hstep]
    constructor
    · rintro (⟨-, ⟨t, hrun⟩, -⟩ | h)
      · cases hi.symm.trans hrun
      · exact hnext.1 h
    · rintro (⟨hcaller, -⟩ | h)
      · rw [hi] at hcaller; cases hcaller
      · exact hnext.2 h

/-- With the lock, the call takes what is in the queue. -/
theorem popping_answers (hr : s.Reachable) {t : ThreadId}
    (hi : s.call i = .running t (.recv .tryRecv) .recvPop) (hexec : exec State.step s es = some v)
    (hdone : v.call i = .done o) :
    (o = .empty → s.EmptyDuring i es) ∧ (s.sh.chan.queue ≠ [] → o ≠ .empty) := by
  induction es generalizing s with
  | nil => cases hexec; cases hi.symm.trans hdone
  | cons e es ih =>
    obtain ⟨s', hstep, hrest⟩ := Option.bind_eq_some_iff.mp hexec
    unfold EmptyDuring
    rw [sometime_cons hstep]
    by_cases hact : ∃ a, e = .act i a
    · obtain ⟨a, rfl⟩ := hact
      obtain ⟨t', k, pc, n, ha⟩ := act_acted hstep
      cases hi.symm.trans ha.running
      cases hst : ha.step with
      | popSome x =>
        have hset : s'.Settled i (.received x) := .inr ⟨t, .store, ha.call_self⟩
        obtain rfl := hset.answers (hr.step hstep) hrest hdone
        exact ⟨by simp, by simp⟩
      | popNone =>
        have hnil := ha.queue_nil.1
        exact ⟨fun _ => .inl ⟨by rw [hi]; rfl, hnil⟩, fun h => absurd hnil h⟩
    · have hne : ∀ a, e ≠ .act i a := fun a he => hact ⟨a, he⟩
      obtain ⟨hmoment, hkeeps⟩ := ih (hr.step hstep) (hr.stays_running hi rfl hne hstep) hrest
      exact ⟨fun h => .inr (hmoment h), fun h => hkeeps (hr.queue_kept hi hne h hstep)⟩

/-- The call finds the lock free, and then looks into the queue, or it answers `Empty`. -/
theorem trying_answers (hr : s.Reachable) (hi : s.Trying i) (hexec : exec State.step s es = some v)
    (hdone : v.call i = .done o) :
    s.TriesFree i es ∧ (o = .empty → s.EmptyDuring i es) ∧ (s.sh.chan.queue ≠ [] → o ≠ .empty) ∨
      ¬ s.TriesFree i es ∧ o = .empty ∧ (s.sh.chan.queue ≠ [] → ¬ s.EmptyDuring i es) := by
  induction es generalizing s with
  | nil =>
    obtain ⟨t, hi⟩ := hi
    cases hexec; cases hi.symm.trans hdone
  | cons e es ih =>
    obtain ⟨s', hstep, hrest⟩ := Option.bind_eq_some_iff.mp hexec
    have htry := hi
    obtain ⟨t, hi⟩ := hi
    have hr' := hr.step hstep
    unfold TriesFree EmptyDuring
    rw [sometime_cons hstep, sometime_cons hstep]
    by_cases hact : ∃ a, e = .act i a
    · obtain ⟨a, rfl⟩ := hact
      obtain ⟨t', k, pc, n, ha⟩ := act_acted hstep
      cases hi.symm.trans ha.running
      have hself := ha.call_self
      generalize hsh : s'.sh = sh'
      have happ := hsh ▸ ha.applied
      cases hst : ha.step with
      | lock l ret a out ho =>
        cases ho with
        | tryLock won =>
          cases happ with
          | mutex b y hy =>
            cases hy with
            | casWon hfree =>
              obtain ⟨hmoment, hkeeps⟩ := popping_answers hr' hself hrest hdone
              refine .inl ⟨.inl ⟨⟨_, rfl⟩, htry, hfree⟩, fun h => .inr (hmoment h), fun h => hkeeps ?_⟩
              rw [hsh]; exact h
            | casLost hheld =>
              have hset : s'.Settled i .empty := .inl hself
              obtain ⟨hnever, hnone⟩ := ended_answers hr' hself hrest
              refine .inr ⟨?_, hset.answers hr' hrest hdone, fun hq => ?_⟩
              · rintro (⟨-, -, hfree⟩ | h)
                · cases hheld.symm.trans hfree
                · exact hnever h
              · rintro (⟨-, hnil⟩ | h)
                · exact hq hnil
                · exact hnone h
    · have hne : ∀ a, e ≠ .act i a := fun a he => hact ⟨a, he⟩
      have hkept := fun h => hr.queue_kept hi hne h hstep
      rcases ih hr' ⟨t, hr.stays_running hi rfl hne hstep⟩ hrest with
        ⟨hfree, hmoment, hkeeps⟩ | ⟨hheld, hempty, hnone⟩
      · exact .inl ⟨.inr hfree, fun h => .inr (hmoment h), fun h => hkeeps (hkept h)⟩
      · refine .inr ⟨?_, hempty, fun hq => ?_⟩
        · rintro (⟨h, -⟩ | h)
          · exact hact h
          · exact hheld h
        · rintro (⟨-, hnil⟩ | h)
          · exact hq hnil
          · exact hnone (hkept hq) h

/-! ## A completed send -/

/-- Some send has returned `Ok`, and its value has not been received: what has been returned is
the beginning of what was pushed, and its push is not among it. -/
def Unreceived (s : State V) : Prop :=
  ∃ j a x, s.call j = .done .sent ∧ s.sh.chan.pushed[a]? = some (j, x) ∧ s.returned.length ≤ a

/-- A `try_recv` that begins in `s` and goes through `es` answers `o`. -/
structure SeesSends (s s₁ : State V) (i : CallId) (es : List (Event V)) (o : Outcome V) : Prop where
  empty : o = .empty → s₁.EmptyDuring i es
  sent : s.Unreceived → o ≠ .empty

theorem Unreceived.queue (hr : s.Reachable) (hu : s.Unreceived) {t : ThreadId}
    (hstep : s.step (.begin t (.recv .tryRecv)) = some s₁) : s.sh.chan.queue ≠ [] := by
  obtain ⟨j, a, x, -, hx, ha⟩ := hu
  intro hnil
  simp only [step, Option.ite_none_right_eq_some] at hstep
  obtain ⟨⟨hfree, -, ht⟩, -⟩ := hstep
  obtain ⟨i, -, hpop⟩ := hr.inOrder.flight
  -- No other receive runs.
  have hflight : (s.call i).inFlight = [] := by
    by_contra hne
    obtain ⟨t', rk, pc, hi⟩ := hr.recv_of_inFlight hne
    have hlt : i < s.used := hr.sane.numbered.lt_used (by rw [hi]; simp)
    refine hfree i hlt ?_
    rw [hi, ht, ← hr.receiver_home hi]
    rfl
  have hlen := congrArg List.length hr.inOrder.queue
  rw [hnil, hpop, hflight] at hlen
  simp only [List.map_nil, List.append_nil, List.length_map] at hlen
  have hlt := (List.getElem?_eq_some_iff.mp hx).1
  omega

theorem try_recv_sees (hr : s.Reachable) {t : ThreadId}
    (hbegin : s.step (.begin t (.recv .tryRecv)) = some s₁) (hexec : exec State.step s₁ es = some v)
    (hdone : v.call s.used = .done o) :
    SeesSends s s₁ s.used es o ↔ s.sh.chan.queue = [] ∨ s₁.TriesFree s.used es := by
  have hr₁ := hr.step hbegin
  have hboth : s₁.Trying s.used ∧ s₁.sh.chan.queue = s.sh.chan.queue := by
    simp only [step, Option.ite_none_right_eq_some, Option.some.injEq] at hbegin
    obtain ⟨-, rfl⟩ := hbegin
    exact ⟨⟨t, Function.update_self ..⟩, rfl⟩
  obtain ⟨htry, hqueue⟩ := hboth
  constructor
  · intro hsees
    rcases trying_answers hr₁ htry hexec hdone with ⟨hfree, -, -⟩ | ⟨-, hempty, hnone⟩
    · exact .inr hfree
    · refine .inl ?_
      by_contra hq
      exact hnone (hqueue ▸ hq) (hsees.empty hempty)
  · intro hcond
    rcases trying_answers hr₁ htry hexec hdone with ⟨-, hmoment, hkeeps⟩ | ⟨hheld, -, -⟩
    · exact ⟨hmoment, fun hu => hkeeps (hqueue ▸ hu.queue hr hbegin)⟩
    · have hnil := hcond.resolve_right hheld
      refine ⟨fun _ => ?_, fun hu => absurd hnil (hu.queue hr hbegin)⟩
      cases es with
      | nil =>
        obtain ⟨t', hi⟩ := htry
        cases hexec
        cases hi.symm.trans hdone
      | cons e es =>
        obtain ⟨t', hi⟩ := htry
        exact .inl ⟨by rw [hi]; rfl, hqueue.trans hnil⟩

/-! ## A run where it does not -/

/-- One send has returned, and a second one holds the lock. -/
def sendsUnderWay : List (Event Nat) :=
  [.begin 0 (.send 0 .spin 7), .act 0 (.chan (.loadActive true)), .act 0 (.mutex (.swap true)),
    .act 0 (.chan (.loadActive true)), .act 0 (.chan (.pushBack 7)), .act 0 (.mutex .store),
    .act 0 (.mutex (.take .sync [])), .act 0 (.mutex (.take .async [])),
    .act 0 (.condvar .channel (.pop .spin none)), .act 0 (.condvar .channel (.pop .sync none)),
    .act 0 (.condvar .channel (.pop .async none)), .begin 0 (.send 0 .spin 8),
    .act 1 (.chan (.loadActive true)), .act 1 (.mutex (.swap true))]

theorem sends_under_way : ∃ s s₁ v : State Nat,
    exec State.step (⟨fun _ => true, 1, 0⟩ : Config).init sendsUnderWay = some s ∧
      s.call 0 = .done .sent ∧ s.sh.chan.pushed = [(0, 7)] ∧ s.returned = [] ∧ s.used = 2 ∧
      s.step (.begin 1 (.recv .tryRecv)) = some s₁ ∧
      exec State.step s₁ [.act 2 (.mutex (.cas false))] = some v ∧ v.call 2 = .done .empty :=
  ⟨_, _, _, rfl, rfl, rfl, rfl, rfl, rfl, rfl, rfl⟩

/-- The value of the first send is there, and the answer is `Empty`. -/
theorem try_recv_misses : ¬ ∀ (s s₁ v : State Nat) t es o, s.Reachable →
    s.step (.begin t (.recv .tryRecv)) = some s₁ → exec State.step s₁ es = some v →
    v.call s.used = .done o → SeesSends s s₁ s.used es o := by
  intro hall
  obtain ⟨s, s₁, v, hexec, hsent, hpushed, hreturned, hused, hbegin, hrest, hdone⟩ := sends_under_way
  have hsees := hall s s₁ v 1 _ .empty (reachable_of_exec hexec) hbegin hrest (hused ▸ hdone)
  refine hsees.sent ⟨0, 0, 7, hsent, ?_, ?_⟩ rfl
  · rw [hpushed]; rfl
  · rw [hreturned]; exact Nat.le_refl 0

/-- One send has returned, and nobody has the lock. -/
def sendReturned : List (Event Nat) := sendsUnderWay.take 11

def tryTakes : List (Event Nat) :=
  [.act 1 (.mutex (.cas true)), .act 1 (.chan (.popFront (some 7))), .act 1 (.mutex .store),
    .act 1 (.mutex (.take .sync [])), .act 1 (.mutex (.take .async []))]

/-- The run above, and one that finds the lock free. -/
theorem try_recv_sees_one :
    (∃ s s₁ v : State Nat,
      exec State.step (⟨fun _ => true, 1, 0⟩ : Config).init sendsUnderWay = some s ∧
        s.step (.begin 1 (.recv .tryRecv)) = some s₁ ∧
        exec State.step s₁ [.act 2 (.mutex (.cas false))] = some v ∧ v.call s.used = .done .empty ∧
        (SeesSends s s₁ s.used [.act 2 (.mutex (.cas false))] .empty ↔
          s.sh.chan.queue = [] ∨ s₁.TriesFree s.used [.act 2 (.mutex (.cas false))])) ∧
    ∃ s s₁ v : State Nat,
      exec State.step (⟨fun _ => true, 1, 0⟩ : Config).init sendReturned = some s ∧ s.Unreceived ∧
        s.step (.begin 1 (.recv .tryRecv)) = some s₁ ∧ exec State.step s₁ tryTakes = some v ∧
        v.call s.used = .done (.received 7) ∧ SeesSends s s₁ s.used tryTakes (.received 7) := by
  constructor
  · obtain ⟨s, s₁, v, hexec, -, -, -, hused, hbegin, hrest, hdone⟩ := sends_under_way
    rw [← hused] at hdone
    exact ⟨s, s₁, v, hexec, hbegin, hrest, hdone, try_recv_sees (reachable_of_exec hexec) hbegin hrest hdone⟩
  · have hrun : ∃ s s₁ v : State Nat,
        exec State.step (⟨fun _ => true, 1, 0⟩ : Config).init sendReturned = some s ∧
          s.call 0 = .done .sent ∧ s.sh.chan.pushed = [(0, 7)] ∧ s.returned = [] ∧ s.used = 1 ∧
          s.step (.begin 1 (.recv .tryRecv)) = some s₁ ∧ exec State.step s₁ tryTakes = some v ∧
          v.call 1 = .done (.received 7) ∧ s₁.call 1 = .running 1 (.recv .tryRecv) (.lock .tryLock .first) ∧
          (s₁.sh.mutex .queue).dataLock = false :=
      ⟨_, _, _, rfl, rfl, rfl, rfl, rfl, rfl, rfl, rfl, rfl, rfl⟩
    obtain ⟨s, s₁, v, hexec, hsent, hpushed, hreturned, hused, hbegin, hrest, hdone, htry, hfree⟩ := hrun
    have hfound : s₁.TriesFree 1 tryTakes := .inl ⟨⟨_, rfl⟩, ⟨1, htry⟩, hfree⟩
    rw [← hused] at hdone hfound
    refine ⟨s, s₁, v, hexec, ⟨0, 0, 7, hsent, ?_, ?_⟩, hbegin, hrest, hdone,
      (try_recv_sees (reachable_of_exec hexec) hbegin hrest hdone).mpr (.inr hfound)⟩
    · rw [hpushed]; rfl
    · rw [hreturned]; exact Nat.le_refl 0

end State

end WasmSafeMutex
