import WasmSafeMutex.Mutex.Exclusion

/-!
# Timed locks at their deadline

A timed lock that finds the lock free takes it. Two of its exits come without a look at the
lock: the spinning call reads the clock after it has lost, and the awaiting call sees its
timeout.
-/

namespace WasmSafeMutex

open Interleaving

variable {V : Type}

/-! ## Places of a timed lock -/

/-- The place belongs to a lock call with this deadline. The last try has none any more. -/
def LockPc.timed (d : Instant) : LockPc → Prop
  | .spin d' | .probe d' | .enter _ d' | .tryIn _ d' | .push _ d' | .leave _ d' _ | .park d' => d' = some d
  | .spinNow d' | .now _ d' | .spawn d' _ | .raceNotify d' _ _ | .raceTimeout d' _ _ => d' = d
  | .lastTry => True
  | .tryLock | .leaveOwner _ | .await _ => False

/-- The call has lost its attempt, and may give up before it makes another one. -/
def LockPc.lost : LockPc → Bool
  | .spinNow _ | .push .async (some _) | .leave .async (some _) _ | .spawn _ _ | .raceNotify _ _ _
  | .raceTimeout _ _ _ => true
  | _ => false

/-- The clock that a spinning call reads is past its deadline, or the race sees the timeout. -/
def LockPc.expires (sh : Shared V) : LockPc → Bool
  | .spinNow d => d ≤ sh.clock
  | .raceTimeout _ _ n => sh.woken (.cont n)
  | _ => false

def Call.lost (c : Call V) : Bool :=
  match c.pc? with
  | some (.lock l _) => l.lost
  | _ => false

theorem LockPc.not_lost_of_begins {l : LockPc} (h : l.begins = true) : l.lost = false := by
  cases l <;> first | rfl | cases h

theorem LockPc.not_expires {sh : Shared V} {l : LockPc} (h : l.lost = false) : l.expires sh = false := by
  cases l <;> first | rfl | cases h

/-- A call comes to such a place by a lost attempt, or from another one. -/
theorem LockPc.Step.lost {l l' : LockPc} {a : Act V} {o : LockOut} (h : l.Step a o)
    (ho : o = .goto l' ∨ o = .yield l') (hl : l'.lost = true) :
    l.lost = true ∨ a = .mutex (.cas false) ∨ a = .mutex (.swap false) := by
  cases h with
  | spinTimed d => exact .inr (.inr rfl)
  | tryIn k d won =>
    cases won with
    | false => exact .inr (.inl rfl)
    | true => rcases ho with ho | ho <;> cases ho; cases hl
  | push k d n | leave k d n =>
    refine .inl ?_
    cases k <;> cases d <;> rcases ho with ho | ho <;> cases ho
    all_goals first | rfl | cases hl
  | spawn | raceNotify | racePending => exact .inl rfl
  | tryLock won | lastTry won => cases won <;> rcases ho with ho | ho <;> cases ho
  | spinNow d x => exact .inl rfl
  | now k d x => split at ho <;> rcases ho with ho | ho <;> cases ho <;> cases hl
  | probe d b => cases b <;> cases d <;> rcases ho with ho | ho <;> cases ho <;> cases hl
  | park d b => cases d <;> rcases ho with ho | ho <;> cases ho <;> cases hl
  | spinWon | leaveOwner | raceTimedOut => rcases ho with ho | ho <;> cases ho
  | spinLost | enter | awaitReady | awaitPending =>
    rcases ho with ho | ho <;> cases ho
    cases hl

/-- The exits of a lock call that gives up. -/
theorem LockPc.Step.gives_up {l : LockPc} {a : Act V} (h : l.Step a .failed) :
    a = .mutex (.cas false) ∨ (∃ d x, l = .spinNow d ∧ a = .now x ∧ d ≤ x) ∨
      ∃ d n m, l = .raceTimeout d n m ∧ a = .observe (.cont m) true := by
  generalize ho : LockOut.failed = o at h
  cases h with
  | tryLock won | lastTry won => cases won <;> first | exact .inl rfl | cases ho
  | spinNow d x =>
    split at ho
    case isTrue hx => exact .inr (.inl ⟨d, x, rfl, rfl, hx⟩)
    case isFalse => cases ho
  | raceTimedOut d n m => exact .inr (.inr ⟨d, n, m, rfl, rfl⟩)
  | _ => cases ho

/-- Where the bit is clear, no attempt is lost. -/
theorem Shared.Applied.attempt {sh sh' : Shared V} {m : MutexId} {i : CallId} {t : ThreadId} {a : Act V}
    (h : sh.Applied m i t a sh') (hfree : (sh.mutex m).dataLock = false) :
    a ≠ .mutex (.cas false) ∧ a ≠ .mutex (.swap false) := by
  constructor <;> rintro rfl <;> cases h with
  | mutex a x hx => cases hx; simp_all

/-- What a call sees of a flag is what it is. -/
theorem Shared.Applied.observed {sh sh' : Shared V} {m : MutexId} {i : CallId} {t : ThreadId} {w : Waker}
    {b : Bool} (h : sh.Applied m i t (.observe w b) sh') : b = sh.woken w := by
  generalize ha : Act.observe w b = a at h
  cases h with
  | observe w' =>
    obtain ⟨rfl, hb⟩ := Act.observe.inj ha
    exact hb
  | _ => cases ha

namespace State

variable [DecidableEq V] {s s' x u w : State V} {e : Event V} {es : List (Event V)} {i : CallId} {a : Act V}
  {d : Instant} {m : MutexId} {l : LockPc}

/-! ## While the lock is free -/

/-- The call is not about mutex `m`, or has not lost an attempt. -/
def Unbeaten (s : State V) (i : CallId) (m : MutexId) : Prop :=
  ∀ k, (s.call i).caller? = some k → k.mutex = m → (s.call i).lost = false

theorem Unbeaten.step (hr : s.Reachable) (hs : s.Unbeaten i m) (hfree : (s.sh.mutex m).dataLock = false)
    (hstep : s.step e = some s') : s'.Unbeaten i m := by
  intro k hk hm
  by_contra hlost
  rw [Bool.not_eq_false] at hlost
  obtain ⟨l, ret, hpc, hl⟩ : ∃ l ret, (s'.call i).pc? = some (.lock l ret) ∧ l.lost = true := by
    unfold Call.lost at hlost
    split at hlost
    case h_1 l ret hpc => exact ⟨l, ret, hpc, hlost⟩
    case h_2 => cases hlost
  have hbegins : Pc.begins (.lock l ret : Pc V) = true → False := by
    intro hb
    rw [LockPc.not_lost_of_begins hb] at hl
    cases hl
  rcases call_cases hr.sane.numbered hstep i with hcall | ⟨a, t, k', pc, n, rfl, ha⟩ | ⟨c, ht⟩
  · rw [hcall] at hk hlost
    rw [hs k hk hm] at hlost
    cases hlost
  · rw [ha.call_self] at hk hpc
    rcases Next.caller_call k' t n with hc | ⟨o, ho⟩
    case inr => rw [ho] at hk; cases hk
    obtain rfl : k' = k := Option.some.inj (hc.symm.trans hk)
    have hn : n.pc? = some (.lock l ret) := by cases n <;> exact hpc
    have hold := hs k' (by rw [ha.running]; rfl) hm
    rw [ha.running] at hold
    rcases ha.step.into_lock hn with ⟨l₀, o, rfl, ho, hout⟩ | hb
    · obtain ⟨hcas, hswap⟩ := ha.applied.attempt (hm ▸ hfree)
      rcases ho.lost hout hl with h | h | h
      · exact absurd (h.symm.trans hold) (by simp)
      · exact hcas h
      · exact hswap h
    · exact hbegins hb
  · rw [ht.call_self] at hk hpc
    have hturn := ht.turn
    have hold := hs k
    generalize s.call i = c₀ at hturn hold
    cases hturn with
    | begin t r => exact hbegins (Option.some.inj hpc ▸ r.begins_entry)
    | wait t c w k r => exact hbegins (Option.some.inj hpc ▸ w.begins_entry _)
    | dropGuard => cases hpc
    | cancel => cases hk
    | poll t k pc =>
      have h := hold hk hm
      cases hpc
      exact absurd (hl.symm.trans h) (by simp)

theorem unbeaten_of_run (hr : x.Reachable) (hx : x.Unbeaten i m)
    (hfree : Along State.step (fun y _ => (y.sh.mutex m).dataLock = false) x es)
    (hexec : exec State.step x es = some u) : u.Unbeaten i m := by
  induction es generalizing x with
  | nil => cases hexec; exact hx
  | cons e es ih =>
    obtain ⟨y, hy, hrest⟩ := Option.bind_eq_some_iff.mp hexec
    exact ih (hr.step hy) (hx.step hr hfree.1 hy) (hfree.2 y hy) hrest

/-! ## The exits -/

/-- The call does not leave by the clock or by the timeout. -/
def InTime (i : CallId) (s : State V) (e : Event V) : Prop :=
  ∀ a l ret, e = .act i a → (s.call i).pc? = some (.lock l ret) → l.expires s.sh = false

/-- A call whose time is over gives up. -/
theorem gives_up_expired (hstep : s.step (.act i a) = some s') {ret : LockRet}
    (hpc : (s.call i).pc? = some (.lock l ret)) (hl : l.expires s.sh = true) :
    l.next a = some .failed ∧ ∃ o, s'.call i = .done o := by
  obtain ⟨t, k, pc, n, ha⟩ := act_acted hstep
  rw [ha.running] at hpc
  cases hpc
  have hself := ha.call_self
  generalize hsh : s'.sh = sh'
  have happ := hsh ▸ ha.applied
  cases hst : ha.step with
  | lock l ret a out ho =>
    cases ho with
    | spinNow d y =>
      cases happ
      have hd : d ≤ s.sh.clock := of_decide_eq_true hl
      rw [if_pos hd] at hself
      exact ⟨by simp [LockPc.next, hd], _, hself⟩
    | raceTimedOut d n y => exact ⟨by simp [LockPc.next], _, hself⟩
    | racePending d n y =>
      exact absurd (happ.observed.trans hl) (by simp)
    | _ => cases hl

/-- A call that is still at the lock has not expired before. -/
theorem inTime_of_running (hr : x.Reachable) (hexec : exec State.step x es = some u)
    (hu : (u.call i).caller?.isSome = true) : Along State.step (InTime i) x es := by
  induction es generalizing x with
  | nil => trivial
  | cons e es ih =>
    obtain ⟨y, hy, hrest⟩ := Option.bind_eq_some_iff.mp hexec
    constructor
    · rintro a l ret rfl hpc
      by_contra hl
      rw [Bool.not_eq_false] at hl
      obtain ⟨-, o, ho⟩ := gives_up_expired hy hpc hl
      have hdone : u.Reachable ∧ u.call i = .done o := by
        refine (run_of_exec hrest).invariant (P := fun z => z.Reachable ∧ z.call i = .done o)
          ⟨hr.step hy, ho⟩ ?_
        intro z z' e hz _ hzz
        exact ⟨hz.1.step hzz, hz.1.sane.numbered.done_step hzz hz.2⟩
      rw [hdone.2] at hu
      cases hu
    · intro z hz
      cases hy.symm.trans hz
      exact ih (hr.step hy) hrest

/-- With the lock free and time left, the call does not give up. -/
theorem wins_of_inTime (hstep : u.step (.act i a) = some w) {ret : LockRet}
    (hpc : (u.call i).pc? = some (.lock l ret)) {k : Caller V} (hk : (u.call i).caller? = some k)
    (hfree : (u.sh.mutex k.mutex).dataLock = false) (hl : l.expires u.sh = false) :
    l.next a ≠ some .failed := by
  intro hfail
  obtain ⟨t, k', pc, n, ha⟩ := act_acted hstep
  rw [ha.running] at hpc hk
  cases hpc
  obtain rfl : k' = k := Option.some.inj hk
  rcases (LockPc.step_of_next hfail).gives_up with rfl | ⟨d, y, rfl, rfl, hy⟩ | ⟨d, n, y, rfl, rfl⟩
  · exact (ha.applied.attempt hfree).1 rfl
  · generalize hsh : w.sh = sh'
    cases hsh ▸ ha.applied
    exact absurd (decide_eq_true hy) (by rw [show decide _ = false from hl]; simp)
  · exact absurd (ha.applied.observed.trans hl) (by simp)

/-! ## The decision -/

/-- By `a`, a lock call with deadline `d` decides. Its mutex has been free since `x`, where
the deadline was still to come. -/
structure DecidesFree (x u w : State V) (es : List (Event V)) (i : CallId) (a : Act V) (l : LockPc)
    (d : Instant) (k : Caller V) : Prop where
  reachable : x.Reachable
  clock : x.sh.clock < d
  free : Along State.step (fun y _ => (y.sh.mutex k.mutex).dataLock = false) x (es ++ [.act i a])
  exec : exec State.step x es = some u
  caller : (u.call i).caller? = some k
  place : ∃ ret, (u.call i).pc? = some (.lock l ret)
  timed : l.timed d
  step : u.step (.act i a) = some w
  decides : a.wins = true ∨ l.next a = some .failed

/-- The call owns the lock, and returns `Some` as soon as it has left its section. -/
structure TakesLock (w : State V) (i : CallId) (a : Act V) (l : LockPc) (m : MutexId) : Prop where
  returns : l.next a = some .acquired ∨ ∃ k, l.next a = some (.goto (.leaveOwner k))
  owner : i ∈ (w.sh.mutex m).owners

omit [DecidableEq V] in
theorem TakesLock.not_failed (h : TakesLock w i a l m) : l.next a ≠ some .failed := by
  intro hfail
  rcases h.returns with hsome | ⟨side, hsome⟩ <;> cases hfail.symm.trans hsome

theorem DecidesFree.takes {k : Caller V} (h : DecidesFree x u w es i a l d k) (hw : a.wins = true) :
    TakesLock w i a l k.mutex := by
  obtain ⟨ret, hpc⟩ := h.place
  obtain ⟨t, k', pc, n, ha⟩ := act_acted h.step
  have hk := h.caller
  rw [ha.running] at hpc hk
  obtain rfl : k' = k := Option.some.inj hk
  cases hpc
  constructor
  · cases hst : ha.step with
    | lock l ret a o ho =>
      have hnext : l.next a = some o := LockPc.next_of_step ho
      rcases (ho.wins hw).2 with rfl | ⟨side, rfl⟩
      · exact .inl hnext
      · exact .inr ⟨side, hnext⟩
  · rcases ha.applied.bit with ⟨-, -, -, hown⟩ | ⟨hlost, -⟩ | ⟨hlost, -⟩
    · rw [hown]; exact List.mem_cons_self
    · exact absurd (hw.symm.trans hlost) (by simp)
    · exact absurd (hw.symm.trans hlost) (by simp)

theorem timed_lock_takes_free {k : Caller V} (h : DecidesFree x u w es i a l d k) :
    TakesLock w i a l k.mutex ↔
      (x.call i).lost = false ∨ Along State.step (InTime i) x (es ++ [.act i a]) := by
  obtain ⟨ret, hpc⟩ := h.place
  have hrunning : Along State.step (InTime i) x es :=
    inTime_of_running h.reachable h.exec (by rw [h.caller]; rfl)
  obtain ⟨hfree, hfreeu⟩ := (along_concat h.exec).mp h.free
  constructor
  · intro htakes
    refine .inr ((along_concat h.exec).mpr ⟨hrunning, ?_⟩)
    rintro b l' ret' hb hpc'
    cases hb
    cases hpc.symm.trans hpc'
    by_contra hl
    rw [Bool.not_eq_false] at hl
    exact htakes.not_failed (gives_up_expired h.step hpc hl).1
  · intro hcond
    have hl : l.expires u.sh = false := by
      rcases hcond with hlost | halong
      · have hu : u.Unbeaten i k.mutex := by
          refine unbeaten_of_run h.reachable ?_ hfree h.exec
          intro _ _ _; exact hlost
        have hnot := hu k h.caller rfl
        unfold Call.lost at hnot
        rw [hpc] at hnot
        exact LockPc.not_expires hnot
      · exact ((along_concat h.exec).mp halong).2 a l ret rfl hpc
    exact h.takes (h.decides.resolve_right (wins_of_inTime h.step hpc h.caller hfreeu hl))

/-! ## Two runs that give up on a free lock -/

/-- Call 1 has lost its swap, and call 0 releases before call 1 reads the clock. -/
def lostSwap : List (Event Nat) :=
  [.begin 0 (.lock 0 .tryLock), .act 0 (.mutex (.cas true)), .begin 1 (.lock 0 (.lockSpinTimeout 1)),
    .act 1 (.mutex (.swap false)), .dropGuard 0 0, .act 0 (.mutex .store)]

/-- Call 1 is at its race, and call 0 releases but has still to wake it. -/
def lostRace : List (Event Nat) :=
  [.begin 0 (.lock 0 .tryLock), .act 0 (.mutex (.cas true)), .begin 1 (.lock 0 (.lockAsyncTimeout 1)),
    .act 1 (.now 0), .act 1 (.mutex (.enter .async)), .act 1 (.mutex (.cas false)), .act 1 (.push .async 0),
    .act 1 (.mutex (.leave .async)), .act 1 (.spawn 1 1), .act 1 (.observe (.cont 0) false),
    .dropGuard 0 0, .act 0 (.mutex .store)]

theorem swap_decides : ∃ x u w : State Nat,
    DecidesFree x u w [.tick] 1 (.now 1) (.spinNow 1) 1 (.user 0) := by
  have hrun : ∃ x u w : State Nat,
      exec State.step (⟨fun _ => true, 0, 0⟩ : Config).init lostSwap = some x ∧
        exec State.step x [.tick] = some u ∧ u.step (.act 1 (.now 1)) = some w ∧ x.sh.clock = 0 ∧
        (x.sh.mutex (.user 0)).dataLock = false ∧ (u.sh.mutex (.user 0)).dataLock = false ∧
        u.call 1 = .running 1 (.user 0) (.lock (.spinNow 1) .first) :=
    ⟨_, _, _, rfl, rfl, rfl, rfl, rfl, rfl, rfl⟩
  obtain ⟨x, u, w, hx, hu, hw, hclock, hfree, hfreeu, hcall⟩ := hrun
  refine ⟨x, u, w, reachable_of_exec hx, by rw [hclock]; decide, ?_, hu, by rw [hcall]; rfl,
    ⟨.first, by rw [hcall]; rfl⟩, rfl, hw, .inr rfl⟩
  exact (along_concat hu).mpr ⟨⟨hfree, fun _ _ => trivial⟩, hfreeu⟩

theorem race_decides : ∃ x u w : State Nat,
    DecidesFree x u w [.tick, .fire 1 1] 1 (.observe (.cont 1) true) (.raceTimeout 1 0 1) 1 (.user 0) := by
  have hrun : ∃ x y u w : State Nat,
      exec State.step (⟨fun _ => true, 0, 0⟩ : Config).init lostRace = some x ∧ x.step .tick = some y ∧
        y.step (.fire 1 1) = some u ∧ u.step (.act 1 (.observe (.cont 1) true)) = some w ∧
        x.sh.clock = 0 ∧ (x.sh.mutex (.user 0)).dataLock = false ∧
        (y.sh.mutex (.user 0)).dataLock = false ∧ (u.sh.mutex (.user 0)).dataLock = false ∧
        u.call 1 = .running 1 (.user 0) (.lock (.raceTimeout 1 0 1) .first) :=
    ⟨_, _, _, _, rfl, rfl, rfl, rfl, rfl, rfl, rfl, rfl, rfl⟩
  obtain ⟨x, y, u, w, hx, hy, hu, hw, hclock, hfree, hfreey, hfreeu, hcall⟩ := hrun
  have hexec : exec State.step x [.tick, .fire 1 1] = some u := by simp [exec, hy, hu]
  refine ⟨x, u, w, reachable_of_exec hx, by rw [hclock]; decide, ?_, hexec, by rw [hcall]; rfl,
    ⟨.first, by rw [hcall]; rfl⟩, rfl, hw, .inr rfl⟩
  refine (along_concat hexec).mpr ⟨⟨hfree, fun z hz => ?_⟩, hfreeu⟩
  cases hy.symm.trans hz
  exact ⟨hfreey, fun _ _ => trivial⟩

theorem gives_up_on_free :
    (¬ ∀ (x u w : State Nat) es i a d k, DecidesFree x u w es i a (.spinNow 1) d k →
      TakesLock w i a (.spinNow 1) k.mutex) ∧
    ¬ ∀ (x u w : State Nat) es i a d k, DecidesFree x u w es i a (.raceTimeout 1 0 1) d k →
      TakesLock w i a (.raceTimeout 1 0 1) k.mutex := by
  constructor
  · intro hall
    obtain ⟨x, u, w, h⟩ := swap_decides
    exact (hall x u w _ _ _ _ _ h).not_failed rfl
  · intro hall
    obtain ⟨x, u, w, h⟩ := race_decides
    exact (hall x u w _ _ _ _ _ h).not_failed rfl

/-- After the lost swap, call 1 reads the clock in time. It wins after its deadline. -/
theorem spin_decides : ∃ x u w : State Nat,
    DecidesFree x u w [.act 1 (.now 0), .tick] 1 (.mutex (.swap true)) (.spin (some 1)) 1 (.user 0) ∧
      (x.call 1).lost = true ∧
      Along State.step (InTime 1) x ([.act 1 (.now 0), .tick] ++ [.act 1 (.mutex (.swap true))]) := by
  have hrun : ∃ x y u w : State Nat,
      exec State.step (⟨fun _ => true, 0, 0⟩ : Config).init lostSwap = some x ∧
        x.step (.act 1 (.now 0)) = some y ∧ y.step .tick = some u ∧
        u.step (.act 1 (.mutex (.swap true))) = some w ∧ x.sh.clock = 0 ∧
        (x.sh.mutex (.user 0)).dataLock = false ∧ (y.sh.mutex (.user 0)).dataLock = false ∧
        (u.sh.mutex (.user 0)).dataLock = false ∧
        x.call 1 = .running 1 (.user 0) (.lock (.spinNow 1) .first) ∧
        u.call 1 = .running 1 (.user 0) (.lock (.spin (some 1)) .first) :=
    ⟨_, _, _, _, rfl, rfl, rfl, rfl, rfl, rfl, rfl, rfl, rfl, rfl⟩
  obtain ⟨x, y, u, w, hx, hy, hu, hw, hclock, hfree, hfreey, hfreeu, hlost, hcall⟩ := hrun
  have hexec : exec State.step x [.act 1 (.now 0), .tick] = some u := by simp [exec, hy, hu]
  refine ⟨x, u, w, ⟨reachable_of_exec hx, by rw [hclock]; decide, ?_, hexec, by rw [hcall]; rfl,
    ⟨.first, by rw [hcall]; rfl⟩, rfl, hw, .inl rfl⟩, by rw [hlost]; rfl, ?_⟩
  · refine (along_concat hexec).mpr ⟨⟨hfree, fun z hz => ?_⟩, hfreeu⟩
    cases hy.symm.trans hz
    exact ⟨hfreey, fun _ _ => trivial⟩
  · refine (along_concat hexec).mpr ⟨inTime_of_running (reachable_of_exec hx) hexec (by rw [hcall]; rfl), ?_⟩
    rintro a l ret - hpc
    rw [hcall] at hpc
    cases hpc
    rfl

/-- A call that gives up, and one that takes the lock. -/
theorem timed_lock_takes_free_spin :
    (∃ x u w : State Nat, DecidesFree x u w [.tick] 1 (.now 1) (.spinNow 1) 1 (.user 0) ∧
      (TakesLock w 1 (.now 1 : Act Nat) (.spinNow 1) (.user 0) ↔
        (x.call 1).lost = false ∨ Along State.step (InTime 1) x ([.tick] ++ [.act 1 (.now 1)]))) ∧
    ∃ x u w : State Nat,
      DecidesFree x u w [.act 1 (.now 0), .tick] 1 (.mutex (.swap true)) (.spin (some 1)) 1 (.user 0) ∧
        (x.call 1).lost = true ∧
        TakesLock w 1 (.mutex (.swap true) : Act Nat) (.spin (some 1)) (.user 0) := by
  constructor
  · obtain ⟨x, u, w, h⟩ := swap_decides
    exact ⟨x, u, w, h, timed_lock_takes_free h⟩
  · obtain ⟨x, u, w, h, hlost, htime⟩ := spin_decides
    exact ⟨x, u, w, h, hlost, (timed_lock_takes_free h).mpr (.inr htime)⟩

end State

end WasmSafeMutex
