import WasmSafeMutex.Mutex.Sections

/-!
# Waiting while a condition holds

The `wait_*_while` methods call their condition and wait, in turns, until the condition fails or
a timed wait has timed out. The data lies behind the guards, and who has one may change it.
-/

namespace WasmSafeMutex

open Interleaving

variable {V D : Type}

/-! ## The loops -/

inductive WhileCall
  | waitSpinWhile
  | waitSpinTimeoutWhile (deadline : Instant)
  | waitBlockWhile
  | waitBlockTimeoutWhile (deadline : Instant)
  | waitSyncWhile
  | waitSyncTimeoutWhile (deadline : Instant)
  | waitAsyncWhile
  | waitAsyncTimeoutWhile (deadline : Instant)
  deriving DecidableEq

/-- The wait in the loop. `wait_sync_*` asks before the loop whether the thread can block. -/
def WhileCall.wait (supported : Bool) : WhileCall → WaitCall
  | .waitSpinWhile => .waitSpin
  | .waitSpinTimeoutWhile d => .waitSpinTimeout d
  | .waitBlockWhile => .waitBlock
  | .waitBlockTimeoutWhile d => .waitBlockTimeout d
  | .waitSyncWhile => if supported then .waitBlock else .waitSpin
  | .waitSyncTimeoutWhile d => if supported then .waitBlockTimeout d else .waitSpinTimeout d
  | .waitAsyncWhile => .waitAsync
  | .waitAsyncTimeoutWhile d => .waitAsyncTimeout d

/-- The methods that return a `WaitTimeoutResult` beside the guard. -/
def WhileCall.timed : WhileCall → Bool
  | .waitSpinTimeoutWhile _ | .waitBlockTimeoutWhile _ | .waitSyncTimeoutWhile _
  | .waitAsyncTimeoutWhile _ => true
  | _ => false

/-- After the loop: `WaitTimeoutResult(false)`, where there is one. -/
def WhileCall.after (w : WhileCall) : Option Bool := if w.timed then some false else none

inductive LoopPc
  | test
  | wait
  | waiting
  | ret (r : Option Bool)
  deriving DecidableEq

/-- A `wait_*_while` under way. -/
structure Loop (D : Type) where
  cv : Nat
  call : WhileCall
  body : WaitCall
  /-- The closure, which is given the data and may change it. -/
  condition : D → Bool × D
  thread : ThreadId
  pc : LoopPc
  /-- History: the data that the guard of the last wait exposed, and the answer of that wait. -/
  before : Option D
  last : Option Bool

/-- The condition does not modify the data. -/
def Loop.Reads (l : Loop D) : Prop := ∀ x, (l.condition x).2 = x

/-- A wait that has returned goes on in the loop. When the future is dropped, the loop is gone. -/
def Loop.resume (l : Loop D) (t : Option ThreadId) (c : Call V) : Option (Loop D) :=
  match l.pc, c with
  | .waiting, .holding _ r =>
    some { l with pc := if r = some true then .ret r else .test, thread := t.getD l.thread, last := r }
  | .waiting, .done _ => none
  | _, _ => some l

structure LoopReturn (D : Type) where
  call : CallId
  loop : Loop D
  result : Option Bool
  /-- What the returned guard exposes. -/
  data : D

structure Looping (V D : Type) where
  sys : State V
  data : Nat → D
  loop : CallId → Option (Loop D)
  /-- History: what the loops have returned. -/
  returns : List (LoopReturn D)

inductive LoopEvent (V D : Type)
  /-- An event of the locks and waits, which leaves the guards of the loops to them. -/
  | sys (e : Event V)
  /-- The data is changed through the guard that call `i` has returned. -/
  | modify (i : CallId) (x : D)
  | begin (i : CallId) (t : ThreadId) (c : Nat) (w : WhileCall) (condition : D → Bool × D)
  /-- The loop takes a step. -/
  | run (i : CallId)

/-- The thread on which the event lets a call run. -/
def Event.startsOn : Event V → Option ThreadId
  | .begin t _ | .wait _ t _ _ | .dropGuard _ t | .poll _ t => some t
  | _ => none

namespace Looping

variable [DecidableEq V]

def init (cfg : Config) (x₀ : Nat → D) : Looping V D := ⟨cfg.init, x₀, fun _ => none, []⟩

/-- No loop runs on the thread between two of its waits. -/
def freeThread (s : Looping V D) (t : ThreadId) : Bool :=
  (List.range s.sys.used).all fun j => (s.loop j).all fun l => l.pc = .waiting ∨ l.thread ≠ t

def run (s : Looping V D) (i : CallId) : Option (Looping V D) :=
  match s.sys.call i, s.loop i with
  | .holding (.user m) _, some l =>
    match l.pc with
    | .test =>
      let (again, x) := l.condition (s.data m)
      some { s with
        data := Function.update s.data m x
        loop := Function.update s.loop i
          (some { l with pc := if again then .wait else .ret l.call.after }) }
    | .wait =>
      (s.sys.step (.wait i l.thread l.cv l.body)).map fun sys => { s with
        sys := sys
        loop := Function.update s.loop i (some { l with pc := .waiting, before := some (s.data m) }) }
    | .ret r => some { s with
        loop := Function.update s.loop i none
        returns := s.returns ++ [⟨i, l, r, s.data m⟩] }
    | .waiting => none
  | _, _ => none

def step (s : Looping V D) : LoopEvent V D → Option (Looping V D)
  | .sys e =>
    if (∀ i, e.givesAway = some i → s.loop i = none) ∧ ∀ t, e.startsOn = some t → s.freeThread t = true then
      (s.sys.step e).map fun sys => { s with
        sys := sys
        loop := fun j => (s.loop j).bind fun l => l.resume (s.sys.call j).thread? (sys.call j) }
    else none
  | .modify i x =>
    match s.sys.call i, s.loop i with
    | .holding (.user m) _, none => some { s with data := Function.update s.data m x }
    | _, _ => none
  | .begin i t c w condition =>
    match s.sys.call i, s.loop i with
    | .holding (.user _) _, none =>
      if s.sys.freeThread t ∧ s.freeThread t = true then some { s with
        loop := Function.update s.loop i (some
          { cv := c
            call := w
            body := w.wait (s.sys.sh.atomicsWait t)
            condition := condition
            thread := t
            pc := .test
            before := none
            last := none }) }
      else none
    | _, _ => none
  | .run i => s.run i

/-- The inversion of `step`. -/
inductive Stepped (s : Looping V D) : LoopEvent V D → Looping V D → Prop
  | sys (e sys) : (∀ i, e.givesAway = some i → s.loop i = none) → s.sys.step e = some sys →
    Stepped s (.sys e) { s with
      sys := sys
      loop := fun j => (s.loop j).bind fun l => l.resume (s.sys.call j).thread? (sys.call j) }
  | modify (i x m r) : s.sys.call i = .holding (.user m) r → s.loop i = none →
    Stepped s (.modify i x) { s with data := Function.update s.data m x }
  | begin (i t c w condition m r) : s.sys.call i = .holding (.user m) r → s.loop i = none →
    Stepped s (.begin i t c w condition) { s with
      loop := Function.update s.loop i (some
        { cv := c
          call := w
          body := w.wait (s.sys.sh.atomicsWait t)
          condition := condition
          thread := t
          pc := .test
          before := none
          last := none }) }
  | test (i l m r) : s.sys.call i = .holding (.user m) r → s.loop i = some l → l.pc = .test →
    Stepped s (.run i) { s with
      data := Function.update s.data m (l.condition (s.data m)).2
      loop := Function.update s.loop i (some
        { l with pc := if (l.condition (s.data m)).1 then .wait else .ret l.call.after }) }
  | wait (i l m r sys) : s.sys.call i = .holding (.user m) r → s.loop i = some l → l.pc = .wait →
    s.sys.step (.wait i l.thread l.cv l.body) = some sys → Stepped s (.run i) { s with
      sys := sys
      loop := Function.update s.loop i (some { l with pc := .waiting, before := some (s.data m) }) }
  | ret (i l m r o) : s.sys.call i = .holding (.user m) r → s.loop i = some l → l.pc = .ret o →
    Stepped s (.run i) { s with
      loop := Function.update s.loop i none
      returns := s.returns ++ [⟨i, l, o, s.data m⟩] }

variable {s s' : Looping V D} {e : LoopEvent V D} {x₀ : Nat → D}

theorem stepped_of_step (h : s.step e = some s') : s.Stepped e s' := by
  cases e with
  | sys e =>
    obtain ⟨⟨hgives, -⟩, h⟩ := Option.ite_none_right_eq_some.mp h
    obtain ⟨sys, hsys, rfl⟩ := Option.map_eq_some_iff.mp h
    exact .sys e sys hgives hsys
  | modify i x =>
    simp only [step] at h
    split at h
    case h_1 m r hi hl => cases h; exact .modify i x m r hi hl
    case h_2 => cases h
  | begin i t c w condition =>
    simp only [step] at h
    split at h
    case h_1 m r hi hl =>
      obtain ⟨-, h⟩ := Option.ite_none_right_eq_some.mp h
      cases h; exact .begin i t c w condition m r hi hl
    case h_2 => cases h
  | run i =>
    simp only [step, run] at h
    split at h
    case h_2 => cases h
    case h_1 m r l hi hl =>
      split at h
      case h_1 hpc => cases h; exact .test i l m r hi hl hpc
      case h_2 hpc =>
        obtain ⟨sys, hsys, rfl⟩ := Option.map_eq_some_iff.mp h
        exact .wait i l m r sys hi hl hpc hsys
      case h_3 o hpc => cases h; exact .ret i l m r o hi hl hpc
      case h_4 => cases h

end Looping

/-! ## What a loop knows -/

/-- What holds of a loop whose guard exposes `x`, and of one that waits. -/
structure Loop.Ok (l : Loop D) (x : D) : Prop where
  before : ∀ y, l.before = some y → (l.condition y).1 = true
  last : l.last = some true → l.before.isSome = true
  wait : l.pc = .wait → (l.condition x).1 = true
  waiting : l.pc = .waiting → l.before.isSome = true
  turn : l.pc = .test ∨ l.pc = .wait → l.last ≠ some true
  ret : ∀ r, l.pc = .ret r → (r ≠ some true → (l.condition x).1 = false) ∧
    (r = some true ↔ l.last = some true) ∧ (l.call.timed = true → r ≠ none)

/-- What a `wait_*_while` reports about its condition and its last wait. -/
structure LoopReturn.Classified (r : LoopReturn D) : Prop where
  /-- Unless it reports a timeout, the condition is false on the data behind the guard. -/
  condition : r.result ≠ some true → (r.loop.condition r.data).1 = false
  timed_out : r.result = some true ↔ r.loop.last = some true
  /-- The condition was true on the data that the call had when that wait began. -/
  before : r.result = some true → ∃ x, r.loop.before = some x ∧ (r.loop.condition x).1 = true
  timed : r.loop.call.timed = true → r.result ≠ none

theorem Loop.Ok.classified {l : Loop D} {x : D} (h : l.Ok x) {i : CallId} {o : Option Bool}
    (hpc : l.pc = .ret o) : LoopReturn.Classified ⟨i, l, o, x⟩ := by
  obtain ⟨hfalse, hlast, htimed⟩ := h.ret o hpc
  refine ⟨hfalse, hlast, fun ho => ?_, htimed⟩
  obtain ⟨y, hy⟩ := Option.isSome_iff_exists.mp (h.last (hlast.mp ho))
  exact ⟨y, hy, h.before y hy⟩

namespace State

variable [DecidableEq V] {s s' : State V} {e : Event V}

/-- A guard stays with the call that has returned it until it is given away. -/
theorem Reachable.holding_step (hr : s.Reachable) (hstep : s.step e = some s') {i : CallId} {k : Caller V}
    {r : Option Bool} (hi : s.call i = .holding k r) (he : e.givesAway ≠ some i) :
    s'.call i = .holding k r := by
  rcases call_cases hr.sane.numbered hstep i with hcall | ⟨a, t, k', pc, n, rfl, ha⟩ | ⟨c, ht⟩
  · rw [hcall]; exact hi
  · cases hi.symm.trans ha.running
  · have hturn := ht.turn
    rw [hi] at hturn
    cases hturn <;> exact absurd rfl he

/-- Two calls do not have a guard of the same mutex. -/
theorem Reachable.holding_unique (hr : s.Reachable) {i j : CallId} {m : Nat} {r r' : Option Bool}
    (hi : s.call i = .holding (.user m) r) (hj : s.call j = .holding (.user m) r') : i = j := by
  apply (hr.exclusive (.user m)).exact.unique
  · rw [hi]; simp [Call.owns, Call.holds, Caller.mutex, Next.owns]
  · rw [hj]; simp [Call.owns, Call.holds, Caller.mutex, Next.owns]

/-- Only the users of a mutex are given guards. -/
theorem Reachable.holding_user (hr : s.Reachable) {i : CallId} {k : Caller V} {r : Option Bool}
    (hi : s.call i = .holding k r) : ∃ m, k = .user m := by
  have hf := hr.fits i
  rw [hi] at hf
  cases k <;> first | exact ⟨_, rfl⟩ | cases hf

end State

/-- The loop of call `i` has its guard or waits, and `x` is the data behind the guard. -/
structure Loop.At (l : Loop D) (sys : State V) (data : Nat → D) (i : CallId) (x : D) : Prop where
  ok : l.Reads → l.Ok x
  guarded : l.pc ≠ .waiting → ∃ m r, sys.call i = .holding (.user m) r ∧ data m = x

theorem Loop.resume_cases {l l' : Loop D} {t : Option ThreadId} {c : Call V} (h : l.resume t c = some l') :
    l' = l ∨ l.pc = .waiting ∧ ∃ k r, c = .holding k r ∧ l' =
      { l with pc := if r = some true then .ret r else .test, thread := t.getD l.thread, last := r } := by
  unfold Loop.resume at h
  split at h
  case h_1 k r hpc => cases h; exact .inr ⟨hpc, k, r, rfl, rfl⟩
  case h_2 => cases h
  case h_3 => cases h; exact .inl rfl

/-- A wait has returned `r`. -/
theorem Loop.Ok.resumed {l : Loop D} {x : D} (h : l.Ok x) (hpc : l.pc = .waiting) (t : ThreadId)
    (r : Option Bool) (y : D) :
    Loop.Ok { l with pc := if r = some true then .ret r else .test, thread := t, last := r } y := by
  have hbefore := h.waiting hpc
  by_cases hr : r = some true
  · subst hr
    exact ⟨h.before, fun _ => hbefore, by simp, by simp, by simp, by simp⟩
  · simp only [hr, if_false]
    exact ⟨h.before, fun _ => hbefore, by simp, by simp, fun _ => hr, by simp⟩

/-- The condition has been called. -/
theorem Loop.Ok.tested {l : Loop D} {x : D} (h : l.Ok x) (hpc : l.pc = .test) :
    Loop.Ok { l with pc := if (l.condition x).1 then .wait else .ret l.call.after } x := by
  have hlast := h.turn (.inl hpc)
  cases hc : (l.condition x).1 with
  | true => exact ⟨h.before, h.last, fun _ => hc, by simp, fun _ => hlast, by simp⟩
  | false =>
    refine ⟨h.before, h.last, by simp, by simp, by simp, fun r hr => ?_⟩
    obtain rfl := LoopPc.ret.inj hr
    unfold WhileCall.after
    cases htimed : l.call.timed <;> simp [hc, hlast]

/-- The guard has been given to a wait. -/
theorem Loop.Ok.waits {l : Loop D} {x : D} (h : l.Ok x) (hpc : l.pc = .wait) :
    Loop.Ok { l with pc := .waiting, before := some x } x := by
  refine ⟨fun y hy => ?_, fun _ => rfl, by simp, fun _ => rfl, by simp, by simp⟩
  obtain rfl := Option.some.inj hy
  exact h.wait hpc

theorem Loop.Ok.begins {c : Nat} {w : WhileCall} {b : WaitCall} {condition : D → Bool × D} {t : ThreadId}
    (x : D) : Loop.Ok ⟨c, w, b, condition, t, .test, none, none⟩ x :=
  ⟨by simp, by simp, by simp, by simp, by simp, by simp⟩

namespace Looping

variable [DecidableEq V] {s s' : Looping V D} {e : LoopEvent V D} {x₀ : Nat → D}

structure Sound (s : Looping V D) : Prop where
  reachable : s.sys.Reachable
  loops : ∀ i l, s.loop i = some l → ∃ x, l.At s.sys s.data i x
  returns : ∀ r ∈ s.returns, r.loop.Reads → r.Classified

theorem sound_init (cfg : Config) : (init cfg x₀ : Looping V D).Sound where
  reachable := ⟨cfg, .refl⟩
  loops i l h := by cases h
  returns r h := by cases h

/-- The data behind a guard is changed: the other loops do not have this guard. -/
theorem Sound.at_update (hs : s.Sound) {i j : CallId} {l : Loop D} {x y : D} {m : Nat} {r : Option Bool}
    (hi : s.sys.call i = .holding (.user m) r) (hj : j ≠ i) (h : l.At s.sys s.data j x) :
    l.At s.sys (Function.update s.data m y) j x := by
  refine ⟨h.ok, fun hpc => ?_⟩
  obtain ⟨m', r', hm', hx⟩ := h.guarded hpc
  have hne : m' ≠ m := by
    rintro rfl
    exact hj (hs.reachable.holding_unique hm' hi)
  exact ⟨m', r', hm', by rw [Function.update_of_ne hne]; exact hx⟩

/-- An event of the system that does not give the guard of a loop away. -/
theorem Sound.at_step (hs : s.Sound) {e : Event V} {sys : State V} (hstep : s.sys.step e = some sys)
    {j : CallId} (hj : e.givesAway ≠ some j) {l : Loop D} {x : D} (h : l.At s.sys s.data j x) :
    l.At sys s.data j x := by
  refine ⟨h.ok, fun hpc => ?_⟩
  obtain ⟨m, r, hm, hx⟩ := h.guarded hpc
  exact ⟨m, r, hs.reachable.holding_step hstep hm hj, hx⟩

/-- The data of a loop that has its guard. -/
theorem Sound.at_guard (hs : s.Sound) {i : CallId} {l : Loop D} {m : Nat} {r : Option Bool}
    (hl : s.loop i = some l) (hi : s.sys.call i = .holding (.user m) r) (hpc : l.pc ≠ .waiting) :
    l.Reads → l.Ok (s.data m) := by
  obtain ⟨x, h⟩ := hs.loops i l hl
  obtain ⟨m', r', hm', rfl⟩ := h.guarded hpc
  cases hi.symm.trans hm'
  exact h.ok

theorem Sound.step (hs : s.Sound) (hstep : s.step e = some s') : s'.Sound := by
  cases stepped_of_step hstep with
  | sys e sys hgives hsys =>
    refine ⟨hs.reachable.step hsys, fun j l hl => ?_, hs.returns⟩
    obtain ⟨l₀, hl₀, hresume⟩ := Option.bind_eq_some_iff.mp hl
    obtain ⟨x, hat⟩ := hs.loops j l₀ hl₀
    rcases Loop.resume_cases hresume with rfl | ⟨hpc, k, r, hc, rfl⟩
    · refine ⟨x, hs.at_step hsys (fun he => ?_) hat⟩
      rw [hgives j he] at hl₀
      cases hl₀
    · obtain ⟨m, rfl⟩ := (hs.reachable.step hsys).holding_user hc
      exact ⟨s.data m, fun hreads => (hat.ok hreads).resumed hpc _ _ _, fun _ => ⟨m, r, hc, rfl⟩⟩
  | modify i x m r hi hnone =>
    refine ⟨hs.reachable, fun j l hl => ?_, hs.returns⟩
    obtain ⟨y, hat⟩ := hs.loops j l hl
    refine ⟨y, hs.at_update hi ?_ hat⟩
    rintro rfl
    cases hnone.symm.trans hl
  | begin i t c w condition m r hi hnone =>
    refine ⟨hs.reachable, fun j l hl => ?_, hs.returns⟩
    by_cases hj : j = i
    · subst hj
      simp only [Function.update_self, Option.some.injEq] at hl
      subst hl
      exact ⟨s.data m, fun _ => .begins _, fun _ => ⟨m, r, hi, rfl⟩⟩
    · simp only [Function.update_of_ne hj] at hl
      exact hs.loops j l hl
  | test i l₀ m r hi hl₀ hpc =>
    refine ⟨hs.reachable, fun j l hl => ?_, hs.returns⟩
    by_cases hj : j = i
    · subst hj
      simp only [Function.update_self, Option.some.injEq] at hl
      subst hl
      refine ⟨(l₀.condition (s.data m)).2, fun hreads => ?_, fun _ => ⟨m, r, hi, by simp⟩⟩
      rw [hreads]
      exact (hs.at_guard hl₀ hi (by simp [hpc]) hreads).tested hpc
    · simp only [Function.update_of_ne hj] at hl
      obtain ⟨y, hat⟩ := hs.loops j l hl
      exact ⟨y, hs.at_update hi hj hat⟩
  | wait i l₀ m r sys hi hl₀ hpc hsys =>
    refine ⟨hs.reachable.step hsys, fun j l hl => ?_, hs.returns⟩
    by_cases hj : j = i
    · subst hj
      simp only [Function.update_self, Option.some.injEq] at hl
      subst hl
      refine ⟨s.data m, fun hreads => ?_, fun h => absurd rfl h⟩
      exact (hs.at_guard hl₀ hi (by simp [hpc]) hreads).waits hpc
    · simp only [Function.update_of_ne hj] at hl
      obtain ⟨y, hat⟩ := hs.loops j l hl
      exact ⟨y, hs.at_step hsys (fun he => hj (Option.some.inj he).symm) hat⟩
  | ret i l₀ m r o hi hl₀ hpc =>
    refine ⟨hs.reachable, fun j l hl => ?_, fun x hx hreads => ?_⟩
    · by_cases hj : j = i
      · subst hj
        simp at hl
      · simp only [Function.update_of_ne hj] at hl
        exact hs.loops j l hl
    · rcases List.mem_append.mp hx with hx | hx
      · exact hs.returns x hx hreads
      · obtain rfl := List.mem_singleton.mp hx
        exact (hs.at_guard hl₀ hi (by simp [hpc]) hreads).classified hpc

theorem sound {cfg : Config} (hr : Run step (init cfg x₀) s) : s.Sound :=
  hr.invariant (sound_init cfg) fun _ _ _ h _ hstep => h.step hstep

/-- The timed predicate waits report what their last wait reports, and the condition only where
that is no timeout. -/
theorem while_classified {cfg : Config} (hr : Run step (init cfg x₀) s) {r : LoopReturn D}
    (hmem : r ∈ s.returns) (hreads : r.loop.Reads) : r.Classified :=
  (sound hr).returns r hmem hreads

/-- The call has timed out and taken its handle out of the list. Before it has the mutex again,
another thread sets the value to 10 and notifies. -/
def satisfiedEvents : List (LoopEvent Nat Nat) :=
  [.sys (.begin 0 (.lock 0 .tryLock)), .sys (.act 0 (.mutex (.cas true))),
    .begin 0 0 1 (.waitBlockTimeoutWhile 0) (fun v => (decide (v < 10), v)), .run 0, .run 0,
    .sys (.act 0 (.register (.user 1) .sync 0)), .sys (.act 0 (.mutex .store)),
    .sys (.act 0 (.mutex (.take .sync []))), .sys (.act 0 (.mutex (.take .async []))),
    .sys (.act 0 (.now 0)), .sys (.act 0 (.condvar (.user 1) (.remove .sync 0 true))),
    .sys (.begin 1 (.lock 0 .tryLock)), .sys (.act 1 (.mutex (.cas true))), .modify 1 10,
    .sys (.begin 1 (.notifyOne 1)), .sys (.act 2 (.condvar (.user 1) (.pop .spin none))),
    .sys (.act 2 (.condvar (.user 1) (.pop .sync none))),
    .sys (.act 2 (.condvar (.user 1) (.pop .async none))), .sys (.dropGuard 1 1),
    .sys (.act 1 (.mutex .store)), .sys (.act 1 (.mutex (.take .sync []))),
    .sys (.act 1 (.mutex (.take .async []))), .sys (.act 0 (.probe true)),
    .sys (.act 0 (.mutex (.enter .sync))), .sys (.act 0 (.mutex (.cas true))),
    .sys (.act 0 (.mutex (.leave .sync))), .run 0]

theorem satisfied_run : ∃ (s : Looping Nat Nat) (r : LoopReturn Nat),
    exec step (init (⟨fun _ => true, 0, 0⟩ : Config) fun _ => 0) satisfiedEvents = some s ∧
      r ∈ s.returns ∧ r.loop.condition = (fun v => (decide (v < 10), v)) ∧
      r.loop.call = .waitBlockTimeoutWhile 0 ∧ r.result = some true ∧ r.data = 10 :=
  ⟨_, _, rfl, List.mem_singleton_self _, rfl, rfl, rfl, rfl⟩

/-- It reports a timeout with a guard on data that satisfies what it waited for. -/
theorem timed_out_satisfied : ¬ ∀ (cfg : Config) (x₀ : Nat → Nat) (s : Looping Nat Nat),
    Run step (init cfg x₀) s → ∀ r ∈ s.returns, r.loop.call.timed = true → r.loop.Reads →
      (r.result = some false ↔ (r.loop.condition r.data).1 = false) := by
  intro hall
  obtain ⟨s, r, hexec, hmem, hcond, hcall, hresult, hdata⟩ := satisfied_run
  have hiff := hall _ _ s (run_of_exec hexec) r hmem (by rw [hcall]; rfl) (by rw [Loop.Reads, hcond]; simp)
  rw [hresult, hcond, hdata] at hiff
  simp at hiff

theorem while_classified_satisfied : ∃ (s : Looping Nat Nat) (r : LoopReturn Nat),
    exec step (init (⟨fun _ => true, 0, 0⟩ : Config) fun _ => 0) satisfiedEvents = some s ∧
      r ∈ s.returns ∧ r.Classified := by
  obtain ⟨s, r, hexec, hmem, hcond, -⟩ := satisfied_run
  exact ⟨s, r, hexec, hmem, while_classified (run_of_exec hexec) hmem (by rw [Loop.Reads, hcond]; simp)⟩

end Looping

end WasmSafeMutex
