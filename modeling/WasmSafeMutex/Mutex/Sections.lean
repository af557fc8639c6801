import WasmSafeMutex.Lib.Sections
import WasmSafeMutex.Mutex.Exclusion
import WasmSafeMutex.Spinlock

/-!
# Critical sections are serializable

The data of the mutexes, and the closures that run on it. `with_sync`, `with_mut_sync`,
`with_async` and `with_mut_async` take the lock, run their closure on the guard and drop the
guard. The methods that return a guard leave the closure to the caller. Each read and write
is a step of its own, between any two steps of the other calls.
-/

namespace WasmSafeMutex

open Interleaving

variable {V T L R : Type}

/-! ## The data behind the guards -/

/-- The closure that a call runs on its guard. -/
inductive Body (L : Type)
  | none
  | running (l : L)
  | ended

def Body.busy : Body L → Bool
  | .running _ => true
  | _ => false

structure Guarded (V T L R : Type) where
  sys : State V
  data : Nat → T
  body : CallId → Body L
  /-- History: for each mutex the closures in the order in which their calls won the bit. -/
  sections : Nat → List (Section CallId L R)

inductive GuardedEvent (V L : Type)
  /-- An event of the locks. A call that wins a mutex by it brings the closure `c`. -/
  | lock (e : Event V) (c : L)
  /-- The closure of call `i` takes a step. -/
  | body (i : CallId)

/-- The guard is given away, to a wait or to its drop. The closure has ended by then, by a
return or by a panic that unwinds. -/
def Event.givesAway : Event V → Option CallId
  | .wait i _ _ _ | .dropGuard i _ => some i
  | _ => none

/-- The call that wins a mutex by this event, and the mutex. -/
def State.acquires (s : State V) : Event V → Option (CallId × Nat)
  | .act i a =>
    match s.call i with
    | .running _ (.user m) _ => if a.wins then some (i, m) else none
    | _ => none
  | _ => none

/-- The call has the guard, or will have it when it has left the section of a waiting list. -/
def Call.inSection (m : Nat) : Call V → Bool
  | .running _ (.user m') (.lock (.leaveOwner _) _) | .holding (.user m') _ => m' = m
  | _ => false

namespace Guarded

variable [DecidableEq V]

def init (cfg : Config) (x₀ : Nat → T) : Guarded V T L R := ⟨cfg.init, x₀, fun _ => .none, fun _ => []⟩

def step (code : Code T L R) (s : Guarded V T L R) : GuardedEvent V L → Option (Guarded V T L R)
  | .lock e c =>
    (s.sys.step e).bind fun sys =>
      match s.sys.acquires e with
      | some (i, m) => some
        { sys := sys
          data := s.data
          body := Function.update s.body i (.running c)
          sections := Function.update s.sections m (s.sections m ++ [⟨i, c, none⟩]) }
      | none =>
        if e.givesAway.any fun i => (s.body i).busy then none else some { s with sys := sys }
  | .body i =>
    match s.sys.call i, s.body i with
    | .holding (.user m) _, .running l =>
      match code.ending l with
      | some o => some
        { s with
          body := Function.update s.body i .ended
          sections := Function.update s.sections m (closeSection i o (s.sections m)) }
      | none => (code.next l (s.data m)).map fun x =>
        { s with
          body := Function.update s.body i (.running x.1)
          data := Function.update s.data m x.2 }
    | _, _ => none

/-- The inversion of `step`. -/
inductive Stepped (code : Code T L R) (s : Guarded V T L R) : GuardedEvent V L → Guarded V T L R → Prop
  | won (e c i m sys) : s.sys.step e = some sys → s.sys.acquires e = some (i, m) →
    Stepped code s (.lock e c)
      { sys := sys
        data := s.data
        body := Function.update s.body i (.running c)
        sections := Function.update s.sections m (s.sections m ++ [⟨i, c, none⟩]) }
  | lock (e c sys) : s.sys.step e = some sys → s.sys.acquires e = none →
    (∀ i, e.givesAway = some i → (s.body i).busy = false) →
    Stepped code s (.lock e c) { s with sys := sys }
  | ends (i m r l o) : s.sys.call i = .holding (.user m) r → s.body i = .running l →
    code.ending l = some o → Stepped code s (.body i)
      { s with
        body := Function.update s.body i .ended
        sections := Function.update s.sections m (closeSection i o (s.sections m)) }
  | next (i m r l l' x) : s.sys.call i = .holding (.user m) r → s.body i = .running l →
    code.next l (s.data m) = some (l', x) → Stepped code s (.body i)
      { s with
        body := Function.update s.body i (.running l')
        data := Function.update s.data m x }

variable {code : Code T L R} {s s' : Guarded V T L R} {e : GuardedEvent V L} {x₀ : Nat → T}

theorem stepped_of_step (h : s.step code e = some s') : s.Stepped code e s' := by
  cases e with
  | lock e c =>
    obtain ⟨sys, hsys, h⟩ := Option.bind_eq_some_iff.mp h
    cases ha : s.sys.acquires e with
    | some x =>
      simp only [ha, Option.some.injEq] at h
      subst h
      exact .won e c x.1 x.2 sys hsys ha
    | none =>
      simp only [ha] at h
      obtain ⟨hbusy, h⟩ := Option.ite_none_left_eq_some.mp h
      simp only [Option.some.injEq] at h
      subst h
      refine .lock e c sys hsys ha fun i hi => ?_
      simpa [hi] using hbusy
  | body i =>
    simp only [step] at h
    split at h
    case h_2 => cases h
    case h_1 m r l hcall hbody =>
      split at h
      case h_1 o ho =>
        simp only [Option.some.injEq] at h
        subst h
        exact .ends i m r l o hcall hbody ho
      case h_2 =>
        obtain ⟨x, hx, rfl⟩ := Option.map_eq_some_iff.mp h
        exact .next i m r l x.1 x.2 hcall hbody hx

end Guarded

/-! ## Who is in a section -/

theorem Call.inSection_unique {c : Call V} {m m' : Nat} (h : c.inSection m = true)
    (h' : c.inSection m' = true) : m = m' := by
  unfold Call.inSection at h h'
  split at h <;> simp_all

theorem Call.owns_of_inSection {c : Call V} {m : Nat} (h : c.inSection m = true) :
    c.owns (.user m) = true := by
  unfold Call.inSection at h
  split at h <;> simp_all [Call.owns, Call.holds, Caller.mutex, Next.owns, Pc.owns, LockPc.owns]

theorem Call.caller_of_inSection {c : Call V} {m : Nat} (h : c.inSection m = true) :
    c.caller? = some (.user m) := by
  unfold Call.inSection at h
  split at h <;> simp_all [Call.caller?]

namespace State

variable [DecidableEq V] {s s' : State V} {e : Event V}

/-- Who wins the bit finds nobody in a section, and is in one then. -/
theorem Reachable.acquires_enters (hr : s.Reachable) (hstep : s.step e = some s') {i : CallId} {m : Nat}
    (ha : s.acquires e = some (i, m)) :
    (∀ j, (s.call j).inSection m = false) ∧ (∀ m', (s.call i).inSection m' = false) ∧
      (s'.call i).inSection m = true ∧ ∀ j, j ≠ i → s'.call j = s.call j := by
  unfold acquires at ha
  split at ha
  case h_2 => cases ha
  case h_1 j a =>
    split at ha
    case h_2 => cases ha
    case h_1 t m' pc hcall =>
      obtain ⟨hw, hp⟩ := Option.ite_none_right_eq_some.mp ha
      cases hp
      obtain ⟨t', k, pc', n, hacted⟩ := act_acted hstep
      cases hcall.symm.trans hacted.running
      obtain ⟨l, ret, o, rfl, rfl, ho⟩ := hacted.step.wins hw
      obtain ⟨hl, hout⟩ := ho.wins hw
      have hclear : (s.sh.mutex (.user m)).dataLock = false := by
        rcases hacted.applied.bit with ⟨-, hbit, -⟩ | ⟨hnw, -⟩ | ⟨hnw, -⟩
        · exact hbit
        · simp [hw] at hnw
        · simp [hw] at hnw
      refine ⟨fun j => ?_, fun m' => ?_, ?_, fun j hj => hacted.call_ne hj⟩
      · cases hj : (s.call j).inSection m with
        | false => rfl
        | true =>
          have hexact := (hr.exclusive (.user m)).exact
          rw [hclear] at hexact
          have := hexact.none_of_clear j
          simp [Call.owns_of_inSection hj] at this
      · rw [hcall]
        cases l <;> first | rfl | simp [LockPc.owns] at hl
      · rw [hacted.call_self]
        rcases hout with rfl | ⟨k, rfl⟩
        · cases ret <;> simp [LockOut.toNext, Caller.onLocked, Next.call, Call.inSection]
        · simp [LockOut.toNext, Next.call, Call.inSection]

/-- A call leaves its section by giving the guard away. -/
theorem Reachable.stays_in_section (hr : s.Reachable) (hstep : s.step e = some s') {i : CallId} {m : Nat}
    (hi : (s.call i).inSection m = true) (he : e.givesAway ≠ some i) :
    (s'.call i).inSection m = true := by
  rcases call_cases hr.sane.numbered hstep i with hcall | ⟨a, t, k, pc, n, rfl, ha⟩ | ⟨c, ht⟩
  · rw [hcall]; exact hi
  · rw [ha.running] at hi
    rw [ha.call_self]
    unfold Call.inSection at hi
    split at hi
    case h_1 t' m' kind ret hc =>
      cases hc
      cases ha.step with
      | lock l ret a o ho =>
        cases ho with
        | leaveOwner =>
          cases ret <;> simpa [LockOut.toNext, Caller.onLocked, Next.call, Call.inSection] using hi
    all_goals simp_all
  · have hturn := ht.turn
    generalize s.call i = c₀ at hi hturn
    cases hturn with
    | wait | dropGuard => exact absurd rfl he
    | begin | poll | cancel => cases hi

end State

/-! ## The invariant -/

namespace Guarded

variable [DecidableEq V] {code : Code T L R} {s s' : Guarded V T L R} {e : GuardedEvent V L} {x₀ : Nat → T}

/-- What the closures on mutex `m` have done, with the call that is in its closure now. -/
structure Follows (code : Code T L R) (x : T) (s : Guarded V T L R) (m : Nat) (cur : Option (CallId × L)) :
    Prop where
  serial : Serialized code x (s.sections m) cur (s.data m)
  running : ∀ i l, cur = some (i, l) ↔ s.body i = .running l ∧ (s.sys.call i).inSection m = true

structure InOrder (code : Code T L R) (x₀ : Nat → T) (s : Guarded V T L R) : Prop where
  reachable : s.sys.Reachable
  busy : ∀ i l, s.body i = .running l → ∃ m, (s.sys.call i).inSection m = true
  follows : ∀ m, ∃ cur, s.Follows code (x₀ m) m cur

theorem inOrder_init (cfg : Config) : (init cfg x₀ : Guarded V T L R).InOrder code x₀ := by
  refine ⟨⟨cfg, .refl⟩, fun i l h => ?_, fun m => ⟨none, .start, fun i l => ?_⟩⟩
  · cases h
  · constructor <;> simp [init]

/-- An event of the locks by which nobody wins. -/
theorem InOrder.lock (h : s.InOrder code x₀) {e : Event V} {sys : State V} (hstep : s.sys.step e = some sys)
    (haway : ∀ i, e.givesAway = some i → (s.body i).busy = false) :
    ({ s with sys := sys } : Guarded V T L R).InOrder code x₀ := by
  have hstays : ∀ i l m, s.body i = .running l → (s.sys.call i).inSection m = true →
      (sys.call i).inSection m = true := by
    intro i l m hi hm
    apply h.reachable.stays_in_section hstep hm
    intro he
    have := haway i he
    simp [hi, Body.busy] at this
  refine ⟨h.reachable.step hstep, fun i l hi => ?_, fun m => ?_⟩
  · obtain ⟨m, hm⟩ := h.busy i l hi
    exact ⟨m, hstays i l m hi hm⟩
  · obtain ⟨cur, hserial, hrun⟩ := h.follows m
    refine ⟨cur, hserial, fun i l => (hrun i l).trans ⟨?_, ?_⟩⟩
    · rintro ⟨hi, hm⟩
      exact ⟨hi, hstays i l m hi hm⟩
    · rintro ⟨hi, hm⟩
      obtain ⟨m', hm'⟩ := h.busy i l hi
      have heq := Call.inSection_unique (hstays i l m' hi hm') hm
      exact ⟨hi, heq ▸ hm'⟩

/-- An event by which call `i` wins mutex `m`. -/
theorem InOrder.won (h : s.InOrder code x₀) {e : Event V} {sys : State V} {i : CallId} {m : Nat} (c : L)
    (hstep : s.sys.step e = some sys) (ha : s.sys.acquires e = some (i, m)) :
    ({ sys := sys
       data := s.data
       body := Function.update s.body i (.running c)
       sections := Function.update s.sections m (s.sections m ++ [⟨i, c, none⟩]) } :
      Guarded V T L R).InOrder code x₀ := by
  obtain ⟨hnone, hout, hin, hother⟩ := h.reachable.acquires_enters hstep ha
  have hbody : ∀ j l m', j ≠ i → (s.body j = .running l ∧ (s.sys.call j).inSection m' = true ↔
      Function.update s.body i (.running c) j = .running l ∧ (sys.call j).inSection m' = true) := by
    intro j l m' hj
    rw [Function.update_of_ne hj, hother j hj]
  refine ⟨h.reachable.step hstep, fun j l hj => ?_, fun m' => ?_⟩
  · by_cases hji : j = i
    · subst hji; exact ⟨m, hin⟩
    · simp only [Function.update_of_ne hji] at hj
      obtain ⟨m', hm'⟩ := h.busy j l hj
      exact ⟨m', by rw [hother j hji]; exact hm'⟩
  · obtain ⟨cur, hserial, hrun⟩ := h.follows m'
    by_cases hm : m' = m
    · subst hm
      have hcur : cur = none := by
        cases cur with
        | none => rfl
        | some x =>
          have hx := ((hrun x.1 x.2).mp rfl).2
          simp [hnone x.1] at hx
      subst hcur
      refine ⟨some (i, c), ?_, fun j l => ?_⟩
      · simpa using hserial.acquire i c
      · by_cases hji : j = i
        · subst hji
          simp [hin]
        · have hno := hrun j l
          simp only [reduceCtorEq, false_iff, hbody j l m' hji] at hno
          simp only [Option.some.injEq, Prod.mk.injEq, Ne.symm hji, false_and, false_iff]
          exact hno
    · refine ⟨cur, ?_, fun j l => ?_⟩
      · simpa [hm] using hserial
      · by_cases hji : j = i
        · subst hji
          have hm' : (sys.call j).inSection m' ≠ true := fun hm' => hm (Call.inSection_unique hm' hin)
          rw [hrun]
          simp [hout m', hm']
        · rw [hrun]; exact hbody j l m' hji

/-- The closure of call `i` on mutex `m` goes on or ends. -/
theorem InOrder.body (h : s.InOrder code x₀) {i : CallId} {m : Nat} {b : Body L} {x : T}
    {ss : List (Section CallId L R)} {cur : Option (CallId × L)} (hin : (s.sys.call i).inSection m = true)
    (hserial : Serialized code (x₀ m) ss cur x) (hcur : ∀ l, cur = some (i, l) ↔ b = .running l)
    (honly : ∀ j l, cur = some (j, l) → j = i) {l₀ : L} (hi : s.body i = .running l₀) :
    ({ sys := s.sys
       data := Function.update s.data m x
       body := Function.update s.body i b
       sections := Function.update s.sections m ss } : Guarded V T L R).InOrder code x₀ := by
  refine ⟨h.reachable, fun j l hj => ?_, fun m' => ?_⟩
  · by_cases hji : j = i
    · subst hji; exact ⟨m, hin⟩
    · simp only [Function.update_of_ne hji] at hj
      exact h.busy j l hj
  · by_cases hm : m' = m
    · subst hm
      refine ⟨cur, by simpa using hserial, fun j l => ?_⟩
      by_cases hji : j = i
      · subst hji
        simp [hcur, hin]
      · obtain ⟨cur₀, -, hrun⟩ := h.follows m'
        have h₁ := (hrun i l₀).mpr ⟨hi, hin⟩
        constructor
        · intro hc
          exact absurd (honly j l hc) hji
        · rintro ⟨hb, hj⟩
          simp only [Function.update_of_ne hji] at hb
          have h₂ := (hrun j l).mpr ⟨hb, hj⟩
          rw [h₁] at h₂
          simp only [Option.some.injEq, Prod.mk.injEq] at h₂
          exact absurd h₂.1.symm hji
    · obtain ⟨cur₀, hserial₀, hrun⟩ := h.follows m'
      refine ⟨cur₀, by simpa [hm] using hserial₀, fun j l => ?_⟩
      rw [hrun]
      by_cases hji : j = i
      · subst hji
        have hm' : (s.sys.call j).inSection m' ≠ true := fun hm' => hm (Call.inSection_unique hm' hin)
        simp [hm']
      · simp [hji]

theorem InOrder.step (h : s.InOrder code x₀) (hstep : s.step code e = some s') : s'.InOrder code x₀ := by
  cases stepped_of_step hstep with
  | won e c i m sys hsys ha => exact h.won c hsys ha
  | lock e c sys hsys ha haway => exact h.lock hsys haway
  | ends i m r l o hcall hbody ho =>
    have hin : (s.sys.call i).inSection m = true := by rw [hcall]; simp [Call.inSection]
    obtain ⟨cur, hserial, hrun⟩ := h.follows m
    have hcur := (hrun i l).mpr ⟨hbody, hin⟩
    subst hcur
    have hend := h.body hin (hserial.finish ho) (b := .ended) (by simp) (by simp) hbody
    simpa using hend
  | next i m r l l' x hcall hbody hn =>
    have hin : (s.sys.call i).inSection m = true := by rw [hcall]; simp [Call.inSection]
    obtain ⟨cur, hserial, hrun⟩ := h.follows m
    have hcur := (hrun i l).mpr ⟨hbody, hin⟩
    subst hcur
    have hgo := h.body hin (hserial.step hn) (b := .running l') (by simp) (by simp +contextual) hbody
    simpa using hgo

theorem inOrder {cfg : Config} (hr : Run (step code) (init cfg x₀) s) : s.InOrder code x₀ :=
  hr.invariant (inOrder_init cfg) fun _ _ _ h _ hstep => h.step hstep

end Guarded

/-! ## The result -/

/-- Nobody is in a closure on this data: it and what the closures returned are what comes of
running them one at a time, in the order in which they got the lock. -/
theorem sections_serializable [DecidableEq V] (code : Code T L R) (x₀ : Nat → T) (y₀ : T) :
    (∀ (cfg : Config) (s : Guarded V T L R), Run (Guarded.step code) (.init cfg x₀) s →
      ∀ m, (∀ i l, s.body i = .running l → (s.sys.call i).caller? ≠ some (.user m)) →
        Serializable code (x₀ m) (s.sections m) (s.data m)) ∧
      ∀ s : Spinlock.State T L R, Run (Spinlock.State.step code) (Spinlock.new y₀) s →
        (∀ t l, s.thread t ≠ .inside l) → Serializable code y₀ s.sections s.data := by
  constructor
  · intro cfg s hr m hquiet
    obtain ⟨cur, hserial, hrun⟩ := (Guarded.inOrder hr).follows m
    cases cur with
    | none => exact hserial.serializable
    | some y =>
      obtain ⟨hbody, hin⟩ := (hrun y.1 y.2).mp rfl
      exact absurd (Call.caller_of_inSection hin) (hquiet y.1 y.2 hbody)
  · intro s hr hquiet
    exact Spinlock.State.serializable hr hquiet

/-- `|count| *count += 1`, with its read and its write as two steps. -/
inductive Increment
  | load
  | store (x : Nat)
  | done

def Increment.code : Code Nat Increment Unit
  | .load => .read .store
  | .store x => .write (fun _ => x + 1) .done
  | .done => .ret ()

/-- Two threads increment, and the second one tries to lock while the first one is at it. -/
def incrementEvents : List (GuardedEvent Nat Increment) :=
  [.lock (.begin 0 (.lock 0 .tryLock)) .load, .lock (.begin 1 (.lock 0 .lockSpin)) .load,
    .lock (.act 0 (.mutex (.cas true))) .load, .body 0, .lock (.act 1 (.mutex (.swap false))) .load,
    .body 0, .body 0, .lock (.dropGuard 0 0) .load, .lock (.act 0 (.mutex .store)) .load,
    .lock (.act 1 (.mutex (.swap true))) .load, .body 1, .body 1, .body 1]

theorem sections_serializable_increments : ∃ s : Guarded Nat Nat Increment Unit,
    exec (Guarded.step Increment.code) (.init ⟨fun _ => true, 0, 0⟩ fun _ => 0) incrementEvents = some s ∧
      s.data 0 = 2 ∧ Serializable Increment.code 0 (s.sections 0) (s.data 0) := by
  have hrun : ∃ s : Guarded Nat Nat Increment Unit,
      exec (Guarded.step Increment.code) (.init ⟨fun _ => true, 0, 0⟩ fun _ => 0) incrementEvents = some s ∧
        s.data 0 = 2 ∧ ∀ i l, s.body i ≠ .running l := by
    refine ⟨_, rfl, rfl, fun i l => ?_⟩
    by_cases h1 : i = 1
    · subst h1; simp
    · by_cases h0 : i = 0
      · subst h0; simp
      · simp [h0, h1, Guarded.init]
  obtain ⟨s, hs, hdata, hquiet⟩ := hrun
  exact ⟨s, hs, hdata, (sections_serializable Increment.code (fun _ => 0) 0).1 _ s (run_of_exec hs) 0
    fun i l h => absurd h (hquiet i l)⟩

end WasmSafeMutex
