import WasmSafeMutex.Lib.Run
import WasmSafeMutex.Lib.Exact
import WasmSafeMutex.Lib.Sections
import WasmSafeMutex.Memory

/-!
# `Spinlock::with_mut`

Any number of threads, each with any closures. A step is one atomic operation on `locked`, or
one read or write of a closure. A closure may also panic.
-/

namespace WasmSafeMutex.Spinlock

open Interleaving

variable {T L R : Type}

inductive Thread (L R : Type)
  | idle
  /-- `while self.locked.swap(true)`. -/
  | swap (c : L)
  | inside (l : L)
  /-- The closure has returned `result`, and `store(false)` is next. -/
  | store (result : R)

structure State (T L R : Type) where
  data : T
  locked : Bool
  thread : ThreadId → Thread L R
  /-- History: the closures in the order in which they were entered. -/
  sections : List (Section ThreadId L R)

def new (x : T) : State T L R := ⟨x, false, fun _ => .idle, []⟩

inductive Event (L : Type)
  | withMut (t : ThreadId) (c : L)
  | act (t : ThreadId)

def Thread.within : Thread L R → Bool
  | .inside _ | .store _ => true
  | _ => false

namespace State

def set (s : State T L R) (t : ThreadId) (p : Thread L R) : State T L R :=
  { s with thread := Function.update s.thread t p }

/-- The thread is between its successful swap and its exit. -/
def within (s : State T L R) (t : ThreadId) : Bool := (s.thread t).within

def step (code : Code T L R) (s : State T L R) : Event L → Option (State T L R)
  | .withMut t c =>
    match s.thread t with
    | .idle => some (s.set t (.swap c))
    | _ => none
  | .act t =>
    match s.thread t with
    | .idle => none
    | .swap c =>
      if s.locked then some s
      else some { s.set t (.inside c) with locked := true, sections := s.sections ++ [⟨t, c, none⟩] }
    | .inside l =>
      match code l with
      | .ret r => some { s.set t (.store r) with sections := closeSection t (some r) s.sections }
      -- Nothing on the way out of `with_mut` runs the store.
      | .panic => some { s.set t .idle with sections := closeSection t none s.sections }
      | .read k => some (s.set t (.inside (k s.data)))
      | .write u l' => some { s.set t (.inside l') with data := u s.data }
    | .store _ => some { s.set t .idle with locked := false }

/-- The inversion of `step`. -/
inductive Stepped (code : Code T L R) (s : State T L R) : Event L → State T L R → Prop
  | call (t c) : s.thread t = .idle → Stepped code s (.withMut t c) (s.set t (.swap c))
  | lost (t c) : s.thread t = .swap c → s.locked = true → Stepped code s (.act t) s
  | won (t c) : s.thread t = .swap c → s.locked = false → Stepped code s (.act t)
    { s.set t (.inside c) with locked := true, sections := s.sections ++ [⟨t, c, none⟩] }
  | next (t l l' x) : s.thread t = .inside l → code.next l s.data = some (l', x) →
    Stepped code s (.act t) { s.set t (.inside l') with data := x }
  | ret (t l r) : s.thread t = .inside l → code l = .ret r → Stepped code s (.act t)
    { s.set t (.store r) with sections := closeSection t (some r) s.sections }
  | panic (t l) : s.thread t = .inside l → code l = .panic → Stepped code s (.act t)
    { s.set t .idle with sections := closeSection t none s.sections }
  | store (t r) : s.thread t = .store r → Stepped code s (.act t) { s.set t .idle with locked := false }

variable {code : Code T L R} {s s' : State T L R} {e : Event L}

theorem stepped_of_step (h : s.step code e = some s') : s.Stepped code e s' := by
  cases e with
  | withMut t c =>
    simp only [step] at h
    split at h
    · cases h; exact .call t c (by assumption)
    · cases h
  | act t =>
    cases ht : s.thread t with
    | idle => simp [step, ht] at h
    | swap c =>
      cases hl : s.locked with
      | true =>
        simp only [step, ht, hl, if_true, Option.some.injEq] at h
        subst h
        exact .lost t c ht hl
      | false =>
        simp only [step, ht, hl, Bool.false_eq_true, if_false, Option.some.injEq] at h
        subst h
        exact .won t c ht hl
    | inside l =>
      cases hc : code l with
      | ret r =>
        simp only [step, ht, hc, Option.some.injEq] at h
        subst h
        exact .ret t l r ht hc
      | panic =>
        simp only [step, ht, hc, Option.some.injEq] at h
        subst h
        exact .panic t l ht hc
      | read k =>
        simp only [step, ht, hc, Option.some.injEq] at h
        subst h
        exact .next t l (k s.data) s.data ht (by simp [Code.next, hc])
      | write u l' =>
        simp only [step, ht, hc, Option.some.injEq] at h
        subst h
        exact .next t l l' (u s.data) ht (by simp [Code.next, hc])
    | store r =>
      simp only [step, ht, Option.some.injEq] at h
      subst h
      exact .store t r ht

@[simp] theorem set_thread_self (s : State T L R) (t : ThreadId) (p : Thread L R) :
    (s.set t p).thread t = p := by
  simp [set]

theorem set_thread_ne (s : State T L R) {t t' : ThreadId} (p : Thread L R) (h : t' ≠ t) :
    (s.set t p).thread t' = s.thread t' := by
  simp [set, h]

/-! ## The lock bit -/

/-- The lock is released on every exit: the bit is set just while one thread is in `with_mut`,
and when no thread is, the next swap of any thread takes the lock. -/
structure Releases (code : Code T L R) (s : State T L R) : Prop where
  one : ∀ t t', s.within t = true → s.within t' = true → t = t'
  bit : s.locked = true ↔ ∃ t, s.within t = true
  free : ∀ t c, s.thread t = .swap c → (∀ t', s.within t' = false) →
    ∃ s', s.step code (.act t) = some s' ∧ s'.thread t = .inside c

/-- The lock is taken, and no thread is there to release it. -/
structure Stuck (s : State T L R) : Prop where
  locked : s.locked = true
  nobody : ∀ t, s.within t = false

/-- The event is not the panic of a closure. -/
def NoPanic (code : Code T L R) (s : State T L R) : Event L → Prop
  | .act t => ∀ l, s.thread t = .inside l → code l ≠ .panic
  | _ => True

theorem Releases.of_exact (h : Exact s.locked s.within) : s.Releases code := by
  refine ⟨fun t t' ht ht' => h.unique ht ht', ⟨fun hb => h.exists_of_set hb, ?_⟩, ?_⟩
  · rintro ⟨t, ht⟩
    exact h.set_of_holds ht
  · intro t c ht hnone
    have hclear : s.locked = false := by
      cases hl : s.locked with
      | false => rfl
      | true =>
        obtain ⟨t', ht'⟩ := h.exists_of_set hl
        simp [hnone t'] at ht'
    exact ⟨_, by simp only [step, ht, hclear, Bool.false_eq_true, if_false]; rfl, by simp⟩

theorem Stuck.not_releases (h : s.Stuck) : ¬ s.Releases code := by
  intro hr
  obtain ⟨t, ht⟩ := hr.bit.mp h.locked
  simp [h.nobody t] at ht

theorem exact_new (x : T) : Exact (new x : State T L R).locked (new x : State T L R).within :=
  .free fun _ => rfl

/-- Threads other than the one that acts stay where they are. -/
theorem within_set_ne {t t' : ThreadId} {p : Thread L R} (h : t' ≠ t) :
    (s.set t p).within t' = s.within t' := by
  simp [within, set_thread_ne s p h]

theorem exact_step (h : Exact s.locked s.within) (hok : s.NoPanic code e)
    (hstep : s.step code e = some s') : Exact s'.locked s'.within := by
  cases stepped_of_step hstep with
  | call t c ht =>
    refine h.step (fun t' ht' => within_set_ne ht') (.inr (.inr ⟨rfl, ?_⟩))
    simp [within, ht, Thread.within]
  | lost => exact h
  | won t c ht hl =>
    refine h.step (fun t' ht' => within_set_ne ht') (.inl ⟨hl, rfl, ?_⟩)
    simp [within, Thread.within, set]
  | next t l l' x ht hn =>
    refine h.step (fun t' ht' => within_set_ne ht') (.inr (.inr ⟨rfl, ?_⟩))
    simp [within, ht, Thread.within, set]
  | ret t l r ht hc =>
    refine h.step (fun t' ht' => within_set_ne ht') (.inr (.inr ⟨rfl, ?_⟩))
    simp [within, ht, Thread.within, set]
  | panic t l ht hc => exact absurd hc (hok l ht)
  | store t r ht =>
    refine h.step (fun t' ht' => within_set_ne ht') (.inr (.inl ⟨rfl, ?_, ?_⟩))
    · simp [within, ht, Thread.within]
    · simp [within, Thread.within, set]

/-- After a panic the lock is stuck. -/
theorem stuck_of_panic (h : Exact s.locked s.within) (hpanic : ¬ s.NoPanic code e)
    (hstep : s.step code e = some s') : s'.Stuck := by
  cases stepped_of_step hstep with
  | call => exact absurd trivial hpanic
  | panic t l ht hc =>
    have hin : s.within t = true := by simp [within, ht, Thread.within]
    refine ⟨h.set_of_holds hin, fun t' => ?_⟩
    by_cases he : t' = t
    · subst he
      simp [within, Thread.within, set]
    · cases hw : s.within t' with
      | false => rw [← hw]; exact within_set_ne he
      | true => exact absurd (h.unique hw hin) he
  | lost t c ht | won t c ht => exact absurd (fun l hl => by simp [ht] at hl) hpanic
  | store t r ht => exact absurd (fun l hl => by simp [ht] at hl) hpanic
  | next t l l' x ht hn =>
    refine absurd (fun l₁ hl hc => ?_) hpanic
    cases ht.symm.trans hl
    simp [Code.next, hc] at hn
  | ret t l r ht hc =>
    refine absurd (fun l₁ hl hc' => ?_) hpanic
    cases ht.symm.trans hl
    simp [hc] at hc'

theorem Stuck.step (h : s.Stuck) (hstep : s.step code e = some s') : s'.Stuck := by
  have hnone : ∀ t l, s.thread t ≠ .inside l := by
    intro t l ht
    have := h.nobody t
    simp [within, ht, Thread.within] at this
  cases stepped_of_step hstep with
  | call t c ht =>
    refine ⟨h.locked, fun t' => ?_⟩
    by_cases he : t' = t
    · subst he
      simp [within, Thread.within]
    · rw [within_set_ne he]; exact h.nobody t'
  | lost => exact h
  | won t c ht hl => simp [h.locked] at hl
  | next t l l' x ht | ret t l r ht | panic t l ht => exact absurd ht (hnone t l)
  | store t r ht =>
    have := h.nobody t
    simp [within, ht, Thread.within] at this

/-- `with_mut` releases its lock in every run without a panic, and from the first panic on
never again. -/
theorem with_mut_releases (code : Code T L R) (x : T) :
    (∀ s, RunWhere (step code) (NoPanic code) (new x) s → s.Releases code) ∧
      ∀ s e s' u, RunWhere (step code) (NoPanic code) (new x) s → ¬ s.NoPanic code e →
        s.step code e = some s' → Run (step code) s' u → ¬ u.Releases code := by
  have hexact : ∀ s, RunWhere (step code) (NoPanic code) (new x) s → Exact s.locked s.within :=
    fun s hr => hr.invariant (exact_new x) fun _ _ _ h hok hstep => exact_step h hok hstep
  constructor
  · intro s hr
    exact .of_exact (hexact s hr)
  · intro s e s' u hr hpanic hstep hrun
    have hstuck : u.Stuck :=
      hrun.invariant (stuck_of_panic (hexact s hr) hpanic hstep) fun _ _ _ h _ hs => h.step hs
    exact hstuck.not_releases

/-- A thread in a closure that returns. -/
theorem with_mut_releases_returning : ∃ s : State Nat Bool Nat,
    exec (step fun _ => .ret 1) (new 0) [.withMut 0 true, .act 0] = some s ∧
      s.Releases fun _ => .ret 1 := by
  have hrun : ∃ s : State Nat Bool Nat,
      exec (step fun _ => .ret 1) (new 0) [.withMut 0 true, .act 0] = some s := ⟨_, rfl⟩
  obtain ⟨s, hs⟩ := hrun
  refine ⟨s, hs, (with_mut_releases (fun _ => .ret 1) 0).1 s ?_⟩
  exact RunWhere.refl.extend (.of_forall fun e _ u => by cases e <;> simp [NoPanic]) hs

/-- A closure that writes the data and then panics. -/
def writeThenPanic : Code Nat Bool Unit
  | false => .write (fun x => x + 1) true
  | true => .panic

/-- Thread 0 runs that closure, and thread 1 then spins. -/
def panicEvents : List (Event Bool) :=
  [.withMut 0 false, .act 0, .act 0, .act 0, .withMut 1 false, .act 1]

theorem with_mut_keeps_lock :
    ¬ ∀ s, Run (step writeThenPanic) (new 0) s → s.Releases writeThenPanic := by
  intro hall
  have hrun : ∃ s, exec (step writeThenPanic) (new 0) panicEvents = some s ∧ s.Stuck := by
    refine ⟨_, rfl, rfl, fun t => ?_⟩
    by_cases h1 : t = 1
    · subst h1; rfl
    · by_cases h0 : t = 0
      · subst h0; rfl
      · simp [within, set, new, h1, Thread.within]
  obtain ⟨s, hs, hstuck⟩ := hrun
  exact hstuck.not_releases (hall s (run_of_exec hs))

/-! ## The data -/

/-- What the sections have done to the data, with the thread that is in its closure now. -/
structure Follows (code : Code T L R) (x₀ : T) (s : State T L R) (cur : Option (ThreadId × L)) : Prop where
  serial : Serialized code x₀ s.sections cur s.data
  inside : ∀ t l, s.thread t = .inside l ↔ cur = some (t, l)

variable {x₀ : T} {cur : Option (ThreadId × L)} {t : ThreadId} {p : Thread L R}

theorem Follows.none_of_clear (h : s.Follows code x₀ cur) (hnone : ∀ t, s.within t = false) : cur = none := by
  cases cur with
  | none => rfl
  | some x =>
    have ht := (h.inside x.1 x.2).mpr rfl
    have := hnone x.1
    simp [within, ht, Thread.within] at this

/-- The thread that acts was in its closure, and now stands at `p`. -/
theorem Follows.moves (h : s.Follows code x₀ cur) {l : L} (ht : s.thread t = .inside l)
    {cur' : Option (ThreadId × L)} (hp : ∀ l', p = .inside l' ↔ cur' = some (t, l'))
    (hcur' : ∀ t' l', cur' = some (t', l') → t' = t) (t' : ThreadId) (l' : L) :
    (s.set t p).thread t' = .inside l' ↔ cur' = some (t', l') := by
  by_cases he : t' = t
  · subst he
    rw [set_thread_self]
    exact hp l'
  · rw [set_thread_ne s p he]
    constructor
    · intro h'
      have h₁ := (h.inside t l).mp ht
      have h₂ := (h.inside t' l').mp h'
      rw [h₁] at h₂
      simp only [Option.some.injEq, Prod.mk.injEq] at h₂
      exact absurd h₂.1.symm he
    · intro h'
      exact absurd (hcur' t' l' h') he

/-- The thread that acts was not in its closure, and is not now. -/
theorem Follows.stays (h : s.Follows code x₀ cur) (ht : ∀ l, s.thread t ≠ .inside l)
    (hp : ∀ l, p ≠ .inside l) (t' : ThreadId) (l' : L) :
    (s.set t p).thread t' = .inside l' ↔ cur = some (t', l') := by
  by_cases he : t' = t
  · subst he
    rw [set_thread_self, ← h.inside]
    simp [hp, ht]
  · rw [set_thread_ne s p he]; exact h.inside t' l'

theorem Follows.step (h : s.Follows code x₀ cur) (hclear : s.locked = false → ∀ t, s.within t = false)
    (hstep : s.step code e = some s') : ∃ cur', s'.Follows code x₀ cur' := by
  cases stepped_of_step hstep with
  | call t c ht => exact ⟨cur, h.serial, h.stays (by simp [ht]) (by simp)⟩
  | lost => exact ⟨cur, h⟩
  | won t c ht hl =>
    have hcur := h.none_of_clear (hclear hl)
    subst hcur
    refine ⟨some (t, c), h.serial.acquire t c, fun t' l' => ?_⟩
    by_cases he : t' = t
    · subst he
      simp [set]
    · have hnone := h.inside t' l'
      simp only [reduceCtorEq, iff_false] at hnone
      simp [set, he, hnone, Ne.symm he]
  | next t l l' x ht hn =>
    have hcur := (h.inside t l).mp ht
    have hserial := h.serial
    rw [hcur] at hserial
    refine ⟨some (t, l'), hserial.step hn, h.moves ht (by simp) (by simp +contextual)⟩
  | ret t l r ht hc =>
    have hcur := (h.inside t l).mp ht
    have hserial := h.serial
    rw [hcur] at hserial
    exact ⟨none, hserial.finish (by simp [Code.ending, hc]), h.moves ht (by simp) (by simp)⟩
  | panic t l ht hc =>
    have hcur := (h.inside t l).mp ht
    have hserial := h.serial
    rw [hcur] at hserial
    exact ⟨none, hserial.finish (by simp [Code.ending, hc]), h.moves ht (by simp) (by simp)⟩
  | store t r ht => exact ⟨cur, h.serial, h.stays (by simp [ht]) (by simp)⟩

/-- The bit is set for one thread, or for nobody since some closure panicked. -/
def Held (s : State T L R) : Prop := Exact s.locked s.within ∨ s.Stuck

theorem Held.clear (h : s.Held) (hl : s.locked = false) (t : ThreadId) : s.within t = false := by
  rcases h with h | h
  · rw [hl] at h; exact h.none_of_clear t
  · exact h.nobody t

theorem Held.step (h : s.Held) (hstep : s.step code e = some s') : s'.Held := by
  rcases h with h | h
  · by_cases hok : s.NoPanic code e
    · exact .inl (exact_step h hok hstep)
    · exact .inr (stuck_of_panic h hok hstep)
  · exact .inr (h.step hstep)

theorem held_follows {x : T} (hr : Run (step code) (new x) s) : s.Held ∧ ∃ cur, s.Follows code x cur := by
  refine hr.invariant (P := fun s => s.Held ∧ ∃ cur, s.Follows code x cur) ?_ ?_
  · exact ⟨.inl (exact_new x), none, .start, fun t l => by simp [new]⟩
  · rintro u v e ⟨hheld, cur, hu⟩ - hstep
    exact ⟨hheld.step hstep, hu.step hheld.clear hstep⟩

/-- Nobody is in a closure: what they did and returned is what they do one at a time. -/
theorem serializable {x : T} (hr : Run (step code) (new x) s) (hquiet : ∀ t l, s.thread t ≠ .inside l) :
    Serializable code x s.sections s.data := by
  obtain ⟨-, cur, hserial, hin⟩ := held_follows hr
  cases cur with
  | none => exact hserial.serializable
  | some y => exact absurd ((hin y.1 y.2).mpr rfl) (hquiet y.1 y.2)

end State

end WasmSafeMutex.Spinlock
