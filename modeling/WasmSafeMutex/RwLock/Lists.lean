import WasmSafeMutex.Lib.Exact
import WasmSafeMutex.RwLock.Byte

/-!
# The sections of the waiting lists, and the panic on the 128th reader

`lock_block_read` and `lock_async_read` call `try_lock_read` in a section of a waiting list.
Where it panics there, nobody gives the spinlock of the list back.
-/

namespace WasmSafeMutex.RwLock

open Interleaving

variable {T : Type}

/-! ## Who is in a section -/

def Site.isIn (k : Side) : Site → Bool
  | .inList k' => k' = k
  | _ => false

def LockPc.inSection (k : Side) : LockPc → Bool
  | .load x | .exchange x _ | .cas x => x.isIn k
  | .push k' | .leaveOwner k' | .leave k' _ => k' = k
  | _ => false

def Pc.inSection (k : Side) : Pc → Bool
  | .lock l => l.inSection k
  | .drop _ => false

def Next.inSection (k : Side) : Next → Bool
  | .goto pc => pc.inSection k
  | _ => false

/-- The call has the spinlock of this list. -/
def Call.inSection (q : Queue) : Call → Bool
  | .running _ a pc => decide (a = q.1) && pc.inSection q.2
  | _ => false

theorem Next.inSection_call (n : Next) (t : ThreadId) (a : Access) (q : Queue) :
    (n.call t a).inSection q = (decide (a = q.1) && n.inSection q.2) := by
  cases n <;> simp [Next.call, Call.inSection, Next.inSection]

theorem Access.attempt_inSection (a : Access) (x : Site) (k : Side) :
    (a.attempt x).inSection k = x.isIn k := by
  cases a <;> rfl

theorem Site.ok_inSection (x : Site) (k : Side) : x.ok.inSection k = x.isIn k := by
  cases x <;> rfl

theorem Site.err_inSection (x : Site) (a : Access) (k : Side) : (x.err a).inSection k = x.isIn k := by
  cases x with
  | spin => exact a.attempt_inSection .spin k
  | once | inList => rfl

theorem Site.update_inSection (x : Site) (f : UInt8) (k : Side) :
    (x.update f).inSection k = x.isIn k ∨ x.update f = .finish .tooManyReaders := by
  unfold Site.update
  split
  · exact .inl (x.err_inSection .read k)
  · exact .inr rfl
  · exact .inl rfl

theorem DropPc.drain_inSection (q : Queue) (ws : List Waker) (qs : List Queue) (k : Side) :
    (drain q ws qs).inSection k = false := by
  unfold drain
  split <;> rfl

/-- What an operation of a call for `a` does to the spinlock of list `(a, k)`. -/
theorem Pc.Step.sections {sh sh' : Shared T} {i : CallId} {t : ThreadId} {a : Access} {pc : Pc} {n : Next}
    (h : pc.Step sh i t a sh' n) (k : Side) :
    (sh.locked (a, k) = false ∧ sh'.locked (a, k) = true ∧ n.inSection k = true) ∨
      (sh'.locked (a, k) = false ∧ pc.inSection k = true ∧ n.inSection k = false) ∨
      (sh'.locked (a, k) = sh.locked (a, k) ∧ n.inSection k = pc.inSection k) ∨
      n = .finish .tooManyReaders ∧ pc.inSection k = true ∧ sh' = sh := by
  have hupdate : ∀ (x : Site) (f : UInt8), sh' = sh → n = x.update f → pc.inSection k = x.isIn k →
      sh'.locked (a, k) = sh.locked (a, k) ∧ n.inSection k = pc.inSection k ∨
        n = .finish .tooManyReaders ∧ pc.inSection k = true ∧ sh' = sh := by
    intro x f hsh hn hpc
    subst hsh hn
    rcases x.update_inSection f k with hu | hu
    · exact .inl ⟨rfl, hu.trans hpc.symm⟩
    · cases hk : pc.inSection k with
      | true => exact .inr ⟨hu, rfl, rfl⟩
      | false => exact .inl ⟨rfl, by rw [hu]; rfl⟩
  cases h with
  | load x => exact .inr (.inr (hupdate x _ rfl rfl rfl))
  | exchangeLost x f => exact .inr (.inr (hupdate x _ rfl rfl rfl))
  | exchanged x | casWon x => exact .inr (.inr (.inl ⟨rfl, x.ok_inSection k⟩))
  | casLost x => exact .inr (.inr (.inl ⟨rfl, x.err_inSection _ k⟩))
  | probe b =>
    refine .inr (.inr (.inl ⟨rfl, ?_⟩))
    cases b
    · exact a.attempt_inSection .spin k
    · rfl
  | enter k' hl =>
    have hn : (Next.goto (.lock (a.attempt (.inList k')))).inSection k = decide (k' = k) :=
      a.attempt_inSection _ k
    by_cases hk : k' = k
    · subst hk
      exact .inl ⟨hl, by simp [Shared.lockList], by simp [hn]⟩
    · refine .inr (.inr (.inl ⟨by simp [Shared.lockList, Ne.symm hk], ?_⟩))
      simp [hn, hk, inSection, LockPc.inSection]
  | leaveOwner k' =>
    by_cases hk : k' = k
    · subst hk
      exact .inr (.inl ⟨by simp [Shared.lockList], by simp [inSection, LockPc.inSection], rfl⟩)
    · refine .inr (.inr (.inl ⟨by simp [Shared.lockList, Ne.symm hk], ?_⟩))
      simp [hk, inSection, LockPc.inSection, Next.inSection]
  | leave k' m =>
    have hn : (Next.goto (.lock (sleep k' m))).inSection k = false := by cases k' <;> rfl
    by_cases hk : k' = k
    · subst hk
      exact .inr (.inl ⟨by simp [Shared.lockList], by simp [inSection, LockPc.inSection], hn⟩)
    · refine .inr (.inr (.inl ⟨by simp [Shared.lockList, Ne.symm hk], ?_⟩))
      simp [hn, hk, inSection, LockPc.inSection]
  | releaseRead ha | releaseWrite ha =>
    refine .inr (.inr (.inl ⟨rfl, ?_⟩))
    split <;> cases a <;> rfl
  | take q qs hl | wake q w ws qs => exact .inr (.inr (.inl ⟨rfl, DropPc.drain_inSection _ _ _ k⟩))
  | push | unparked | spurious | ready | pending => exact .inr (.inr (.inl ⟨rfl, rfl⟩))

theorem Pc.Step.locked_ne {sh sh' : Shared T} {i : CallId} {t : ThreadId} {a : Access} {pc : Pc} {n : Next}
    (h : pc.Step sh i t a sh' n) {q : Queue} (hq : q.1 ≠ a) : sh'.locked q = sh.locked q := by
  cases h with
  | enter k | leaveOwner k | leave k =>
    have hne : q ≠ (a, k) := fun he => hq (congrArg Prod.fst he)
    simp [Shared.lockList, hne]
  | _ => rfl

theorem Call.Turn.inSection {c c' : Call} (h : Call.Turn c c') (hf : c.fits = true) (q : Queue) :
    c'.inSection q = c.inSection q := by
  cases h with
  | begin t a c =>
    cases c with
    | tryLock | lockSpin =>
      simp [Call.inSection, LockCall.entry, Pc.inSection, a.attempt_inSection, Site.isIn]
    | lockBlock | lockSync | lockAsync =>
      simp [Call.inSection, LockCall.entry, Pc.inSection, LockPc.inSection]
  | dropGuard t a => simp [Call.inSection, Pc.inSection]
  | poll t a l =>
    cases l with
    | await n => simp [Call.inSection, Pc.inSection, LockPc.inSection]
    | _ => cases hf
  | cancel a l => rfl

/-! ## Panics -/

namespace State

variable {s s' : State T} {e : Event T} {i : CallId}

/-- By this step the call ends with the panic of `try_lock_read`. -/
def PanicsNow (s s' : State T) (i : CallId) : Prop :=
  s.call i ≠ .done .tooManyReaders ∧ s'.call i = .done .tooManyReaders

/-- No call panics by this event while it is in a section. -/
def NoPanicInList (s : State T) (e : Event T) : Prop :=
  ∀ s' i, s.step e = some s' → s.PanicsNow s' i → ∀ q, (s.call i).inSection q = false

/-- A list is locked just while one call is in its section. -/
def Sectioned (s : State T) : Prop := ∀ q, Exact (s.sh.locked q) fun j => (s.call j).inSection q

theorem sectioned_init (x : T) (w : ThreadId → Bool) : (init x w).Sectioned := fun _ => .free fun _ => rfl

theorem Sectioned.acted {t : ThreadId} {a : Access} {pc : Pc} {sh : Shared T} {n : Next}
    (h : s.Sectioned) (hc : s.call i = .running t a pc) (hs : pc.Step s.sh i t a sh n)
    (hn : n = .finish .tooManyReaders → ∀ q, (s.call i).inSection q = false) :
    ({ s.setCall i (n.call t a) with sh := sh } : State T).Sectioned := by
  intro q
  have hold : (s.call i).inSection q = (decide (a = q.1) && pc.inSection q.2) := by rw [hc]; rfl
  have hnew : ((s.setCall i (n.call t a)).call i).inSection q = (decide (a = q.1) && n.inSection q.2) := by
    simp [setCall, Next.inSection_call]
  have hstep : s.sh.locked q = false ∧ sh.locked q = true ∧
        ((s.setCall i (n.call t a)).call i).inSection q = true ∨
      sh.locked q = false ∧ (s.call i).inSection q = true ∧
        ((s.setCall i (n.call t a)).call i).inSection q = false ∨
      sh.locked q = s.sh.locked q ∧
        ((s.setCall i (n.call t a)).call i).inSection q = (s.call i).inSection q := by
    by_cases ha : a = q.1
    · subst ha
      simp only [decide_true, Bool.true_and] at hold hnew
      rw [hnew, hold]
      rcases hs.sections q.2 with h' | h' | h' | ⟨hp, hin, -⟩
      · exact .inl h'
      · exact .inr (.inl h')
      · exact .inr (.inr h')
      · have := hn hp q
        rw [hold, hin] at this
        cases this
    · simp only [ha, decide_false, Bool.false_and] at hold hnew
      exact .inr (.inr ⟨hs.locked_ne (Ne.symm ha), by rw [hnew, hold]⟩)
  have hne : ∀ j, j ≠ i → ((s.setCall i (n.call t a)).call j).inSection q = (s.call j).inSection q := by
    intro j hj
    simp [setCall, hj]
  exact (h q).step hne hstep

theorem Sectioned.step (h : s.Sectioned) (hcount : s.Counted) (hok : s.NoPanicInList e)
    (hstep : s.step e = some s') : s'.Sectioned := by
  have hpanics := hok s'
  cases stepped_of_step hcount.numbered hstep with
  | acted _ i t a pc sh n he hc hs =>
    refine h.acted hc hs fun hn => hpanics i hstep ⟨by simp [hc], ?_⟩
    simp [setCall, hn, Next.call]
  | turned _ i c used ht =>
    intro q
    refine (h q).keep fun j => ?_
    by_cases hj : j = i
    · subst hj
      simpa [setCall] using Call.Turn.inSection ht (hcount.fits j) q
    · simp [setCall, hj]
  | wrote | unpark | parkElsewhere => exact h

/-- A panic changes nothing but its call. -/
theorem Counted.panics (h : s.Counted) (hstep : s.step e = some s') (hp : s.PanicsNow s' i) :
    s'.sh = s.sh ∧ ∀ j, j ≠ i → s'.call j = s.call j := by
  obtain ⟨hbefore, hafter⟩ := hp
  cases stepped_of_step h.numbered hstep with
  | acted _ j t a pc sh n he hc hs =>
    by_cases hj : i = j
    case neg => exact absurd (by simpa [setCall, hj] using hafter) hbefore
    subst hj
    refine ⟨?_, fun j hj => by simp [setCall, hj]⟩
    have hn : n.call t a = .done .tooManyReaders := by simpa [setCall] using hafter
    change sh = s.sh
    cases hs with
    | exchanged x | casWon x => cases x <;> simp [Site.ok, Next.call] at hn
    | releaseRead | releaseWrite => split at hn <;> simp [Next.call] at hn
    | take q qs hl | wake q w ws qs =>
      unfold DropPc.drain at hn
      split at hn <;> simp [Next.call] at hn
    | enter | push | leaveOwner | leave | unparked => simp [Next.call] at hn
    | probe | load | exchangeLost | casLost | spurious | ready | pending => rfl
  | turned _ j c used ht =>
    by_cases hj : i = j
    case neg => exact absurd (by simpa [setCall, hj] using hafter) hbefore
    subst hj
    have hc : c = .done .tooManyReaders := by simpa [setCall] using hafter
    rw [hc] at ht
    generalize s.call i = c₀ at ht
    cases ht
  | wrote | unpark | parkElsewhere => exact absurd hafter hbefore

/-- The waiting lists can be entered. -/
structure Enterable (s : State T) : Prop where
  /-- Who is in a section can always go on. -/
  goes : ∀ j q, (s.call j).inSection q = true → ∃ s', s.step (.act j) = some s'
  /-- Where nobody is, a lock call and the drop of a guard can enter. -/
  enters : ∀ j t a k, s.call j = .running t a (.lock (.enter k)) →
    (∀ i, (s.call i).inSection (a, k) = false) → ∃ s', s.step (.act j) = some s'
  takes : ∀ j t a q qs, s.call j = .running t a (.drop (.take q qs)) →
    (∀ i, (s.call i).inSection q = false) → ∃ s', s.step (.act j) = some s'

theorem Sectioned.unlocked (h : s.Sectioned) {q : Queue} (hq : ∀ i, (s.call i).inSection q = false) :
    s.sh.locked q = false := by
  cases hl : s.sh.locked q with
  | false => rfl
  | true =>
    obtain ⟨j, hj⟩ := (h q).exists_of_set hl
    simp [hq j] at hj

theorem Sectioned.enterable (h : s.Sectioned) : s.Enterable where
  goes j q hj := by
    unfold Call.inSection at hj
    split at hj
    case h_2 => cases hj
    case h_1 t a pc hc =>
      cases pc with
      | drop d => simp [Pc.inSection] at hj
      | lock l =>
        simp only [State.step, hc]
        cases l with
        | probe | enter | park | await => simp [Pc.inSection, LockPc.inSection] at hj
        | load | push | leaveOwner | leave => exact ⟨_, rfl⟩
        | exchange x f =>
          simp only [Pc.act, LockPc.act]
          split <;> exact ⟨_, rfl⟩
        | cas x =>
          simp only [Pc.act, LockPc.act]
          split <;> exact ⟨_, rfl⟩
  enters j t a k hc hq := by
    have hl := h.unlocked hq
    simp only [State.step, hc, Pc.act, LockPc.act, hl, Bool.false_eq_true, if_false]
    exact ⟨_, rfl⟩
  takes j t a q qs hc hq := by
    have hl := h.unlocked hq
    simp only [State.step, hc, Pc.act, DropPc.act, hl, Bool.false_eq_true, if_false]
    exact ⟨_, rfl⟩

/-- The call that panics leaves the lock usable. -/
structure Usable (s s' : State T) : Prop where
  byte : s'.sh.byte = s.sh.byte
  lists : s'.sh.waiting = s.sh.waiting
  /-- No spinlock is left behind that nobody will give back. -/
  spinlocks : ∀ q, s'.sh.locked q = true → ∃ j, (s'.call j).inSection q = true

theorem sectioned_of_run {x : T} {w : ThreadId → Bool} (hr : RunWhere State.step NoPanicInList (init x w) s) :
    s.Counted ∧ s.Sectioned :=
  hr.invariant (P := fun s => s.Counted ∧ s.Sectioned) ⟨counted_init x w, sectioned_init x w⟩
    fun _ _ _ h hok hstep => ⟨h.1.step hstep, h.2.step h.1 hok hstep⟩

/-- The panic of a reader leaves the byte and the lists alone. It leaves the lock usable when
it is not in a section of a waiting list, and then only. -/
theorem panic_usable (x : T) (w : ThreadId → Bool) :
    (∀ s, RunWhere State.step NoPanicInList (init x w) s → s.Enterable) ∧
      ∀ s e s' i, RunWhere State.step NoPanicInList (init x w) s → s.step e = some s' → s.PanicsNow s' i →
        s'.sh.byte = s.sh.byte ∧ s'.sh.waiting = s.sh.waiting ∧
          (s.Usable s' ↔ ∀ q, (s.call i).inSection q = false) := by
  refine ⟨fun s hr => (sectioned_of_run hr).2.enterable, fun s e s' i hr hstep hp => ?_⟩
  obtain ⟨hcount, hsec⟩ := sectioned_of_run hr
  obtain ⟨hsh, hother⟩ := hcount.panics hstep hp
  refine ⟨by rw [hsh], by rw [hsh], fun hu q => ?_, fun hout => ⟨by rw [hsh], by rw [hsh], fun q hq => ?_⟩⟩
  · cases hq : (s.call i).inSection q with
    | false => rfl
    | true =>
      have hlocked : s'.sh.locked q = true := by
        rw [hsh]
        exact (hsec q).set_of_holds hq
      obtain ⟨j, hj⟩ := hu.spinlocks q hlocked
      have hji : j ≠ i := by
        rintro rfl
        rw [hp.2] at hj
        cases hj
      rw [hother j hji] at hj
      exact absurd ((hsec q).unique hj hq) hji
  · rw [hsh] at hq
    obtain ⟨j, hj⟩ := (hsec q).exists_of_set hq
    have hji : j ≠ i := by
      rintro rfl
      simp [hout q] at hj
    exact ⟨j, by rw [hother j hji]; exact hj⟩

/-! ## 127 readers -/

/-- Readers hold the lock, and nobody else is there. -/
structure Readers (n : Nat) (s : State Nat) : Prop where
  used : s.used = n
  byte : s.sh.byte.toNat = n
  locked : s.sh.locked = fun _ => false
  holding : ∀ j < n, s.call j = .holding .read
  idle : s.Numbered

theorem Readers.nobody {n : Nat} {s : State Nat} (h : s.Readers n) (j : CallId) (q : Queue) :
    (s.call j).inSection q = false := by
  by_cases hj : j < n
  · rw [h.holding j hj]; rfl
  · rw [h.idle j (by rw [h.used]; exact Nat.le_of_not_lt hj)]; rfl

theorem Readers.free {n : Nat} {s : State Nat} (h : s.Readers n) (t : ThreadId) : s.freeThread t := by
  intro j hj
  rw [h.holding j (h.used ▸ hj)]
  simp [Call.thread?]

theorem readUpdate_of_lt {f : UInt8} (h : f.toNat < 127) : readUpdate f = .some (f + 1) := by
  cases hf : readUpdate f with
  | none =>
    have := (readUpdate_none f).mp hf
    omega
  | panic =>
    have := (readUpdate_panic f).mp hf
    omega
  | some g => rw [(readUpdate_some hf).2]

/-- While one more call is made, and that one in no section, nobody panics in one. -/
theorem Readers.quiet {n : Nat} {s u : State Nat} (h : s.Readers n) {c : Call}
    (hu : u.call = Function.update s.call n c) (hc : ∀ q, c.inSection q = false) (e : Event Nat) :
    u.NoPanicInList e := by
  intro s' i _ _ q
  rw [hu]
  by_cases hi : i = n
  · rw [hi, Function.update_self]; exact hc q
  · rw [Function.update_of_ne hi]; exact h.nobody i q

theorem inSection_once (t : ThreadId) (f : UInt8) (q : Queue) :
    (Call.running t .read (.lock (.load .once))).inSection q = false ∧
      (Call.running t .read (.lock (.exchange .once f))).inSection q = false := by
  simp [Call.inSection, Pc.inSection, LockPc.inSection, Site.isIn]

/-- One more `try_lock_read`. -/
theorem Readers.next {n : Nat} {s : State Nat} (h : s.Readers n) (hn : n < 127) :
    ∃ s', RunWhere State.step NoPanicInList s s' ∧ s'.Readers (n + 1) := by
  have hlt : s.sh.byte.toNat < 127 := by rw [h.byte]; exact hn
  have hupdate : Site.once.update s.sh.byte = .goto (.lock (.exchange .once s.sh.byte)) := by
    simp [Site.update, readUpdate_of_lt hlt]
  have h₁ : s.step (.begin 0 .read .tryLock) =
      some { s.setCall n (.running 0 .read (.lock (.load .once))) with used := n + 1 } := by
    simp [State.step, h.free 0, setCall, h.used, LockCall.entry, Access.attempt]
  have h₂ : State.step { s.setCall n (.running 0 .read (.lock (.load .once))) with used := n + 1 } (.act n) =
      some { s.setCall n (.running 0 .read (.lock (.exchange .once s.sh.byte))) with used := n + 1 } := by
    simp [State.step, setCall, Pc.act, LockPc.act, hupdate, Next.call]
  have h₃ : State.step { s.setCall n (.running 0 .read (.lock (.exchange .once s.sh.byte))) with
      used := n + 1 } (.act n) = some { s.setCall n (.holding .read) with
        used := n + 1
        sh := { s.sh.setByte (s.sh.byte + 1) with reads := n :: s.sh.reads } } := by
    simp [State.step, setCall, Pc.act, LockPc.act, Next.call, Site.ok]
  have hbegun : RunWhere State.step NoPanicInList s _ :=
    RunWhere.refl.tail (h.quiet (Function.update_eq_self n s.call).symm (h.nobody n) _) h₁
  have hrun := (hbegun.tail (h.quiet rfl (fun q => (inSection_once 0 0 q).1) _) h₂).tail
    (h.quiet rfl (fun q => (inSection_once 0 _ q).2) _) h₃
  refine ⟨_, hrun, rfl, ?_, h.locked, ?_, ?_⟩
  · simp [Shared.setByte, toNat_add_one hlt, h.byte]
  · intro j hj
    by_cases hjn : j = n
    · simp [setCall, hjn]
    · simp only [setCall, Function.update_of_ne hjn]
      exact h.holding j (by omega)
  · intro j hj
    have hjn : j ≠ n := Nat.ne_of_gt hj
    simp only [setCall, Function.update_of_ne hjn]
    exact h.idle j (by rw [h.used]; exact Nat.le_of_succ_le hj)

theorem exists_readers (n : Nat) (hn : n ≤ 127) :
    ∃ s : State Nat, RunWhere State.step NoPanicInList (init 0 fun _ => true) s ∧ s.Readers n := by
  induction n with
  | zero => exact ⟨_, .refl, rfl, rfl, rfl, fun j hj => absurd hj (Nat.not_lt_zero j), fun _ _ => rfl⟩
  | succ n ih =>
    obtain ⟨s, hr, hs⟩ := ih (by omega)
    obtain ⟨s', hnext, hs'⟩ := hs.next (by omega)
    exact ⟨s', hr.trans hnext, hs'⟩

/-- The 128th reader panics in `try_lock_read`, and the lock stays usable. -/
theorem panic_usable_full : ∃ s s₁ s' : State Nat,
    RunWhere State.step NoPanicInList (init 0 fun _ => true) s ∧ s.Readers 127 ∧ s.Enterable ∧
      s.step (.begin 0 .read .tryLock) = some s₁ ∧ s₁.step (.act 127) = some s' ∧ s₁.PanicsNow s' 127 ∧
      s₁.Usable s' := by
  obtain ⟨s, hr, hs⟩ := exists_readers 127 (Nat.le_refl _)
  have hbyte : Site.once.update s.sh.byte = .finish .tooManyReaders := by
    simp [Site.update, (readUpdate_panic _).mpr hs.byte]
  have h₁ : s.step (.begin 0 .read .tryLock) =
      some { s.setCall 127 (.running 0 .read (.lock (.load .once))) with used := 128 } := by
    simp [State.step, hs.free 0, setCall, hs.used, LockCall.entry, Access.attempt]
  have h₂ : State.step { s.setCall 127 (.running 0 .read (.lock (.load .once))) with used := 128 } (.act 127) =
      some { s.setCall 127 (.done .tooManyReaders) with used := 128 } := by
    simp [State.step, setCall, Pc.act, LockPc.act, hbyte, Next.call]
  have hpanic : State.PanicsNow { s.setCall 127 (.running 0 .read (.lock (.load .once))) with used := 128 }
      { s.setCall 127 (.done .tooManyReaders) with used := 128 } 127 := by
    constructor <;> simp [setCall]
  have hr₁ := hr.tail (hs.quiet (Function.update_eq_self 127 s.call).symm (hs.nobody 127) _) h₁
  have husable := ((panic_usable 0 fun _ => true).2 _ _ _ 127 hr₁ h₂ hpanic).2.2
  refine ⟨s, _, _, hr, hs, (panic_usable 0 fun _ => true).1 s hr, h₁, h₂, hpanic, husable.mpr fun q => ?_⟩
  simpa [setCall] using (inSection_once 0 0 q).1

/-- The 128th reader panics in `lock_block_read`, and its list stays locked. -/
theorem panic_locks_list : ¬ ∀ (s : State Nat) e s' i, s.Reachable → s.step e = some s' →
    s.PanicsNow s' i → s.Usable s' := by
  intro hall
  obtain ⟨s, hr, hs⟩ := exists_readers 127 (Nat.le_refl _)
  have hbyte : Site.update (.inList .sync) s.sh.byte = .finish .tooManyReaders := by
    simp [Site.update, (readUpdate_panic _).mpr hs.byte]
  obtain ⟨s₁, h₁, hcall, hsh⟩ : ∃ s₁, exec State.step s [.begin 0 .read .lockBlock, .act 127] = some s₁ ∧
      (∀ j, s₁.call j = if j = 127 then .running 0 .read (.lock (.load (.inList .sync))) else s.call j) ∧
      s₁.sh = s.sh.lockList (.read, .sync) true := by
    refine ⟨{ s.setCall 127 (.running 0 .read (.lock (.load (.inList .sync)))) with
      used := 128
      sh := s.sh.lockList (.read, .sync) true }, ?_, fun j => by simp [setCall, Function.update_apply], rfl⟩
    simp [exec, State.step, hs.free 0, setCall, hs.used, LockCall.entry, Access.attempt, Pc.act, LockPc.act,
      Next.call, hs.locked]
  have hload := hcall 127
  simp only [if_true] at hload
  have h₂ : s₁.step (.act 127) = some { s₁.setCall 127 (.done .tooManyReaders) with sh := s₁.sh } := by
    simp [State.step, hload, Pc.act, LockPc.act, hsh, Shared.lockList, hbyte, Next.call]
  have hreach : s₁.Reachable := ⟨0, fun _ => true, (hr.mono fun _ _ _ => trivial).trans (run_of_exec h₁)⟩
  have husable := hall s₁ _ _ 127 hreach h₂ ⟨by simp [hload], by simp [setCall]⟩
  obtain ⟨j, hj⟩ := husable.spinlocks (.read, .sync) (by simp [hsh, Shared.lockList])
  by_cases hj127 : j = 127
  · simp [setCall, hj127, Call.inSection] at hj
  · simp only [setCall, Function.update_of_ne hj127, hcall j, if_neg hj127, hs.nobody j] at hj
    cases hj

end State

end WasmSafeMutex.RwLock
