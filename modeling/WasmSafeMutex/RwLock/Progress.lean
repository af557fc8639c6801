import WasmSafeMutex.RwLock.Wakeup

/-!
# Who can block whom at a `RwLock`

When nobody has what it waits for, only guards are in the way: a `WriteGuard` of a reader, and
any guard of a writer.
-/

namespace WasmSafeMutex.RwLock

open Interleaving

variable {T : Type}

/-! ## What a call waits for -/

/-- What the next operation of the call needs is there. A spinning call can always look again. -/
def LockPc.able (sh : Shared T) (a : Access) (t : ThreadId) : LockPc → Bool
  | .load .spin => sh.byte ≠ lockedWrite
  | .cas .spin => sh.byte = unlocked
  | .enter k => !sh.locked (a, k)
  | .park => sh.woken (.thread t)
  | _ => true

def Pc.able (sh : Shared T) (a : Access) (t : ThreadId) : Pc → Bool
  | .lock l => l.able sh a t
  | .drop (.take q _) => !sh.locked q
  | .drop _ => true

/-- The next poll of the future finds that its notification has been sent. -/
def LockPc.ready (sh : Shared T) : LockPc → Bool
  | .await n => sh.woken (.cont n)
  | _ => true

/-- The call is at work on a lock that it has not got yet. -/
def Call.locks (a : Access) : Call → Prop
  | .running _ a' (.lock l) => a' = a ∧ ∀ k, l ≠ .leaveOwner k
  | .suspended a' _ => a' = a
  | _ => False

/-- Guards of this kind keep those that want `a` out. -/
def Access.bars (a' a : Access) : Bool := a' = .write || a = .write

/-- The access that a call under way is about. -/
def Call.access? : Call → Option Access
  | .running _ a _ | .suspended a _ | .holding a => some a
  | _ => none

namespace State

/-- Nobody has what it waits for. -/
structure Still (s : State T) : Prop where
  running : ∀ i t a pc, s.call i = .running t a pc → pc.able s.sh a t = false
  suspended : ∀ i a l, s.call i = .suspended a l → l.ready s.sh = false

/-- The call has returned a guard, or waits while another call holds one that bars it. -/
def Rests (s : State T) (i : CallId) (a : Access) : Prop :=
  s.call i = .holding a ∨ (s.call i).locks a ∧ ∃ j a', s.call j = .holding a' ∧ a'.bars a = true

variable {s : State T} {i : CallId} {t : ThreadId} {a : Access} {pc : Pc}

/-- A call that has what it waits for goes on. -/
theorem goes_on (hi : s.call i = .running t a pc) (hable : pc.able s.sh a t = true) :
    ∃ s', s.step (.act i) = some s' := by
  have hact : ∃ x, pc.act s.sh i t a = some x := by
    cases pc with
    | lock l =>
      cases l with
      | enter k =>
        have hfree : s.sh.locked (a, k) = false := by simpa [Pc.able, LockPc.able] using hable
        simp [Pc.act, LockPc.act, hfree]
      | park =>
        have hw : s.sh.woken (.thread t) = true := hable
        simp [Pc.act, LockPc.act, hw]
      | exchange x f =>
        simp only [Pc.act, LockPc.act]
        split <;> exact ⟨_, rfl⟩
      | cas x =>
        simp only [Pc.act, LockPc.act]
        split <;> exact ⟨_, rfl⟩
      | _ => exact ⟨_, rfl⟩
    | drop d =>
      cases d with
      | release => cases a <;> exact ⟨_, rfl⟩
      | take q qs =>
        have hfree : s.sh.locked q = false := by simpa [Pc.able] using hable
        simp [Pc.act, DropPc.act, hfree]
      | wake q w ws qs => exact ⟨_, rfl⟩
  obtain ⟨x, hx⟩ := hact
  exact ⟨_, by simp only [step, hi, hx, Option.map_some]; rfl⟩

/-! ## Where nobody goes on -/

theorem Still.unlocked (hs : s.Still) (h : s.Tended) (q : Queue) : s.sh.locked q = false := by
  refine h.sectioned.unlocked fun j => ?_
  by_contra hj
  rw [Bool.not_eq_false] at hj
  unfold Call.inSection at hj
  split at hj
  case h_2 => cases hj
  case h_1 t a pc hc =>
    have hnot := hs.running j t a pc hc
    simp only [Bool.and_eq_true] at hj
    cases pc with
    | drop d => cases hj.2
    | lock l =>
      cases l with
      | load x | cas x => cases x <;> first | cases hnot | cases hj.2
      | exchange | push | leaveOwner | leave => cases hnot
      | _ => cases hj.2

/-- No guard is on its way out. -/
theorem Still.nobody_drops (hs : s.Still) (h : s.Tended) (hi : s.call i = .running t a pc) : ∃ l, pc = .lock l := by
  have hnot := hs.running i t a pc hi
  cases pc with
  | lock l => exact ⟨l, rfl⟩
  | drop d =>
    cases d with
    | take q qs => simp [Pc.able, hs.unlocked h] at hnot
    | release | wake => cases hnot

theorem Still.not_inDrop (hs : s.Still) (h : s.Tended) (j : CallId) (a : Access) : (s.call j).inDrop a = false := by
  unfold Call.inDrop
  split
  case h_1 t a' q qs hc =>
    obtain ⟨l, hl⟩ := hs.nobody_drops h hc
    cases hl
  case h_2 t a' q w ws qs hc =>
    obtain ⟨l, hl⟩ := hs.nobody_drops h hc
    cases hl
  case h_3 => rfl

/-- Who owns the lock has its guard. -/
theorem Still.holding (hs : s.Still) (hj : (s.call i).owns a = true) : s.call i = .holding a := by
  cases hc : s.call i with
  | running t a' pc =>
    have hnot := hs.running i t a' pc hc
    rw [hc] at hj
    simp only [Call.owns, Bool.and_eq_true] at hj
    cases pc with
    | lock l => cases l <;> first | cases hnot | cases hj.2
    | drop d => cases d <;> first | cases hnot | cases hj.2
  | holding a' =>
    rw [hc] at hj
    rw [of_decide_eq_true hj]
  | idle | suspended | done => rw [hc] at hj; cases hj

/-- Where the lock is not free for an access, a guard bars it. -/
theorem Still.barred (hs : s.Still) (h : s.Tended) (hb : a.blocked s.sh.byte) :
    ∃ j a', s.call j = .holding a' ∧ a'.bars a = true := by
  have hwriter : s.sh.writes ≠ [] → ∃ j, s.call j = .holding .write := by
    intro hne
    obtain ⟨j, hj⟩ := List.exists_mem_of_ne_nil _ hne
    exact ⟨j, hs.holding ((h.counted.writer j).mp hj)⟩
  cases a with
  | read =>
    obtain ⟨j, hj⟩ := hwriter fun hnil => by
      rcases h.counted.byte with ⟨-, hlen, -⟩ | ⟨-, hle, -⟩
      · rw [hnil] at hlen
        cases hlen
      · rw [show s.sh.byte = lockedWrite from hb, toNat_lockedWrite] at hle
        omega
    exact ⟨j, .write, hj, rfl⟩
  | write =>
    by_cases hnil : s.sh.writes = []
    · have hreads : s.sh.reads ≠ [] := by
        intro hempty
        rcases h.counted.byte with ⟨-, hlen, -⟩ | ⟨hlen, -, -⟩
        · rw [hnil] at hlen
          cases hlen
        · rw [hempty] at hlen
          exact hb (UInt8.toNat_inj.mp hlen)
      obtain ⟨j, hj⟩ := List.exists_mem_of_ne_nil _ hreads
      exact ⟨j, .read, hs.holding ((h.counted.reader j).mp hj), rfl⟩
    · obtain ⟨j, hj⟩ := hwriter hnil
      exact ⟨j, .write, hj, rfl⟩

/-- Who waits in a list without having been woken is barred. -/
theorem Still.blocked_of_awaits (hs : s.Still) (h : s.Tended) {k : Side} {w : Waker}
    (ha : (s.call i).awaits = some ((a, k), w)) (hw : s.sh.woken w = false) : a.blocked s.sh.byte := by
  by_contra hb
  have hwoken := (h.empty (q := (a, k)) hb fun j => ⟨hs.not_inDrop h j _, fun _ => hs.not_inDrop h j _⟩).2 i w ha
  cases hw.symm.trans hwoken

theorem Still.rests_running (hs : s.Still) (h : s.Tended) (hi : s.call i = .running t a pc) : s.Rests i a := by
  obtain ⟨l, rfl⟩ := hs.nobody_drops h hi
  have hnot := hs.running i t a _ hi
  have hf := h.counted.fits i
  rw [hi] at hf
  have hlocks : (∀ k, l ≠ .leaveOwner k) → (s.call i).locks a := by
    intro hl
    rw [hi]
    exact ⟨rfl, hl⟩
  cases l with
  | load x =>
    cases x with
    | spin =>
      obtain rfl : a = .read := by simpa [Call.fits, Pc.fits] using hf
      exact .inr ⟨hlocks (by simp), hs.barred h (by simpa [Pc.able, LockPc.able, Access.blocked] using hnot)⟩
    | once | inList => cases hnot
  | cas x =>
    cases x with
    | spin =>
      obtain rfl : a = .write := by simpa [Call.fits, Pc.fits] using hf
      exact .inr ⟨hlocks (by simp), hs.barred h (by simpa [Pc.able, LockPc.able, Access.blocked] using hnot)⟩
    | once | inList => cases hnot
  | enter k => simp [Pc.able, LockPc.able, hs.unlocked h] at hnot
  | park => exact .inr ⟨hlocks (by simp), hs.barred h (hs.blocked_of_awaits h (i := i) (by rw [hi]; rfl) hnot)⟩
  | _ => cases hnot

theorem Still.rests_suspended (hs : s.Still) (h : s.Tended) {l : LockPc} (hi : s.call i = .suspended a l) :
    s.Rests i a := by
  have hnot := hs.suspended i a l hi
  cases l with
  | await n =>
    refine .inr ⟨by rw [hi]; rfl, hs.barred h (hs.blocked_of_awaits h (i := i) (by rw [hi]; rfl) hnot)⟩
  | _ => cases hnot

/-! ## The result -/

structure OnlyHoldersBlock (s : State T) : Prop where
  goes_on : ∀ i t a pc, s.call i = .running t a pc → pc.able s.sh a t = true → ∃ s', s.step (.act i) = some s'
  rests : s.Still → ∀ i a, (s.call i).access? = some a → s.Rests i a

/-- As long as the limit of 127 readers is not hit, a running call that has what it waits for goes
on. Where nobody has, each call that is under way has a guard, or waits while another call
has a guard that bars it. No drop of a guard is under way. -/
theorem only_holders_block {x : T} {w : ThreadId → Bool} (hr : RunWhere State.step NotHit (init x w) s) :
    s.OnlyHoldersBlock where
  goes_on _ _ _ _ hi hable := RwLock.State.goes_on hi hable
  rests hs i a ha := by
    have h := tended_of_run hr
    cases hc : s.call i with
    | running t a' pc =>
      rw [hc] at ha
      cases ha
      exact hs.rests_running h hc
    | suspended a' l =>
      rw [hc] at ha
      cases ha
      exact hs.rests_suspended h hc
    | holding a' =>
      rw [hc] at ha
      cases ha
      exact .inl hc
    | idle | done => rw [hc] at ha; cases ha

/-- A reader has its guard, and a writer is parked. -/
def parkedWriter : List (Event Nat) :=
  [.begin 0 .read .lockSpin, .act 0, .act 0, .begin 1 .write .lockBlock, .act 1, .act 1, .act 1, .act 1]

theorem only_holders_block_parked : ∃ s : State Nat,
    exec step (init 0 fun _ => true) parkedWriter = some s ∧ s.Still ∧ s.OnlyHoldersBlock := by
  have hrun : ∃ s : State Nat, exec step (init 0 fun _ => true) parkedWriter = some s ∧ s.used = 2 ∧
      s.call 0 = .holding .read ∧ s.call 1 = .running 1 .write (.lock .park) ∧ s.sh.woken (.thread 1) = false :=
    ⟨_, rfl, rfl, rfl, rfl, rfl⟩
  obtain ⟨s, hs, hused, h0, h1, hw⟩ := hrun
  have hr := RunWhere.refl.extend (Counted.along_of_calm (counted_init 0 fun _ => true) rfl) hs
  have hcall : ∀ i, i = 0 ∨ i = 1 ∨ s.call i = .idle := by
    intro i
    rcases i with _ | _ | i
    · exact .inl rfl
    · exact .inr (.inl rfl)
    · refine .inr (.inr ((tended_of_run hr).counted.numbered _ ?_))
      rw [hused]
      exact Nat.le_add_left 2 i
  have hstill : s.Still := by
    constructor
    · intro i t a pc hi
      rcases hcall i with rfl | rfl | hidle
      · cases h0.symm.trans hi
      · cases h1.symm.trans hi
        exact hw
      · cases hidle.symm.trans hi
    · intro i a l hi
      rcases hcall i with rfl | rfl | hidle
      · cases h0.symm.trans hi
      · cases h1.symm.trans hi
      · cases hidle.symm.trans hi
  exact ⟨s, hs, hstill, only_holders_block hr⟩

end State

end WasmSafeMutex.RwLock
