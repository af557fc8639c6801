import Mathlib.Data.Prod.Lex
import WasmSafeMutex.Lib.Endless
import WasmSafeMutex.RwLock.ListSections

/-!
# Fair runs of a `RwLock`

The loop of `fetch_update` can lose against the other calls again and again. So readers are lock-free and
no more than that, and a reader that loses in a section of its list keeps out whoever needs the list.
-/

namespace WasmSafeMutex.RwLock

open Interleaving Filter

variable {T : Type}

/-! ## Trying again -/

/-- The operation sends the call round a loop: it has lost an attempt, or has been woken to make
another one. -/
def Pc.retries (sh : Shared T) : Pc → Bool
  | .lock (.exchange _ f) => sh.byte ≠ f
  | .lock (.load .spin) => sh.byte &&& lockedWrite ≠ 0
  | .lock (.cas .spin) => sh.byte ≠ unlocked
  | .lock .park | .lock (.await _) => true
  | _ => false

/-- Call `i` goes round a loop. -/
def State.Again (s : State T) (i : CallId) (e : Event T) : Prop :=
  e = .spurious i ∨ e = .act i ∧ ∃ t a pc, s.call i = .running t a pc ∧ pc.retries s.sh = true

/-- The exchange of call `i` fails, because the byte has changed or for no reason. -/
def State.Loses (s : State T) (i : CallId) (e : Event T) : Prop :=
  ∃ t a x f, s.call i = .running t a (.lock (.exchange x f)) ∧
    (e = .spurious i ∨ e = .act i ∧ s.sh.byte ≠ f)

theorem State.Loses.own {s : State T} {i : CallId} {e : Event T} (h : s.Loses i e) :
    e = .act i ∨ e = .spurious i := by
  obtain ⟨t, a, x, f, -, he | he⟩ := h
  · exact .inr he
  · exact .inl he.1

/-! ## Being let go on -/

def Event.Acts (e : Event T) (i : CallId) : Prop := e = .act i ∨ ∃ t, e = .poll i t

/-- A running call has what it waits for, or a future would be ready for the next poll and
somebody can poll it. -/
def State.Able (s : State T) (i : CallId) : Prop :=
  match s.call i with
  | .running t a pc => pc.able s.sh a t = true
  | .suspended _ l => l.ready s.sh = true ∧ ∃ t, (s.step (.poll i t)).isSome = true
  | _ => False

abbrev FairRun (r : Endless (State.step (T := T))) : Prop := r.Fair State.Able Event.Acts

/-- The call has ended, or has returned a guard. -/
def Call.returned : Call → Prop
  | .holding _ | .done _ => True
  | _ => False

/-- The places where a call waits for the lock, or to be woken. -/
def Pc.waits : Pc → Bool
  | .lock (.load .spin) | .lock (.cas .spin) | .lock .park | .lock (.await _) => true
  | _ => false

/-- The list that the code is about to lock. -/
def Pc.wants (a : Access) : Pc → Option Queue
  | .lock (.enter k) => some (a, k)
  | .drop (.take q _) => some q
  | _ => none

def Pc.inDrop : Pc → Bool
  | .drop _ => true
  | _ => false

/-! ## Kinds of places -/

theorem Pc.not_waits_of_inSection {pc : Pc} {k : Side} (h : pc.inSection k = true) : pc.waits = false := by
  cases pc with
  | drop d => rfl
  | lock l =>
    cases l with
    | load x | cas x => cases x <;> first | rfl | cases h
    | park | await => cases h
    | _ => rfl

theorem Pc.wants_of_inSection {pc : Pc} {k : Side} (h : pc.inSection k = true) (a : Access) :
    pc.wants a = none := by
  cases pc with
  | drop d => cases h
  | lock l => cases l <;> first | rfl | cases h

theorem Pc.not_waits_of_once {pc : Pc} (h : pc.once = true) : pc.waits = false ∧ ∀ a, pc.wants a = none := by
  cases pc with
  | drop d => cases h
  | lock l =>
    cases l with
    | load x | cas x => cases x <;> first | exact ⟨rfl, fun _ => rfl⟩ | cases h
    | park | await | enter => cases h
    | _ => exact ⟨rfl, fun _ => rfl⟩

theorem Pc.not_waits_of_inDrop {pc : Pc} (h : pc.inDrop = true) : pc.waits = false := by
  cases pc with
  | drop d => rfl
  | lock l => cases h

theorem Pc.wants_of_inDrop {pc : Pc} (h : pc.inDrop = true) (hf : pc.fits .read = true) (k : Side) :
    pc.wants .read ≠ some (.read, k) := by
  intro hq
  cases pc with
  | lock l => cases h
  | drop d =>
    cases d with
    | take q qs =>
      cases hq
      simp [fits] at hf
    | release | wake => cases hq

/-- A call that waits for nothing needs at most that a list is not locked. -/
theorem Pc.able_of_unlocked {sh : Shared T} {pc : Pc} {a : Access} (h : pc.waits = false)
    (hq : ∀ q, pc.wants a = some q → sh.locked q = false) (t : ThreadId) : pc.able sh a t = true := by
  cases pc with
  | lock l =>
    cases l with
    | load x | cas x => cases x <;> first | rfl | cases h
    | enter k => simp [able, LockPc.able, hq _ rfl]
    | park | await => cases h
    | _ => rfl
  | drop d =>
    cases d with
    | take q qs => simp [able, hq _ rfl]
    | release | wake => rfl

theorem Pc.Step.inDrop {sh sh' : Shared T} {i : CallId} {t : ThreadId} {a : Access} {pc : Pc} {n : Next}
    (h : pc.Step sh i t a sh' n) (hpc : pc.inDrop = true) :
    (n.call t a).returned ∨ ∃ pc', n = .goto pc' ∧ pc'.inDrop = true := by
  cases h with
  | releaseRead | releaseWrite =>
    split
    · exact .inr ⟨_, rfl, rfl⟩
    · exact .inl trivial
  | take | wake =>
    unfold DropPc.drain
    split
    · exact .inr ⟨_, rfl, rfl⟩
    · exact .inr ⟨_, rfl, rfl⟩
    · exact .inl trivial
  | _ => cases hpc

theorem Site.update_once (f : UInt8) (t : ThreadId) (a : Access) :
    ((Site.once.update f).call t a).returned ∨ ∃ pc, Site.once.update f = .goto pc ∧ pc.once = true := by
  unfold Site.update
  split
  · exact .inl trivial
  · exact .inl trivial
  · exact .inr ⟨_, rfl, rfl⟩

theorem Pc.Step.once {sh sh' : Shared T} {i : CallId} {t : ThreadId} {a : Access} {pc : Pc} {n : Next}
    (h : pc.Step sh i t a sh' n) (hpc : pc.once = true) :
    (n.call t a).returned ∨ ∃ pc', n = .goto pc' ∧ pc'.once = true := by
  cases h with
  | load x | exchangeLost x =>
    cases x with
    | once => exact Site.update_once _ t a
    | spin | inList => cases hpc
  | exchanged x | casWon x | casLost x =>
    cases x with
    | once => exact .inl trivial
    | spin | inList => cases hpc
  | _ => cases hpc

/-- Where a call waits for nothing, it tries again only when it has lost. -/
theorem State.loses_of_again {s s' : State T} {e : Event T} {i : CallId} {t : ThreadId} {a : Access} {pc : Pc}
    (h : s.step e = some s') (hi : s.call i = .running t a pc) (hpc : pc.waits = false) (hagain : s.Again i e) :
    s.Loses i e := by
  rcases hagain with rfl | ⟨rfl, t', a', pc', hi', hr⟩
  · simp only [State.step, hi] at h
    obtain ⟨n, hn, -⟩ := Option.map_eq_some_iff.mp h
    unfold Pc.spurious at hn
    split at hn
    case h_1 x f => exact ⟨t, a, x, f, hi, .inl rfl⟩
    case h_2 => cases hpc
    case h_3 => cases hn
  · cases hi.symm.trans hi'
    unfold Pc.retries at hr
    split at hr
    case h_1 x f => exact ⟨t, a, x, f, hi, .inr ⟨rfl, of_decide_eq_true hr⟩⟩
    case h_2 | h_3 | h_4 | h_5 => cases hpc
    case h_6 => cases hr

/-! ## How far from the end -/

def LockPc.rank : LockPc → ℕ
  | .probe => 8
  | .enter _ => 7
  | .load _ | .cas _ => 6
  | .exchange _ _ => 5
  | .push _ => 4
  | .leave _ _ | .leaveOwner _ => 3
  | .park | .await _ => 2

/-- The second number counts the handles that are still to wake. -/
def DropPc.rank : DropPc → ℕ × ℕ
  | .release => (20, 0)
  | .take _ qs => (2 * qs.length + 2, 0)
  | .wake _ _ ws qs => (2 * qs.length + 1, ws.length)

def Pc.rank : Pc → ℕ × ℕ
  | .lock l => (30 + l.rank, 0)
  | .drop d => d.rank

/-- To be polled brings a future nearer to its end too. -/
def Call.rank : Call → ℕ ×ₗ ℕ
  | .idle => toLex (100, 0)
  | .running _ _ pc => toLex pc.rank
  | .suspended _ l => toLex (30 + l.rank, 1)
  | .holding _ => toLex (25, 0)
  | .done _ => toLex (0, 0)

theorem lower_stage {p q : ℕ × ℕ} (h : p.1 < q.1) : toLex p < toLex q := Prod.Lex.toLex_lt_toLex.mpr (.inl h)

theorem LockPc.rank_le (l : LockPc) : l.rank ≤ 8 := by cases l <;> simp [rank]

theorem Access.rank_attempt (a : Access) (x : Site) : (a.attempt x).rank = 6 := by cases a <;> rfl

/-- Who has lost in a section goes on to push. -/
theorem Site.rank_err {x : Site} (hx : x ≠ .spin) (a : Access) (t : ThreadId) :
    ((x.err a).call t a).rank < toLex (35, 0) := by
  cases x with
  | once => exact lower_stage (show 0 < 35 by omega)
  | spin => exact absurd rfl hx
  | inList k => exact lower_stage (show 34 < 35 by omega)

theorem Site.rank_ok (x : Site) (a : Access) (t : ThreadId) : (x.ok.call t a).rank < toLex (35, 0) := by
  cases x with
  | once | spin => exact lower_stage (show 25 < 35 by omega)
  | inList k => exact lower_stage (show 33 < 35 by omega)

/-! ## Every other operation is a step ahead -/

/-- What the closure of `fetch_update` has seen leads to an exchange, or ends the attempt. -/
theorem Site.rank_update {x : Site} {f : UInt8} (hx : x = .spin → f &&& lockedWrite = 0) (t : ThreadId) :
    ((x.update f).call t .read).rank < toLex (36, 0) := by
  unfold Site.update
  split
  case h_1 h =>
    refine lt_trans (x.rank_err ?_ .read t) (lower_stage (show 35 < 36 by omega))
    rintro rfl
    have hlt := (and_lockedWrite f).mp (hx rfl)
    have hle := (readUpdate_none f).mp h
    omega
  case h_2 => exact lower_stage (show 0 < 36 by omega)
  case h_3 => exact lower_stage (show 35 < 36 by omega)

theorem DropPc.rank_drain (q : Queue) (ws : List Waker) (qs : List Queue) (t : ThreadId) (a : Access) :
    ((drain q ws qs).call t a).rank < toLex (2 * qs.length + 1, ws.length) := by
  unfold drain
  split
  · exact Prod.Lex.toLex_lt_toLex.mpr (.inr ⟨rfl, Nat.lt_succ_self _⟩)
  case h_2 q' qs => exact lower_stage (show 2 * qs.length + 2 < 2 * (qs.length + 1) + 1 by omega)
  · exact lower_stage (show 0 < 1 by omega)

theorem LockPc.act_falls {sh sh' : Shared T} {i : CallId} {t : ThreadId} {a : Access} {l : LockPc} {n : Next}
    (h : l.act sh i t a = some (sh', n)) (hf : (Pc.lock l).fits a = true)
    (hr : (Pc.lock l).retries sh = false) : (n.call t a).rank < toLex (30 + l.rank, 0) := by
  cases l with
  | probe =>
    cases h
    split
    · exact lower_stage (show 37 < 38 by omega)
    · have hx := a.rank_attempt .spin
      exact lower_stage (show 30 + (a.attempt .spin).rank < 38 by omega)
  | load x =>
    cases h
    obtain rfl : a = .read := by simpa [Pc.fits] using hf
    refine Site.rank_update ?_ t
    rintro rfl
    simpa [Pc.retries] using hr
  | exchange x f =>
    have hb : sh.byte = f := by simpa [Pc.retries] using hr
    simp only [act, hb, if_true, Option.some.injEq, Prod.mk.injEq] at h
    rw [← h.2]
    exact x.rank_ok a t
  | cas x =>
    simp only [act] at h
    split at h
    case isTrue hb =>
      cases h
      exact lt_trans (x.rank_ok a t) (lower_stage (show 35 < 36 by omega))
    case isFalse hb =>
      cases h
      obtain rfl : a = .write := by simpa [Pc.fits] using hf
      refine lt_trans (x.rank_err ?_ .write t) (lower_stage (show 35 < 36 by omega))
      rintro rfl
      exact hb (by simpa [Pc.retries] using hr)
  | enter k =>
    obtain ⟨-, h⟩ := Option.ite_none_left_eq_some.mp h
    cases h
    have hx := a.rank_attempt (.inList k)
    exact lower_stage (show 30 + (a.attempt (.inList k)).rank < 37 by omega)
  | push k => cases h; exact lower_stage (show 33 < 34 by omega)
  | leaveOwner k => cases h; exact lower_stage (show 25 < 33 by omega)
  | leave k m => cases h; cases k <;> exact lower_stage (show 32 < 33 by omega)
  | park | await => cases hr

theorem DropPc.act_falls {sh sh' : Shared T} {i : CallId} {a : Access} {d : DropPc} {n : Next}
    (h : d.act sh i a = some (sh', n)) (t : ThreadId) : (n.call t a).rank < toLex d.rank := by
  cases d with
  | release =>
    cases a with
    | read =>
      cases h
      split
      · exact lower_stage (show 4 < 20 by omega)
      · exact lower_stage (show 0 < 20 by omega)
    | write =>
      cases h
      split
      · exact lower_stage (show 8 < 20 by omega)
      · exact lower_stage (show 0 < 20 by omega)
  | take q qs =>
    obtain ⟨-, h⟩ := Option.ite_none_left_eq_some.mp h
    cases h
    exact lt_trans (rank_drain q _ qs t a) (lower_stage (show 2 * qs.length + 1 < 2 * qs.length + 2 by omega))
  | wake q w ws qs =>
    cases h
    exact rank_drain q ws qs t a

theorem Pc.act_falls {sh sh' : Shared T} {i : CallId} {t : ThreadId} {a : Access} {pc : Pc} {n : Next}
    (h : pc.act sh i t a = some (sh', n)) (hf : pc.fits a = true) (hr : pc.retries sh = false) :
    (n.call t a).rank < (Call.running t a pc).rank := by
  cases pc with
  | lock l => exact LockPc.act_falls h hf hr
  | drop d => exact DropPc.act_falls h t

theorem Call.Turn.falls {c c' : Call} (h : Call.Turn c c') : c'.rank < c.rank := by
  cases h with
  | begin t a c =>
    have hle := (c.entry a).rank_le
    exact lower_stage (show 30 + (c.entry a).rank < 100 by omega)
  | dropGuard t a => exact lower_stage (show 20 < 25 by omega)
  | poll t a l => exact Prod.Lex.toLex_lt_toLex.mpr (.inr ⟨rfl, Nat.lt_succ_self _⟩)
  | cancel a l => exact lower_stage (show 0 < 30 + l.rank by omega)

/-- Only readers panic. -/
theorem Pc.Step.read_of_panic {sh sh' : Shared T} {i : CallId} {t : ThreadId} {a : Access} {pc : Pc} {n : Next}
    (h : pc.Step sh i t a sh' n) (hf : pc.fits a = true) (hn : n = .finish .tooManyReaders) : a = .read := by
  cases h with
  | load x => exact of_decide_eq_true hf
  | exchangeLost x f => exact (of_decide_eq_true hf).1
  | exchanged x | casWon x | casLost x => cases x <;> cases hn
  | releaseRead ha => exact ha
  | releaseWrite => split at hn <;> cases hn
  | take | wake =>
    unfold DropPc.drain at hn
    split at hn <;> cases hn
  | _ => cases hn

theorem Pc.effect_of_changed {sh sh' : Shared T} {i : CallId} {t : ThreadId} {a : Access} {pc : Pc} {n : Next}
    (h : pc.act sh i t a = some (sh', n)) (hf : pc.fits a = true) (hb : sh'.byte ≠ sh.byte) :
    pc.effect sh.byte a = [.acquire a] ∨ pc.effect sh.byte a = [.release a] := by
  cases pc with
  | lock l =>
    cases l with
    | exchange x f =>
      obtain ⟨rfl, -⟩ := of_decide_eq_true hf
      simp only [act, LockPc.act] at h
      split at h
      case isTrue hf => exact .inl (if_pos hf)
      case isFalse => cases h; exact absurd rfl hb
    | cas x =>
      obtain rfl := of_decide_eq_true hf
      simp only [act, LockPc.act] at h
      split at h
      case isTrue hf => exact .inl (if_pos hf)
      case isFalse => cases h; exact absurd rfl hb
    | enter k =>
      obtain ⟨-, h⟩ := Option.ite_none_left_eq_some.mp h
      cases h
      exact absurd rfl hb
    | park =>
      obtain ⟨-, h⟩ := Option.ite_none_right_eq_some.mp h
      cases h
      exact absurd rfl hb
    | probe | load | push | leaveOwner | leave | await => cases h; exact absurd rfl hb
  | drop d =>
    cases d with
    | release => exact .inr rfl
    | take q qs =>
      obtain ⟨-, h⟩ := Option.ite_none_left_eq_some.mp h
      cases h
      exact absurd rfl hb
    | wake q w ws qs => cases h; exact absurd rfl hb

theorem Call.Turn.not_exchange {c c' : Call} (h : Call.Turn c c') (hf : c.fits = true) (t : ThreadId) (a : Access)
    (x : Site) (f : UInt8) : c' ≠ .running t a (.lock (.exchange x f)) := by
  intro he
  cases h with
  | begin t' a' c => cases c <;> cases a' <;> cases he
  | dropGuard | cancel => cases he
  | poll t' a' l =>
    cases he
    cases hf

/-- A call goes to an exchange with the byte that it has just seen. -/
theorem Pc.Step.sees {sh sh' : Shared T} {i : CallId} {t : ThreadId} {a : Access} {pc : Pc} {n : Next} {x : Site}
    {f : UInt8} (h : pc.Step sh i t a sh' n) (hn : n = .goto (.lock (.exchange x f))) : f = sh.byte := by
  cases h with
  | load y | exchangeLost y =>
    unfold Site.update at hn
    split at hn
    · cases y <;> cases hn
    · cases hn
    · cases hn
      rfl
  | probe b => cases b <;> cases a <;> cases hn
  | exchanged y | casWon y => cases y <;> cases hn
  | casLost y => cases y <;> cases a <;> cases hn
  | enter k => cases a <;> cases hn
  | leave k => cases k <;> cases hn
  | releaseRead | releaseWrite => split at hn <;> cases hn
  | take | wake =>
    unfold DropPc.drain at hn
    split at hn <;> cases hn
  | _ => cases hn

namespace State

variable {s s' : State T} {e : Event T} {i : CallId} {t : ThreadId} {a : Access} {pc : Pc}

theorem Reachable.act_falls (hr : s.Reachable) (h : s.step (.act i) = some s') (hagain : ¬ s.Again i (.act i)) :
    (s'.call i).rank < (s.call i).rank := by
  simp only [State.step] at h
  split at h
  case h_2 => cases h
  case h_1 t a pc hi =>
    obtain ⟨⟨sh, n⟩, hx, rfl⟩ := Option.map_eq_some_iff.mp h
    have hf := hr.counted.fits i
    rw [hi] at hf
    rw [hi]
    simp only [setCall, Function.update_self]
    refine Pc.act_falls hx hf ?_
    by_contra hagain'
    exact hagain (.inr ⟨rfl, t, a, pc, hi, (Bool.not_eq_false _).mp hagain'⟩)

/-- The call stays, or the event is one of its own. -/
theorem Reachable.step_call (hr : s.Reachable) (h : s.step e = some s') (i : CallId) :
    s'.call i = s.call i ∨ e = .act i ∨ e = .spurious i ∨ (s.call i).Turn (s'.call i) := by
  cases stepped_of_step hr.counted.numbered h with
  | acted _ j t a pc sh n he hc hs =>
    by_cases hij : i = j
    · subst hij
      rcases he with he | he
      · exact .inr (.inl he)
      · exact .inr (.inr (.inl he))
    · exact .inl (by simp [setCall, hij])
  | turned _ j c used ht =>
    by_cases hij : i = j
    · subst hij
      exact .inr (.inr (.inr (by simpa [setCall] using ht)))
    · exact .inl (by simp [setCall, hij])
  | wrote | unpark | parkElsewhere => exact .inl rfl

theorem Reachable.falls (hr : s.Reachable) (h : s.step e = some s') (hagain : ¬ s.Again i e) :
    s'.call i = s.call i ∨ (s'.call i).rank < (s.call i).rank := by
  rcases hr.step_call h i with hcall | rfl | rfl | ht
  · exact .inl hcall
  · exact .inr (hr.act_falls h hagain)
  · exact absurd (.inl rfl) hagain
  · exact .inr ht.falls

theorem Reachable.acts_falls (hr : s.Reachable) (h : s.step e = some s') (ha : e.Acts i) (hagain : ¬ s.Again i e) :
    (s'.call i).rank < (s.call i).rank := by
  rcases ha with rfl | ⟨t, rfl⟩
  · exact hr.act_falls h hagain
  · simp only [State.step] at h
    split at h
    case h_2 => cases h
    case h_1 a l hc =>
      obtain ⟨-, h⟩ := Option.ite_none_right_eq_some.mp h
      cases h
      simp only [hc, setCall, Function.update_self]
      exact (Call.Turn.poll t a l).falls

/-! ## Sections that are not left -/

/-- A list is locked by the call in its section, or by a reader that has panicked there. -/
def Locks (s : State T) : Prop :=
  ∀ q, s.sh.locked q = true →
    (∃ j, (s.call j).inSection q = true) ∨ q.1 = .read ∧ ∃ j, s.call j = .done .tooManyReaders

theorem locks_init (x : T) (w : ThreadId → Bool) : (init x w).Locks := fun _ h => by cases h

theorem Locks.step (h : s.Locks) (hr : s.Reachable) (hstep : s.step e = some s') : s'.Locks := by
  intro q hq
  have hpanicked : (q.1 = .read ∧ ∃ j, s.call j = .done .tooManyReaders) →
      q.1 = .read ∧ ∃ j, s'.call j = .done .tooManyReaders :=
    fun ⟨hread, j, hj⟩ => ⟨hread, j, (done_step hr hstep hj).1⟩
  cases stepped_of_step hr.counted.numbered hstep with
  | acted _ i t a pc sh n he hc hs =>
    have hself : ((s.setCall i (n.call t a)).call i).inSection q = (decide (a = q.1) && n.inSection q.2) := by
      simp [setCall, Next.inSection_call]
    have hold : (s.call i).inSection q = (decide (a = q.1) && pc.inSection q.2) := by
      rw [hc]
      rfl
    -- Who was in the section is still there, unless the call itself has left it.
    have hkeep : s.sh.locked q = true → ((s.call i).inSection q = true →
        ((s.setCall i (n.call t a)).call i).inSection q = true) →
        (∃ j, ((s.setCall i (n.call t a)).call j).inSection q = true) ∨
          q.1 = .read ∧ ∃ j, (s.setCall i (n.call t a)).call j = .done .tooManyReaders := by
      intro hl hi
      rcases h q hl with ⟨j, hj⟩ | hp
      · refine .inl ⟨j, ?_⟩
        by_cases hji : j = i
        · subst hji
          exact hi hj
        · simpa [setCall, hji] using hj
      · exact .inr (hpanicked hp)
    by_cases ha : a = q.1
    · subst ha
      simp only [decide_true, Bool.true_and] at hself hold
      rcases hs.sections q.2 with ⟨-, -, hn⟩ | ⟨hl, -, -⟩ | ⟨hl, hn⟩ | ⟨hn, hin, hsh⟩
      · exact .inl ⟨i, hself.trans hn⟩
      · cases hq.symm.trans hl
      · exact hkeep (hl.symm.trans hq) fun hi => by rw [hself, hn, ← hold, hi]
      · have hf := hr.counted.fits i
        rw [hc] at hf
        exact .inr ⟨hs.read_of_panic hf hn, i, by simp [setCall, hn, Next.call]⟩
    · rw [decide_eq_false ha, Bool.false_and] at hold
      exact hkeep ((hs.locked_ne (Ne.symm ha)).symm.trans hq) fun hi => by cases hi.symm.trans hold
  | turned _ i c used ht =>
    rcases h q hq with ⟨j, hj⟩ | hp
    · refine .inl ⟨j, ?_⟩
      by_cases hji : j = i
      · subst hji
        simpa [setCall, Call.Turn.inSection ht (hr.counted.fits j)] using hj
      · simpa [setCall, hji] using hj
    · exact .inr (hpanicked hp)
  | wrote | unpark | parkElsewhere => exact h q hq

theorem Reachable.locks (hr : s.Reachable) : s.Locks := by
  obtain ⟨x, w, hrun⟩ := hr
  have h : s.Reachable ∧ s.Locks := by
    refine hrun.invariant (P := fun s => s.Reachable ∧ s.Locks)
      ⟨⟨x, w, .refl⟩, locks_init x w⟩ fun s s' e hs _ hstep => ?_
    exact ⟨hs.1.step hstep, hs.2.step hs.1 hstep⟩
  exact h.2

theorem Reachable.stays_locking (hr : s.Reachable) (hstep : s.step e = some s') {q : Queue} {j : CallId}
    (hj : (s.call j).inSection q = true) (hl : s'.sh.locked q = true)
    (hno : q.1 = .read → s'.call j ≠ .done .tooManyReaders) :
    (s'.call j).inSection q = true := by
  cases stepped_of_step hr.counted.numbered hstep with
  | acted _ i t a pc sh n he hc hs =>
    by_cases hji : j = i
    case neg => simpa [setCall, hji] using hj
    subst hji
    have hself : ((s.setCall j (n.call t a)).call j).inSection q = (decide (a = q.1) && n.inSection q.2) := by
      simp [setCall, Next.inSection_call]
    have hlocked := hr.inside.locked q j hj
    have hf := hr.counted.fits j
    rw [hc] at hj hf
    simp only [Call.inSection, Bool.and_eq_true, decide_eq_true_eq] at hj
    obtain ⟨rfl, hin⟩ := hj
    refine hself.trans ?_
    rcases hs.sections q.2 with ⟨hfree, -, -⟩ | ⟨hfree, -, -⟩ | ⟨-, hn⟩ | ⟨hn, -, -⟩
    · cases hlocked.symm.trans hfree
    · cases hl.symm.trans hfree
    · simp [hn, hin]
    · exact absurd (by simp [setCall, hn, Next.call]) (hno (hs.read_of_panic hf hn))
  | turned _ i c used ht =>
    by_cases hji : j = i
    · subst hji
      simpa [setCall, Call.Turn.inSection ht (hr.counted.fits j)] using hj
    · simpa [setCall, hji] using hj
  | wrote | unpark | parkElsewhere => exact hj

theorem running_of_inSection {q : Queue} (h : (s.call i).inSection q = true) :
    ∃ t pc, s.call i = .running t q.1 pc ∧ pc.inSection q.2 = true := by
  unfold Call.inSection at h
  split at h
  case h_2 => cases h
  case h_1 t a pc hi =>
    simp only [Bool.and_eq_true, decide_eq_true_eq] at h
    obtain ⟨rfl, hin⟩ := h
    exact ⟨t, pc, hi, hin⟩

/-- Only readers lose. -/
theorem Reachable.read_of_loses (hr : s.Reachable) (h : s.Loses i e) (hi : s.call i = .running t a pc) :
    a = .read := by
  obtain ⟨t', a', x, f, hi', -⟩ := h
  cases hi.symm.trans hi'
  have hf := hr.counted.fits i
  rw [hi] at hf
  exact (of_decide_eq_true hf).1

/-! ## In an endless run -/

variable {r : Endless (State.step (T := T))}

theorem settles (hr : ∀ n, (r.state n).Reachable)
    (hnot : ∀ᶠ n in atTop, ¬ (r.state n).Again i (r.event n)) :
    EventuallyConst (fun n => (r.state n).call i) atTop :=
  eventuallyConst_of_falls (f := Call.rank) (hnot.mono fun n hn => (hr n).falls (r.steps n) hn)

theorem unable (hr : ∀ n, (r.state n).Reachable) (hf : FairRun r)
    (hnot : ∀ᶠ n in atTop, ¬ (r.state n).Again i (r.event n)) : ∀ᶠ n in atTop, ¬ (r.state n).Able i := by
  refine hf.not_ready (v := State.call) (hnot.mono fun n hn hact heq => ?_) (settles hr hnot)
  have hlt := (hr n).acts_falls (r.steps n) hact hn
  rw [heq] at hlt
  exact lt_irrefl _ hlt

/-- What can keep a list of the readers locked: one in its section loses for ever, or one has panicked. -/
def Hampered (r : Endless (State.step (T := T))) (k : Side) : Prop :=
  (∃ j, (∀ᶠ n in atTop, ((r.state n).call j).inSection (.read, k) = true) ∧
    ∃ᶠ n in atTop, (r.state n).Loses j (r.event n)) ∨
  ∃ n j, (r.state n).call j = .done .tooManyReaders

theorem unlocks (hr : ∀ n, (r.state n).Reachable) (hf : FairRun r) (a : Access) (k : Side) :
    (∃ᶠ n in atTop, (r.state n).sh.locked (a, k) = false) ∨ a = .read ∧ Hampered r k := by
  by_contra hboth
  obtain ⟨hlocked, hfine⟩ := not_or.mp hboth
  obtain ⟨N, hN⟩ := eventually_atTop.mp (not_frequently.mp hlocked)
  simp only [Bool.not_eq_false] at hN
  have hcalm : ∀ j n, a = .read → (r.state n).call j ≠ .done .tooManyReaders :=
    fun j n ha hp => hfine ⟨ha, .inr ⟨n, j, hp⟩⟩
  rcases (hr N).locks (a, k) (hN N le_rfl) with ⟨j, hj⟩ | ⟨ha, j, hp⟩
  case inr => exact hcalm j N ha hp
  have hin : ∀ n ≥ N, ((r.state n).call j).inSection (a, k) = true := by
    intro n hn
    induction n, hn using Nat.le_induction with
    | base => exact hj
    | succ n hn ih =>
      exact (hr n).stays_locking (r.steps n) ih (hN _ (le_trans hn (Nat.le_succ n))) (hcalm j _)
  have hlose : ∀ᶠ n in atTop, ¬ (r.state n).Loses j (r.event n) := by
    refine not_frequently.mp fun hlose => ?_
    obtain ⟨n, hl, hn⟩ := (hlose.and_eventually (eventually_ge_atTop N)).exists
    obtain ⟨t, pc, hc, -⟩ := running_of_inSection (hin n hn)
    obtain rfl := (hr n).read_of_loses hl hc
    exact hfine ⟨rfl, .inl ⟨j, eventually_atTop.mpr ⟨N, hin⟩, hlose⟩⟩
  have hnot : ∀ᶠ n in atTop, ¬ (r.state n).Again j (r.event n) := by
    filter_upwards [hlose, eventually_ge_atTop N] with n hl hn hagain
    obtain ⟨t, pc, hc, hpc⟩ := running_of_inSection (hin n hn)
    exact hl (loses_of_again (r.steps n) hc (Pc.not_waits_of_inSection hpc) hagain)
  obtain ⟨n, hn, hle⟩ := ((unable hr hf hnot).and (eventually_ge_atTop N)).exists
  obtain ⟨t, pc, hc, hpc⟩ := running_of_inSection (hin n hle)
  refine hn ?_
  simp only [Able, hc]
  refine Pc.able_of_unlocked (Pc.not_waits_of_inSection hpc) (fun q hq => ?_) t
  cases hq.symm.trans (Pc.wants_of_inSection hpc a)

/-- The call waits for what is not there, or it is not under way. -/
structure AtRest (r : Endless (State.step (T := T))) (s : State T) (i : CallId) : Prop where
  unable : ¬ s.Able i
  waits : ∀ t a pc, s.call i = .running t a pc →
    pc.waits = true ∨ ∃ k, pc.wants a = some (.read, k) ∧ Hampered r k

/-- A call that tries again only so often comes to rest. -/
theorem rests_at_last (hr : ∀ n, (r.state n).Reachable) (hf : FairRun r)
    (hnot : ∀ᶠ n in atTop, ¬ (r.state n).Again i (r.event n)) :
    ∀ᶠ n in atTop, AtRest r (r.state n) i := by
  obtain ⟨N, hN⟩ := eventuallyConst_atTop.mp (settles hr hnot)
  have hunable := unable hr hf hnot
  filter_upwards [hunable, eventually_ge_atTop N] with n hn hle
  refine ⟨hn, fun t a pc hc => ?_⟩
  by_contra hboth
  obtain ⟨hwaits, hlist⟩ := not_or.mp hboth
  -- The list that the call wants is unlocked again and again. It is able to go on then.
  have hfree : ∃ᶠ n in atTop, ∀ q, pc.wants a = some q → (r.state n).sh.locked q = false := by
    cases hq : pc.wants a with
    | none => exact (Eventually.of_forall fun n q h => by cases h).frequently
    | some q =>
      rcases unlocks hr hf q.1 q.2 with hfree | ⟨hread, hham⟩
      · refine hfree.mono fun n hn q' he => ?_
        cases he
        exact hn
      · exact absurd ⟨q.2, by rw [hq, ← hread], hham⟩ hlist
  obtain ⟨l, hfree, hno, hge⟩ := (hfree.and_eventually (hunable.and (eventually_ge_atTop N))).exists
  have hcl : (r.state l).call i = .running t a pc := (hN l hge).trans ((hN n hle).symm.trans hc)
  refine hno ?_
  simp only [Able, hcl]
  exact Pc.able_of_unlocked ((Bool.not_eq_true _).mp hwaits) hfree t

/-! ## Calls that do not wait for the lock -/

/-- A call that is in the code of `P` is there until it returns. -/
theorem stays_until {P : Pc → Bool} (hr : ∀ n, (r.state n).Reachable)
    (hP : ∀ {sh sh' : Shared T} {i t a pc n}, pc.Step sh i t a sh' n → P pc = true →
      (n.call t a).returned ∨ ∃ pc', n = .goto pc' ∧ P pc' = true)
    {N : ℕ} (hi : (r.state N).call i = .running t a pc) (hpc : P pc = true)
    (hnever : ∀ n ≥ N, ¬ ((r.state n).call i).returned) :
    ∀ n ≥ N, ∃ pc', (r.state n).call i = .running t a pc' ∧ P pc' = true := by
  intro n hn
  induction n, hn using Nat.le_induction with
  | base => exact ⟨pc, hi, hpc⟩
  | succ n hn ih =>
    obtain ⟨pc', hc, hpc'⟩ := ih
    have hnever' := hnever (n + 1) (le_trans hn (Nat.le_succ n))
    have hsteps := r.steps n
    generalize r.state (n + 1) = s', r.event n = e at hsteps hnever' ⊢
    cases stepped_of_step (hr n).counted.numbered hsteps with
    | acted _ j t' a' q sh x he hj hs =>
      by_cases hij : i = j
      · subst hij
        cases hc.symm.trans hj
        simp only [setCall, Function.update_self] at hnever' ⊢
        rcases hP hs hpc' with hret | ⟨pc', rfl, hpc'⟩
        · exact absurd hret hnever'
        · exact ⟨pc', rfl, hpc'⟩
      · exact ⟨pc', by simpa [setCall, hij] using hc, hpc'⟩
    | turned _ j c used ht =>
      have hij : i ≠ j := by
        rintro rfl
        rw [hc] at ht
        cases ht
      exact ⟨pc', by simpa [setCall, hij] using hc, hpc'⟩
    | wrote | unpark | parkElsewhere => exact ⟨pc', hc, hpc'⟩

theorem drop_returns (hr : ∀ n, (r.state n).Reachable) (hf : FairRun r) {N : ℕ}
    (hi : (r.state N).call i = .running t a (.drop .release)) :
    (∃ n ≥ N, ((r.state n).call i).returned) ∨ a = .write ∧ ∃ k, Hampered r k := by
  by_contra hboth
  obtain ⟨hnever, hfine⟩ := not_or.mp hboth
  simp only [not_exists, not_and] at hnever
  have hin := stays_until hr Pc.Step.inDrop hi rfl hnever
  have hnot : ∀ᶠ n in atTop, ¬ (r.state n).Again i (r.event n) := by
    filter_upwards [eventually_ge_atTop N] with n hn hagain
    obtain ⟨pc, hc, hpc⟩ := hin n hn
    obtain ⟨t', a', x, f, hc', -⟩ := loses_of_again (r.steps n) hc (Pc.not_waits_of_inDrop hpc) hagain
    cases hc.symm.trans hc'
    cases hpc
  obtain ⟨n, hrest, hle⟩ := ((rests_at_last hr hf hnot).and (eventually_ge_atTop N)).exists
  obtain ⟨pc, hc, hpc⟩ := hin n hle
  rcases hrest.waits t a pc hc with hw | ⟨k, hwants, hham⟩
  · cases hw.symm.trans (Pc.not_waits_of_inDrop hpc)
  · cases a with
    | write => exact hfine ⟨rfl, k, hham⟩
    | read =>
      have hfits := (hr n).counted.fits i
      rw [hc] at hfits
      exact Pc.wants_of_inDrop hpc hfits k hwants

theorem try_returns (hr : ∀ n, (r.state n).Reachable) (hf : FairRun r) {N : ℕ}
    (hi : (r.state N).call i = .running t a pc) (hpc : pc.once = true) :
    (∃ n ≥ N, ((r.state n).call i).returned) ∨
      a = .read ∧ ∃ᶠ n in atTop, (r.state n).Loses i (r.event n) := by
  by_contra hboth
  obtain ⟨hnever, hfine⟩ := not_or.mp hboth
  simp only [not_exists, not_and] at hnever
  have hin := stays_until hr Pc.Step.once hi hpc hnever
  have hlose : ∀ᶠ n in atTop, ¬ (r.state n).Loses i (r.event n) := by
    refine not_frequently.mp fun hlose => ?_
    obtain ⟨n, hl, hn⟩ := (hlose.and_eventually (eventually_ge_atTop N)).exists
    obtain ⟨pc', hc, -⟩ := hin n hn
    exact hfine ⟨(hr n).read_of_loses hl hc, hlose⟩
  have hnot : ∀ᶠ n in atTop, ¬ (r.state n).Again i (r.event n) := by
    filter_upwards [hlose, eventually_ge_atTop N] with n hl hn hagain
    obtain ⟨pc', hc, hpc'⟩ := hin n hn
    exact hl (loses_of_again (r.steps n) hc (Pc.not_waits_of_once hpc').1 hagain)
  obtain ⟨n, hrest, hle⟩ := ((rests_at_last hr hf hnot).and (eventually_ge_atTop N)).exists
  obtain ⟨pc', hc, hpc'⟩ := hin n hle
  obtain ⟨hno, hwants⟩ := Pc.not_waits_of_once hpc'
  rcases hrest.waits t a pc' hc with hw | ⟨k, hw, -⟩
  · cases hw.symm.trans hno
  · cases hw.symm.trans (hwants a)

/-! ## Who loses has been overtaken -/

/-- What a call that is about to exchange has seen. -/
def Sees (s : State T) (i : CallId) (f : UInt8) : Prop :=
  ∀ t a x g, s.call i = .running t a (.lock (.exchange x g)) → g = f

theorem Reachable.acts_sees (hr : s.Reachable) (h : s.step e = some s') (he : e = .act i ∨ e = .spurious i) :
    s'.Sees i s.sh.byte := by
  intro t a x g hi
  cases stepped_of_step hr.counted.numbered h with
  | acted _ j t' a' pc sh n hj hc hs =>
    obtain rfl : i = j := by rcases he with rfl | rfl <;> simpa using hj
    refine hs.sees (x := x) ?_
    simp only [setCall, Function.update_self] at hi
    cases n <;> cases hi
    rfl
  | turned _ j c used ht hfree hle hlt hne => exact absurd he (not_or.mpr (hne i))
  | wrote | unpark | parkElsewhere => simp at he

theorem Reachable.sees (hr : s.Reachable) (h : s.step e = some s') (hsees : s.Sees i s.sh.byte) :
    s'.Sees i s.sh.byte := by
  rcases hr.step_call h i with hcall | he | he | ht
  · intro t a x g hi
    exact hsees t a x g (hcall.symm.trans hi)
  · exact hr.acts_sees h (.inl he)
  · exact hr.acts_sees h (.inr he)
  · exact fun t a x g hi => absurd hi (Call.Turn.not_exchange ht (hr.counted.fits i) t a x g)

theorem overtaken (hr : ∀ n, (r.state n).Reachable) (hlose : ∃ᶠ n in atTop, (r.state n).Loses i (r.event n)) :
    (∃ᶠ n in atTop, r.event n = .spurious i) ∨
      ∃ᶠ n in atTop, (r.state (n + 1)).sh.byte ≠ (r.state n).sh.byte := by
  by_contra hboth
  obtain ⟨hspurious, hbyte⟩ := not_or.mp hboth
  simp only [not_frequently, not_not] at hspurious hbyte
  obtain ⟨N, hN⟩ := eventually_atTop.mp (hspurious.and hbyte)
  -- The byte does not change any more, and the call has seen it once it has lost again.
  have hsame : ∀ n ≥ N, (r.state n).sh.byte = (r.state N).sh.byte := by
    intro n hn
    induction n, hn using Nat.le_induction with
    | base => rfl
    | succ n hn ih => exact (hN n hn).2.trans ih
  obtain ⟨M, hl, hM⟩ := (hlose.and_eventually (eventually_ge_atTop N)).exists
  have hsees : ∀ n ≥ M + 1, (r.state n).Sees i (r.state n).sh.byte := by
    intro n hn
    induction n, hn using Nat.le_induction with
    | base =>
      rw [(hN M hM).2]
      exact (hr M).acts_sees (r.steps M) hl.own
    | succ n hn ih =>
      rw [(hN n (by omega)).2]
      exact (hr n).sees (r.steps n) ih
  obtain ⟨n, ⟨t, a, x, f, hi, he⟩, hn⟩ := (hlose.and_eventually (eventually_ge_atTop (M + 1))).exists
  rcases he with he | ⟨-, hf⟩
  · exact (hN n (by omega)).1 he
  · exact hf (hsees n hn t a x f hi).symm

/-- Only a call that takes the lock or gives it back changes the byte. -/
theorem Reachable.changes (hr : s.Reachable) (h : s.step e = some s') (hb : s'.sh.byte ≠ s.sh.byte) :
    ∃ j a, s.effect e = [(j, .acquire a)] ∨ s.effect e = [(j, .release a)] := by
  cases effected_of_step hr.counted.numbered h with
  | acted j t a pc sh n hc hx hs heff =>
    subst hs
    have hf := hr.counted.fits j
    rw [hc] at hf
    rcases Pc.effect_of_changed hx hf hb with hop | hop
    · exact ⟨j, a, .inl (by simp [heff, hop])⟩
    · exact ⟨j, a, .inr (by simp [heff, hop])⟩
  | spurious j t a pc n hc hx hs =>
    subst hs
    exact absurd rfl hb
  | quiet heff hsame => exact absurd hsame hb

/-! ## The result -/

structure EndsOrLoses (r : Endless (State.step (T := T))) : Prop where
  /-- Each call goes round a loop for ever, or ends, or waits for what is not there. -/
  rests : ∀ i, (∃ᶠ n in atTop, (r.state n).Again i (r.event n)) ∨
    EventuallyConst (fun n => (r.state n).call i) atTop ∧ ∀ᶠ n in atTop, AtRest r (r.state n) i
  unlocks : ∀ a k, (∃ᶠ n in atTop, (r.state n).sh.locked (a, k) = false) ∨ a = .read ∧ Hampered r k
  drops : ∀ n i t a, (r.state n).call i = .holding a → r.event n = .dropGuard i t →
    (∃ l > n, ((r.state l).call i).returned) ∨ a = .write ∧ ∃ k, Hampered r k
  tries : ∀ n t a, r.event n = .begin t a .tryLock →
    (∃ l > n, ((r.state l).call (r.state n).used).returned) ∨
      a = .read ∧ ∃ᶠ l in atTop, (r.state l).Loses (r.state n).used (r.event l)
  overtaken : ∀ i, (∃ᶠ n in atTop, (r.state n).Loses i (r.event n)) →
    (∃ᶠ n in atTop, r.event n = .spurious i) ∨
      ∃ᶠ n in atTop, ∃ j a, (r.state n).effect (r.event n) = [(j, .acquire a)] ∨
        (r.state n).effect (r.event n) = [(j, .release a)]

/-- In a fair run, the drop of a `ReadGuard` and `try_lock_write` return. A list of the writers is unlocked
again and again. The lists of the readers are too, and the drop of a `WriteGuard` returns, unless a reader
has panicked or loses for ever in the section of such a list. A reader that loses for ever is overtaken for
ever by calls that take the lock or give it back, or its exchange fails for no reason for ever. -/
theorem rwlock_fair_run_ends (h0 : (r.state 0).Reachable) (hf : FairRun r) : EndsOrLoses r := by
  have hr : ∀ n, (r.state n).Reachable := r.invariant h0 fun _ _ _ hs hstep => hs.step hstep
  refine ⟨fun i => ?_, fun a k => State.unlocks hr hf a k, fun n i t a hi he => ?_, fun n t a he => ?_,
    fun i hlose => ?_⟩
  · by_cases hagain : ∃ᶠ n in atTop, (r.state n).Again i (r.event n)
    · exact .inl hagain
    · exact .inr ⟨settles hr (not_frequently.mp hagain), rests_at_last hr hf (not_frequently.mp hagain)⟩
  · have hstep := r.steps n
    rw [he] at hstep
    simp only [State.step, hi, Option.ite_none_right_eq_some, Option.some.injEq] at hstep
    have hc : (r.state (n + 1)).call i = .running t a (.drop .release) := by
      rw [← hstep.2]
      exact Function.update_self ..
    exact drop_returns hr hf hc
  · have hstep := r.steps n
    rw [he] at hstep
    simp only [State.step, Option.ite_none_right_eq_some, Option.some.injEq] at hstep
    have hc : (r.state (n + 1)).call (r.state n).used = .running t a (.lock (a.attempt .once)) := by
      rw [← hstep.2]
      exact Function.update_self ..
    exact try_returns hr hf hc (by cases a <;> rfl)
  · exact (State.overtaken hr hlose).imp_right fun h => h.mono fun n hb => (hr n).changes (r.steps n) hb

/-- The future of another writer is pending. -/
def parkedEvents : List (Event Nat) :=
  parkedWriter ++ [.begin 2 .write .lockAsync, .act 2, .act 2, .act 2, .act 2]

/-- It is polled again and again. -/
def parkedEvent (n : ℕ) : Event Nat := parkedEvents[n]?.getD (if n % 2 = 1 then .act 2 else .poll 2 2)

def parkedStart : State Nat := init 0 fun _ => true

/-- A poll and the look at the notification change nothing, and only the polled call is able. -/
theorem parked_round : ∃ x y : State Nat, follow State.step parkedStart parkedEvent 13 = some x ∧
    follow State.step parkedStart parkedEvent 14 = some y ∧ follow State.step parkedStart parkedEvent 15 = some x ∧
    x.Able 2 ∧ ∀ i ≠ 2, ¬ x.Able i ∧ ¬ y.Able i := by
  have hrun : ∃ x y z : State Nat, follow State.step parkedStart parkedEvent 13 = some x ∧
      follow State.step parkedStart parkedEvent 14 = some y ∧
      follow State.step parkedStart parkedEvent 15 = some z ∧
      y = { x.setCall 2 (.suspended .write (.await 1)) with sh := x.sh } ∧ z = y.setCall 2 (x.call 2) ∧
      x.Able 2 ∧ x.call 0 = .holding .read ∧ x.call 1 = .running 1 .write (.lock .park) ∧
      x.sh.woken (.thread 1) = false ∧ ∀ i, x.call (i + 3) = .idle :=
    ⟨_, _, _, rfl, rfl, rfl, rfl, rfl, rfl, rfl, rfl, rfl, fun _ => rfl⟩
  obtain ⟨x, y, z, hx, hy, hz, hsuspended, hpolled, hable, h0, h1, hw, hidle⟩ := hrun
  have hback : z = x := by
    rw [hpolled, hsuspended]
    unfold setCall
    rw [Function.update_idem, Function.update_eq_self]
  have hothers : ∀ s : State Nat, s.sh = x.sh → (∀ i ≠ 2, s.call i = x.call i) → ∀ i ≠ 2, ¬ s.Able i := by
    intro s hsh hcall i hi
    unfold Able
    rw [hcall i hi, hsh]
    rcases i with _ | _ | _ | i
    · rw [h0]; exact id
    · rw [h1]; simp [Pc.able, LockPc.able, hw]
    · exact absurd rfl hi
    · rw [hidle]; exact id
  refine ⟨x, y, hx, hy, hback ▸ hz, hable, fun i hi => ⟨hothers x rfl (fun _ _ => rfl) i hi, ?_⟩⟩
  refine hothers y (by rw [hsuspended]) (fun j hj => ?_) i hi
  rw [hsuspended]
  exact Function.update_of_ne hj ..

theorem parked_cycles : Cycles State.step parkedStart parkedEvent 13 2 := by
  obtain ⟨x, -, hx, -, hback, -⟩ := parked_round
  refine ⟨Nat.two_pos, fun n hn => ?_, Option.isSome_of_eq_some hx, hback.trans hx.symm⟩
  have hnone : ∀ m ≥ 13, parkedEvents[m]? = none := fun m hm => List.getElem?_eq_none hm
  unfold parkedEvent
  rw [hnone n hn, hnone (n + 2) (Nat.le_add_right_of_le hn), Nat.add_mod_right]

theorem parked_fair : FairRun parked_cycles.endless := by
  obtain ⟨x, y, hx, hy, -, -, hothers⟩ := parked_round
  refine parked_cycles.fair (.inl rfl) fun m hm hlt t ht i hi => ?_
  obtain rfl | rfl : m = 13 ∨ m = 14 := by omega
  · cases hx.symm.trans ht
    exact (hothers i hi).1
  · cases hy.symm.trans ht
    exact (hothers i hi).2

theorem rwlock_fair_run_ends_parked : FairRun parked_cycles.endless ∧
    (∃ᶠ n in atTop, (parked_cycles.endless.state n).Able 2) ∧ EndsOrLoses parked_cycles.endless := by
  obtain ⟨x, -, hx, -, -, hable, -⟩ := parked_round
  refine ⟨parked_fair, ?_, rwlock_fair_run_ends ?_ parked_fair⟩
  · exact (parked_cycles.frequently_iff (P := fun s _ => s.Able 2)).mpr ⟨13, le_rfl, by decide, x, hx, hable⟩
  · rw [parked_cycles.endless_state rfl]
    exact ⟨0, fun _ => true, .refl⟩

end State

end WasmSafeMutex.RwLock
