import WasmSafeMutex.Lib.Effects
import WasmSafeMutex.RwLock.Byte

/-!
# The byte is a readers-writer lock

`Mode` is the lock as its users think of it: up to 127 readers or one writer. Each attempt of
a call is made at one moment. It fails only if somebody is in the way at that moment, and it
panics only if there are 127 readers.
-/

namespace WasmSafeMutex.RwLock

open Interleaving

variable {T : Type}

/-! ## A lock without threads -/

inductive Mode
  | readers (n : Fin 128)
  | writer
  deriving DecidableEq

/-- An attempt with its result, or the drop of a guard. -/
inductive LockOp
  | acquire (a : Access)
  | refuse (a : Access)
  /-- `panic!("Too many readers")`. -/
  | tooMany
  | release (a : Access)
  deriving DecidableEq

namespace Mode

def step : Mode → LockOp → Option Mode
  | .readers n, .acquire .read => if h : n.val + 1 < 128 then some (.readers ⟨n.val + 1, h⟩) else none
  | .readers n, .acquire .write => if n.val = 0 then some .writer else none
  | .readers n, .refuse .write => if n.val = 0 then none else some (.readers n)
  | .readers n, .tooMany => if n.val = 127 then some (.readers n) else none
  | .readers n, .release .read =>
    if n.val = 0 then none else some (.readers ⟨n.val - 1, Nat.lt_of_le_of_lt (Nat.sub_le _ _) n.isLt⟩)
  | .writer, .refuse _ => some .writer
  | .writer, .release .write => some (.readers 0)
  | _, _ => none

/-- What the byte stands for. -/
def ofByte (f : UInt8) : Mode := if h : f.toNat < 128 then .readers ⟨f.toNat, h⟩ else .writer

theorem ofByte_of_lt {f : UInt8} (h : f.toNat < 128) : ofByte f = .readers ⟨f.toNat, h⟩ := by
  simp [ofByte, h]

end Mode

/-! ## What the operations do -/

/-- The closure of `fetch_update` has seen this byte. -/
def seen (f : UInt8) : List LockOp :=
  match readUpdate f with
  | .none => [.refuse .read]
  | .panic => [.tooMany]
  | .some _ => []

def Pc.effect (f : UInt8) (a : Access) : Pc → List LockOp
  | .lock (.load _) => seen f
  | .lock (.exchange _ g) => if f = g then [.acquire .read] else seen f
  | .lock (.cas _) => if f = unlocked then [.acquire .write] else [.refuse .write]
  | .drop .release => [.release a]
  | _ => []

/-- `compare_exchange_weak` fails for no reason, and the closure sees the byte again. -/
def Pc.spuriousEffect (f : UInt8) : Pc → List LockOp
  | .lock (.exchange _ _) => seen f
  | _ => []

def State.effect (s : State T) : Event T → List (CallId × LockOp)
  | .act i =>
    match s.call i with
    | .running _ a pc => (pc.effect s.sh.byte a).map fun op => (i, op)
    | _ => []
  | .spurious i =>
    match s.call i with
    | .running _ _ pc => (pc.spuriousEffect s.sh.byte).map fun op => (i, op)
    | _ => []
  | _ => []

theorem Mode.seen_byte (f : UInt8) : exec Mode.step (.ofByte f) (seen f) = some (.ofByte f) := by
  have hnone := readUpdate_none f
  have hpanic := readUpdate_panic f
  unfold seen
  split
  · rename_i h
    have hf : ¬ f.toNat < 128 := by have := hnone.mp h; omega
    simp [exec, ofByte, hf, Mode.step]
  · rename_i h
    have hf := hpanic.mp h
    have hlt : f.toNat < 128 := by omega
    have hstep : Mode.step (.ofByte f) .tooMany = some (.ofByte f) := by
      rw [ofByte_of_lt hlt]
      exact if_pos hf
    simp [exec, hstep]
  · rfl

theorem Mode.write_byte (f : UInt8) :
    exec Mode.step (.ofByte f) (if f = unlocked then [.acquire .write] else [.refuse .write]) =
      some (.ofByte (if f = unlocked then lockedWrite else f)) := by
  split
  · rename_i h
    rw [h]
    rfl
  · rename_i h
    have hpos : f.toNat ≠ 0 := fun h0 => h (UInt8.toNat_inj.mp h0)
    by_cases hlt : f.toNat < 128
    · simp [exec, ofByte_of_lt hlt, Mode.step, hpos]
    · simp [exec, ofByte, hlt, Mode.step]

theorem Mode.read_byte {f : UInt8} (h : f.toNat < 127) :
    Mode.step (.ofByte f) (.acquire .read) = some (.ofByte (f + 1)) := by
  have hnext := toNat_add_one h
  have hlt : f.toNat < 128 := by omega
  have hlt' : (f + 1).toNat < 128 := by omega
  have hlt'' : f.toNat + 1 < 128 := by omega
  rw [ofByte_of_lt hlt, ofByte_of_lt hlt']
  simp [Mode.step, hnext, hlt'']

theorem Mode.unread_byte {f : UInt8} (h : 0 < f.toNat) (hlt : f.toNat < 128) :
    Mode.step (.ofByte f) (.release .read) = some (.ofByte (f - 1)) := by
  have hnext := toNat_sub_one h
  have hlt' : (f - 1).toNat < 128 := by omega
  have hne : f.toNat ≠ 0 := by omega
  rw [ofByte_of_lt hlt, ofByte_of_lt hlt']
  simp [Mode.step, hnext, hne]

/-- One operation of a call: the byte moves as the lock without threads does. -/
theorem Pc.act_mode {sh sh' : Shared T} {i : CallId} {t : ThreadId} {a : Access} {pc : Pc} {n : Next}
    (h : pc.act sh i t a = some (sh', n)) (hf : pc.fits a = true)
    (hread : pc = .drop .release → a = .read → 0 < sh.byte.toNat ∧ sh.byte.toNat < 128)
    (hwrite : pc = .drop .release → a = .write → sh.byte = lockedWrite) :
    exec Mode.step (.ofByte sh.byte) (pc.effect sh.byte a) = some (.ofByte sh'.byte) := by
  cases pc with
  | lock l =>
    cases l with
    | load x => cases h; exact Mode.seen_byte _
    | exchange x f =>
      simp only [Pc.act, LockPc.act] at h
      split at h
      · rename_i hb
        cases h
        subst hb
        simp only [Pc.fits, decide_eq_true_eq] at hf
        simp [Pc.effect, exec, Shared.setByte, Mode.read_byte hf.2]
      · rename_i hb
        cases h
        simpa [Pc.effect, hb] using Mode.seen_byte _
    | cas x =>
      have hbyte := Mode.write_byte sh.byte
      simp only [Pc.act, LockPc.act] at h
      split at h <;> rename_i hb <;> cases h <;> simpa [Pc.effect, hb, Shared.setByte] using hbyte
    | enter k =>
      obtain ⟨-, h⟩ := Option.ite_none_left_eq_some.mp h
      cases h; rfl
    | park =>
      obtain ⟨-, h⟩ := Option.ite_none_right_eq_some.mp h
      cases h; rfl
    | probe | push | leaveOwner | leave | await => cases h; rfl
  | drop d =>
    cases d with
    | release =>
      cases a with
      | read =>
        cases h
        obtain ⟨hpos, hlt⟩ := hread rfl rfl
        simp [Pc.effect, exec, Shared.setByte, Mode.unread_byte hpos hlt]
      | write =>
        cases h
        simp [Pc.effect, exec, Shared.setByte, hwrite rfl rfl]
        rfl
    | take q qs =>
      obtain ⟨-, h⟩ := Option.ite_none_left_eq_some.mp h
      cases h; rfl
    | wake q w ws qs => cases h; rfl

/-! ## What a call has done so far -/

/-- A call that is here makes its only attempt. -/
def Pc.once : Pc → Bool
  | .lock (.load .once) | .lock (.exchange .once _) | .lock (.cas .once) => true
  | _ => false

/-- What a call at this place has done after its attempts that failed. -/
def Pc.after (a : Access) : Pc → List LockOp
  | .lock (.leaveOwner _) | .drop .release => [.acquire a]
  | .drop _ => [.acquire a, .release a]
  | _ => []

/-- The method of a call that is here. Only a `try_lock` is at a single attempt, and then it is
nowhere else. All of them drop their guards in the same way. -/
def Pc.isOf (c : LockCall) : Pc → Prop
  | .lock l => (Pc.lock l).once = true ↔ c = .tryLock
  | .drop _ => True

def refusals (n : Nat) (a : Access) : List LockOp := List.replicate n (.refuse a)

/-- Attempts that failed, of which a `try_lock` makes none before its result, and then these. -/
def Tried (c : LockCall) (a : Access) (ops ops' : List LockOp) : Prop :=
  ∃ n, (c = .tryLock → n = 0) ∧ ops = refusals n a ++ ops'

def Pc.Did (c : LockCall) (a : Access) (ops : List LockOp) (pc : Pc) : Prop :=
  pc.isOf c ∧ Tried c a ops (pc.after a)

def Outcome.Did (c : LockCall) (a : Access) (ops : List LockOp) : Outcome → Prop
  | .failed => c = .tryLock ∧ ops = [.refuse a]
  | .tooManyReaders => a = .read ∧ Tried c a ops [.tooMany]
  | .released => Tried c a ops [.acquire a, .release a]
  | .cancelled => c ≠ .tryLock ∧ Tried c a ops []
  | .assertFailed => False

def Next.Did (c : LockCall) (a : Access) (ops : List LockOp) : Next → Prop
  | .goto pc => pc.Did c a ops
  | .yield _ => c ≠ .tryLock ∧ Tried c a ops []
  | .hold => Tried c a ops [.acquire a]
  | .finish o => o.Did c a ops

/-- What a call of method `c` has done. -/
def Call.Did (c : LockCall) (a : Access) (ops : List LockOp) : Call → Prop
  | .idle => False
  | .running _ a' pc => a' = a ∧ pc.Did c a ops
  | .suspended a' _ => a' = a ∧ c ≠ .tryLock ∧ Tried c a ops []
  | .holding a' => a' = a ∧ Tried c a ops [.acquire a]
  | .done o => o.Did c a ops

theorem refusals_succ (n : Nat) (a : Access) : refusals n a ++ [.refuse a] = refusals (n + 1) a :=
  List.replicate_succ'.symm

theorem Site.once_iff (x : Site) (f : UInt8) : ((Pc.lock (.load x)).once = true ↔ x = .once) ∧
    ((Pc.lock (.exchange x f)).once = true ↔ x = .once) ∧ ((Pc.lock (.cas x)).once = true ↔ x = .once) := by
  cases x with
  | once => exact ⟨iff_of_true rfl rfl, iff_of_true rfl rfl, iff_of_true rfl rfl⟩
  | spin | inList k =>
    refine ⟨iff_of_false Bool.false_ne_true ?_, iff_of_false Bool.false_ne_true ?_,
      iff_of_false Bool.false_ne_true ?_⟩
    all_goals
      intro h
      cases h

section

variable {c : LockCall} {n : Nat} {a : Access} {x : Site}

/-- A call that makes several attempts, at a place that is not a single one. -/
theorem Pc.did_of_many {pc : Pc} (hpc : pc.once = false) (hc : c ≠ .tryLock) {ops : List LockOp}
    (hops : ops = refusals n a ++ pc.after a) : pc.Did c a ops := by
  refine ⟨?_, n, fun h => absurd h hc, hops⟩
  cases pc with
  | lock l =>
    constructor
    · intro h; rw [hpc] at h; cases h
    · intro h; exact absurd h hc
  | drop d => trivial

/-- A guard is being dropped. -/
theorem DropPc.did {d : DropPc} (hn : c = .tryLock → n = 0) {ops : List LockOp}
    (hops : ops = refusals n a ++ (Pc.drop d).after a) : (Pc.drop d).Did c a ops :=
  ⟨trivial, n, hn, hops⟩

/-- The place of an attempt that is not the only one. -/
theorem Access.attempt_did (a : Access) (hx : x ≠ .once) (hc : c ≠ .tryLock) (n : Nat) :
    (Pc.lock (a.attempt x)).Did c a (refusals n a) := by
  apply Pc.did_of_many (n := n) _ hc
  · cases a <;> exact (List.append_nil _).symm
  · cases x with
    | once => exact absurd rfl hx
    | spin | inList => cases a <;> rfl

theorem Site.err_did (hx : x = .once ↔ c = .tryLock) (hn : c = .tryLock → n = 0) :
    (x.err a).Did c a (refusals n a ++ [.refuse a]) := by
  cases x with
  | once =>
    have hc := hx.mp rfl
    obtain rfl := hn hc
    exact ⟨hc, rfl⟩
  | spin =>
    rw [refusals_succ]
    exact a.attempt_did (by simp) (fun hc => by cases hx.mpr hc) _
  | inList k =>
    rw [refusals_succ]
    exact Pc.did_of_many rfl (fun hc => by cases hx.mpr hc) (List.append_nil _).symm

theorem Site.ok_did (hx : x = .once ↔ c = .tryLock) (hn : c = .tryLock → n = 0) :
    x.ok.Did c a (refusals n a ++ [.acquire a]) := by
  cases x with
  | once | spin => exact ⟨n, hn, rfl⟩
  | inList k => exact Pc.did_of_many rfl (fun hc => by cases hx.mpr hc) rfl

theorem Site.update_did (hx : x = .once ↔ c = .tryLock) (hn : c = .tryLock → n = 0) (f : UInt8) :
    (x.update f).Did c .read (refusals n .read ++ seen f) := by
  unfold Site.update seen
  cases readUpdate f with
  | none => exact x.err_did hx hn
  | panic => exact ⟨rfl, n, hn, rfl⟩
  | some g => exact ⟨(x.once_iff f).2.1.trans hx, n, hn, rfl⟩

theorem DropPc.drain_did (hn : c = .tryLock → n = 0) (q : Queue) (ws : List Waker) (qs : List Queue) :
    (drain q ws qs).Did c a (refusals n a ++ [.acquire a, .release a]) := by
  unfold drain
  split
  · exact DropPc.did hn rfl
  · exact DropPc.did hn rfl
  · exact ⟨n, hn, rfl⟩

end

theorem Pc.act_did {sh sh' : Shared T} {i : CallId} {t : ThreadId} {c : LockCall} {a : Access} {pc : Pc}
    {n : Next} {ops : List LockOp} (h : pc.act sh i t a = some (sh', n)) (hf : pc.fits a = true)
    (hd : pc.Did c a ops) (hread : pc = .drop .release → a = .read → sh.byte > 0)
    (hwrite : pc = .drop .release → a = .write → sh.byte = lockedWrite) :
    n.Did c a (ops ++ pc.effect sh.byte a) := by
  obtain ⟨hof, m, hm, rfl⟩ := hd
  cases pc with
  | lock l =>
    have hmany : (Pc.lock l).once = false → c ≠ .tryLock := by
      intro honce hc
      rw [hof.mpr hc] at honce
      cases honce
    cases l with
    | load x =>
      cases h
      simp only [Pc.fits, decide_eq_true_eq] at hf
      subst hf
      have hx := (x.once_iff 0).1.symm.trans hof
      simpa [Pc.after, Pc.effect] using x.update_did hx hm sh.byte
    | exchange x f =>
      simp only [Pc.fits, decide_eq_true_eq] at hf
      obtain ⟨rfl, -⟩ := hf
      have hx := (x.once_iff f).2.1.symm.trans hof
      simp only [Pc.act, LockPc.act] at h
      split at h <;> rename_i hb <;> cases h
      · simpa [Pc.after, Pc.effect, hb] using x.ok_did hx hm
      · simpa [Pc.after, Pc.effect, hb] using x.update_did hx hm sh.byte
    | cas x =>
      simp only [Pc.fits, decide_eq_true_eq] at hf
      subst hf
      have hx := (x.once_iff 0).2.2.symm.trans hof
      simp only [Pc.act, LockPc.act] at h
      split at h <;> rename_i hb <;> cases h
      · simpa [Pc.after, Pc.effect, hb] using x.ok_did hx hm
      · simpa [Pc.after, Pc.effect, hb] using x.err_did hx hm
    | probe =>
      cases h
      simp only [Pc.after, Pc.effect, List.append_nil]
      split
      · exact Pc.did_of_many rfl (hmany rfl) (List.append_nil _).symm
      · exact a.attempt_did (by simp) (hmany rfl) m
    | enter k =>
      obtain ⟨-, h⟩ := Option.ite_none_left_eq_some.mp h
      cases h
      simp only [Pc.after, Pc.effect, List.append_nil]
      exact a.attempt_did (by simp) (hmany rfl) m
    | push k =>
      cases h
      exact Pc.did_of_many (n := m) rfl (hmany rfl) (by simp [Pc.after, Pc.effect])
    | leaveOwner k => cases h; exact ⟨m, hm, by simp [Pc.after, Pc.effect]⟩
    | leave k x =>
      cases h
      cases k <;> exact Pc.did_of_many (n := m) rfl (hmany rfl) (by simp [Pc.after, Pc.effect, sleep])
    | park =>
      obtain ⟨-, h⟩ := Option.ite_none_right_eq_some.mp h
      cases h
      exact Pc.did_of_many (n := m) rfl (hmany rfl) (by simp [Pc.after, Pc.effect])
    | await x =>
      simp only [Pc.act, LockPc.act, Option.some.injEq, Prod.mk.injEq] at h
      obtain ⟨-, rfl⟩ := h
      split
      · exact Pc.did_of_many (n := m) rfl (hmany rfl) (by simp [Pc.after, Pc.effect])
      · exact ⟨hmany rfl, m, hm, by simp [Pc.after, Pc.effect]⟩
  | drop d =>
    cases d with
    | release =>
      cases a with
      | read =>
        cases h
        rw [if_pos (hread rfl rfl)]
        exact DropPc.did hm (by simp [Pc.after, Pc.effect, Access.didUnlock])
      | write =>
        cases h
        rw [if_pos (hwrite rfl rfl)]
        exact DropPc.did hm (by simp [Pc.after, Pc.effect, Access.didUnlock])
    | take q qs =>
      obtain ⟨-, h⟩ := Option.ite_none_left_eq_some.mp h
      cases h
      simp only [Pc.after, Pc.effect, List.append_nil]
      exact DropPc.drain_did hm q _ qs
    | wake q w ws qs =>
      cases h
      simp only [Pc.after, Pc.effect, List.append_nil]
      exact DropPc.drain_did hm q ws qs

/-- A failure for no reason is no attempt. -/
theorem Pc.spurious_did {sh : Shared T} {c : LockCall} {a : Access} {pc : Pc} {n : Next} {ops : List LockOp}
    (h : pc.spurious sh = some n) (hf : pc.fits a = true) (hd : pc.Did c a ops) :
    n.Did c a (ops ++ pc.spuriousEffect sh.byte) := by
  obtain ⟨hof, m, hm, rfl⟩ := hd
  unfold Pc.spurious at h
  split at h
  · rename_i x f
    cases h
    simp only [Pc.fits, decide_eq_true_eq] at hf
    obtain ⟨rfl, -⟩ := hf
    have hx := (x.once_iff f).2.1.symm.trans hof
    simpa [Pc.after, Pc.spuriousEffect] using x.update_did hx hm sh.byte
  · cases h
    have hmany : c ≠ .tryLock := by
      intro hc
      cases hof.mpr hc
    exact Pc.did_of_many (n := m) rfl hmany (by simp [Pc.after, Pc.spuriousEffect])
  · cases h

/-! ## Runs -/

theorem Next.did_call {n : Next} {t : ThreadId} {c : LockCall} {a : Access} {ops : List LockOp}
    (h : n.Did c a ops) : (n.call t a).Did c a ops := by
  cases n with
  | goto | yield | hold => exact ⟨rfl, h⟩
  | finish o => exact h

theorem Call.Turn.did {x x' : Call} (h : Call.Turn x x') (hf : x.fits = true) {c : LockCall} {a : Access}
    {ops : List LockOp} (hd : x.Did c a ops) : x'.Did c a ops := by
  cases h with
  | begin => exact hd.elim
  | dropGuard t a' =>
    obtain ⟨rfl, n, hn, rfl⟩ := hd
    exact ⟨rfl, DropPc.did hn rfl⟩
  | poll t a' l =>
    obtain ⟨rfl, hc, n, -, rfl⟩ := hd
    cases l with
    | await m => exact ⟨rfl, Pc.did_of_many rfl hc rfl⟩
    | _ => cases hf
  | cancel a' l => exact hd.2

namespace State

variable {s s' : State T} {e : Event T} {i : CallId}

/-- How a state shows the lock of its users. -/
structure Shows (s : State T) (x : Mode) : Prop where
  reachable : s.Reachable
  byte : x = .ofByte s.sh.byte

theorem Reachable.step (h : s.Reachable) (hstep : s.step e = some s') : s'.Reachable := by
  obtain ⟨x, w, hr⟩ := h
  exact ⟨x, w, hr.tail trivial hstep⟩

theorem Reachable.release_byte (hr : s.Reachable) {t : ThreadId} {a : Access}
    (hc : s.call i = .running t a (.drop .release)) :
    (a = .read → 0 < s.sh.byte.toNat ∧ s.sh.byte.toNat < 128) ∧ (a = .write → s.sh.byte = lockedWrite) := by
  obtain ⟨hread, hwrite⟩ := hr.counted.release hc
  refine ⟨fun ha => ?_, hwrite⟩
  subst ha
  have hmem : i ∈ s.sh.reads := (hr.counted.reader i).mpr (by rw [hc]; rfl)
  obtain ⟨hlen, hle, -⟩ := hr.counted.byte.reading (hr.counted.byte.no_write (List.ne_nil_of_mem hmem))
  have hpos := List.length_pos_of_mem hmem
  omega

/-- The inversion of `step`, with what the event does. -/
inductive Effected (s s' : State T) (e : Event T) : Prop
  | acted (j t a pc sh n) : s.call j = .running t a pc → pc.act s.sh j t a = some (sh, n) →
    s' = { s.setCall j (n.call t a) with sh := sh } →
    s.effect e = (pc.effect s.sh.byte a).map (fun op => (j, op)) → Effected s s' e
  | spurious (j t a pc n) : s.call j = .running t a pc → pc.spurious s.sh = some n →
    s' = s.setCall j (n.call t a) →
    s.effect e = (pc.spuriousEffect s.sh.byte).map (fun op => (j, op)) → Effected s s' e
  | quiet : s.effect e = [] → s'.sh.byte = s.sh.byte →
    (∀ j, s'.call j = s.call j ∨ (s.call j).Turn (s'.call j)) → Effected s s' e

theorem effected_of_step (hn : s.Numbered) (hstep : s.step e = some s') : s.Effected s' e := by
  have hquiet : s.effect e = [] → (∀ j, e ≠ .act j ∧ e ≠ .spurious j) → s.Effected s' e := by
    intro hnone hne
    cases stepped_of_step hn hstep with
    | acted _ j t a pc sh n he => rcases he with he | he <;> simp [he] at hne
    | turned _ j c used ht =>
      refine .quiet hnone rfl fun i => ?_
      by_cases hi : i = j
      · subst hi; exact .inr (by simpa [setCall] using ht)
      · exact .inl (by simp [setCall, hi])
    | wrote | unpark | parkElsewhere => exact .quiet hnone rfl fun _ => .inl rfl
  cases e with
  | act j =>
    simp only [State.step] at hstep
    split at hstep
    case h_2 => cases hstep
    case h_1 t a pc hc =>
      obtain ⟨⟨sh, n⟩, hx, rfl⟩ := Option.map_eq_some_iff.mp hstep
      exact .acted j t a pc sh n hc hx rfl (by simp only [effect, hc])
  | spurious j =>
    simp only [State.step] at hstep
    split at hstep
    case h_2 => cases hstep
    case h_1 t a pc hc =>
      obtain ⟨n, hx, rfl⟩ := Option.map_eq_some_iff.mp hstep
      exact .spurious j t a pc n hc hx rfl (by simp only [effect, hc])
  | _ => exact hquiet rfl (by simp)

theorem shows_simulates : Simulates State.step (effect (T := T)) Mode.step Shows := by
  intro s x e s' h hstep
  have hr := h.reachable
  have hr' := hr.step hstep
  obtain rfl := h.byte
  refine ⟨.ofByte s'.sh.byte, ?_, hr', rfl⟩
  cases effected_of_step hr.counted.numbered hstep with
  | acted j t a pc sh n hc hx hs heff =>
    subst hs
    have hf := hr.counted.fits j
    rw [hc] at hf
    have hmode := Pc.act_mode hx hf (fun hpc => (hr.release_byte (hpc ▸ hc)).1)
      (fun hpc => (hr.release_byte (hpc ▸ hc)).2)
    simpa [heff, Function.comp_def] using hmode
  | spurious j t a pc n hc hx hs heff =>
    subst hs
    have hseen := Mode.seen_byte s.sh.byte
    rw [heff]
    unfold Pc.spurious at hx
    split at hx
    · simpa [Pc.spuriousEffect, setCall, Function.comp_def] using hseen
    · simp [Pc.spuriousEffect, setCall, exec]
    · cases hx
  | quiet heff hb hcalls => rw [heff, hb]; rfl

theorem did_step (hr : s.Reachable) {c : LockCall} {a : Access} {ops : List LockOp}
    (hd : (s.call i).Did c a ops) (hstep : s.step e = some s') :
    (s'.call i).Did c a (ops ++ doneBy i (s.effect e)) := by
  have hf := hr.counted.fits
  cases effected_of_step hr.counted.numbered hstep with
  | acted j t a' pc sh n hc hx hs heff =>
    subst hs
    by_cases hi : i = j
    · subst hi
      have hfi := hf i
      rw [hc] at hd hfi
      obtain ⟨rfl, hd⟩ := hd
      have hrel := hr.counted.release (i := i) (t := t) (a := a')
      have hdid := Pc.act_did hx hfi hd (fun hpc => (hrel (hpc ▸ hc)).1) (fun hpc => (hrel (hpc ▸ hc)).2)
      rw [heff, doneBy_self]
      simpa [setCall] using Next.did_call hdid
    · rw [heff, doneBy_ne (Ne.symm hi), List.append_nil]
      simpa [setCall, hi] using hd
  | spurious j t a' pc n hc hx hs heff =>
    subst hs
    by_cases hi : i = j
    · subst hi
      have hfi := hf i
      rw [hc] at hd hfi
      obtain ⟨rfl, hd⟩ := hd
      rw [heff, doneBy_self]
      simpa [setCall] using Next.did_call (Pc.spurious_did hx hfi hd)
    · rw [heff, doneBy_ne (Ne.symm hi), List.append_nil]
      simpa [setCall, hi] using hd
  | quiet heff hb hcalls =>
    rw [heff, doneBy_nil, List.append_nil]
    rcases hcalls i with hi | hi
    · rw [hi]; exact hd
    · exact Call.Turn.did hi (hf i) hd

theorem effect_of_ne (hr : s.Reachable) (hstep : s.step e = some s')
    (hi : ∀ t a pc, s.call i ≠ .running t a pc) : doneBy i (s.effect e) = [] := by
  cases effected_of_step hr.counted.numbered hstep with
  | acted j t a pc sh n hc hx hs heff =>
    have hij : j ≠ i := by
      rintro rfl
      exact hi t a pc hc
    rw [heff]
    exact doneBy_ne hij _
  | spurious j t a pc n hc hx hs heff =>
    have hij : j ≠ i := by
      rintro rfl
      exact hi t a pc hc
    rw [heff]
    exact doneBy_ne hij _
  | quiet heff => rw [heff]; rfl

/-- Nothing leads back before the beginning of a call, and nothing happens after its end. -/
theorem idle_back (hr : s.Reachable) (hstep : s.step e = some s') (hi : s'.call i = .idle) :
    s.call i = .idle ∧ doneBy i (s.effect e) = [] := by
  have hidle : s.call i = .idle := by
    cases effected_of_step hr.counted.numbered hstep with
    | acted j t a pc sh n hc hx hs | spurious j t a pc n hc hx hs =>
      subst hs
      by_cases hij : i = j
      · subst hij
        simp only [setCall, Function.update_self] at hi
        cases n <;> cases hi
      · simpa [setCall, hij] using hi
    | quiet _ _ hcalls =>
      rcases hcalls i with h | h
      · rw [← h]; exact hi
      · rw [hi] at h
        generalize s.call i = c at h
        cases h
  exact ⟨hidle, effect_of_ne hr hstep (by simp [hidle])⟩

theorem done_step (hr : s.Reachable) (hstep : s.step e = some s') {o : Outcome} (hi : s.call i = .done o) :
    s'.call i = .done o ∧ doneBy i (s.effect e) = [] := by
  refine ⟨?_, effect_of_ne hr hstep (by simp [hi])⟩
  cases effected_of_step hr.counted.numbered hstep with
  | acted j t a pc sh n hc hx hs | spurious j t a pc n hc hx hs =>
    subst hs
    have hij : i ≠ j := by
      rintro rfl
      cases hi.symm.trans hc
    simpa [setCall, hij] using hi
  | quiet _ _ hcalls =>
    rcases hcalls i with h | h
    · rw [h]; exact hi
    · rw [hi] at h
      cases h

theorem begun_did {u v : State T} {t : ThreadId} {a : Access} {c : LockCall}
    (h : u.step (.begin t a c) = some v) : (v.call u.used).Did c a [] := by
  obtain ⟨-, h⟩ := Option.ite_none_right_eq_some.mp h
  cases h
  simp only [setCall, Function.update_self]
  refine ⟨rfl, ?_, 0, fun _ => rfl, ?_⟩
  · cases c with
    | tryLock => cases a <;> exact iff_of_true rfl rfl
    | _ =>
      cases a
      all_goals
        refine iff_of_false Bool.false_ne_true ?_
        intro h
        cases h
  · cases c <;> cases a <;> rfl

/-! ## The result -/

def isIdle (s : State T) (i : CallId) : Prop := s.call i = .idle

def isDone (s : State T) (i : CallId) : Prop := ∃ o, s.call i = .done o

/-- The run is one of `Mode`, and each call has done what it says. -/
structure RwLinear (x : T) (w : ThreadId → Bool) (es : List (Event T)) (s : State T)
    (log : List (CallId × LockOp)) : Prop where
  linearized : Linearized State.step isIdle isDone Mode.step Shows (.readers 0) (init x w) es log
  answered : ∀ bs t a c cs u, es = bs ++ .begin t a c :: cs → exec State.step (init x w) bs = some u →
    (s.call u.used).Did c a (doneBy u.used log)

variable {x : T} {w : ThreadId → Bool} {es : List (Event T)}

theorem init_reachable (x : T) (w : ThreadId → Bool) : (init x w).Reachable := ⟨x, w, .refl⟩

theorem did_of_exec {u v : State T} {t : ThreadId} {a : Access} {c : LockCall} (hr : u.Reachable)
    (hbegin : u.step (.begin t a c) = some v) (h : exec State.step v es = some s) :
    (s.call u.used).Did c a (doneBy u.used (effects State.step effect v es)) := by
  have hnew : (v.call u.used).Did c a (doneBy u.used []) := begun_did hbegin
  have hdid := effects_invariant effect
    (P := fun s log => s.Reachable ∧ (s.call u.used).Did c a (doneBy u.used log)) h
    ⟨hr.step hbegin, hnew⟩ fun s log e s' hs hstep => by
      rw [doneBy_append]
      exact ⟨hs.1.step hstep, did_step hs.1 hs.2 hstep⟩
  exact hdid.2

theorem effects_idle (h : exec State.step (init x w) es = some s) (hi : s.call i = .idle) :
    doneBy i (effects State.step effect (init x w) es) = [] :=
  effects_of_idle (I := Reachable) (D := fun s => s.call i = .idle) (fun _ _ _ hr hstep => hr.step hstep)
    (fun _ _ _ hr hi hstep => idle_back hr hstep hi) h (init_reachable x w) hi

/-- The lock is linearizable, as a lock that is free, or held by 1 to 127 readers, or held by
one writer. -/
theorem rwlock_linearizable (h : exec State.step (init x w) es = some s) :
    RwLinear x w es s (effects State.step effect (init x w) es) := by
  constructor
  · apply shows_simulates.linearized (I := Reachable)
    · intro s e s' hr hstep
      exact hr.step hstep
    · rintro i s e s' hr ⟨o, ho⟩ hstep
      obtain ⟨hdone, hnone⟩ := done_step hr hstep ho
      exact ⟨⟨o, hdone⟩, hnone⟩
    · intro i s e s' hr hi hstep
      exact idle_back hr hstep hi
    · exact init_reachable x w
    · exact ⟨init_reachable x w, rfl⟩
    · exact h
  · intro bs t a c cs u hsplit hu
    subst hsplit
    rw [exec_append hu] at h
    obtain ⟨v, hv, hrest⟩ := Option.bind_eq_some_iff.mp h
    have hr : u.Reachable := ⟨x, w, run_of_exec hu⟩
    have hnone := effects_idle hu (hr.counted.numbered u.used (Nat.le_refl _))
    have hbegin : effects State.step effect u (.begin t a c :: cs) = effects State.step effect v cs := by
      simp [effects, hv, effect]
    rw [effects_append hu, doneBy_append, hnone, List.nil_append, hbegin]
    exact did_of_exec hr hv hrest

/-- A reader is in the way of a writer, whose second attempt comes after the reader has left. -/
def lentEvents : List (Event Nat) :=
  [.begin 0 .read .tryLock, .act 0, .act 0, .begin 1 .write .lockSpin, .act 1, .dropGuard 0 0, .act 0, .act 1]

theorem rwlock_linearizable_lent : ∃ s : State Nat,
    exec State.step (init 0 fun _ => true) lentEvents = some s ∧
      effects State.step effect (init 0 fun _ => true) lentEvents =
        [(0, .acquire .read), (1, .refuse .write), (0, .release .read), (1, .acquire .write)] ∧
      RwLinear 0 (fun _ => true) lentEvents s
        (effects State.step effect (init 0 fun _ => true) lentEvents) :=
  ⟨_, rfl, rfl, rwlock_linearizable rfl⟩

end State

end WasmSafeMutex.RwLock
