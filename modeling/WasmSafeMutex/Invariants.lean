import WasmSafeMutex.Lib.Triples
import WasmSafeMutex.RwLock.Sections

/-!
# What a lock protects

The closures on one lock have an invariant of its data to keep. Each may break it on the way, and
puts it right before it ends. Then nobody else ever sees it broken.
-/

namespace WasmSafeMutex

open Interleaving

variable {V T L R : Type} {code : Code T L R} {Q : L → Ending R → Prop}

/-! ## `Mutex` -/

namespace Guarded

variable [DecidableEq V] {s s' : Guarded V T L R} {e : GuardedEvent V L} {I : Nat → T → Prop} {x₀ : Nat → T}

/-- A call that wins a mutex by this event brings a closure that keeps the invariant. -/
def Brings (code : Code T L R) (I : Nat → T → Prop) (Q : L → Ending R → Prop) (s : Guarded V T L R) :
    GuardedEvent V L → Prop
  | .lock e c => ∀ i m, s.sys.acquires e = some (i, m) → code.Meets (I m) Q c
  | .body _ => True

structure Kept (I : Nat → T → Prop) (Q : L → Ending R → Prop) (s : Guarded V T L R) : Prop where
  /-- Nobody is in a closure on the data. -/
  quiet : ∀ m, (∀ i l, s.body i = .running l → (s.sys.call i).caller? ≠ some (.user m)) → I m (s.data m)
  /-- The data that a closure finds. -/
  found : ∀ e s' i m, s.sys.step e = some s' → s.sys.acquires e = some (i, m) → I m (s.data m)
  met : ∀ m, ∀ c ∈ s.sections m, c.Met Q

theorem brought_step (hok : s.Brings code I Q e) (hstep : s.step code e = some s')
    (h : ∀ m, ∀ c ∈ s.sections m, code.Meets (I m) Q c.closure) :
    ∀ m, ∀ c ∈ s'.sections m, code.Meets (I m) Q c.closure := by
  intro m' c hc
  cases stepped_of_step hstep with
  | won e c₀ i m sys hsys ha =>
    by_cases hm : m' = m
    · subst hm
      simp only [Function.update_self, List.mem_append, List.mem_singleton] at hc
      rcases hc with hc | rfl
      · exact h m' c hc
      · exact hok i m' ha
    · simp only [Function.update_of_ne hm] at hc
      exact h m' c hc
  | ends i m r l o hcall hbody ho =>
    by_cases hm : m' = m
    · subst hm
      simp only [Function.update_self] at hc
      exact closures_of_closeSection (h m') c hc
    · simp only [Function.update_of_ne hm] at hc
      exact h m' c hc
  | lock | next => exact h m' c hc

theorem kept {cfg : Config} (h0 : ∀ m, I m (x₀ m))
    (hr : RunWhere (step code) (Brings code I Q) (init cfg x₀) s) : s.Kept I Q := by
  have hsec := hr.invariant (P := fun s => ∀ m, ∀ c ∈ s.sections m, code.Meets (I m) Q c.closure)
    (fun m c hc => by cases hc) fun _ _ _ hs hok hstep => brought_step hok hstep hs
  have horder := inOrder (hr.mono fun _ _ _ => trivial)
  have hmeets : ∀ m cur, s.Follows code (x₀ m) m cur →
      (cur = none → I m (s.data m)) ∧ ∀ c ∈ s.sections m, c.Met Q :=
    fun m cur hf => hf.serial.meets (h0 m) (hsec m)
  refine ⟨fun m hquiet => ?_, fun e s' i m hstep ha => ?_, fun m => ?_⟩
  · obtain ⟨cur, hf⟩ := horder.follows m
    refine (hmeets m cur hf).1 (Option.eq_none_iff_forall_not_mem.mpr fun y hy => ?_)
    obtain ⟨hbody, hin⟩ := (hf.running y.1 y.2).mp hy
    exact hquiet y.1 y.2 hbody (Call.caller_of_inSection hin)
  · obtain ⟨cur, hf⟩ := horder.follows m
    refine (hmeets m cur hf).1 (Option.eq_none_iff_forall_not_mem.mpr fun y hy => ?_)
    have hnobody := (horder.reachable.acquires_enters hstep ha).1 y.1
    cases hnobody.symm.trans ((hf.running y.1 y.2).mp hy).2
  · obtain ⟨cur, hf⟩ := horder.follows m
    exact (hmeets m cur hf).2

end Guarded

/-! ## `Spinlock` -/

namespace Spinlock.State

variable {s s' : Spinlock.State T L R} {e : Spinlock.Event L} {I : T → Prop} {x₀ : T}

/-- The closure of a call keeps the invariant. -/
def Brings (code : Code T L R) (I : T → Prop) (Q : L → Ending R → Prop) (_ : Spinlock.State T L R) :
    Spinlock.Event L → Prop
  | .withMut _ c => code.Meets I Q c
  | .act _ => True

structure Kept (I : T → Prop) (Q : L → Ending R → Prop) (s : Spinlock.State T L R) : Prop where
  /-- Nobody is in a closure. -/
  quiet : (∀ t l, s.thread t ≠ .inside l) → I s.data
  /-- The data that a closure finds. -/
  found : ∀ t c, s.thread t = .swap c → s.locked = false → I s.data
  met : ∀ c ∈ s.sections, c.Met Q

/-- The closures that have been entered or wait to be. -/
structure Brought (code : Code T L R) (I : T → Prop) (Q : L → Ending R → Prop) (s : Spinlock.State T L R) :
    Prop where
  waiting : ∀ t c, s.thread t = .swap c → code.Meets I Q c
  entered : ∀ c ∈ s.sections, code.Meets I Q c.closure

theorem Brought.set (h : s.Brought code I Q) {t : ThreadId} {p : Spinlock.Thread L R}
    (hp : ∀ c, p = .swap c → code.Meets I Q c) (t' : ThreadId) (c : L) (ht : (s.set t p).thread t' = .swap c) :
    code.Meets I Q c := by
  by_cases he : t' = t
  · subst he
    rw [set_thread_self] at ht
    exact hp c ht
  · rw [set_thread_ne s p he] at ht
    exact h.waiting t' c ht

theorem Brought.step (h : s.Brought code I Q) (hok : s.Brings code I Q e) (hstep : s.step code e = some s') :
    s'.Brought code I Q := by
  cases stepped_of_step hstep with
  | call t c ht => exact ⟨h.set fun c' hc => (by cases hc; exact hok), h.entered⟩
  | lost => exact h
  | won t c ht hl =>
    refine ⟨h.set fun c' hc => (by cases hc), fun c' hc => ?_⟩
    rcases List.mem_append.mp hc with hc | hc
    · exact h.entered c' hc
    · obtain rfl := List.mem_singleton.mp hc
      exact h.waiting t c ht
  | next t l l' x ht hn => exact ⟨h.set fun c' hc => (by cases hc), h.entered⟩
  | ret t l r ht hc => exact ⟨h.set fun c' hc => (by cases hc), closures_of_closeSection h.entered⟩
  | panic t l ht hc => exact ⟨h.set fun c' hc => (by cases hc), closures_of_closeSection h.entered⟩
  | store t r ht => exact ⟨h.set fun c' hc => (by cases hc), h.entered⟩

theorem kept (h0 : I x₀) (hr : RunWhere (step code) (Brings code I Q) (new x₀) s) : s.Kept I Q := by
  have hbrought := hr.invariant (P := Brought code I Q) ⟨fun t c hc => (by cases hc), fun c hc => (by cases hc)⟩
    fun _ _ _ hs hok hstep => hs.step hok hstep
  obtain ⟨hheld, cur, hf⟩ := held_follows (hr.mono fun _ _ _ => trivial)
  obtain ⟨hI, hmet⟩ := hf.serial.meets h0 hbrought.entered
  refine ⟨fun hquiet => hI (Option.eq_none_iff_forall_not_mem.mpr fun y hy => ?_), fun t c _ hclear => ?_, hmet⟩
  · exact hquiet y.1 y.2 ((hf.inside y.1 y.2).mpr hy)
  · exact hI (hf.none_of_clear (hheld.clear hclear))

end Spinlock.State

/-! ## `RwLock` -/

namespace RwLock.Guarded

variable {s s' : RwLock.Guarded T L R} {e : RwLock.GuardedEvent T L} {I : T → Prop} {x₀ : T} {w : ThreadId → Bool}

/-- A call that gets the lock by this event brings a closure that keeps the invariant. -/
def Brings (code : Code T L R) (I : T → Prop) (Q : L → Ending R → Prop) (s : RwLock.Guarded T L R) :
    RwLock.GuardedEvent T L → Prop
  | .lock e c => ∀ i, s.sys.acquires e = some i → code.Meets I Q c
  | .body _ => True

structure Kept (I : T → Prop) (Q : L → Ending R → Prop) (s : RwLock.Guarded T L R) : Prop where
  /-- Nobody is in a closure that may write. -/
  quiet : (∀ i l, s.body i = .running l → (s.sys.call i).guarded .write = false) → I s.sys.sh.data
  /-- The data that a closure finds. -/
  found : ∀ e s' i, s.sys.step e = some s' → s.sys.acquires e = some i → I s.sys.sh.data
  /-- The data that a closure on a `ReadGuard` sees at each of its steps. -/
  read : ∀ i l, s.body i = .running l → s.sys.call i = .holding .read → I s.sys.sh.data
  met : ∀ c ∈ s.sections, c.Met Q

theorem brought_step (hok : s.Brings code I Q e) (hstep : s.step code e = some s')
    (h : ∀ c ∈ s.sections, code.Meets I Q c.closure) : ∀ c ∈ s'.sections, code.Meets I Q c.closure := by
  cases stepped_of_step hstep with
  | won e c₀ i sys hsys hw ha =>
    intro c hc
    rcases List.mem_append.mp hc with hc | hc
    · exact h c hc
    · obtain rfl := List.mem_singleton.mp hc
      exact hok i ha
  | ends i a l o hcall hbody ho => exact closures_of_closeSection h
  | lock | next => exact h

theorem kept (h0 : I x₀) (hr : RunWhere (step code) (Brings code I Q) (init x₀ w) s) : s.Kept I Q := by
  have hsec := hr.invariant (P := fun s => ∀ c ∈ s.sections, code.Meets I Q c.closure)
    (fun c hc => by cases hc) fun _ _ _ hs hok hstep => brought_step hok hstep hs
  have horder := inOrder (hr.mono fun _ _ _ => trivial)
  obtain ⟨cur, hover, hcur⟩ := horder.follows
  obtain ⟨hI, hmet⟩ := hover.meets h0 hsec
  have hquiet : (∀ i, (s.sys.call i).guarded .write = false) → I s.sys.sh.data := by
    refine fun hno => hI (Option.eq_none_iff_forall_not_mem.mpr fun i hi => ?_)
    cases (hno i).symm.trans ((hcur i).mp hi).2
  refine ⟨fun hno => hI (Option.eq_none_iff_forall_not_mem.mpr fun i hi => ?_), fun e s' i hstep ha => ?_,
    fun i l hbody hc => ?_, hmet⟩
  · obtain ⟨hp, hg⟩ := (hcur i).mp hi
    obtain ⟨l, hl⟩ := Option.ne_none_iff_exists'.mp hp
    cases (hno i l (Body.place_eq.mp hl)).symm.trans hg
  · obtain ⟨a, hent⟩ := horder.reachable.acquires_enters hstep ha
    exact hquiet hent.noWriter
  · have hread : (s.sys.call i).owns .read = true := by rw [hc]; rfl
    have hmem := (horder.reachable.counted.reader i).mpr hread
    exact hquiet (horder.reachable.no_writer_guarded
      (horder.reachable.counted.byte.no_write (List.ne_nil_of_mem hmem)))

end RwLock.Guarded

/-! ## The result -/

/-- Every closure that gets a lock keeps the invariant of its data when it runs alone. Then the data
meet it whenever no closure that may write is at work: every closure finds it so, and one that
reads sees it so all the time. And each closure ends as it does alone. -/
theorem lock_invariants [DecidableEq V] (code : Code T L R) (Q : L → Ending R → Prop) :
    (∀ (I : Nat → T → Prop) x₀ (cfg : Config) (s : Guarded V T L R), (∀ m, I m (x₀ m)) →
      RunWhere (Guarded.step code) (Guarded.Brings code I Q) (.init cfg x₀) s → s.Kept I Q) ∧
    (∀ (I : T → Prop) x₀ (s : Spinlock.State T L R), I x₀ →
      RunWhere (Spinlock.State.step code) (Spinlock.State.Brings code I Q) (Spinlock.new x₀) s → s.Kept I Q) ∧
    ∀ (I : T → Prop) x₀ w (s : RwLock.Guarded T L R), I x₀ →
      RunWhere (RwLock.Guarded.step code) (RwLock.Guarded.Brings code I Q) (.init x₀ w) s → s.Kept I Q :=
  ⟨fun _ _ _ _ h0 hr => Guarded.kept h0 hr, fun _ _ _ h0 hr => Spinlock.State.kept h0 hr,
    fun _ _ _ _ h0 hr => RwLock.Guarded.kept h0 hr⟩

/-- A closure that adds two in two steps, and one that returns whether the number is even. -/
inductive Parity
  | bump
  | again
  | bumped
  | look
  | seen (x : Nat)

def Parity.does : Code Nat Parity Bool
  | .bump => .write (fun x => x + 1) .again
  | .again => .write (fun x => x + 1) .bumped
  | .bumped => .ret true
  | .look => .read .seen
  | .seen x => .ret (x % 2 == 0)

namespace Parity

theorem bump_meets : does.Meets (fun x => x % 2 = 0) (fun _ o => o = some true) bump := by
  have hret : does bumped = .ret true := rfl
  have hsecond : does again = .write (fun x => x + 1) bumped := rfl
  have hfirst : does bump = .write (fun x => x + 1) again := rfl
  have hagain : does.Triple (fun x => x % 2 = 1) again fun o y => y % 2 = 0 ∧ o = some true := by
    refine Code.Triple.write hsecond (Code.Triple.ret hret fun x hx => ⟨hx, rfl⟩) fun x hx => ?_
    omega
  refine Code.Triple.write hfirst hagain fun x hx => ?_
  omega

theorem look_meets : does.Meets (fun x => x % 2 = 0) (fun _ o => o = some true) look := by
  have hlook : does look = .read seen := rfl
  have hseen : ∀ x, does (seen x) = .ret (x % 2 == 0) := fun _ => rfl
  refine Code.Triple.read hlook fun x hx => Code.Triple.ret (hseen x) ?_
  rintro y rfl
  simp [hx]

/-- Another thread tries while the first one is between its two steps. -/
def mutexEvents : List (GuardedEvent Nat Parity) :=
  [.lock (.begin 0 (.lock 0 .tryLock)) .bump, .lock (.begin 1 (.lock 0 .lockSpin)) .look,
    .lock (.act 0 (.mutex (.cas true))) .bump, .body 0, .lock (.act 1 (.mutex (.swap false))) .look, .body 0,
    .body 0, .lock (.dropGuard 0 0) .look, .lock (.act 0 (.mutex .store)) .look,
    .lock (.act 1 (.mutex (.swap true))) .look, .body 1, .body 1]

def spinEvents : List (Spinlock.Event Parity) :=
  [.withMut 0 .bump, .withMut 1 .look, .act 0, .act 0, .act 1, .act 0, .act 0, .act 0, .act 1, .act 1, .act 1]

def rwEvents : List (RwLock.GuardedEvent Nat Parity) :=
  [.lock (.begin 0 .write .tryLock) .bump, .lock (.act 0) .bump, .lock (.begin 1 .read .lockSpin) .look, .body 0,
    .lock (.act 1) .look, .body 0, .body 0, .lock (.dropGuard 0 0) .look, .lock (.act 0) .look,
    .lock (.act 1) .look, .lock (.act 1) .look, .body 1, .body 1]

end Parity

theorem lock_invariants_parity :
    (∃ s : Guarded Nat Nat Parity Bool,
      exec (Guarded.step Parity.does) (.init ⟨fun _ => true, 0, 0⟩ fun _ => 0) Parity.mutexEvents = some s ∧
        s.data 0 = 2 ∧ (s.sections 0).length = 2 ∧ s.Kept (fun _ x => x % 2 = 0) fun _ o => o = some true) ∧
    (∃ s : Spinlock.State Nat Parity Bool,
      exec (Spinlock.State.step Parity.does) (Spinlock.new 0) Parity.spinEvents = some s ∧
        s.data = 2 ∧ s.sections.length = 2 ∧ s.Kept (fun x => x % 2 = 0) fun _ o => o = some true) ∧
    ∃ s : RwLock.Guarded Nat Parity Bool,
      exec (RwLock.Guarded.step Parity.does) (.init 0 fun _ => true) Parity.rwEvents = some s ∧
        s.sys.sh.data = 2 ∧ s.sections.length = 2 ∧ s.Kept (fun x => x % 2 = 0) fun _ o => o = some true := by
  have hrules := lock_invariants (V := Nat) Parity.does fun _ o => o = some true
  refine ⟨?_, ?_, ?_⟩
  · have hrun : ∃ s : Guarded Nat Nat Parity Bool,
        exec (Guarded.step Parity.does) (.init ⟨fun _ => true, 0, 0⟩ fun _ => 0) Parity.mutexEvents = some s ∧
          s.data 0 = 2 ∧ (s.sections 0).length = 2 := ⟨_, rfl, rfl, rfl⟩
    obtain ⟨s, hs, hdata, hlen⟩ := hrun
    refine ⟨s, hs, hdata, hlen, hrules.1 _ _ _ s (fun _ => Nat.zero_mod 2)
      (RunWhere.refl.extend (.of_forall fun e he t => ?_) hs)⟩
    simp only [Parity.mutexEvents, List.mem_cons, List.not_mem_nil, or_false] at he
    rcases he with rfl | rfl | rfl | rfl | rfl | rfl | rfl | rfl | rfl | rfl | rfl | rfl
    all_goals first | trivial | exact fun _ _ _ => Parity.bump_meets | exact fun _ _ _ => Parity.look_meets
  · have hrun : ∃ s : Spinlock.State Nat Parity Bool,
        exec (Spinlock.State.step Parity.does) (Spinlock.new 0) Parity.spinEvents = some s ∧
          s.data = 2 ∧ s.sections.length = 2 := ⟨_, rfl, rfl, rfl⟩
    obtain ⟨s, hs, hdata, hlen⟩ := hrun
    refine ⟨s, hs, hdata, hlen, hrules.2.1 _ _ s (Nat.zero_mod 2)
      (RunWhere.refl.extend (.of_forall fun e he t => ?_) hs)⟩
    simp only [Parity.spinEvents, List.mem_cons, List.not_mem_nil, or_false] at he
    rcases he with rfl | rfl | rfl | rfl | rfl | rfl | rfl | rfl | rfl | rfl | rfl
    all_goals first | trivial | exact Parity.bump_meets | exact Parity.look_meets
  · have hrun : ∃ s : RwLock.Guarded Nat Parity Bool,
        exec (RwLock.Guarded.step Parity.does) (.init 0 fun _ => true) Parity.rwEvents = some s ∧
          s.sys.sh.data = 2 ∧ s.sections.length = 2 := ⟨_, rfl, rfl, rfl⟩
    obtain ⟨s, hs, hdata, hlen⟩ := hrun
    refine ⟨s, hs, hdata, hlen, hrules.2.2 _ _ _ s (Nat.zero_mod 2)
      (RunWhere.refl.extend (.of_forall fun e he t => ?_) hs)⟩
    simp only [Parity.rwEvents, List.mem_cons, List.not_mem_nil, or_false] at he
    rcases he with rfl | rfl | rfl | rfl | rfl | rfl | rfl | rfl | rfl | rfl | rfl | rfl | rfl
    all_goals first | trivial | exact fun _ _ => Parity.bump_meets | exact fun _ _ => Parity.look_meets

end WasmSafeMutex
