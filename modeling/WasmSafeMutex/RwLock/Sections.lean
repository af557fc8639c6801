import WasmSafeMutex.Lib.SharedSections
import WasmSafeMutex.Mutex.Sections
import WasmSafeMutex.RwLock.Linear

/-!
# Critical sections of a `RwLock` are serializable

`with_sync` and `with_async` run their closure on a `ReadGuard`, and `with_mut_sync` and
`with_mut_async` run theirs on a `WriteGuard`. Up to 127 closures that read are interleaved
step by step, with each other and with everything that the other calls do.
-/

namespace WasmSafeMutex.RwLock

open Interleaving

variable {T L R : Type}

/-! ## The closures -/

structure Guarded (T L R : Type) where
  sys : State T
  body : CallId → Body L
  /-- History: the closures in the order in which their calls got the lock. -/
  sections : List (Section CallId L R)

inductive GuardedEvent (T L : Type)
  /-- An event of the lock. A call that gets the lock by it brings the closure `c`. -/
  | lock (e : Event T) (c : L)
  /-- The closure of call `i` takes a step. -/
  | body (i : CallId)

/-- The guard is given away, when its closure has ended. -/
def Event.givesAway : Event T → Option CallId
  | .dropGuard i _ => some i
  | _ => none

/-- Nobody writes but the closures. -/
def Event.writes : Event T → Bool
  | .write _ _ => true
  | _ => false

/-- The call that gets the lock by this event. -/
def State.acquires (s : State T) (e : Event T) : Option CallId :=
  match s.effect e with
  | [(i, .acquire _)] => some i
  | _ => none

/-- The call has a guard, or will have one when it has left the section of a waiting list. -/
def Call.guarded (a : Access) : Call → Bool
  | .running _ a' (.lock (.leaveOwner _)) | .holding a' => a' = a
  | _ => false

namespace Guarded

def init (x : T) (w : ThreadId → Bool) : Guarded T L R := ⟨RwLock.init x w, fun _ => .none, []⟩

def close (s : Guarded T L R) (i : CallId) (o : Ending R) : Guarded T L R :=
  { s with body := Function.update s.body i .ended, sections := closeSection i o s.sections }

def step (code : Code T L R) (s : Guarded T L R) : GuardedEvent T L → Option (Guarded T L R)
  | .lock e c =>
    if e.writes then none else
      (s.sys.step e).bind fun sys =>
        match s.sys.acquires e with
        | some i => some
          { sys := sys
            body := Function.update s.body i (.running c)
            sections := s.sections ++ [⟨i, c, none⟩] }
        | none => if e.givesAway.any fun i => (s.body i).busy then none else some { s with sys := sys }
  | .body i =>
    match s.sys.call i, s.body i with
    | .holding _, .running l =>
      match code l with
      | .ret r => some (s.close i (some r))
      | .panic => some (s.close i none)
      | .read k => some { s with body := Function.update s.body i (.running (k s.sys.sh.data)) }
      -- Only a `WriteGuard` gives the `&mut T` that a write goes through.
      | .write u l' => (s.sys.step (.write i u)).map fun sys =>
        { s with sys := sys, body := Function.update s.body i (.running l') }
    | _, _ => none

/-- The inversion of `step`. -/
inductive Stepped (code : Code T L R) (s : Guarded T L R) : GuardedEvent T L → Guarded T L R → Prop
  | won (e c i sys) : s.sys.step e = some sys → e.writes = false → s.sys.acquires e = some i →
    Stepped code s (.lock e c)
      { sys := sys
        body := Function.update s.body i (.running c)
        sections := s.sections ++ [⟨i, c, none⟩] }
  | lock (e c sys) : s.sys.step e = some sys → e.writes = false →
    (∀ i, e.givesAway = some i → (s.body i).busy = false) → Stepped code s (.lock e c) { s with sys := sys }
  | ends (i a l o) : s.sys.call i = .holding a → s.body i = .running l → code.ending l = some o →
    Stepped code s (.body i) (s.close i o)
  | next (i a l l' x) : s.sys.call i = .holding a → s.body i = .running l →
    code.next l s.sys.sh.data = some (l', x) → (a = .read → x = s.sys.sh.data) →
    Stepped code s (.body i)
      { s with
        sys := { s.sys with sh := { s.sys.sh with data := x } }
        body := Function.update s.body i (.running l') }

variable {code : Code T L R} {s s' : Guarded T L R} {e : GuardedEvent T L}

theorem stepped_of_step (h : s.step code e = some s') : s.Stepped code e s' := by
  cases e with
  | lock e c =>
    obtain ⟨hw, h⟩ := Option.ite_none_left_eq_some.mp h
    obtain ⟨sys, hsys, h⟩ := Option.bind_eq_some_iff.mp h
    have hwrites : e.writes = false := by simpa using hw
    cases ha : s.sys.acquires e with
    | some i =>
      simp only [ha, Option.some.injEq] at h
      subst h
      exact .won e c i sys hsys hwrites ha
    | none =>
      simp only [ha] at h
      obtain ⟨hbusy, h⟩ := Option.ite_none_left_eq_some.mp h
      simp only [Option.some.injEq] at h
      subst h
      refine .lock e c sys hsys hwrites fun i hi => ?_
      simpa [hi] using hbusy
  | body i =>
    simp only [step] at h
    split at h
    case h_2 => cases h
    case h_1 a l hcall hbody =>
      have hend : ∀ o, code.ending l = some o → s' = s.close i o → s.Stepped code (.body i) s' := by
        rintro o ho rfl
        exact .ends i a l o hcall hbody ho
      cases hc : code l with
      | ret r =>
        simp only [hc, Option.some.injEq] at h
        exact hend (some r) (by simp [Code.ending, hc]) h.symm
      | panic =>
        simp only [hc, Option.some.injEq] at h
        exact hend none (by simp [Code.ending, hc]) h.symm
      | read k =>
        simp only [hc, Option.some.injEq] at h
        subst h
        exact .next i a l _ s.sys.sh.data hcall hbody (by simp [Code.next, hc]) fun _ => rfl
      | write u l' =>
        simp only [hc] at h
        obtain ⟨sys, hsys, rfl⟩ := Option.map_eq_some_iff.mp h
        simp only [State.step, hcall] at hsys
        cases a with
        | read => cases hsys
        | write =>
          cases hsys
          exact .next i .write l l' (u s.sys.sh.data) hcall hbody (by simp [Code.next, hc]) fun ha => by cases ha

end Guarded

/-! ## Who is in a section -/

theorem Call.owns_of_guarded {c : Call} {a : Access} (h : c.guarded a = true) : c.owns a = true := by
  unfold Call.guarded at h
  split at h <;> simp_all [Call.owns, Pc.owns]

theorem Call.guarded_unique {c : Call} {a a' : Access} (h : c.guarded a = true) (h' : c.guarded a' = true) :
    a = a' := by
  unfold Call.guarded at h h'
  split at h <;> simp_all

theorem seen_acquire {f : UInt8} {a : Access} : seen f ≠ [.acquire a] := by
  unfold seen
  split <;> simp

theorem Pc.effect_acquire {f : UInt8} {a a' : Access} {pc : Pc} (h : pc.effect f a' = [.acquire a]) :
    (∃ x, pc = .lock (.exchange x f) ∧ a = .read) ∨ ∃ x, pc = .lock (.cas x) ∧ f = unlocked ∧ a = .write := by
  unfold Pc.effect at h
  split at h
  · exact absurd h seen_acquire
  · split at h
    · rename_i hf
      subst hf
      simp only [List.cons.injEq, LockOp.acquire.injEq, and_true] at h
      exact .inl ⟨_, rfl, h.symm⟩
    · exact absurd h seen_acquire
  · split at h
    · rename_i hf
      simp only [List.cons.injEq, LockOp.acquire.injEq, and_true] at h
      exact .inr ⟨_, rfl, hf, h.symm⟩
    · simp at h
  · simp at h
  · cases h

theorem Site.ok_guarded (x : Site) (t : ThreadId) (a : Access) : (x.ok.call t a).guarded a = true := by
  cases x <;> simp [Site.ok, Next.call, Call.guarded]

theorem Pc.Step.data {sh sh' : Shared T} {i : CallId} {t : ThreadId} {a : Access} {pc : Pc} {n : Next}
    (h : pc.Step sh i t a sh' n) : sh'.data = sh.data := by
  cases h <;> rfl

namespace State

variable {s s' : State T} {e : Event T} {i : CallId}

theorem Reachable.data_step (hr : s.Reachable) (hstep : s.step e = some s') (he : e.writes = false) :
    s'.sh.data = s.sh.data := by
  cases stepped_of_step hr.counted.numbered hstep with
  | acted _ j t a pc sh n _ _ hs => exact hs.data
  | wrote => cases he
  | turned | unpark | parkElsewhere => rfl

/-- Who gets the lock finds no writer in a section, and nobody at all if it is to write. -/
structure Enters (s s' : State T) (i : CallId) (a : Access) : Prop where
  noWriter : ∀ j, (s.call j).guarded .write = false
  nobody : a = .write → ∀ j a', (s.call j).guarded a' = false
  before : ∀ a', (s.call i).guarded a' = false
  after : (s'.call i).guarded a = true
  others : ∀ j, j ≠ i → s'.call j = s.call j

theorem Reachable.no_writer_guarded (hr : s.Reachable) (hb : s.sh.byte ≠ lockedWrite) (j : CallId) :
    (s.call j).guarded .write = false := by
  obtain ⟨-, -, hnil⟩ := hr.counted.byte.reading hb
  cases hj : (s.call j).guarded .write with
  | false => rfl
  | true =>
    have hmem := (hr.counted.writer j).mpr (Call.owns_of_guarded hj)
    rw [hnil] at hmem
    cases hmem

theorem Reachable.nobody_guarded (hr : s.Reachable) (hb : s.sh.byte = unlocked) (j : CallId) (a : Access) :
    (s.call j).guarded a = false := by
  have hne : s.sh.byte ≠ lockedWrite := by rw [hb]; decide
  cases a with
  | write => exact hr.no_writer_guarded hne j
  | read =>
    obtain ⟨hlen, -, -⟩ := hr.counted.byte.reading hne
    rw [hb] at hlen
    cases hj : (s.call j).guarded .read with
    | false => rfl
    | true =>
      have hmem := (hr.counted.reader j).mpr (Call.owns_of_guarded hj)
      rw [List.length_eq_zero_iff.mp hlen.symm] at hmem
      cases hmem

theorem acquires_effect (h : s.acquires e = some i) : ∃ a, s.effect e = [(i, .acquire a)] := by
  unfold acquires at h
  split at h
  · rename_i j a heff
    cases h
    exact ⟨a, heff⟩
  · cases h

theorem Reachable.acquires_enters (hr : s.Reachable) (hstep : s.step e = some s') (ha : s.acquires e = some i) :
    ∃ a, s.Enters s' i a := by
  obtain ⟨a, heff⟩ := acquires_effect ha
  cases effected_of_step hr.counted.numbered hstep with
  | quiet hnone => rw [hnone] at heff; cases heff
  | spurious j t a' pc n hc hx hs hop =>
    rw [hop] at heff
    obtain ⟨op, hops, hpair⟩ := List.map_eq_singleton_iff.mp heff
    simp only [Prod.mk.injEq] at hpair
    obtain ⟨-, rfl⟩ := hpair
    unfold Pc.spuriousEffect at hops
    split at hops
    · exact absurd hops seen_acquire
    · cases hops
  | acted j t a' pc sh n hc hx hs hop =>
    rw [hop] at heff
    obtain ⟨op, hops, hpair⟩ := List.map_eq_singleton_iff.mp heff
    simp only [Prod.mk.injEq] at hpair
    obtain ⟨rfl, rfl⟩ := hpair
    have hf := hr.counted.fits j
    rw [hc] at hf
    subst hs
    have hothers : ∀ k, k ≠ j → (s.setCall j (n.call t a')).call k = s.call k := by
      intro k hk
      simp [setCall, hk]
    rcases Pc.effect_acquire hops with ⟨x, rfl, rfl⟩ | ⟨x, rfl, hb, rfl⟩
    · simp only [Call.fits, Pc.fits, decide_eq_true_eq] at hf
      obtain ⟨rfl, hlt⟩ := hf
      have hne : s.sh.byte ≠ lockedWrite := by
        intro hb
        rw [hb, toNat_lockedWrite] at hlt
        omega
      simp only [Pc.act, LockPc.act, if_true, Option.some.injEq, Prod.mk.injEq] at hx
      obtain ⟨-, rfl⟩ := hx
      refine ⟨.read, hr.no_writer_guarded hne, fun h => (by cases h), fun a' => ?_, ?_, hothers⟩
      · rw [hc]; rfl
      · simpa [setCall] using x.ok_guarded t .read
    · simp only [Call.fits, Pc.fits, decide_eq_true_eq] at hf
      subst hf
      simp only [Pc.act, LockPc.act, hb, if_true, Option.some.injEq, Prod.mk.injEq] at hx
      obtain ⟨-, rfl⟩ := hx
      refine ⟨.write, fun k => hr.nobody_guarded hb k .write, fun _ => hr.nobody_guarded hb, fun a' => ?_, ?_, hothers⟩
      · rw [hc]; rfl
      · simpa [setCall] using x.ok_guarded t .write

theorem Reachable.still_holding (hr : s.Reachable) (hstep : s.step e = some s') {a : Access}
    (hi : s.call i = .holding a) (he : e.givesAway ≠ some i) : s'.call i = .holding a := by
  have hother : ∀ j c, s.call j ≠ .holding a → (s.setCall j c).call i = .holding a := by
    intro j c hj
    have hij : i ≠ j := by
      rintro rfl
      exact hj hi
    simpa [setCall, hij] using hi
  cases e with
  | begin t a' c =>
    obtain ⟨-, h⟩ := Option.ite_none_right_eq_some.mp hstep
    cases h
    exact hother s.used _ (by simp [hr.counted.numbered s.used (Nat.le_refl _)])
  | act j | spurious j =>
    simp only [State.step] at hstep
    split at hstep
    case h_2 => cases hstep
    case h_1 hc =>
      obtain ⟨x, -, rfl⟩ := Option.map_eq_some_iff.mp hstep
      exact hother j _ (by simp [hc])
  | dropGuard j t =>
    have hij : i ≠ j := by
      rintro rfl
      exact he rfl
    simp only [State.step] at hstep
    split at hstep
    case h_2 => cases hstep
    case h_1 hc =>
      obtain ⟨-, h⟩ := Option.ite_none_right_eq_some.mp hstep
      cases h
      simpa [setCall, hij] using hi
  | poll j t =>
    simp only [State.step] at hstep
    split at hstep
    case h_2 => cases hstep
    case h_1 hc =>
      obtain ⟨-, h⟩ := Option.ite_none_right_eq_some.mp hstep
      cases h
      exact hother j _ (by simp [hc])
  | cancel j =>
    simp only [State.step] at hstep
    split at hstep
    case h_2 => cases hstep
    case h_1 hc =>
      cases hstep
      exact hother j _ (by simp [hc])
  | write j u =>
    simp only [State.step] at hstep
    split at hstep
    · cases hstep; exact hi
    · cases hstep
  | unpark t => cases hstep; exact hi
  | parkElsewhere t =>
    obtain ⟨-, h⟩ := Option.ite_none_right_eq_some.mp hstep
    cases h
    exact hi

/-- A call has its guard until it gives it away. -/
theorem Reachable.stays_guarded (hr : s.Reachable) (hstep : s.step e = some s') {a : Access}
    (hi : (s.call i).guarded a = true) (he : e.givesAway ≠ some i) : (s'.call i).guarded a = true := by
  generalize hc : s.call i = c at hi
  unfold Call.guarded at hi
  split at hi
  case h_3 => cases hi
  case h_2 a' =>
    rw [hr.still_holding hstep hc he]
    exact hi
  case h_1 t a' k =>
    cases effected_of_step hr.counted.numbered hstep with
    | acted j t' a'' pc sh n hcj hx hs =>
      subst hs
      by_cases hij : i = j
      · subst hij
        cases hc.symm.trans hcj
        cases hx
        simpa [setCall, Next.call, Call.guarded] using hi
      · simpa [setCall, hij, hc, Call.guarded] using hi
    | spurious j t' a'' pc n hcj hx hs =>
      subst hs
      by_cases hij : i = j
      · subst hij
        cases hc.symm.trans hcj
        cases hx
      · simpa [setCall, hij, hc, Call.guarded] using hi
    | quiet _ _ hcalls =>
      rcases hcalls i with hsame | hturn
      · rw [hsame, hc]; exact hi
      · rw [hc] at hturn
        cases hturn

end State

/-! ## The invariant -/

def Body.place : Body L → Option L
  | .running l => some l
  | _ => none

theorem Body.place_eq {b : Body L} {l : L} : Body.place b = some l ↔ b = .running l := by
  cases b <;> simp [Body.place]

namespace Guarded

variable {code : Code T L R} {s s' : Guarded T L R} {e : GuardedEvent T L} {x₀ : T} {w : ThreadId → Bool}

def place (s : Guarded T L R) (i : CallId) : Option L := Body.place (s.body i)

structure InOrder (code : Code T L R) (x₀ : T) (s : Guarded T L R) : Prop where
  reachable : s.sys.Reachable
  busy : ∀ i l, s.place i = some l → ∃ a, (s.sys.call i).guarded a = true
  isOpen : ∀ c ∈ s.sections, c.ending = none → s.place c.agent ≠ none
  follows : ∃ cur, Overlapped code x₀ s.place s.sections cur s.sys.sh.data ∧
    ∀ i, cur = some i ↔ s.place i ≠ none ∧ (s.sys.call i).guarded .write = true

theorem inOrder_init (x₀ : T) (w : ThreadId → Bool) : (init x₀ w : Guarded T L R).InOrder code x₀ := by
  refine ⟨State.init_reachable x₀ w, fun i l h => ?_, fun c h => ?_, none, .start, fun i => ?_⟩
  · cases h
  · cases h
  · simp [place, init, Body.place]

theorem place_update (s : Guarded T L R) (i : CallId) (b : Body L) (sys : State T)
    (ss : List (Section CallId L R)) :
    (⟨sys, Function.update s.body i b, ss⟩ : Guarded T L R).place = Function.update s.place i (Body.place b) := by
  funext j
  by_cases hj : j = i
  · subst hj; simp [place]
  · simp [place, hj]

/-- An event of the lock by which nobody gets it. -/
theorem InOrder.lock (h : s.InOrder code x₀) {e : Event T} {sys : State T} (hstep : s.sys.step e = some sys)
    (hw : e.writes = false) (haway : ∀ i, e.givesAway = some i → (s.body i).busy = false) :
    ({ s with sys := sys } : Guarded T L R).InOrder code x₀ := by
  have hstays : ∀ i a, s.place i ≠ none → (s.sys.call i).guarded a = true → (sys.call i).guarded a = true := by
    intro i a hi hg
    apply h.reachable.stays_guarded hstep hg
    intro he
    obtain ⟨l, hl⟩ := Option.ne_none_iff_exists'.mp hi
    have hidle := haway i he
    rw [Body.place_eq.mp hl] at hidle
    cases hidle
  obtain ⟨cur, hover, hcur⟩ := h.follows
  refine ⟨h.reachable.step hstep, fun i l hi => ?_, h.isOpen, cur, ?_, fun i => (hcur i).trans ?_⟩
  · obtain ⟨a, ha⟩ := h.busy i l hi
    have hi' : s.place i ≠ none := Option.ne_none_iff_exists'.mpr ⟨l, hi⟩
    exact ⟨a, hstays i a hi' ha⟩
  · rw [h.reachable.data_step hstep hw]
    exact hover
  · constructor
    · rintro ⟨hi, hg⟩
      exact ⟨hi, hstays i .write hi hg⟩
    · rintro ⟨hi, hg⟩
      obtain ⟨l, hl⟩ := Option.ne_none_iff_exists'.mp hi
      obtain ⟨a, ha⟩ := h.busy i l hl
      obtain rfl := Call.guarded_unique (hstays i a hi ha) hg
      exact ⟨hi, ha⟩

/-- An event by which call `i` gets the lock. -/
theorem InOrder.won (h : s.InOrder code x₀) {e : Event T} {sys : State T} {i : CallId} (c : L)
    (hstep : s.sys.step e = some sys) (hw : e.writes = false) (ha : s.sys.acquires e = some i) :
    ({ sys := sys
       body := Function.update s.body i (.running c)
       sections := s.sections ++ [⟨i, c, none⟩] } : Guarded T L R).InOrder code x₀ := by
  obtain ⟨a, hent⟩ := h.reachable.acquires_enters hstep ha
  have hidle : s.place i = none := by
    by_contra hi
    obtain ⟨l, hl⟩ := Option.ne_none_iff_exists'.mp hi
    obtain ⟨a', ha'⟩ := h.busy i l hl
    simp [hent.before a'] at ha'
  have hne : ∀ sec ∈ s.sections, sec.ending = none → sec.agent ≠ i := by
    rintro sec hsec hend rfl
    exact h.isOpen sec hsec hend hidle
  have hkeep : ∀ sec ∈ s.sections, sec.ending = none →
      Function.update s.place i (some c) sec.agent = s.place sec.agent :=
    fun sec hsec hend => Function.update_of_ne (hne sec hsec hend) _ _
  obtain ⟨cur, hover, hcur⟩ := h.follows
  refine ⟨h.reachable.step hstep, fun j l hj => ?_, fun sec hsec hend => ?_, ?_⟩
  · by_cases hji : j = i
    · subst hji; exact ⟨a, hent.after⟩
    · rw [place_update, Function.update_of_ne hji] at hj
      rw [hent.others j hji]
      exact h.busy j l hj
  · rw [place_update]
    rcases List.mem_append.mp hsec with hsec | hsec
    · rw [Function.update_of_ne (hne sec hsec hend)]
      exact h.isOpen sec hsec hend
    · obtain rfl := List.mem_singleton.mp hsec
      simp [Body.place]
  · rw [place_update, h.reachable.data_step hstep hw]
    have hself : Function.update s.place i (some c) i = some c := Function.update_self _ _ _
    cases a with
    | read =>
      have hnone : cur = none := by
        cases cur with
        | none => rfl
        | some j =>
          have hj := ((hcur j).mp rfl).2
          simp [hent.noWriter j] at hj
      subst hnone
      refine ⟨none, (hover.congr hkeep).share hself, fun j => ?_⟩
      by_cases hji : j = i
      · subst hji
        have hread : (sys.call j).guarded .write ≠ true := by
          intro hg
          cases Call.guarded_unique hg hent.after
        simp [hread]
      · rw [Function.update_of_ne hji, hent.others j hji]
        exact hcur j
    | write =>
      have hall : ∀ sec ∈ s.sections, sec.ending ≠ none := by
        intro sec hsec hend
        obtain ⟨l, hl⟩ := Option.ne_none_iff_exists'.mp (h.isOpen sec hsec hend)
        obtain ⟨a', ha'⟩ := h.busy sec.agent l hl
        simp [hent.nobody rfl sec.agent a'] at ha'
      refine ⟨some i, (hover.congr hkeep).exclude hall hself, fun j => ?_⟩
      by_cases hji : j = i
      · subst hji
        simp [hent.after, Body.place]
      · rw [hent.others j hji, hent.noWriter j]
        simp [Ne.symm hji]

/-- The guard of a closure that reads keeps the writers out. -/
theorem InOrder.current (h : s.InOrder code x₀) {cur : Option CallId}
    (hcur : ∀ i, cur = some i ↔ s.place i ≠ none ∧ (s.sys.call i).guarded .write = true) {i : CallId}
    {a : Access} {l : L} (hc : s.sys.call i = .holding a) (hl : s.place i = some l) :
    cur = some i ∨ cur = none ∧ a = .read := by
  cases a with
  | write =>
    left
    rw [hcur i, hl, hc]
    simp [Call.guarded]
  | read =>
    right
    refine ⟨?_, rfl⟩
    cases cur with
    | none => rfl
    | some j =>
      have hj := ((hcur j).mp rfl).2
      have hi : (s.sys.call i).owns .read = true := by rw [hc]; rfl
      have hmem := (h.reachable.counted.reader i).mpr hi
      have hne := h.reachable.counted.byte.no_write (List.ne_nil_of_mem hmem)
      simp [h.reachable.no_writer_guarded hne j] at hj

/-- The closure of call `i` ends. -/
theorem InOrder.ends (h : s.InOrder code x₀) {i : CallId} {a : Access} {l : L} {o : Ending R}
    (hc : s.sys.call i = .holding a) (hl : s.place i = some l) (ho : code.ending l = some o) :
    (s.close i o).InOrder code x₀ := by
  obtain ⟨cur, hover, hcur⟩ := h.follows
  have hplace : (s.close i o).place = Function.update s.place i none :=
    s.place_update i .ended _ _
  have hw := h.current hcur hc hl
  have hother : ∀ j, (s.close i o).place j ≠ none → j ≠ i ∧ s.place j ≠ none := by
    intro j hj
    rw [hplace] at hj
    by_cases hji : j = i
    · subst hji; simp at hj
    · exact ⟨hji, by simpa [hji] using hj⟩
  refine ⟨h.reachable, fun j m hj => ?_, fun sec hsec hend => ?_, none, ?_, fun j => ?_⟩
  · obtain ⟨hji, -⟩ := hother j (Option.ne_none_iff_exists'.mpr ⟨m, hj⟩)
    rw [hplace, Function.update_of_ne hji] at hj
    exact h.busy j m hj
  · obtain ⟨hsec, hne⟩ := open_of_closeSection hsec hend
    rw [hplace, Function.update_of_ne hne]
    exact h.isOpen sec hsec hend
  · apply (hover.finish hl ho (hw.imp_right And.left)).congr
    intro sec hsec hend
    rw [hplace, Function.update_of_ne (open_of_closeSection hsec hend).2]
  · simp only [reduceCtorEq, false_iff]
    rintro ⟨hj, hg⟩
    obtain ⟨hji, hj⟩ := hother j hj
    have hcj := (hcur j).mpr ⟨hj, hg⟩
    rcases hw with hw | ⟨hw, -⟩
    · exact hji (Option.some.inj (hcj.symm.trans hw))
    · cases hcj.symm.trans hw

/-- The closure of call `i` reads or writes. -/
theorem InOrder.next (h : s.InOrder code x₀) {i : CallId} {a : Access} {l l' : L} {x : T}
    (hc : s.sys.call i = .holding a) (hl : s.place i = some l)
    (hn : code.next l s.sys.sh.data = some (l', x)) (hread : a = .read → x = s.sys.sh.data) :
    ({ s with
       sys := { s.sys with sh := { s.sys.sh with data := x } }
       body := Function.update s.body i (.running l') } : Guarded T L R).InOrder code x₀ := by
  obtain ⟨cur, hover, hcur⟩ := h.follows
  have hw := h.current hcur hc hl
  have hsame : ∀ j, Function.update s.place i (some l') j ≠ none ↔ s.place j ≠ none := by
    intro j
    by_cases hji : j = i
    · subst hji; simp [hl]
    · simp [hji]
  have hreach : ({ s.sys with sh := { s.sys.sh with data := x } } : State T).Reachable := by
    cases a with
    | read =>
      obtain rfl := hread rfl
      exact h.reachable
    | write =>
      have hwrite : s.sys.step (.write i fun _ => x) = some { s.sys with sh := { s.sys.sh with data := x } } := by
        simp only [State.step, hc]
      exact h.reachable.step hwrite
  refine ⟨hreach, fun j m hj => ?_, fun sec hsec hend => ?_, cur, ?_, fun j => ?_⟩
  · by_cases hji : j = i
    · subst hji
      exact ⟨a, by simp [hc, Call.guarded]⟩
    · rw [place_update, Function.update_of_ne hji] at hj
      exact h.busy j m hj
  · rw [place_update]
    exact (hsame sec.agent).mpr (h.isOpen sec hsec hend)
  · rw [place_update]
    exact hover.step hl hn (hw.imp_right fun hw => ⟨hw.1, hread hw.2⟩)
  · rw [place_update]
    exact (hcur j).trans (and_congr_left fun _ => (hsame j).symm)

theorem InOrder.step (h : s.InOrder code x₀) (hstep : s.step code e = some s') : s'.InOrder code x₀ := by
  cases stepped_of_step hstep with
  | won e c i sys hsys hw ha => exact h.won c hsys hw ha
  | lock e c sys hsys hw haway => exact h.lock hsys hw haway
  | ends i a l o hc hb ho => exact h.ends hc (Body.place_eq.mpr hb) ho
  | next i a l l' x hc hb hn hread => exact h.next hc (Body.place_eq.mpr hb) hn hread

theorem inOrder (hr : Run (step code) (init x₀ w) s) : s.InOrder code x₀ :=
  hr.invariant (inOrder_init x₀ w) fun _ _ _ h _ hstep => h.step hstep

/-! ## The result -/

/-- When every closure has ended, the data and what the closures returned are what comes of
running them one at a time, in the order in which they got the lock. -/
theorem rwlock_sections_serializable (hr : Run (step code) (init x₀ w) s)
    (hall : ∀ c ∈ s.sections, c.ending ≠ none) : Serializable code x₀ s.sections s.sys.sh.data := by
  obtain ⟨cur, hover, -⟩ := (inOrder hr).follows
  exact hover.serializable hall

/-- A closure that reads the data twice and returns whether it has seen the same, and one that
adds to it in two steps. -/
inductive TwoReads
  | first
  | second (x : Nat)
  | seen (x y : Nat)
  | load
  | store (x : Nat)
  | stored

def rereading : TwoReads → Op Nat TwoReads Bool
  | .first => .read .second
  | .second x => .read (.seen x)
  | .seen x y => .ret (x == y)
  | .load => .read .store
  | .store x => .write (fun _ => x + 1) .stored
  | .stored => .ret true

/-- Two readers overlap, and a writer comes between them and a third one. -/
def overlapEvents : List (GuardedEvent Nat TwoReads) :=
  [.lock (.begin 0 .read .lockSpin) .first, .lock (.begin 1 .read .lockSpin) .first, .lock (.act 0) .first,
    .lock (.act 0) .first, .body 0, .lock (.act 1) .first, .lock (.act 1) .first, .body 1,
    .lock (.begin 2 .write .tryLock) .load, .body 0, .body 0, .lock (.dropGuard 0 0) .first, .lock (.act 0) .first,
    .body 1, .body 1, .lock (.dropGuard 1 1) .first, .lock (.act 1) .first, .lock (.act 2) .load, .body 2, .body 2,
    .body 2]

theorem rwlock_sections_serializable_overlap : ∃ s : Guarded Nat TwoReads Bool,
    exec (step rereading) (init 0 fun _ => true) overlapEvents = some s ∧ s.sys.sh.data = 1 ∧
      Serializable rereading 0 s.sections s.sys.sh.data := by
  have hrun : ∃ s : Guarded Nat TwoReads Bool,
      exec (step rereading) (init 0 fun _ => true) overlapEvents = some s ∧ s.sys.sh.data = 1 ∧
        s.sections.map Section.ending = [some (some true), some (some true), some (some true)] :=
    ⟨_, rfl, rfl, rfl⟩
  obtain ⟨s, hs, hdata, hends⟩ := hrun
  refine ⟨s, hs, hdata, rwlock_sections_serializable (run_of_exec hs) fun c hc hnone => ?_⟩
  have hmem : c.ending ∈ s.sections.map Section.ending := List.mem_map_of_mem hc
  rw [hends, hnone] at hmem
  simp at hmem

end Guarded

end WasmSafeMutex.RwLock
