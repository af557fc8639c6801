import WasmSafeMutex.RwLock.Lists

/-!
# A `RwLock` loses no wakeup

As long as the limit of 127 readers is not hit: whoever releases the lock still owes each list
that it may have unblocked, until it has taken it, and then holds the wakes until it has sent
them.
-/

namespace WasmSafeMutex.RwLock

open Interleaving

variable {T : Type}

/-! ## Who waits, and who is to wake -/

/-- The call has failed to take the lock, and puts itself into this list. -/
def Call.pushing (q : Queue) : Call → Bool
  | .running _ a (.lock (.push k)) => (a, k) = q
  | _ => false

def DropPc.owes (q : Queue) : DropPc → Bool
  | .take q' qs => q ∈ q' :: qs
  | .wake _ _ _ qs => q ∈ qs
  | .release => false

def Pc.owes (q : Queue) : Pc → Bool
  | .drop d => d.owes q
  | .lock _ => false

/-- The drop of a guard has still to take this list. -/
def Call.owes (q : Queue) : Call → Bool
  | .running _ _ pc => pc.owes q
  | _ => false

def DropPc.delivers (q : Queue) : DropPc → List Waker
  | .wake q' w ws _ => if q' = q then w :: ws else []
  | _ => []

def Pc.delivers (q : Queue) : Pc → List Waker
  | .drop d => d.delivers q
  | .lock _ => []

/-- What the drop of a guard has taken out of this list and has still to wake. -/
def Call.delivers (q : Queue) : Call → List Waker
  | .running _ _ pc => pc.delivers q
  | _ => []

def LockPc.awaits (t : Option ThreadId) : LockPc → Option (Side × Waker)
  | .leave .sync _ | .park => t.map fun t => (.sync, .thread t)
  | .leave .async n | .await n => some (.async, .cont n)
  | _ => none

/-- The list and the waker that the call waits with. -/
def Call.awaits : Call → Option (Queue × Waker)
  | .running t a (.lock l) => (l.awaits (some t)).map fun x => ((a, x.1), x.2)
  | .suspended a l => (l.awaits none).map fun x => ((a, x.1), x.2)
  | _ => none

/-- The lock is not free for this access. -/
def Access.blocked (a : Access) (f : UInt8) : Prop :=
  match a with
  | .read => f = lockedWrite
  | .write => f ≠ unlocked

/-- The call is in the drop of a guard, after the update of the byte. -/
def Call.inDrop (a : Access) : Call → Bool
  | .running _ a' (.drop (.take _ _)) | .running _ a' (.drop (.wake _ _ _ _)) => a' = a
  | _ => false

theorem DropPc.drain_owes {q q' : Queue} {qs : List Queue} (ws : List Waker) (t : ThreadId) (a : Access)
    (h : q ∈ qs) : ((drain q' ws qs).call t a).owes q = true := by
  cases ws with
  | cons w ws => simpa [drain, Next.call, Call.owes, Pc.owes, owes] using h
  | nil =>
    cases qs with
    | nil => cases h
    | cons q'' qs => simpa [drain, Next.call, Call.owes, Pc.owes, owes] using h

theorem DropPc.drain_delivers {q : Queue} {ws : List Waker} (qs : List Queue) (t : ThreadId) (a : Access)
    {w : Waker} (h : w ∈ ws) : w ∈ ((drain q ws qs).call t a).delivers q := by
  cases ws with
  | nil => cases h
  | cons w' ws => simpa [drain, Next.call, Call.delivers, Pc.delivers, delivers] using h

theorem Call.inDrop_of_owes {c : Call} {q : Queue} (hf : c.fits = true) (h : c.owes q = true) :
    c.inDrop .write = true ∨ c.inDrop .read = true ∧ q.1 = .write := by
  unfold Call.owes at h
  split at h
  case h_2 => cases h
  case h_1 t a pc =>
    cases pc with
    | lock l => cases h
    | drop d =>
      cases d with
      | release => cases h
      | take q' qs =>
        simp only [Pc.owes, DropPc.owes, decide_eq_true_eq] at h
        simp only [Call.fits, Pc.fits, decide_eq_true_eq] at hf
        cases a with
        | write => exact .inl rfl
        | read => exact .inr ⟨rfl, by simpa using hf.resolve_left (by simp) q h⟩
      | wake q' w ws qs =>
        simp only [Pc.owes, DropPc.owes, decide_eq_true_eq] at h
        simp only [Call.fits, Pc.fits, decide_eq_true_eq] at hf
        cases a with
        | write => exact .inl rfl
        | read => exact .inr ⟨rfl, hf.resolve_left (by simp) q (List.mem_cons_of_mem _ h)⟩

theorem Call.inDrop_of_delivers {c : Call} {q : Queue} {w : Waker} (hf : c.fits = true)
    (h : w ∈ c.delivers q) : c.inDrop .write = true ∨ c.inDrop .read = true ∧ q.1 = .write := by
  unfold Call.delivers at h
  split at h
  case h_2 => cases h
  case h_1 t a pc =>
    cases pc with
    | lock l => cases h
    | drop d =>
      cases d with
      | release | take => cases h
      | wake q' w' ws qs =>
        simp only [Pc.delivers, DropPc.delivers] at h
        simp only [Call.fits, Pc.fits, decide_eq_true_eq] at hf
        split at h
        case isFalse => cases h
        case isTrue hq =>
          subst hq
          cases a with
          | write => exact .inl rfl
          | read => exact .inr ⟨rfl, hf.resolve_left (by simp) q' List.mem_cons_self⟩

/-! ## One operation -/

section

variable {sh sh' : Shared T} {i : CallId} {t : ThreadId} {a : Access} {pc : Pc} {n : Next}

/-- Whoever comes to push has just found the lock taken. -/
theorem Pc.Step.pushes (h : pc.Step sh i t a sh' n) (hf : pc.fits a = true) (hexact : sh.Exact) {q : Queue}
    (hn : (n.call t a).pushing q = true) : a.blocked sh.byte ∧ q.1 = a ∧ sh' = sh := by
  have herr : ∀ (x : Site) (a' : Access), ((x.err a').call t a).pushing q = true → q.1 = a := by
    intro x a' hx
    cases x with
    | once => cases hx
    | spin => cases a' <;> cases hx
    | inList k =>
      simp only [Site.err, Next.call, Call.pushing, decide_eq_true_eq] at hx
      rw [← hx]
  have hupdate : ∀ x : Site, ((x.update sh.byte).call t a).pushing q = true →
      sh.byte = lockedWrite ∧ q.1 = a := by
    intro x hx
    unfold Site.update at hx
    split at hx
    case h_1 hnone =>
      refine ⟨?_, herr x .read hx⟩
      have hge := (readUpdate_none _).mp hnone
      rcases hexact with ⟨hb, -⟩ | ⟨-, hle, -⟩
      · exact hb
      · omega
    case h_2 => cases hx
    case h_3 => cases hx
  cases h with
  | load x | exchangeLost x f =>
    simp only [Pc.fits, decide_eq_true_eq] at hf
    first | subst hf | obtain ⟨rfl, -⟩ := hf
    obtain ⟨hb, hq⟩ := hupdate x hn
    exact ⟨hb, hq, rfl⟩
  | casLost x hne =>
    simp only [Pc.fits, decide_eq_true_eq] at hf
    subst hf
    exact ⟨hne, herr x .write hn, rfl⟩
  | probe b => cases b <;> cases a <;> cases hn
  | exchanged x | casWon x => cases x <;> cases hn
  | enter k => cases a <;> cases hn
  | leave k m => cases k <;> cases hn
  | releaseRead ha | releaseWrite ha =>
    subst ha
    split at hn <;> cases hn
  | take q' qs hl | wake q' w ws qs =>
    unfold DropPc.drain at hn
    split at hn <;> cases hn
  | push | leaveOwner | unparked | spurious | ready | pending => cases hn

/-- A lock that is released for an access leaves the list of that access owed. -/
theorem Pc.Step.unblocks (h : pc.Step sh i t a sh' n) (hf : pc.fits a = true)
    (hrel : pc = .drop .release →
      (a = .read → sh.byte > 0 ∧ sh.byte ≠ lockedWrite) ∧ (a = .write → sh.byte = lockedWrite))
    {q : Queue} (hq : q.1.blocked sh.byte) :
    q.1.blocked sh'.byte ∨ (n.call t a).owes q = true := by
  cases h with
  | exchanged x =>
    simp only [Pc.fits, decide_eq_true_eq] at hf
    left
    rcases q with ⟨a', k⟩
    cases a' with
    | read =>
      have hb : sh.byte = lockedWrite := hq
      rw [hb, toNat_lockedWrite] at hf
      omega
    | write =>
      intro hz
      have hlt := toNat_add_one hf.2
      simp only [Shared.setByte] at hz
      rw [hz] at hlt
      simp [unlocked] at hlt
  | casWon x hb =>
    left
    rcases q with ⟨a', k⟩
    cases a' with
    | read => rfl
    | write => exact absurd hb hq
  | releaseRead ha =>
    subst ha
    rcases q with ⟨a', k⟩
    obtain ⟨hpos, hne⟩ := (hrel rfl).1 rfl
    cases a' with
    | read => exact absurd hq hne
    | write =>
      right
      rw [if_pos hpos]
      cases k <;> rfl
  | releaseWrite ha =>
    subst ha
    right
    rw [if_pos ((hrel rfl).2 rfl)]
    rcases q with ⟨a', k⟩
    cases a' <;> cases k <;> rfl
  | _ => exact .inl hq

/-- A call goes on owing a list until it takes it. -/
theorem Pc.Step.owes (h : pc.Step sh i t a sh' n) {q : Queue} (hpc : pc.owes q = true) :
    (n.call t a).owes q = true ∨ sh.locked q = false ∧ sh'.waiting q = [] := by
  cases h with
  | take q' qs hl =>
    simp only [Pc.owes, DropPc.owes, List.mem_cons, decide_eq_true_eq] at hpc
    rcases hpc with rfl | hq
    · exact .inr ⟨hl, by simp [Shared.setList]⟩
    · exact .inl (DropPc.drain_owes _ t a hq)
  | wake q' w ws qs =>
    simp only [Pc.owes, DropPc.owes, decide_eq_true_eq] at hpc
    exact .inl (DropPc.drain_owes _ t a hpc)
  | _ => cases hpc

/-- What comes into a list is pushed there. -/
theorem Pc.Step.fills (h : pc.Step sh i t a sh' n) {q : Queue} (hq : sh'.waiting q ≠ []) :
    sh.waiting q ≠ [] ∨ (Call.running t a pc).pushing q = true ∧ sh'.byte = sh.byte := by
  cases h with
  | push k =>
    by_cases he : (a, k) = q
    · exact .inr ⟨by simpa [Call.pushing] using he, rfl⟩
    · exact .inl (by simpa [Shared.setList, Ne.symm he] using hq)
  | take q' qs hl =>
    by_cases he : q' = q
    · subst he
      simp [Shared.setList] at hq
    · exact .inl (by simpa [Shared.setList, Ne.symm he] using hq)
  | _ => exact .inl hq

/-- No operation loses a waker. -/
theorem Pc.Step.keeps (h : pc.Step sh i t a sh' n) {q : Queue} {w : Waker} (hw : w ∈ sh.waiting q) :
    w ∈ sh'.waiting q ∨ w ∈ (n.call t a).delivers q := by
  cases h with
  | push k =>
    by_cases he : q = (a, k)
    · subst he
      exact .inl (by simp [Shared.setList, hw])
    · exact .inl (by simpa [Shared.setList, he] using hw)
  | take q' qs hl =>
    by_cases he : q = q'
    · subst he
      exact .inr (DropPc.drain_delivers qs t a hw)
    · exact .inl (by simpa [Shared.setList, he] using hw)
  | _ => exact .inl hw

theorem Pc.Step.delivers (h : pc.Step sh i t a sh' n) {q : Queue} {w : Waker} (hw : w ∈ pc.delivers q) :
    w ∈ (n.call t a).delivers q ∨ sh'.woken w = true := by
  cases h with
  | wake q' w' ws qs =>
    simp only [Pc.delivers, DropPc.delivers] at hw
    split at hw
    case isFalse => cases hw
    case isTrue he =>
      subst he
      rcases List.mem_cons.mp hw with rfl | hw
      · exact .inr (by simp [Shared.setWoken])
      · exact .inl (DropPc.drain_delivers qs t a hw)
  | _ => cases hw

/-- A thread uses up only its own token. -/
theorem Pc.Step.woken (h : pc.Step sh i t a sh' n) {w : Waker} (hw : sh.woken w = true) :
    sh'.woken w = true ∨ w = .thread t ∧ pc = .lock .park := by
  cases h with
  | unparked htoken =>
    by_cases he : w = .thread t
    · exact .inr ⟨he, rfl⟩
    · exact .inl (by simpa [Shared.setWoken, he] using hw)
  | wake q w' ws qs =>
    left
    by_cases he : w = w'
    · simp [Shared.setWoken, he]
    · simpa [Shared.setWoken, he] using hw
  | _ => exact .inl hw

/-- Who waits after an operation has waited before it, or has just pushed its waker. -/
theorem Pc.Step.awaits (h : pc.Step sh i t a sh' n) {q : Queue} {w : Waker}
    (hn : (n.call t a).awaits = some (q, w)) :
    (Call.running t a pc).awaits = some (q, w) ∧ pc ≠ .lock .park ∨ w ∈ sh'.waiting q := by
  have hnone : ∀ l : LockPc, l.awaits (some t) = none → ((Next.goto (.lock l)).call t a).awaits ≠ some (q, w) := by
    intro l hl he
    simp [Next.call, Call.awaits, hl] at he
  have herr : ∀ (x : Site) (a' : Access), ((x.err a').call t a).awaits ≠ some (q, w) := by
    intro x a' he
    cases x with
    | once => cases he
    | spin => cases a' <;> cases he
    | inList k => cases he
  have hdrain : ∀ q' ws qs, ((DropPc.drain q' ws qs).call t a).awaits ≠ some (q, w) := by
    intro q' ws qs he
    unfold DropPc.drain at he
    split at he <;> cases he
  cases h with
  | probe b => cases b <;> cases a <;> cases hn
  | load x | exchangeLost x f =>
    unfold Site.update at hn
    split at hn
    · exact absurd hn (herr x .read)
    · cases hn
    · cases hn
  | exchanged x | casWon x => cases x <;> cases hn
  | casLost x => exact absurd hn (herr x _)
  | enter k => cases a <;> cases hn
  | push k =>
    right
    cases k with
    | sync => cases hn; simp [Shared.setList, Side.waker]
    | async => cases hn; simp [Shared.setList, Side.waker]
  | leave k m =>
    left
    cases k with
    | sync => cases hn; exact ⟨rfl, by simp⟩
    | async => cases hn; exact ⟨rfl, by simp⟩
  | pending m => cases hn; exact .inl ⟨rfl, by simp⟩
  | releaseRead ha | releaseWrite ha =>
    subst ha
    split at hn <;> cases hn
  | take q' qs hl => exact absurd hn (hdrain _ _ _)
  | wake q' w' ws qs => exact absurd hn (hdrain _ _ _)
  | leaveOwner | unparked | spurious | ready => cases hn

end

theorem LockPc.thread_of_awaits {l : LockPc} {o : Option ThreadId} {k : Side} {t : ThreadId}
    (h : l.awaits o = some (k, .thread t)) : o = some t := by
  unfold awaits at h
  split at h
  · simp only [Option.map_eq_some_iff, Prod.mk.injEq, Waker.thread.injEq] at h
    obtain ⟨t', ht, -, rfl⟩ := h
    exact ht
  · simp only [Option.map_eq_some_iff, Prod.mk.injEq, Waker.thread.injEq] at h
    obtain ⟨t', ht, -, rfl⟩ := h
    exact ht
  · simp at h
  · simp at h
  · cases h

theorem Call.thread_of_awaits {c : Call} {q : Queue} {t : ThreadId} (h : c.awaits = some (q, .thread t)) :
    c.thread? = some t := by
  unfold awaits at h
  split at h
  case h_3 => cases h
  all_goals
    obtain ⟨x, hx, hp⟩ := Option.map_eq_some_iff.mp h
    simp only [Prod.mk.injEq] at hp
    have ht := LockPc.thread_of_awaits (k := x.1) (t := t) (by rw [hx, ← hp.2])
    cases ht
  rfl

theorem Call.Turn.awaits {c c' : Call} (h : Call.Turn c c') (hf : c.fits = true) {q : Queue} {w : Waker}
    (hw : c'.awaits = some (q, w)) : c.awaits = some (q, w) := by
  cases h with
  | begin t a c => cases c <;> cases a <;> cases hw
  | dropGuard t a => cases hw
  | poll t a l =>
    cases l with
    | await n => cases hw; rfl
    | _ => cases hf
  | cancel a l => cases hw

theorem Call.Turn.quiet {c c' : Call} (h : Call.Turn c c') (hf : c.fits = true) (q : Queue) :
    c'.pushing q = false ∧ c.owes q = false ∧ c.delivers q = [] := by
  cases h with
  | begin t a c => exact ⟨by cases c <;> cases a <;> rfl, rfl, rfl⟩
  | dropGuard t a => exact ⟨rfl, rfl, rfl⟩
  | poll t a l =>
    cases l with
    | await n => exact ⟨rfl, rfl, rfl⟩
    | _ => cases hf
  | cancel a l => exact ⟨rfl, rfl, rfl⟩

theorem Call.inSection_of_pushing {c : Call} {q : Queue} (h : c.pushing q = true) :
    c.inSection q = true := by
  unfold Call.pushing at h
  split at h
  case h_2 => cases h
  case h_1 t a k =>
    simp only [decide_eq_true_eq] at h
    subst h
    simp [Call.inSection, Pc.inSection, LockPc.inSection]

/-! ## The invariants -/

namespace State

variable {s s' : State T} {e : Event T} {i : CallId} {t : ThreadId} {a : Access} {pc : Pc} {n : Next}
  {sh : Shared T}

/-- Where somebody waits or is about to, the lock is not free, or a release owes the list. -/
def Covered (s : State T) : Prop :=
  ∀ q, s.sh.waiting q ≠ [] ∨ (∃ j, (s.call j).pushing q = true) →
    q.1.blocked s.sh.byte ∨ ∃ j, (s.call j).owes q = true

/-- Where the wake of a waiting call is. -/
def Delivered (s : State T) : Prop :=
  ∀ j q w, (s.call j).awaits = some (q, w) →
    w ∈ s.sh.waiting q ∨ (∃ j', w ∈ (s.call j').delivers q) ∨ s.sh.woken w = true

/-- A thread runs one call at a time. -/
def OneCall (s : State T) : Prop :=
  ∀ i j t, (s.call i).thread? = some t → (s.call j).thread? = some t → i = j

theorem setCall_self (s : State T) (i : CallId) (c : Call) : (s.setCall i c).call i = c := by
  simp [setCall]

theorem setCall_ne (s : State T) {i j : CallId} (c : Call) (h : j ≠ i) :
    (s.setCall i c).call j = s.call j := by
  simp [setCall, h]

theorem Counted.released (h : s.Counted) (hc : s.call i = .running t a pc) (hpc : pc = .drop .release) :
    (a = .read → s.sh.byte > 0 ∧ s.sh.byte ≠ lockedWrite) ∧ (a = .write → s.sh.byte = lockedWrite) := by
  subst hpc
  obtain ⟨hread, hwrite⟩ := h.release hc
  refine ⟨fun ha => ⟨hread ha, ?_⟩, hwrite⟩
  subst ha
  have hmem : i ∈ s.sh.reads := (h.reader i).mpr (by rw [hc]; rfl)
  exact h.byte.no_write (List.ne_nil_of_mem hmem)

theorem Covered.acted (h : s.Covered) (hcount : s.Counted) (hsec : s.Sectioned)
    (hc : s.call i = .running t a pc) (hs : pc.Step s.sh i t a sh n) :
    ({ s.setCall i (n.call t a) with sh := sh } : State T).Covered := by
  have hf : pc.fits a = true := by
    have := hcount.fits i
    rwa [hc] at this
  intro q hq
  change sh.waiting q ≠ [] ∨ (∃ j, ((s.setCall i (n.call t a)).call j).pushing q = true) at hq
  change q.1.blocked sh.byte ∨ ∃ j, ((s.setCall i (n.call t a)).call j).owes q = true
  -- A call that comes to push has just found the lock taken.
  have hpush : ((s.setCall i (n.call t a)).call i).pushing q = true → q.1.blocked sh.byte := by
    intro hi
    rw [setCall_self] at hi
    obtain ⟨hb, ha, rfl⟩ := hs.pushes hf hcount.byte hi
    rw [ha]
    exact hb
  by_cases hbefore : s.sh.waiting q ≠ [] ∨ ∃ j, (s.call j).pushing q = true
  · rcases h q hbefore with hb | ⟨j, hj⟩
    · refine (hs.unblocks hf (hcount.released hc) hb).imp_right fun ho => ⟨i, ?_⟩
      rw [setCall_self]; exact ho
    · by_cases hji : j = i
      case neg => exact .inr ⟨j, by rw [setCall_ne s _ hji]; exact hj⟩
      subst hji
      rw [hc] at hj
      rcases hs.owes hj with ho | ⟨hl, hnil⟩
      · exact .inr ⟨j, by rw [setCall_self]; exact ho⟩
      -- It has taken the list, so nobody is in its section.
      · rcases hq with hq | ⟨j', hj'⟩
        · exact absurd hnil hq
        · by_cases hne : j' = j
          · subst hne; exact .inl (hpush hj')
          · rw [setCall_ne s _ hne] at hj'
            have hlocked := (hsec q).set_of_holds (Call.inSection_of_pushing hj')
            rw [hl] at hlocked
            cases hlocked
  · simp only [not_or, not_exists, ne_eq, not_not] at hbefore
    rcases hq with hq | ⟨j, hj⟩
    · rcases hs.fills hq with hq | ⟨hi, -⟩
      · exact absurd hbefore.1 hq
      · exact absurd (hc ▸ hi) (hbefore.2 i)
    · by_cases hji : j = i
      · subst hji; exact .inl (hpush hj)
      · rw [setCall_ne s _ hji] at hj
        exact absurd hj (hbefore.2 j)

theorem Delivered.acted (h : s.Delivered) (hone : s.OneCall) (hc : s.call i = .running t a pc)
    (hs : pc.Step s.sh i t a sh n) : ({ s.setCall i (n.call t a) with sh := sh } : State T).Delivered := by
  intro j q w hj
  change w ∈ sh.waiting q ∨ (∃ j', w ∈ ((s.setCall i (n.call t a)).call j').delivers q) ∨ sh.woken w = true
  change ((s.setCall i (n.call t a)).call j).awaits = some (q, w) at hj
  have hnew : w ∈ (n.call t a).delivers q → ∃ j', w ∈ ((s.setCall i (n.call t a)).call j').delivers q :=
    fun hw => ⟨i, by rw [setCall_self]; exact hw⟩
  -- The call waited before, and has not used up its token now.
  have hstill : (s.call j).awaits = some (q, w) → (w = .thread t → pc ≠ .lock .park) →
      w ∈ sh.waiting q ∨ (∃ j', w ∈ ((s.setCall i (n.call t a)).call j').delivers q) ∨ sh.woken w = true := by
    intro hold hpark
    rcases h j q w hold with hw | ⟨j', hw⟩ | hw
    · exact (hs.keeps hw).imp_right fun hw => .inl (hnew hw)
    · by_cases hji : j' = i
      · subst hji
        rw [hc] at hw
        rcases hs.delivers hw with hw | hw
        · exact .inr (.inl (hnew hw))
        · exact .inr (.inr hw)
      · exact .inr (.inl ⟨j', by rw [setCall_ne s _ hji]; exact hw⟩)
    · rcases hs.woken hw with hw | ⟨he, hp⟩
      · exact .inr (.inr hw)
      · exact absurd hp (hpark he)
  by_cases hji : j = i
  · subst hji
    rw [setCall_self] at hj
    rcases hs.awaits hj with ⟨hold, hpark⟩ | hw
    · exact hstill (hc ▸ hold) fun _ => hpark
    · exact .inl hw
  · rw [setCall_ne s _ hji] at hj
    refine hstill hj fun he hp => hji ?_
    subst he
    exact hone j i t (Call.thread_of_awaits hj) (by rw [hc]; rfl)

theorem OneCall.step (h : s.OneCall) (hn : s.Numbered) (hstep : s.step e = some s') : s'.OneCall := by
  have hfree : ∀ t j, s.freeThread t → (s.call j).thread? ≠ some t := by
    intro t j hfree
    by_cases hj : j < s.used
    · exact hfree j hj
    · rw [hn j (Nat.le_of_not_lt hj)]; simp [Call.thread?]
  cases stepped_of_step hn hstep with
  | acted _ i t a pc sh n he hc hs =>
    have hthread : ∀ j t', ((s.setCall i (n.call t a)).call j).thread? = some t' →
        (s.call j).thread? = some t' := by
      intro j t' hj
      by_cases hji : j = i
      · subst hji
        rw [setCall_self] at hj
        rw [hc]
        cases n <;> simp_all [Next.call, Call.thread?]
      · rwa [setCall_ne s _ hji] at hj
    exact fun x y t' hx hy => h x y t' (hthread x t' hx) (hthread y t' hy)
  | turned _ i c used ht hfree' =>
    intro x y t' hx hy
    by_cases hxi : x = i <;> by_cases hyi : y = i
    · rw [hxi, hyi]
    · subst hxi
      have hx : c.thread? = some t' := by simpa [setCall] using hx
      have hy : (s.call y).thread? = some t' := by simpa [setCall, hyi] using hy
      exact absurd hy (hfree t' y (hfree' t' hx))
    · subst hyi
      have hx : (s.call x).thread? = some t' := by simpa [setCall, hxi] using hx
      have hy : c.thread? = some t' := by simpa [setCall] using hy
      exact absurd hx (hfree t' x (hfree' t' hy))
    · exact h x y t' (by simpa [setCall, hxi] using hx) (by simpa [setCall, hyi] using hy)
  | wrote | unpark | parkElsewhere => exact h

theorem Covered.step (h : s.Covered) (hcount : s.Counted) (hsec : s.Sectioned)
    (hstep : s.step e = some s') : s'.Covered := by
  cases stepped_of_step hcount.numbered hstep with
  | acted _ i t a pc sh n he hc hs => exact h.acted hcount hsec hc hs
  | turned _ i c used ht =>
    obtain hquiet := fun q => Call.Turn.quiet ht (hcount.fits i) q
    intro q hq
    have hbefore : s.sh.waiting q ≠ [] ∨ ∃ j, (s.call j).pushing q = true := by
      rcases hq with hq | ⟨j, hj⟩
      · exact .inl hq
      · refine .inr ⟨j, ?_⟩
        by_cases hji : j = i
        · subst hji
          simp [setCall, (hquiet q).1] at hj
        · simpa [setCall, hji] using hj
    rcases h q hbefore with hfree | ⟨j, hj⟩
    · exact .inl hfree
    · have hji : j ≠ i := by
        rintro rfl
        simp [(hquiet q).2.1] at hj
      exact .inr ⟨j, by simpa [setCall, hji] using hj⟩
  | wrote | unpark | parkElsewhere => exact h

theorem Delivered.step (h : s.Delivered) (hcount : s.Counted) (hone : s.OneCall)
    (hstep : s.step e = some s') : s'.Delivered := by
  cases stepped_of_step hcount.numbered hstep with
  | acted _ i t a pc sh n he hc hs => exact h.acted hone hc hs
  | turned _ i c used ht =>
    intro j q w hj
    have hold : (s.call j).awaits = some (q, w) := by
      by_cases hji : j = i
      · subst hji
        have hc : c.awaits = some (q, w) := by simpa [setCall] using hj
        exact Call.Turn.awaits ht (hcount.fits j) hc
      · simpa [setCall, hji] using hj
    rcases h j q w hold with hlisted | ⟨j', hw⟩ | hwoken
    · exact .inl hlisted
    · have hji : j' ≠ i := by
        rintro rfl
        simp [(Call.Turn.quiet ht (hcount.fits j') q).2.2] at hw
      exact .inr (.inl ⟨j', by simpa [setCall, hji] using hw⟩)
    · exact .inr (.inr hwoken)
  | wrote => exact h
  | unpark t =>
    intro j q w hj
    refine (h j q w hj).imp_right fun hw => hw.imp_right fun hw => ?_
    by_cases he : w = .thread t
    · simp [Shared.setWoken, he]
    · simpa [Shared.setWoken, he] using hw
  | parkElsewhere t hfree =>
    intro j q w hj
    refine (h j q w hj).imp_right fun hw => hw.imp_right fun hw => ?_
    have he : w ≠ .thread t := by
      rintro rfl
      have hthread := Call.thread_of_awaits hj
      have hlt : j < s.used := hcount.numbered.lt_used (by rintro hidle; simp [hidle, Call.thread?] at hthread)
      exact hfree j hlt hthread
    simpa [Shared.setWoken, he] using hw

/-! ## The result -/

/-- No call panics by this event: the limit of 127 readers is not hit. -/
def NotHit (s : State T) (e : Event T) : Prop := ∀ s' i, s.step e = some s' → ¬ s.PanicsNow s' i

/-- Everything that the wakeups rest on. -/
structure Tended (s : State T) : Prop where
  counted : s.Counted
  sectioned : s.Sectioned
  oneCall : s.OneCall
  covered : s.Covered
  delivered : s.Delivered

theorem tended_of_run {x : T} {w : ThreadId → Bool} (hr : RunWhere State.step NotHit (init x w) s) :
    s.Tended := by
  refine hr.invariant ⟨counted_init x w, sectioned_init x w, ?_, ?_, ?_⟩ fun u v e h hok hstep => ?_
  · intro i j t hi
    cases hi
  · rintro q (hq | ⟨j, hj⟩)
    · exact absurd rfl hq
    · cases hj
  · intro j q w hj
    cases hj
  · have hsec : u.NoPanicInList e := fun s' i hs hp => absurd hp (hok s' i hs)
    exact ⟨h.counted.step hstep, h.sectioned.step h.counted hsec hstep, h.oneCall.step h.counted.numbered hstep,
      h.covered.step h.counted h.sectioned hstep, h.delivered.step h.counted h.oneCall hstep⟩

/-- Nobody is left behind in a list, or asleep without a wake. -/
structure NoneStranded (s : State T) : Prop where
  /-- The lock is free for reading, and no writer is on its way out. -/
  readers : s.sh.byte ≠ lockedWrite → (∀ j, (s.call j).inDrop .write = false) →
    ∀ k, s.sh.waiting (.read, k) = [] ∧
      ∀ j w, (s.call j).awaits = some ((.read, k), w) → s.sh.woken w = true
  /-- The lock is free, and nobody is on its way out. -/
  writers : s.sh.byte = unlocked → (∀ j a, (s.call j).inDrop a = false) →
    ∀ k, s.sh.waiting (.write, k) = [] ∧
      ∀ j w, (s.call j).awaits = some ((.write, k), w) → s.sh.woken w = true

/-- Where the lock is free and no release owes the list, it is empty. -/
theorem Tended.empty (h : s.Tended) {q : Queue} (hb : ¬ q.1.blocked s.sh.byte)
    (hno : ∀ j, (s.call j).inDrop .write = false ∧ (q.1 = .write → (s.call j).inDrop .read = false)) :
    s.sh.waiting q = [] ∧ ∀ j w, (s.call j).awaits = some (q, w) → s.sh.woken w = true := by
  have hdrop : ∀ j, ¬ ((s.call j).inDrop .write = true ∨ (s.call j).inDrop .read = true ∧ q.1 = .write) := by
    rintro j (hj | ⟨hj, hq⟩)
    · simp [(hno j).1] at hj
    · simp [(hno j).2 hq] at hj
  have hnil : s.sh.waiting q = [] := by
    by_contra hne
    rcases h.covered q (.inl hne) with hb' | ⟨j, hj⟩
    · exact hb hb'
    · exact hdrop j (Call.inDrop_of_owes (h.counted.fits j) hj)
  refine ⟨hnil, fun j w hj => ?_⟩
  rcases h.delivered j q w hj with hw | ⟨j', hw⟩ | hw
  · rw [hnil] at hw
    cases hw
  · exact absurd (Call.inDrop_of_delivers (h.counted.fits j') hw) (hdrop j')
  · exact hw

theorem nobody_stranded {x : T} {w : ThreadId → Bool} (hr : RunWhere State.step NotHit (init x w) s) :
    s.NoneStranded where
  readers hb hno k := (tended_of_run hr).empty hb fun j => ⟨hno j, fun hq => by cases hq⟩
  writers hb hno k := (tended_of_run hr).empty (by simp [Access.blocked, hb]) fun j => ⟨hno j _, fun _ => hno j _⟩

/-- For runs on fixed events: no call has panicked after any of them. -/
def calm (s : State T) : List (Event T) → Bool
  | [] => true
  | e :: es =>
    match s.step e with
    | some s' => decide (∀ j < s'.used, s'.call j ≠ .done .tooManyReaders) && s'.calm es
    | none => true

theorem Counted.along_of_calm {es : List (Event T)} (h : s.Counted) (hes : s.calm es = true) :
    Along State.step NotHit s es := by
  induction es generalizing s with
  | nil => trivial
  | cons e es ih =>
    have hnext : ∀ s', s.step e = some s' →
        (∀ j < s'.used, s'.call j ≠ .done .tooManyReaders) ∧ s'.calm es = true := by
      intro s' hstep
      simpa [calm, hstep] using hes
    refine ⟨fun s' i hstep hp => ?_, fun s' hstep => ih (h.step hstep) (hnext s' hstep).2⟩
    have hi : i < s'.used := (h.step hstep).numbered.lt_used (by simp [hp.2])
    exact (hnext s' hstep).1 i hi hp.2

/-- A writer holds the lock while a reader and another writer come to be parked. It releases the
lock, and wakes both of them. -/
def drainedEvents : List (Event Nat) :=
  [.begin 0 .write .tryLock, .act 0, .begin 1 .read .lockBlock, .act 1, .act 1, .act 1, .act 1,
    .begin 2 .write .lockBlock, .act 2, .act 2, .act 2, .act 2, .dropGuard 0 0, .act 0, .act 0, .act 0,
    .act 0, .act 0, .act 0, .act 0]

theorem nobody_stranded_drained : ∃ s : State Nat,
    exec State.step (init 0 fun _ => true) drainedEvents = some s ∧ s.sh.byte = unlocked ∧
      (∀ j a, (s.call j).inDrop a = false) ∧ (s.call 1).awaits = some ((.read, .sync), .thread 1) ∧
      (s.call 2).awaits = some ((.write, .sync), .thread 2) ∧ s.NoneStranded := by
  have hrun : ∃ s : State Nat, exec State.step (init 0 fun _ => true) drainedEvents = some s ∧
      s.sh.byte = unlocked ∧ (∀ j < s.used, (s.call j).inDrop .read = false ∧ (s.call j).inDrop .write = false) ∧
      (s.call 1).awaits = some ((.read, .sync), .thread 1) ∧
      (s.call 2).awaits = some ((.write, .sync), .thread 2) := by
    refine ⟨_, rfl, rfl, ?_, rfl, rfl⟩
    decide
  obtain ⟨s, hs, hbyte, hdrops, hreader, hwriter⟩ := hrun
  have hr := RunWhere.refl.extend (Counted.along_of_calm (counted_init 0 fun _ => true) rfl) hs
  have hnone : ∀ j a, (s.call j).inDrop a = false := by
    intro j a
    by_cases hj : j < s.used
    · cases a with
      | read => exact (hdrops j hj).1
      | write => exact (hdrops j hj).2
    · rw [(tended_of_run hr).counted.numbered j (Nat.le_of_not_lt hj)]
      rfl
  exact ⟨s, hs, hbyte, hnone, hreader, hwriter, nobody_stranded hr⟩

end State

end WasmSafeMutex.RwLock
