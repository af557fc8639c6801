import WasmSafeMutex.Mutex.Exclusion
import WasmSafeMutex.Delivery

/-!
# A mutex loses no wakeup

`did_unlock` clears the lock bit first and then drains the two lists one after the other.
What covers a waiter in between is the unlocking call that has not come to its list yet.
-/

namespace WasmSafeMutex

open Interleaving

variable {V : Type}

/-! ## The sections of the two lists -/

def LockPc.inSection (k : Side) : LockPc → Bool
  | .tryIn k' _ | .push k' _ | .leaveOwner k' | .leave k' _ _ => k' = k
  | _ => false

def Pc.inSection (k : Side) : Pc V → Bool
  | .lock l _ => l.inSection k
  | _ => false

def Act.enters (k : Side) (a : Act V) : Prop := a = .mutex (.enter k)

def Act.exits (k : Side) (a : Act V) : Prop := a = .mutex (.leave k)

/-- The call has failed to lock inside the section, and its push comes next. -/
def Pc.pushing (k : Side) : Pc V → Bool
  | .lock (.push k' _) _ => k' = k
  | _ => false

/-- The unlocking call has still to take the list. -/
def UnlockPc.owes (k : Side) : UnlockPc → Bool
  | .take .sync => true
  | .take .async | .wake .sync _ _ => k = .async
  | _ => false

def Pc.owes (k : Side) : Pc V → Bool
  | .unlock u _ => u.owes k
  | _ => false

def LockOut.inSection (k : Side) : LockOut → Bool
  | .goto l | .yield l => l.inSection k
  | _ => false

theorem LockOut.inSection_toNext (o : LockOut) (k : Caller V) (ret : LockRet) (side : Side) :
    (o.toNext k ret).isAt (Pc.inSection side) = o.inSection side := by
  cases o with
  | acquired =>
    cases k with
    | recv rk => rcases ret with _ | _ | _ | _ <;> rfl
    | user m => cases ret <;> rfl
    | _ => rfl
  | _ => rfl

theorem LockPc.Step.inSection {l : LockPc} {a : Act V} {o : LockOut} (h : l.Step a o) (side : Side) :
    a.enters side ∧ o.inSection side = true ∨
      a.exits side ∧ l.inSection side = true ∧ o.inSection side = false ∨
      ¬ a.enters side ∧ ¬ a.exits side ∧ o.inSection side = l.inSection side := by
  cases h with
  | enter k d =>
    by_cases hk : k = side
    · subst hk; exact .inl ⟨rfl, by simp [LockOut.inSection, LockPc.inSection]⟩
    · exact .inr (.inr ⟨by simp [Act.enters, hk], by simp [Act.exits],
        by simp [LockOut.inSection, LockPc.inSection, hk]⟩)
  | leaveOwner k =>
    by_cases hk : k = side
    · subst hk; exact .inr (.inl ⟨rfl, by simp [LockPc.inSection], rfl⟩)
    · exact .inr (.inr ⟨by simp [Act.enters], by simp [Act.exits, hk],
        by simp [LockOut.inSection, LockPc.inSection, hk]⟩)
  | leave k d n =>
    have hsleep : (LockOut.goto (LockPc.sleep k d n)).inSection side = false := by
      cases k <;> cases d <;> rfl
    by_cases hk : k = side
    · subst hk; exact .inr (.inl ⟨rfl, by simp [LockPc.inSection], hsleep⟩)
    · exact .inr (.inr ⟨by simp [Act.enters], by simp [Act.exits, hk],
        by simp [hsleep, LockPc.inSection, hk]⟩)
  | tryLock won | lastTry won | tryIn k d won =>
    refine .inr (.inr ⟨by simp [Act.enters], by simp [Act.exits], ?_⟩)
    cases won <;> rfl
  | spinNow d y | now k d y =>
    refine .inr (.inr ⟨by simp [Act.enters], by simp [Act.exits], ?_⟩)
    split <;> rfl
  | probe d b =>
    refine .inr (.inr ⟨by simp [Act.enters], by simp [Act.exits], ?_⟩)
    cases b <;> cases d <;> rfl
  | park d b =>
    refine .inr (.inr ⟨by simp [Act.enters], by simp [Act.exits], ?_⟩)
    cases d <;> rfl
  | raceNotify d n m b =>
    refine .inr (.inr ⟨by simp [Act.enters], by simp [Act.exits], ?_⟩)
    cases b <;> rfl
  | _ => exact .inr (.inr ⟨by simp [Act.enters], by simp [Act.exits], rfl⟩)

theorem LockPc.not_inSection {l : LockPc} (h : l.begins = true) (side : Side) :
    l.inSection side = false := by
  cases l <;> first | rfl | cases h

/-- Only lock calls go through the sections. -/
theorem Pc.Step.inSection {k : Caller V} {pc : Pc V} {a : Act V} {n : Next V} (h : pc.Step k a n)
    (side : Side) :
    a.enters side ∧ n.isAt (Pc.inSection side) = true ∨
      a.exits side ∧ pc.inSection side = true ∧ n.isAt (Pc.inSection side) = false ∨
      ¬ a.enters side ∧ ¬ a.exits side ∧ n.isAt (Pc.inSection side) = pc.inSection side := by
  have hn : (∀ l ret, pc ≠ .lock l ret) → n.isAt (Pc.inSection side) = false := by
    intro hpc
    cases hpc' : n.pc? with
    | none => simp [Next.isAt, hpc']
    | some pc' =>
      rw [Next.isAt, hpc', Option.any_some]
      cases pc' with
      | lock l ret =>
        rcases h.into_lock hpc' with ⟨l₀, o, he, -⟩ | hl
        · exact absurd he (hpc l₀ ret)
        · exact LockPc.not_inSection hl side
      | _ => rfl
  cases h with
  | lock l ret a o ho =>
    rw [LockOut.inSection_toNext]
    exact ho.inSection side
  | unlock u ret a o ho =>
    exact .inr (.inr ⟨by cases ho <;> simp [Act.enters], by cases ho <;> simp [Act.exits], hn (by simp)⟩)
  | wait f w a o ho =>
    exact .inr (.inr ⟨by cases ho <;> simp [Act.enters], by cases ho <;> simp [Act.exits], hn (by simp)⟩)
  | notify c x a o ho =>
    exact .inr (.inr ⟨by cases ho <;> simp [Act.enters], by cases ho <;> simp [Act.exits], hn (by simp)⟩)
  | _ => exact .inr (.inr ⟨by simp [Act.enters], by simp [Act.exits], hn (by simp)⟩)

theorem LockPc.Step.pushing {l : LockPc} {a : Act V} {o : LockOut} (h : l.Step a o) {k : Side}
    {d : Option Instant} (ho : o = .goto (.push k d)) : a = .mutex (.cas false) := by
  cases h with
  | tryIn k' d' won => cases won <;> first | rfl | cases ho
  | tryLock won | lastTry won => cases won <;> cases ho
  | spinNow d y | now k d y => split at ho <;> cases ho
  | probe d b => cases b <;> cases d <;> cases ho
  | leave k d n => cases k <;> cases d <;> cases ho
  | park d b => cases d <;> cases ho
  | raceNotify d n m b => cases b <;> cases ho
  | _ => cases ho

theorem Pc.Step.pushing {k : Caller V} {pc : Pc V} {a : Act V} {n : Next V} (h : pc.Step k a n)
    {side : Side} (hn : n.isAt (Pc.pushing side) = true) : a = .mutex (.cas false) := by
  obtain ⟨pc', hpc, hn⟩ := (Option.any_eq_true _ _).mp hn
  unfold Pc.pushing at hn
  split at hn
  case h_2 => cases hn
  case h_1 k' d ret =>
    rcases h.into_lock hpc with ⟨l₀, o, -, ho, rfl | rfl⟩ | hb
    · exact ho.pushing rfl
    · cases ho.pending
    · cases hb

theorem UnlockPc.owes_drain {k : Side} (ret : UnlockRet V) (ws : List Waker) (h : k = .sync) :
    ((UnlockPc.drain k ws).toNext ret).isAt (Pc.owes .async) = true := by
  subst h
  cases ws <;> rfl

theorem Pc.Step.owes {k : Caller V} {pc : Pc V} {a : Act V} {n : Next V} (h : pc.Step k a n)
    {side : Side} (hp : pc.owes side = true) (ha : ∀ ws, a ≠ .mutex (.take side ws)) :
    n.isAt (Pc.owes side) = true := by
  cases h with
  | unlock u ret a o ho =>
    cases ho with
    | store => cases hp
    | take k' ws =>
      cases k' <;> cases side
      · exact absurd rfl (ha ws)
      · exact UnlockPc.owes_drain ret ws rfl
      · cases hp
      · exact absurd rfl (ha ws)
    | wake k' w ws =>
      cases k' <;> cases side
      · cases hp
      · exact UnlockPc.owes_drain ret ws rfl
      · cases hp
      · cases hp
  | _ => cases hp

theorem Pc.not_inSection_of_begins (side : Side) {pc : Pc V} (h : pc.begins = true) :
    pc.inSection side = false := by
  cases pc with
  | lock l ret => exact LockPc.not_inSection h side
  | _ => rfl

theorem Pc.not_inSection_of_pending (side : Side) {pc : Pc V} (h : pc.pending = true) :
    pc.inSection side = false := by
  cases pc with
  | lock l ret => cases l <;> first | rfl | cases h
  | _ => rfl

theorem Pc.not_pushing_of_begins (side : Side) {pc : Pc V} (h : pc.begins = true) :
    pc.pushing side = false := by
  cases pc with
  | lock l ret => cases l <;> first | rfl | cases h
  | _ => rfl

theorem Pc.not_pushing_of_pending (side : Side) {pc : Pc V} (h : pc.pending = true) :
    pc.pushing side = false := by
  cases pc with
  | lock l ret => cases l <;> first | rfl | cases h
  | _ => rfl

theorem Pc.not_owes_of_begins (side : Side) {pc : Pc V} (h : pc.begins = true) :
    pc.owes side = false := by
  cases pc with
  | unlock u ret =>
    obtain rfl : u = .store := by simpa [Pc.begins] using h
    rfl
  | _ => rfl

theorem Pc.not_owes_of_pending (side : Side) {pc : Pc V} (h : pc.pending = true) :
    pc.owes side = false := by
  cases pc <;> first | rfl | cases h

theorem Pc.Step.of_push {k : Caller V} {pc : Pc V} {n : Next V} {side : Side} {x : Nat}
    (h : pc.Step k (.push side x) n) : pc.pushing side = true := by
  generalize ha : Act.push side x = a at h
  cases h with
  | lock l ret a o ho =>
    cases ho with
    | push k' d x' => cases ha; simp [Pc.pushing]
    | _ => cases ha
  | unlock u ret a o ho => cases ho <;> cases ha
  | wait f w a o ho => cases ho <;> cases ha
  | notify c y a o ho => cases ho <;> cases ha
  | _ => cases ha

theorem Pc.Step.of_store {k : Caller V} {pc : Pc V} {a : Act V} {n : Next V} (h : pc.Step k a n)
    (ha : a.frees = true) (side : Side) : n.isAt (Pc.owes side) = true := by
  cases h with
  | unlock u ret a o ho => cases ho <;> first | rfl | cases ha
  | lock l ret a o ho => cases ho <;> cases ha
  | wait f w a o ho => cases ho <;> cases ha
  | notify c y a o ho => cases ho <;> cases ha
  | _ => cases ha

theorem Next.isAt_mono {ν ν' : Pc V → Bool} (hν : ∀ pc, ν pc = true → ν' pc = true) {n : Next V}
    (h : n.isAt ν = true) : n.isAt ν' = true := by
  obtain ⟨pc, hpc, h⟩ := (Option.any_eq_true _ _).mp h
  exact (Option.any_eq_true _ _).mpr ⟨pc, hpc, hν pc h⟩

theorem Pc.inSection_of_pushing {pc : Pc V} {side : Side} (h : pc.pushing side = true) :
    pc.inSection side = true := by
  unfold Pc.pushing at h
  split at h
  case h_1 k' d ret => simpa [Pc.inSection, LockPc.inSection] using h
  case h_2 => cases h

theorem Call.holds_mono {μ ν : Next V → Bool} (hμ : ∀ n, μ n = true → ν n = true) {c : Call V}
    {m : MutexId} (h : c.holds μ m = true) : c.holds ν m = true := by
  cases c with
  | running t k pc | suspended k pc | holding k r =>
    simp only [Call.holds, Bool.and_eq_true] at h ⊢
    exact ⟨h.1, hμ _ h.2⟩
  | _ => cases h

/-! ## What the operations do to the lists -/

theorem Shared.Applied.sections {sh sh' : Shared V} {m : MutexId} {i : CallId} {t : ThreadId} {a : Act V}
    (h : sh.Applied m i t a sh') (k : Side) :
    a.enters k ∧ (sh.mutex m).locked k = false ∧ (sh'.mutex m).locked k = true ∨
      a.exits k ∧ (sh'.mutex m).locked k = false ∨
      ¬ a.enters k ∧ ¬ a.exits k ∧ (sh'.mutex m).locked k = (sh.mutex m).locked k := by
  cases h with
  | mutex a x hx =>
    simp only [Shared.setMutex, Function.update_self, Act.enters, Act.exits, Act.mutex.injEq]
    cases hx with
    | enter k' hk =>
      by_cases he : k = k'
      · subst he; exact .inl ⟨rfl, hk, by simp⟩
      · exact .inr (.inr ⟨by simp [Ne.symm he], by simp, by simp [he]⟩)
    | leave k' =>
      by_cases he : k = k'
      · subst he; exact .inr (.inl ⟨rfl, by simp⟩)
      · exact .inr (.inr ⟨by simp, by simp [Ne.symm he], by simp [he]⟩)
    | _ => exact .inr (.inr ⟨by simp, by simp, rfl⟩)
  | push k' =>
    refine .inr (.inr ⟨by simp [Act.enters], by simp [Act.exits], ?_⟩)
    simp [Shared.setMutex, MutexState.push]
  | _ => exact .inr (.inr ⟨by simp [Act.enters], by simp [Act.exits], rfl⟩)

theorem Shared.Applied.pushed_of_waiting {sh sh' : Shared V} {m : MutexId} {i : CallId} {t : ThreadId}
    {a : Act V} (h : sh.Applied m i t a sh') {k : Side} (hw : (sh'.mutex m).waiting k ≠ []) :
    (sh.mutex m).waiting k ≠ [] ∨ ∃ x, a = .push k x := by
  cases h with
  | mutex a x hx =>
    refine .inl ?_
    simp only [Shared.setMutex, Function.update_self] at hw
    cases hx with
    | take k' =>
      by_cases hk : k = k'
      · subst hk; simp at hw
      · simpa [hk] using hw
    | _ => exact hw
  | push k' =>
    by_cases hk : k = k'
    · subst hk; exact .inr ⟨_, rfl⟩
    · exact .inl (by simpa [Shared.setMutex, MutexState.push, hk] using hw)
  | _ => exact .inl hw

theorem Shared.Applied.taken {sh sh' : Shared V} {m : MutexId} {i : CallId} {t : ThreadId} {k : Side}
    {ws : List Waker} (h : sh.Applied m i t (.mutex (.take k ws)) sh') :
    (sh'.mutex m).locked k = false ∧ (sh'.mutex m).waiting k = [] := by
  cases h with
  | mutex a x hx =>
    cases hx with
    | take k hk => exact ⟨by simpa [Shared.setMutex] using hk, by simp [Shared.setMutex]⟩

theorem Shared.Applied.lost {sh sh' : Shared V} {m : MutexId} {i : CallId} {t : ThreadId}
    (h : sh.Applied m i t (.mutex (.cas false)) sh') : (sh'.mutex m).dataLock = true := by
  cases h with
  | mutex a x hx =>
    cases hx with
    | casLost hb => simpa [Shared.setMutex] using hb

/-! ## The invariants -/

namespace State

variable {s s' : State V} {e : Event V} {i : CallId} {t : ThreadId} {k : Caller V} {pc : Pc V}
  {a : Act V} {n : Next V}

def Sectioned (s : State V) (m : MutexId) (side : Side) : Prop :=
  Exact ((s.sh.mutex m).locked side) fun j => (s.call j).holds (Next.isAt (Pc.inSection side)) m

/-- A waiter in the list, or on its way into it, has the lock held or the list still to be
taken. -/
def Covered (s : State V) (m : MutexId) (side : Side) : Prop :=
  ((s.sh.mutex m).waiting side ≠ [] ∨ ∃ j, (s.call j).holds (Next.isAt (Pc.pushing side)) m = true) →
    (s.sh.mutex m).dataLock = true ∨ ∃ j, (s.call j).holds (Next.isAt (Pc.owes side)) m = true

theorem Acted.sectioned (h : Acted s s' i t k pc a n) {m : MutexId} {side : Side}
    (hs : s.Sectioned m side) : s'.Sectioned m side := by
  refine h.exact (fun x => x.locked side) (fun _ => rfl) ?_ hs
  rcases h.applied.sections side with ⟨he, hb, hb'⟩ | ⟨hx, hb'⟩ | ⟨he, hx, hb'⟩ <;>
    rcases h.step.inSection side with ⟨he', hn⟩ | ⟨hx', hp, hn⟩ | ⟨he', hx', hn⟩
  · exact .inl ⟨hb, hb', hn⟩
  · cases he.symm.trans hx'
  · exact absurd he he'
  · cases hx.symm.trans he'
  · exact .inr (.inl ⟨hb', hp, hn⟩)
  · exact absurd hx hx'
  · exact absurd he' he
  · exact absurd hx' hx
  · exact .inr (.inr ⟨hb', hn⟩)

/-- An unlocking call that owes the list takes it, or goes on owing it. -/
theorem Acted.owes (h : Acted s s' i t k pc a n) {m : MutexId} {side : Side} {j : CallId}
    (hj : (s.call j).holds (Next.isAt (Pc.owes side)) m = true) :
    (s'.call j).holds (Next.isAt (Pc.owes side)) m = true ∨ m = k.mutex ∧ ∃ ws, a = .mutex (.take side ws) := by
  by_cases hm : m = k.mutex
  · by_cases ha : ∃ ws, a = .mutex (.take side ws)
    · exact .inr ⟨hm, ha⟩
    · subst hm
      refine .inl ?_
      by_cases hji : j = i
      · subst hji
        rw [h.holds_old] at hj
        rw [h.holds_new fun _ => rfl]
        exact h.step.owes hj fun ws hw => ha ⟨ws, hw⟩
      · rw [h.call_ne hji]; exact hj
  · exact .inl ((h.holds_other _ hm j).trans hj)

theorem Acted.covered (h : Acted s s' i t k pc a n) {m : MutexId} {side : Side}
    (hsec : s.Sectioned m side) (hs : s.Covered m side) : s'.Covered m side := by
  by_cases hm : m = k.mutex
  case neg =>
    intro hw
    simp only [h.applied.mutex_ne hm, h.holds_other _ hm] at hw ⊢
    exact hs hw
  subst hm
  intro hw
  by_cases htake : ∃ ws, a = .mutex (.take side ws)
  · -- The list is empty now, and nobody is in the section.
    obtain ⟨ws, rfl⟩ := htake
    obtain ⟨hfree, hnil⟩ := h.applied.taken
    rcases hw with hw | ⟨j, hj⟩
    · exact absurd hnil hw
    · have hclear := (h.sectioned hsec)
      rw [Sectioned, hfree] at hclear
      have hin := Call.holds_mono (fun _ => Next.isAt_mono fun _ => Pc.inSection_of_pushing) hj
      exact absurd hin (by simp [hclear.none_of_clear j])
  · have hold : (s'.sh.mutex k.mutex).dataLock = true ∨ ((s.sh.mutex k.mutex).waiting side ≠ [] ∨
        ∃ j, (s.call j).holds (Next.isAt (Pc.pushing side)) k.mutex = true) := by
      rcases hw with hw | ⟨j, hj⟩
      · rcases h.applied.pushed_of_waiting hw with hw | ⟨x, rfl⟩
        · exact .inr (.inl hw)
        · exact .inr (.inr ⟨i, (h.holds_old _).trans h.step.of_push⟩)
      · by_cases hji : j = i
        · subst hji
          rw [h.holds_new fun _ => rfl] at hj
          obtain rfl := h.step.pushing hj
          exact .inl h.applied.lost
        · rw [h.call_ne hji] at hj; exact .inr (.inr ⟨j, hj⟩)
    rcases hold with hlock | hold
    · exact .inl hlock
    · rcases hs hold with hlock | ⟨j, hj⟩
      · rcases h.applied.bit with ⟨-, -, hb, -⟩ | ⟨-, hf, -, -⟩ | ⟨-, -, hb, -⟩
        · exact .inl hb
        · exact .inr ⟨i, (h.holds_new fun _ => rfl).trans (h.step.of_store hf side)⟩
        · exact .inl (hb.trans hlock)
      · exact .inr ⟨j, (h.owes hj).resolve_right fun hw => htake hw.2⟩

/-! ## Reachable states -/

variable [DecidableEq V]

theorem Reachable.sectioned (h : s.Reachable) (m : MutexId) (side : Side) : s.Sectioned m side := by
  refine h.induction (P := fun s => s.Sectioned m side) ?_ ?_ ?_ ?_
  · exact fun _ => .free fun _ => rfl
  · exact fun s s' i t k pc a n _ hs ha => ha.sectioned hs
  · intro s s' e i c hr hs ht
    rw [Sectioned, ht.sh]
    exact hs.keep (ht.holds hr.sane (fun _ => Pc.not_inSection_of_begins side)
      (fun _ => Pc.not_inSection_of_pending side) m)
  · intro s s' e _ hs ha
    rw [Sectioned, ha.around.mutex, ha.call]; exact hs

theorem Reachable.covered (h : s.Reachable) (m : MutexId) (side : Side) : s.Covered m side := by
  refine h.induction (P := fun s => s.Covered m side) ?_ ?_ ?_ ?_
  · rintro cfg (hw | ⟨j, hj⟩)
    · exact absurd rfl hw
    · cases hj
  · exact fun s s' i t k pc a n hr hs ha => ha.covered (hr.sectioned m side) hs
  · intro s s' e i c hr hs ht
    have hpush := ht.holds hr.sane (fun _ => Pc.not_pushing_of_begins side)
      (fun _ => Pc.not_pushing_of_pending side) m
    have howes := ht.holds hr.sane (fun _ => Pc.not_owes_of_begins side)
      (fun _ => Pc.not_owes_of_pending side) m
    simp only [Covered, hpush, howes, ht.sh]
    exact hs
  · intro s s' e _ hs ha
    rw [Covered, ha.around.mutex, ha.call]; exact hs

end State

/-! ## Nobody is stranded -/

/-- Inside `Guard::drop`, past its store. -/
def Pc.inGuardDrop : Pc V → Bool
  | .unlock .store _ => false
  | .unlock _ _ => true
  | _ => false

theorem Pc.inGuardDrop_of_owes {pc : Pc V} {side : Side} (h : pc.owes side = true) :
    pc.inGuardDrop = true := by
  cases pc with
  | unlock u ret => cases u <;> first | rfl | cases h
  | _ => cases h

/-- The receiver that a lock future waits for. -/
def LockPc.receiver? : LockPc → Option Nat
  | .await n | .raceNotify _ n _ | .raceTimeout _ n _ => some n
  | _ => none

theorem LockPc.awaits_receiver {l : LockPc} {x : Nat} (h : l.receiver? = some x) (t : Option ThreadId) :
    l.awaits t = some (.async, .cont x) := by
  cases l <;> cases h <;> rfl

theorem Call.inGuardDrop_of_delivers {c : Call V} {m : MutexId} {side : Side} {w : Waker}
    (h : w ∈ c.delivers (.mutex m side)) : c.holds (Next.isAt Pc.inGuardDrop) m = true := by
  cases c with
  | running t k pc =>
    simp only [Call.delivers] at h
    unfold Pc.delivers at h
    split at h
    case h_1 k' w' ws ret m' side' he =>
      cases he
      split at h
      · rename_i hm
        simp [Call.holds, hm, Next.isAt, Next.pc?, Pc.inGuardDrop]
      · cases h
    case h_2 he | h_3 he => cases he
    case h_4 => cases h
  | _ => cases h

namespace State

variable {s : State V}

def NoGuardDrop (s : State V) (m : MutexId) : Prop :=
  ∀ j < s.used, (s.call j).holds (Next.isAt Pc.inGuardDrop) m = false

instance (s : State V) (m : MutexId) : Decidable (s.NoGuardDrop m) :=
  inferInstanceAs (Decidable (∀ j < s.used, _))

theorem NoGuardDrop.holds {m : MutexId} (h : s.NoGuardDrop m) (hs : s.Sane) (j : CallId) :
    (s.call j).holds (Next.isAt Pc.inGuardDrop) m = false := by
  by_cases hj : j < s.used
  · exact h j hj
  · rw [hs.numbered j (Nat.le_of_not_lt hj)]; rfl

/-- Nobody waits for the mutex without a wake. -/
structure NoneStranded (s : State V) (m : MutexId) : Prop where
  lists : ∀ side, (s.sh.mutex m).waiting side = []
  parked : ∀ i t k d ret, s.call i = .running t k (.lock (.park d) ret) → k.mutex = m →
    s.sh.woken (.thread t) = true
  awaited : ∀ i k l ret x, (s.call i).caller? = some k → (s.call i).pc? = some (.lock l ret) →
    k.mutex = m → l.receiver? = some x → s.sh.woken (.cont x) = true

variable [DecidableEq V]

theorem Reachable.none_stranded (h : s.Reachable) (m : MutexId)
    (hfree : (s.sh.mutex m).dataLock = false) (hdrop : s.NoGuardDrop m) : s.NoneStranded m := by
  have hlists : ∀ side, (s.sh.mutex m).waiting side = [] := by
    intro side
    by_contra hw
    rcases h.covered m side (.inl hw) with hlock | ⟨j, hj⟩
    · rw [hfree] at hlock; cases hlock
    · have hj := Call.holds_mono (fun _ => Next.isAt_mono fun _ => Pc.inGuardDrop_of_owes) hj
      rw [hdrop.holds h.sane] at hj; cases hj
  -- What waits at the mutex is in no list, and nobody delivers to it.
  have hwoken : ∀ i side w, (s.call i).awaits = some (.mutex m side, w) → s.sh.woken w = true := by
    intro i side w hi
    rcases h.delivered i _ w hi with hw | ⟨j, hw⟩ | hw
    · simp [Shared.waitingAt, hlists side] at hw
    · have := Call.inGuardDrop_of_delivers hw
      rw [hdrop.holds h.sane] at this; cases this
    · exact hw
  refine ⟨hlists, fun i t k d ret hi hm => hwoken i .sync _ ?_, fun i k l ret x hk hl hm hx => ?_⟩
  · simp [hi, Call.awaits, Pc.awaits, LockPc.awaits, hm]
  · refine hwoken i .async _ ?_
    revert hk hl
    cases s.call i with
    | running t k' pc | suspended k' pc =>
      rintro ⟨⟩ ⟨⟩
      simp [Call.awaits, Pc.awaits, LockPc.awaits_receiver hx, hm]
    | _ => rintro ⟨⟩ ⟨⟩

theorem none_stranded_parked : ∃ s : State Nat,
    exec State.step (⟨fun _ => true, 0, 0⟩ : Config).init
      [.begin 0 (.lock 0 .tryLock), .act 0 (.mutex (.cas true)), .begin 1 (.lock 0 .lockBlock),
        .act 1 (.mutex (.enter .sync)), .act 1 (.mutex (.cas false)), .act 1 (.push .sync 0),
        .act 1 (.mutex (.leave .sync)), .dropGuard 0 0, .act 0 (.mutex .store),
        .act 0 (.mutex (.take .sync [.thread 1])), .act 0 (.wake (.thread 1)),
        .act 0 (.mutex (.take .async []))] = some s ∧
      s.NoneStranded (.user 0) := by
  refine exists_of_exec
    (fun s => !(s.sh.mutex (.user 0)).dataLock && decide (s.NoGuardDrop (.user 0))) rfl fun s h hq => ?_
  simp only [Bool.and_eq_true, Bool.not_eq_true', decide_eq_true_eq] at hq
  exact h.none_stranded (.user 0) hq.1 hq.2

end State

end WasmSafeMutex
