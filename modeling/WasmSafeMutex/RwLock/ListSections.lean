import WasmSafeMutex.Lib.Atomic
import WasmSafeMutex.RwLock.Linear
import WasmSafeMutex.RwLock.Progress

/-!
# The sections of the four lists of a `RwLock`

The drop of a guard takes a list with `with_mut(std::mem::take)`, which is one operation of the model. The
sections in which a lock call tries and pushes are several operations there.
-/

namespace WasmSafeMutex.RwLock

open Interleaving

variable {T : Type}

/-- The list that the code is about to lock, for a section that is one operation. -/
def Pc.takes : Pc → Option Queue
  | .drop (.take q _) => some q
  | _ => none

namespace State

variable {s s' : State T} {e : Event T} {i : CallId} {t : ThreadId} {a : Access} {pc : Pc} {q : Queue}

/-! ## Who is in a section of several operations -/

/-- A call that is in the section of a list has locked it. This holds after a panic too. -/
structure Inside (s : State T) : Prop where
  locked : ∀ q i, (s.call i).inSection q = true → s.sh.locked q = true
  one : ∀ q i j, (s.call i).inSection q = true → (s.call j).inSection q = true → i = j

theorem Inside.nobody (h : s.Inside) (hl : s.sh.locked q = false) (j : CallId) : (s.call j).inSection q = false := by
  cases hj : (s.call j).inSection q with
  | false => rfl
  | true => cases hl.symm.trans (h.locked q j hj)

theorem Inside.acted {sh : Shared T} {n : Next} (h : s.Inside) (hc : s.call i = .running t a pc)
    (hs : pc.Step s.sh i t a sh n) : ({ s.setCall i (n.call t a) with sh := sh } : State T).Inside := by
  have hold : ∀ q, (s.call i).inSection q = (decide (a = q.1) && pc.inSection q.2) := by
    intro q; rw [hc]; rfl
  have hself : ∀ q, ((s.setCall i (n.call t a)).call i).inSection q = (decide (a = q.1) && n.inSection q.2) := by
    intro q; simp [setCall, Next.inSection_call]
  have hne : ∀ q j, j ≠ i → ((s.setCall i (n.call t a)).call j).inSection q = (s.call j).inSection q := by
    intro q j hj; simp [setCall, hj]
  -- The call locks the list, or nobody is in its section any more, or nobody comes to it.
  have hcases : ∀ q, s.sh.locked q = false ∧ sh.locked q = true ∨
      (∀ j, ((s.setCall i (n.call t a)).call j).inSection q = false) ∨
      sh.locked q = s.sh.locked q ∧
        ∀ j, ((s.setCall i (n.call t a)).call j).inSection q = true → (s.call j).inSection q = true := by
    intro q
    have hsub : (((s.setCall i (n.call t a)).call i).inSection q = true → (s.call i).inSection q = true) →
        ∀ j, ((s.setCall i (n.call t a)).call j).inSection q = true → (s.call j).inSection q = true := by
      intro hi j hj
      by_cases hji : j = i
      · subst hji; exact hi hj
      · rwa [hne q j hji] at hj
    have ho := hold q
    have hn := hself q
    by_cases ha : a = q.1
    · subst ha
      simp only [decide_true, Bool.true_and] at ho hn
      rcases hs.sections q.2 with ⟨hl, hl', -⟩ | ⟨-, hp, hout⟩ | ⟨hl, hsame⟩ | ⟨rfl, -, rfl⟩
      · exact .inl ⟨hl, hl'⟩
      · refine .inr (.inl fun j => ?_)
        by_cases hj : j = i
        · subst hj
          exact hn.trans hout
        · rw [hne q j hj]
          by_contra hin
          exact hj (h.one q j i ((Bool.not_eq_false _).mp hin) (ho.trans hp))
      · exact .inr (.inr ⟨hl, hsub fun hi => by rw [ho, ← hsame, ← hn]; exact hi⟩)
      · exact .inr (.inr ⟨rfl, hsub fun hi => by cases hi.symm.trans hn⟩)
    · rw [decide_eq_false ha, Bool.false_and] at hn
      exact .inr (.inr ⟨hs.locked_ne (Ne.symm ha), hsub fun hi => by cases hi.symm.trans hn⟩)
  constructor
  · intro q j hj
    rcases hcases q with ⟨-, hl⟩ | hnone | ⟨hl, hsub⟩
    · exact hl
    · cases hj.symm.trans (hnone j)
    · exact hl.trans (h.locked q j (hsub j hj))
  · intro q j k hj hk
    rcases hcases q with ⟨hl, -⟩ | hnone | ⟨-, hsub⟩
    · have honly : ∀ j, ((s.setCall i (n.call t a)).call j).inSection q = true → j = i := by
        intro j hj
        by_contra hji
        rw [hne q j hji, h.nobody hl j] at hj
        cases hj
      rw [honly j hj, honly k hk]
    · cases hj.symm.trans (hnone j)
    · exact h.one q j k (hsub j hj) (hsub k hk)

theorem Inside.step (h : s.Inside) (hr : s.Reachable) (hstep : s.step e = some s') : s'.Inside := by
  cases stepped_of_step hr.counted.numbered hstep with
  | acted _ i t a pc sh n he hc hs => exact h.acted hc hs
  | turned _ i c used ht =>
    have hsame : ∀ q j, ((s.setCall i c).call j).inSection q = (s.call j).inSection q := by
      intro q j
      by_cases hj : j = i
      · subst hj
        simpa [setCall] using Call.Turn.inSection ht (hr.counted.fits j) q
      · simp [setCall, hj]
    refine ⟨fun q j hj => h.locked q j ((hsame q j).symm.trans hj), fun q j k hj hk => ?_⟩
    exact h.one q j k ((hsame q j).symm.trans hj) ((hsame q k).symm.trans hk)
  | wrote | unpark | parkElsewhere => exact ⟨h.locked, h.one⟩

theorem inside_init (x : T) (w : ThreadId → Bool) : (init x w).Inside where
  locked q i hi := by cases hi
  one q i j hi _ := by cases hi

theorem Reachable.inside (hr : s.Reachable) : s.Inside := by
  obtain ⟨x, w, hrun⟩ := hr
  have h : s.Reachable ∧ s.Inside := by
    refine hrun.invariant (P := fun s => s.Reachable ∧ s.Inside)
      ⟨⟨x, w, .refl⟩, inside_init x w⟩ fun s s' e hs _ hstep => ?_
    exact ⟨hs.1.step hstep, hs.2.step hs.1 hstep⟩
  exact h.2

/-! ## The sections of one operation -/

def writeList (s : State T) (q : Queue) (ws : List Waker) : State T := { s with sh := s.sh.setList q ws }

def within (s : State T) : Event T → Option Queue
  | .act i =>
    match s.call i with
    | .running _ _ pc => pc.takes
    | _ => none
  | _ => none

def takes (s : State T) (i : CallId) : Option (ThreadId × Queue) :=
  match s.call i with
  | .running t _ pc => pc.takes.map fun q => (t, q)
  | _ => none

def enters (s : State T) : Event T → Option Queue
  | .act i =>
    match s.call i with
    | .running _ a (.lock (.enter k)) => some (a, k)
    | _ => none
  | _ => none

/-- The thread on which the event happens. -/
def thread (s : State T) : Event T → Option ThreadId
  | .begin t _ _ | .dropGuard _ t | .poll _ t | .parkElsewhere t => some t
  | .act i | .spurious i => (s.call i).thread?
  | _ => none

def sections : Coarse (State T) (Event T) CallId ThreadId Queue where
  step := State.step
  thread := thread
  within := within
  next := takes
  opens := enters
  locked s q := s.sh.locked q
  Data _ := List Waker
  read q s := s.sh.waiting q
  write q ws s := s.writeList q ws

theorem running_of_takes (h : s.takes i = some (t, q)) :
    ∃ a pc, s.call i = .running t a pc ∧ pc.takes = some q := by
  unfold takes at h
  split at h
  case h_2 => cases h
  case h_1 t' a pc hi =>
    obtain ⟨q', hq, he⟩ := Option.map_eq_some_iff.mp h
    cases he
    exact ⟨a, pc, hi, hq⟩

/-! ## The rules of these sections -/

/-- A list changes only in its sections. -/
theorem Inside.keeps_list {sh : Shared T} {n : Next} (h : s.Inside) (hc : s.call i = .running t a pc)
    (hs : pc.Step s.sh i t a sh n) (hl : s.sh.locked q = false) (hq : pc.takes ≠ some q) :
    sh.waiting q = s.sh.waiting q := by
  cases hs with
  | take q' qs hl' =>
    have hne : q ≠ q' := by
      rintro rfl
      exact hq rfl
    simp [Shared.setList, hne]
  | push k =>
    have hne : q ≠ (a, k) := by
      rintro rfl
      have hin := h.nobody hl i
      simp [hc, Call.inSection, Pc.inSection, LockPc.inSection] at hin
    simp [Shared.setList, hne]
  | _ => rfl

/-- Nothing fails or returns for no reason where a call is about to lock a list. -/
theorem act_of_acted (he : e = .act i ∨ e = .spurious i) (hc : s.call i = .running t a pc)
    (hp : pc.spurious s.sh = none) (hstep : s.step e = some s') : e = .act i := by
  rcases he with rfl | rfl
  · rfl
  · simp [step, hc, hp] at hstep

theorem Reachable.keeps_list (hr : s.Reachable) (hstep : s.step e = some s') (hl : s.sh.locked q = false)
    (hq : s.within e ≠ some q) : s'.sh.waiting q = s.sh.waiting q := by
  cases stepped_of_step hr.counted.numbered hstep with
  | acted _ i t a pc sh n he hc hs =>
    refine hr.inside.keeps_list hc hs hl fun hp => ?_
    obtain rfl : e = .act i := by
      refine act_of_acted he hc ?_ hstep
      unfold Pc.takes at hp
      split at hp
      · rfl
      · cases hp
    exact hq (by simp [within, hc, hp])
  | turned _ i c used ht => rfl
  | wrote | unpark | parkElsewhere => rfl

theorem Reachable.enters_of_locked (hr : s.Reachable) (hstep : s.step e = some s') (hl : s.sh.locked q = false)
    (hl' : s'.sh.locked q = true) : s.enters e = some q ∧ s.within e = none := by
  cases stepped_of_step hr.counted.numbered hstep with
  | acted _ i t a pc sh n he hc hs =>
    change sh.locked q = true at hl'
    cases hs with
    | enter k hk =>
      obtain rfl : q = (a, k) := by
        by_contra hq
        simp [Shared.lockList, hq, hl] at hl'
      obtain rfl : e = .act i := act_of_acted he hc rfl hstep
      simp [enters, within, hc, Pc.takes]
    | leaveOwner k | leave k =>
      simp only [Shared.lockList, Function.update_apply] at hl'
      split at hl'
      · cases hl'
      · cases hl.symm.trans hl'
    | _ => cases hl.symm.trans hl'
  | turned | wrote | unpark | parkElsewhere => cases hl.symm.trans hl'

theorem Reachable.takes_keeps (hr : s.Reachable) (hstep : s.step e = some s') (ht : s.takes i = some (t, q))
    (he : s.thread e ≠ some t) : s'.takes i = some (t, q) := by
  obtain ⟨a, pc, hi, -⟩ := running_of_takes ht
  have hsame : s'.call i = s.call i → s'.takes i = some (t, q) := by
    intro hcall
    rwa [takes, hcall]
  apply hsame
  cases stepped_of_step hr.counted.numbered hstep with
  | acted _ j t' a' pc' sh n hj hc hs =>
    have hij : i ≠ j := by
      rintro rfl
      cases hc.symm.trans hi
      rcases hj with rfl | rfl <;> exact he (by simp [thread, hi, Call.thread?])
    simp [setCall, hij]
  | turned _ j c used hturn =>
    have hij : i ≠ j := by
      rintro rfl
      rw [hi] at hturn
      cases hturn
    simp [setCall, hij]
  | wrote | unpark | parkElsewhere => rfl

theorem takes_enabled (ht : s.takes i = some (t, q)) (hl : s.sh.locked q = false) :
    ∃ s', s.step (.act i) = some s' ∧ s.thread (.act i) = some t ∧ s.within (.act i) = some q := by
  obtain ⟨a, pc, hi, hp⟩ := running_of_takes ht
  have hable : pc.able s.sh a t = true := by
    unfold Pc.takes at hp
    split at hp
    · cases hp
      simpa [Pc.able] using hl
    · cases hp
  obtain ⟨s', hstep⟩ := goes_on hi hable
  exact ⟨s', hstep, by simp [thread, hi, Call.thread?], by simp [within, hi, hp]⟩

/-- Only an operation of a call is a section, and the list is free then. -/
theorem of_within (hstep : s.step e = some s') (hw : s.within e = some q) :
    ∃ i t, s.thread e = some t ∧ s.takes i = some (t, q) ∧ s.sh.locked q = false := by
  cases e with
  | act i =>
    simp only [within] at hw
    split at hw
    case h_2 => cases hw
    case h_1 t a pc hi =>
      refine ⟨i, t, by simp [thread, hi, Call.thread?], by simp [takes, hi, hw], ?_⟩
      simp only [step, hi] at hstep
      obtain ⟨⟨sh, n⟩, hx, -⟩ := Option.map_eq_some_iff.mp hstep
      unfold Pc.takes at hw
      split at hw
      case h_2 => cases hw
      case h_1 q' qs =>
        cases hw
        cases Pc.step_of_act hx with
        | take q qs hl => exact hl
  | _ => cases hw

theorem sections_lawful : (sections (T := T)).Lawful Reachable where
  step _ _ _ hs h := hs.step h
  write_read s q := by simp [sections, writeList, Shared.setList]
  unlocked _ _ _ _ _ h hw := by
    obtain ⟨i, t, -, -, hl⟩ := of_within h hw
    exact hl
  taker _ _ _ _ _ h hw := by
    obtain ⟨i, t, ht, hn, -⟩ := of_within h hw
    exact ⟨i, t, ht, hn⟩
  opens _ _ _ _ hs h hl hl' := hs.enters_of_locked h hl hl'
  keeps _ _ _ _ hs h hl hw := hs.keeps_list h hl hw
  waits _ _ _ _ _ _ hs h ht he := hs.takes_keeps h ht he
  enabled s i t q _ ht hl := (takes_enabled ht hl).elim fun s' h => ⟨.act i, s', h⟩

end State

end WasmSafeMutex.RwLock
