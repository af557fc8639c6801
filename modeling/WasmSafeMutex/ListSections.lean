import WasmSafeMutex.Progress
import WasmSafeMutex.RwLock.ListSections

/-!
# The sections of the waiting lists

Each waiting list is in a `Spinlock`. Where the code does no more in `with_mut` than to look at the list or to
change it, the model takes this as one operation.
-/

namespace WasmSafeMutex

open Interleaving

variable {V : Type}

/-! ## The lists of the mutexes and the condition variables -/

/-- The list that the code is about to lock, for a section that is one operation. -/
def Pc.takes (m : MutexId) : Pc V → Option Place
  | .unlock (.take side) _ => some (.mutex m side)
  | .wait f .register => some (.condvar f.cv f.kind)
  | .wait f (.spinRemove _) => some (.condvar f.cv .spin)
  | .wait f (.blockRemove _) | .wait f (.blockCheck _ _) => some (.condvar f.cv .sync)
  | .wait f (.asyncRemove _) => some (.condvar f.cv .async)
  | .notify c (.pop k) | .notify c (.take k) => some (.condvar c k)
  | _ => none

/-- The list whose section the operation is. -/
def Act.within (m : MutexId) : Act V → Option Place
  | .mutex (.take side _) => some (.mutex m side)
  | .condvar c (.pop k _) | .condvar c (.take k _) | .condvar c (.remove k _ _) => some (.condvar c k)
  | .condvar c (.has _) => some (.condvar c .sync)
  | .register c k _ => some (.condvar c k)
  | _ => none

theorem Pc.Step.within {k : Caller V} {pc : Pc V} {a : Act V} {n : Next V} (h : pc.Step k a n) :
    a.within k.mutex = pc.takes k.mutex := by
  cases h with
  | lock l ret a o ho => cases ho <;> rfl
  | unlock u ret a o ho => cases ho <;> rfl
  | wait f w a o ho => cases ho <;> rfl
  | notify c x a o ho => cases ho <;> rfl
  | _ => rfl

def Place.Data : Place → Type
  | .mutex _ _ => List Waker
  | .condvar _ _ => List Entry

/-- The thread on which the event happens. -/
def Event.thread (s : State V) : Event V → Option ThreadId
  | .begin t _ | .wait _ t _ _ | .dropGuard _ t | .poll _ t => some t
  | .act i _ => (s.call i).thread?
  | _ => none

theorem Shared.Applied.unlocked_of_within {sh sh' : Shared V} {m x : MutexId} {i : CallId} {t : ThreadId} {a : Act V}
    (h : sh.Applied m i t a sh') {side : Side} (hw : a.within m = some (.mutex x side)) :
    (sh.mutex x).locked side = false := by
  cases h with
  | mutex a y hy =>
    cases hy with
    | take side' hl => cases hw; exact hl
    | _ => cases hw
  | condvar c a y hy => cases hy <;> cases hw
  | _ => cases hw

namespace State

def readList (s : State V) : (p : Place) → p.Data
  | .mutex m side => (s.sh.mutex m).waiting side
  | .condvar c k => (s.sh.condvar c).waiting k

def writeList (s : State V) : (p : Place) → p.Data → State V
  | .mutex m side, ws =>
    { s with sh := s.sh.setMutex m { s.sh.mutex m with
        waiting := Function.update (s.sh.mutex m).waiting side ws } }
  | .condvar c k, es => { s with sh := s.sh.setCondvar c ((s.sh.condvar c).set k es) }

def within (s : State V) : Event V → Option Place
  | .act i a =>
    match s.call i with
    | .running _ k _ => a.within k.mutex
    | _ => none
  | _ => none

def takes (s : State V) (i : CallId) : Option (ThreadId × Place) :=
  match s.call i with
  | .running t k pc => (pc.takes k.mutex).map fun p => (t, p)
  | _ => none

def enters (s : State V) : Event V → Option Place
  | .act i (.mutex (.enter side)) =>
    match s.call i with
    | .running _ k _ => some (.mutex k.mutex side)
    | _ => none
  | _ => none

def listLocked (s : State V) : Place → Bool
  | .mutex m side => (s.sh.mutex m).locked side
  | .condvar _ _ => false

variable {s s' : State V} {e : Event V} {i : CallId} {t : ThreadId} {k : Caller V} {pc : Pc V} {a : Act V}
  {n : Next V} {p : Place}

theorem writeList_readList (s : State V) (p : Place) : s.writeList p (s.readList p) = s := by
  cases p with
  | mutex m side => simp [writeList, readList, Shared.setMutex]
  | condvar c k => simp [writeList, readList, Shared.setCondvar, CondvarState.set_self]

theorem readList_same (hm : s'.sh.mutex = s.sh.mutex) (hc : s'.sh.condvar = s.sh.condvar) (p : Place) :
    s'.readList p = s.readList p := by
  cases p with
  | mutex m side => exact congrArg (fun x => (x m).waiting side) hm
  | condvar c k => exact congrArg (fun x => (x c).waiting k) hc

theorem running_of_takes (h : s.takes i = some (t, p)) :
    ∃ k pc, s.call i = .running t k pc ∧ pc.takes k.mutex = some p := by
  unfold takes at h
  split at h
  case h_2 => cases h
  case h_1 t' k pc hi =>
    obtain ⟨q, hq, he⟩ := Option.map_eq_some_iff.mp h
    cases he
    exact ⟨k, pc, hi, hq⟩

theorem Acted.within (ha : Acted s s' i t k pc a n) : s.within (.act i a) = a.within k.mutex := by
  simp [State.within, ha.running]

theorem Acted.event_thread (ha : Acted s s' i t k pc a n) : (Event.act i a).thread s = some t := by
  simp [Event.thread, ha.running, Call.thread?]

theorem Acted.takes (ha : Acted s s' i t k pc a n) : s.takes i = (a.within k.mutex).map fun p => (t, p) := by
  simp [State.takes, ha.running, ha.step.within]

variable [DecidableEq V]

def sections : Coarse (State V) (Event V) CallId ThreadId Place where
  step := State.step
  thread s e := e.thread s
  within := within
  next := takes
  opens := enters
  locked := listLocked
  Data := Place.Data
  read p s := s.readList p
  write p d s := s.writeList p d

/-! ## The rules of these sections -/

/-- Only an operation of a call is a section. -/
theorem acted_of_within (h : s.step e = some s') (hw : s.within e = some p) :
    ∃ i t k pc a n, e = .act i a ∧ Acted s s' i t k pc a n ∧ a.within k.mutex = some p := by
  cases e with
  | act i a =>
    obtain ⟨t, k, pc, n, ha⟩ := act_acted h
    exact ⟨i, t, k, pc, a, n, rfl, ha, ha.within.symm.trans hw⟩
  | _ => cases hw

/-- A call that pushes is in the section of a list that is locked. -/
theorem Reachable.locked_of_push (hr : s.Reachable) {side : Side} {x : Nat}
    (ha : Acted s s' i t k pc (.push side x) n) : (s.sh.mutex k.mutex).locked side = true := by
  refine (hr.sectioned k.mutex side).set_of_holds (i := i) ?_
  rw [ha.holds_old]
  exact Pc.inSection_of_pushing ha.step.of_push

theorem Reachable.keeps_mutex_list (hr : s.Reachable) (ha : Acted s s' i t k pc a n) {m : MutexId} {side : Side}
    (hl : (s.sh.mutex m).locked side = false) (hw : a.within k.mutex ≠ some (.mutex m side)) :
    (s'.sh.mutex m).waiting side = (s.sh.mutex m).waiting side := by
  by_cases hm : m = k.mutex
  · subst hm
    have hpush : ∀ x, a ≠ .push side x := by
      rintro x rfl
      cases hl.symm.trans (hr.locked_of_push ha)
    have happ := ha.applied
    generalize s'.sh = sh' at happ
    cases happ with
    | mutex a y hy =>
      cases hy with
      | take side' hl' =>
        have hne : side ≠ side' := by
          rintro rfl
          exact hw rfl
        simp [Shared.setMutex, hne]
      | _ => simp [Shared.setMutex]
    | push side' =>
      have hne : side ≠ side' := by
        rintro rfl
        exact hpush _ rfl
      simp [Shared.setMutex, MutexState.push, hne]
    | _ => rfl
  · rw [ha.applied.mutex_ne hm]

omit [DecidableEq V] in
theorem keeps_condvar_list {sh sh' : Shared V} {m : MutexId} (h : sh.Applied m i t a sh') {c : CondvarId} {x : Kind}
    (hw : a.within m ≠ some (.condvar c x)) : (sh'.condvar c).waiting x = (sh.condvar c).waiting x := by
  have hset : ∀ c' k es, (c = c' → x ≠ k) →
      ((sh.setCondvar c' ((sh.condvar c').set k es)).condvar c).waiting x = (sh.condvar c).waiting x := by
    intro c' k es hne
    by_cases hc : c = c'
    · subst hc
      simp [Shared.setCondvar, CondvarState.set, hne rfl]
    · simp [Shared.setCondvar, hc]
  have hne : ∀ c' k, a.within m = some (.condvar c' k) → c = c' → x ≠ k := by
    rintro c' k ha rfl rfl
    exact hw ha
  cases h with
  | condvar c' a y hy =>
    cases hy with
    | popSome k | removed k | take k => exact hset _ _ _ (hne c' k rfl)
    | popNone | has | absent => simp [Shared.setCondvar]
  | register c' k => exact hset _ _ _ (hne c' k rfl)
  | _ => rfl

theorem Reachable.keeps_list (hr : s.Reachable) (h : s.step e = some s') (hl : s.listLocked p = false)
    (hw : s.within e ≠ some p) : s'.readList p = s.readList p := by
  rcases step_cases hr.sane.numbered h with ⟨i, a, t, k, pc, n, rfl, ha⟩ | ⟨i, c, ht⟩ | ha
  · rw [ha.within] at hw
    cases p with
    | mutex m side => exact hr.keeps_mutex_list ha hl hw
    | condvar c x => exact keeps_condvar_list ha.applied hw
  · exact readList_same (by rw [ht.sh]) (by rw [ht.sh]) p
  · exact readList_same ha.around.mutex ha.around.condvar p

theorem Reachable.enters_of_locked (hr : s.Reachable) (h : s.step e = some s') (hl : s.listLocked p = false)
    (hl' : s'.listLocked p = true) : s.enters e = some p ∧ s.within e = none := by
  cases p with
  | condvar c x => cases hl'
  | mutex m side =>
    change (s.sh.mutex m).locked side = false at hl
    change (s'.sh.mutex m).locked side = true at hl'
    rcases step_cases hr.sane.numbered h with ⟨i, a, t, k, pc, n, rfl, ha⟩ | ⟨i, c, ht⟩ | ha
    · by_cases hm : m = k.mutex
      · subst hm
        rcases ha.applied.sections side with ⟨rfl, -, -⟩ | ⟨-, hb⟩ | ⟨-, -, hb⟩
        · exact ⟨by simp [enters, ha.running], ha.within⟩
        · cases hl'.symm.trans hb
        · cases hl'.symm.trans (hb.trans hl)
      · rw [ha.applied.mutex_ne hm, hl] at hl'
        cases hl'
    · rw [ht.sh, hl] at hl'
      cases hl'
    · rw [ha.around.mutex, hl] at hl'
      cases hl'

theorem Reachable.takes_keeps (hr : s.Reachable) (h : s.step e = some s') (ht : s.takes i = some (t, p))
    (he : e.thread s ≠ some t) : s'.takes i = some (t, p) := by
  obtain ⟨k, pc, hi, -⟩ := running_of_takes ht
  rcases call_cases hr.sane.numbered h i with hcall | ⟨a, t', k', pc', n, rfl, ha⟩ | ⟨c, hturn⟩
  · rw [State.takes, hcall]
    exact ht
  · obtain rfl : t' = t := by cases ha.running.symm.trans hi; rfl
    exact absurd ha.event_thread he
  · have hmove := hturn.turn
    rw [hi] at hmove
    cases hmove

theorem Reachable.enters_takes (hr : s.Reachable) (ht : s.takes i = some (t, p)) (hl : s.listLocked p = false) :
    ∃ a s', s.step (.act i a) = some s' ∧ (Event.act i a).thread s = some t ∧ s.within (.act i a) = some p := by
  obtain ⟨k, pc, hi, hp⟩ := running_of_takes ht
  have hable : pc.able s.sh k t = true := by
    unfold Pc.takes at hp
    split at hp
    case h_1 side ret =>
      cases hp
      simpa [Pc.able, listLocked] using hl
    case h_9 => cases hp
    all_goals rfl
  obtain ⟨a, s', hstep, -⟩ := hr.goes_on hi hable
  obtain ⟨t', k', pc', n, ha⟩ := act_acted hstep
  cases ha.running.symm.trans hi
  exact ⟨a, s', hstep, ha.event_thread, by rw [ha.within, ha.step.within, hp]⟩

theorem sections_lawful : (sections (V := V)).Lawful Reachable where
  step _ _ _ hs h := hs.step h
  write_read s p := s.writeList_readList p
  unlocked s s' e p _ h hw := by
    obtain ⟨i, t, k, pc, a, n, rfl, ha, hw⟩ := acted_of_within h hw
    cases p with
    | mutex m side => exact ha.applied.unlocked_of_within hw
    | condvar c x => rfl
  taker s s' e p _ h hw := by
    obtain ⟨i, t, k, pc, a, n, rfl, ha, hw⟩ := acted_of_within h hw
    exact ⟨i, t, ha.event_thread, ha.takes.trans (by rw [hw]; rfl)⟩
  opens _ _ _ _ hs h hl hl' := hs.enters_of_locked h hl hl'
  keeps _ _ _ _ hs h hl hw := hs.keeps_list h hl hw
  waits _ _ _ _ _ _ hs h ht he := hs.takes_keeps h ht he
  enabled s i t p hs ht hl := by
    obtain ⟨a, s', h, hat, haw⟩ := hs.enters_takes ht hl
    exact ⟨.act i a, s', h, hat, haw⟩

end State

/-! ## The result -/

/-- A section that is one operation of the model is as good as one operation of the code. Where its
`with_mut` swaps a bit, reads the list, writes it back and clears the bit, the runs are those of the
model. The sections of a list exclude each other, also those of several operations, and one
that is taken apart ends by itself. -/
theorem list_sections_atomic [DecidableEq V] {T : Type} (cfg : Config) (x : T) (w : ThreadId → Bool) :
    (State.sections (V := V)).Atomic cfg.init ∧ (RwLock.State.sections (T := T)).Atomic (RwLock.init x w) :=
  ⟨State.sections_lawful.atomic ⟨cfg, .refl⟩,
    RwLock.State.sections_lawful.atomic (RwLock.State.init_reachable x w)⟩

/-- Two notifications meet at one list. The second spins until the first has left. -/
example : (exec (State.sections (V := Nat)).fineStep (State.sections.fine (Config.init ⟨fun _ => true, 0, 0⟩))
    [.other (.begin 0 (.notifyOne 0)), .other (.begin 1 (.notifyOne 0)), .swap 0 false, .load 0, .swap 1 true,
      .store 0 (.act 0 (.condvar (.user 0) (.pop .spin none))), .swap 1 true, .release 0,
      .swap 1 false]).isSome = true := rfl

end WasmSafeMutex
