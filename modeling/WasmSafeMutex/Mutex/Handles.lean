import WasmSafeMutex.Entries
import WasmSafeMutex.Lib.Ledger
import WasmSafeMutex.Lib.Noted
import WasmSafeMutex.Mutex.TimedLock

/-!
# The handles of a timed lock

Every handle or sender that a lock call puts into a list of its mutex is followed until an
unlocking call wakes it. Nobody else takes it out, not even the call that put it there.
-/

namespace WasmSafeMutex

open Interleaving
open scoped List

variable {V : Type}

/-! ## The notes -/

/-- One `push` of a lock call. -/
structure Handle where
  call : CallId
  mutex : MutexId
  side : Side
  number : Nat
  waker : Waker
  deriving DecidableEq

def Handle.isIn (m : MutexId) (k : Side) (x : Handle) : Bool := decide (x.mutex = m ∧ x.side = k)

structure Handles where
  registered : List Handle
  /-- In a waiting list. -/
  listed : List Handle
  /-- Taken out of a waiting list by this call, which has still to wake them. -/
  detached : List (CallId × Handle)
  /-- Unparked or sent to. -/
  woken : List Handle

namespace Handles

def new : Handles := ⟨[], [], [], []⟩

def listedIn (h : Handles) (m : MutexId) (k : Side) : List Handle := h.listed.filter (Handle.isIn m k)

def isWith (j : CallId) (x : CallId × Handle) : Bool := decide (x.1 = j)

def heldBy (h : Handles) (j : CallId) : List Handle := (h.detached.filter (isWith j)).map Prod.snd

def push (h : Handles) (x : Handle) : Handles :=
  { h with registered := h.registered ++ [x], listed := h.listed ++ [x] }

def detach (h : Handles) (j : CallId) (m : MutexId) (k : Side) : Handles :=
  { h with
    listed := h.listed.filter fun x => !x.isIn m k
    detached := h.detached ++ (h.listedIn m k).map (Prod.mk j) }

def wake (h : Handles) (j : CallId) : Handles :=
  { h with
    detached := h.detached.eraseP (isWith j)
    woken := h.woken ++ ((h.detached.find? (isWith j)).map Prod.snd).toList }

/-- The handles that others than these calls have put into a list. -/
def putByOthers (h : Handles) (is : List CallId) (m : MutexId) (k : Side) : Nat :=
  h.registered.countP fun x => x.isIn m k && decide (x.call ∉ is)

end Handles

def UnlockPc.toWake : UnlockPc → List Waker
  | .wake _ w ws => w :: ws
  | _ => []

/-- The place is in `Guard::drop`. -/
def Pc.unlocks : Pc V → Bool
  | .unlock _ _ => true
  | _ => false

/-- What an unlocking call has detached and has still to wake. -/
def Pc.toWake : Pc V → List Waker
  | .unlock u _ => u.toWake
  | _ => []

def Call.toWake : Call V → List Waker
  | .running _ _ pc => pc.toWake
  | _ => []

/-- What an operation of call `i` at the place `pc` does to the handles. -/
def Handles.after (h : Handles) (i : CallId) (t : ThreadId) (m : MutexId) (pc : Pc V) : Act V → Handles
  | .push k n => h.push ⟨i, m, k, n, k.waker t n⟩
  | .mutex (.take k _) => h.detach i m k
  | .wake _ => if pc.unlocks then h.wake i else h
  | _ => h

namespace State

def note (s : State V) (h : Handles) : Event V → Handles
  | .act i a =>
    match s.call i with
    | .running t k pc => h.after i t k.mutex pc a
    | _ => h
  | _ => h

variable [DecidableEq V]

def stepNoted : State V × Handles → Event V → Option (State V × Handles) := noting State.step note

/-- A run from the start to `s` has left these notes. -/
def Noted (s : State V) (h : Handles) : Prop := ∃ cfg : Config, Run stepNoted (cfg.init, .new) (s, h)

variable {s s' : State V} {h h' : Handles} {e : Event V}

theorem Noted.reachable (hr : s.Noted h) : s.Reachable := by
  obtain ⟨cfg, hrun⟩ := hr
  exact ⟨cfg, run_of_noting hrun⟩

theorem Noted.step (hr : s.Noted h) (hstep : s.step e = some s') : s'.Noted (s.note h e) := by
  obtain ⟨cfg, hrun⟩ := hr
  exact ⟨cfg, hrun.tail trivial (noting_eq_some.mpr ⟨hstep, rfl⟩)⟩

theorem Noted.run (hr : s.Noted h) (hrun : Run stepNoted (s, h) (s', h')) : s'.Noted h' := by
  obtain ⟨cfg, hstart⟩ := hr
  exact ⟨cfg, hstart.trans hrun⟩

/-- The invariant rule for runs with their notes. -/
theorem Noted.induction {P : State V → Handles → Prop} (hr : s.Noted h) (init : ∀ cfg : Config, P cfg.init .new)
    (step : ∀ s h e s', s.Noted h → P s h → s.step e = some s' → P s' (s.note h e)) : P s h := by
  obtain ⟨cfg, hrun⟩ := hr
  refine (noting_invariant (P := fun s h => s.Noted h ∧ P s h) hrun ⟨⟨cfg, .refl⟩, init cfg⟩ ?_).2
  rintro s h e s' ⟨hs, hp⟩ - hstep
  exact ⟨hs.step hstep, step s h e s' hs hp hstep⟩

end State

/-! ## What is still to wake -/

theorem UnlockPc.toWake_drain (k : Caller V) (ret : UnlockRet V) (t : ThreadId) (side : Side)
    (ws : List Waker) : (((UnlockPc.drain side ws).toNext ret).call k t).toWake = ws := by
  cases ws with
  | cons w ws => rfl
  | nil =>
    cases side with
    | sync => rfl
    | async => cases ret <;> rfl

theorem Pc.not_unlocks_of_next {k : Caller V} {pc : Pc V} {a : Act V} {n : Next V} (h : pc.Step k a n)
    (t : ThreadId) (hpc : pc.unlocks = false) : (n.call k t).toWake = [] := by
  cases n with
  | goto pc' =>
    cases pc' with
    | unlock u ret =>
      rcases h.into_unlock rfl with ⟨u₀, rfl, -⟩ | ⟨_, _, _, -, -, rfl, -⟩ | ⟨rfl, -⟩
      · cases hpc
      · rfl
      · rfl
    | _ => rfl
  | _ => rfl

theorem Pc.Step.toWake {k : Caller V} {pc : Pc V} {a : Act V} {n : Next V} (h : pc.Step k a n) (t : ThreadId) :
    (∃ side ws, a = .mutex (.take side ws) ∧ pc.toWake = [] ∧ (n.call k t).toWake = ws) ∨
      (∃ w, a = .wake w ∧ pc.unlocks = true ∧ pc.toWake = w :: (n.call k t).toWake) ∨
      (∀ side ws, a ≠ .mutex (.take side ws)) ∧ (pc.unlocks = true → ∀ w, a ≠ .wake w) ∧
        pc.toWake = [] ∧ (n.call k t).toWake = [] := by
  have hother : pc.unlocks = false → pc.toWake = [] ∧ (n.call k t).toWake = [] := by
    intro hpc
    refine ⟨?_, Pc.not_unlocks_of_next h t hpc⟩
    cases pc <;> first | rfl | cases hpc
  cases h with
  | unlock u ret a o ho =>
    cases ho with
    | store => exact .inr (.inr ⟨by simp, by simp, rfl, rfl⟩)
    | take side ws => exact .inl ⟨side, ws, rfl, rfl, UnlockPc.toWake_drain k ret t side ws⟩
    | wake side w ws =>
      exact .inr (.inl ⟨w, rfl, rfl, by rw [UnlockPc.toWake_drain]; rfl⟩)
  | lock l ret a o ho =>
    exact .inr (.inr ⟨by cases ho <;> simp, by simp [Pc.unlocks], hother rfl⟩)
  | wait f w a o ho =>
    exact .inr (.inr ⟨by cases ho <;> simp, by simp [Pc.unlocks], hother rfl⟩)
  | notify c x a o ho =>
    exact .inr (.inr ⟨by cases ho <;> simp, by simp [Pc.unlocks], hother rfl⟩)
  | _ => exact .inr (.inr ⟨by simp, by simp, hother rfl⟩)

theorem Pc.toWake_of_begins {pc : Pc V} (h : pc.begins = true) : pc.toWake = [] := by
  cases pc with
  | unlock u ret => cases u <;> first | rfl | cases h
  | _ => rfl

theorem Call.Turn.toWake {i : CallId} {e : Event V} {c c' : Call V} (h : Call.Turn i e c c')
    (hp : ∀ k pc, c = .suspended k pc → pc.pending = true) : c.toWake = [] ∧ c'.toWake = [] := by
  cases h with
  | begin t r => exact ⟨rfl, Pc.toWake_of_begins r.begins_entry⟩
  | wait t c w k r => exact ⟨rfl, Pc.toWake_of_begins (w.begins_entry _)⟩
  | dropGuard t k r => exact ⟨rfl, rfl⟩
  | cancel k pc => exact ⟨rfl, rfl⟩
  | poll t k pc =>
    refine ⟨rfl, ?_⟩
    have hpend := hp k pc rfl
    cases pc <;> first | rfl | cases hpend

/-! ## What one operation does to the handles -/

namespace Handles

variable {h : Handles}

/-- What is in a list, and what has been taken out but not woken. -/
def present (h : Handles) : List Handle := h.listed ++ h.detached.map Prod.snd

theorem mem_listedIn {x : Handle} (hx : x ∈ h.listed) : x ∈ h.listedIn x.mutex x.side :=
  List.mem_filter.mpr ⟨hx, by simp [Handle.isIn]⟩

theorem mem_heldBy {j : CallId} {x : Handle} (hx : (j, x) ∈ h.detached) : x ∈ h.heldBy j :=
  List.mem_map.mpr ⟨(j, x), List.mem_filter.mpr ⟨hx, by simp [isWith]⟩, rfl⟩

theorem present_push (x : Handle) : (h.push x).present ~ x :: h.present := by
  unfold present push
  rw [List.append_assoc]
  exact List.perm_middle

theorem present_detach (j : CallId) (m : MutexId) (k : Side) : h.present ~ (h.detach j m k).present := by
  have hsnd : ((h.listedIn m k).map (Prod.mk j)).map Prod.snd = h.listedIn m k := by
    rw [List.map_map]; exact List.map_id _
  have hsplit : h.listed ~ h.listed.filter (fun x => !x.isIn m k) ++ h.listedIn m k :=
    (List.filter_append_perm (Handle.isIn m k) h.listed).symm.trans List.perm_append_comm
  unfold present detach
  rw [List.map_append, hsnd]
  calc h.listed ++ h.detached.map Prod.snd
    _ ~ h.listed.filter (fun x => !x.isIn m k) ++ h.listedIn m k ++ h.detached.map Prod.snd :=
      hsplit.append_right _
    _ ~ h.listed.filter (fun x => !x.isIn m k) ++ (h.listedIn m k ++ h.detached.map Prod.snd) := by
      rw [List.append_assoc]
    _ ~ h.listed.filter (fun x => !x.isIn m k) ++ (h.detached.map Prod.snd ++ h.listedIn m k) :=
      List.perm_append_comm.append_left _

theorem listedIn_push (x : Handle) (m : MutexId) (k : Side) :
    (h.push x).listedIn m k = h.listedIn m k ++ if x.isIn m k then [x] else [] := by
  unfold listedIn push
  rw [List.filter_append]
  by_cases hx : x.isIn m k = true <;> simp [hx]

theorem listedIn_detach (j : CallId) (m m' : MutexId) (k k' : Side) :
    (h.detach j m k).listedIn m' k' = if m' = m ∧ k' = k then [] else h.listedIn m' k' := by
  unfold listedIn detach
  rw [List.filter_filter]
  split
  case isTrue he =>
    obtain ⟨rfl, rfl⟩ := he
    simp
  case isFalse hne =>
    refine List.filter_congr fun x _ => ?_
    by_cases hx : x.isIn m' k' = true
    · obtain ⟨rfl, rfl⟩ := of_decide_eq_true hx
      simp [Handle.isIn, hne]
    · simp [hx]

theorem heldBy_detach (j j' : CallId) (m : MutexId) (k : Side) :
    (h.detach j m k).heldBy j' = h.heldBy j' ++ if j' = j then h.listedIn m k else [] := by
  unfold heldBy detach
  rw [List.filter_append, List.map_append]
  congr 1
  by_cases hj : j' = j
  · simp [List.filter_map, Function.comp_def, isWith, hj]
  · simp [List.filter_map, Function.comp_def, isWith, hj, Ne.symm hj]

/-- A call wakes the first of the handles that it holds. -/
theorem wake_first {j : CallId} {x : Handle} {xs : List Handle} (hj : h.heldBy j = x :: xs) :
    h.present ~ (h.wake j).present ++ [x] ∧ (h.wake j).woken = h.woken ++ [x] ∧
      (h.wake j).heldBy j = xs ∧ ∀ j', j' ≠ j → (h.wake j).heldBy j' = h.heldBy j' := by
  obtain ⟨y, ys, hfilter, rfl, rfl⟩ := List.map_eq_cons_iff.mp hj
  obtain ⟨l₁, l₂, hl, hnone, hy, rfl⟩ := List.filter_eq_cons_iff.mp hfilter
  have hfind : h.detached.find? (isWith j) = some y := by
    rw [hl, List.find?_append, List.find?_eq_none.mpr hnone, List.find?_cons_of_pos hy]
    rfl
  have herase : (h.wake j).detached = l₁ ++ l₂ := by
    change h.detached.eraseP _ = _
    rw [hl, List.eraseP_append_right _ hnone, List.eraseP_cons_of_pos hy]
  refine ⟨?_, by simp [wake, hfind], ?_, fun j' hne => ?_⟩
  · unfold present
    rw [herase, hl]
    simp only [List.map_append, List.map_cons, List.append_assoc]
    refine List.Perm.append_left _ (List.Perm.append_left _ ?_)
    exact (List.perm_append_singleton _ _).symm
  · unfold heldBy
    rw [herase, List.filter_append, List.filter_eq_nil_iff.mpr hnone, List.nil_append]
  · have hout : ¬ isWith j' y = true := by
      intro hy'
      exact hne ((of_decide_eq_true hy').symm.trans (of_decide_eq_true hy))
    unfold heldBy
    rw [herase, hl, List.filter_append, List.filter_append, List.filter_cons_of_neg hout]

end Handles

namespace State

variable {s : State V} {h h' : Handles} {e : Event V} {i : CallId} {t : ThreadId} {k : Caller V} {pc : Pc V}

theorem note_act (hi : s.call i = .running t k pc) (h : Handles) (a : Act V) :
    s.note h (.act i a) = h.after i t k.mutex pc a := by
  simp [note, hi]

/-- What an event does to the notes. -/
inductive NoteStep (s : State V) (e : Event V) (h : Handles) : Handles → Prop
  | same : NoteStep s e h h
  | push (i t k pc side x) : e = .act i (.push side x) → s.call i = .running t k pc →
    NoteStep s e h (h.push ⟨i, k.mutex, side, x, side.waker t x⟩)
  | detach (i m side) : NoteStep s e h (h.detach i m side)
  | wake (i w) : e = .act i (.wake w) → NoteStep s e h (h.wake i)

theorem note_step (s : State V) (h : Handles) (e : Event V) : s.NoteStep e h (s.note h e) := by
  cases e with
  | act i a =>
    cases hi : s.call i with
    | running t k pc =>
      rw [note_act hi]
      unfold Handles.after
      split
      case h_1 side x => exact .push i t k pc side x rfl hi
      case h_2 side ws => exact .detach i k.mutex side
      case h_3 w =>
        split
        case isTrue => exact .wake i w rfl
        case isFalse => exact .same
      case h_4 => exact .same
    | _ =>
      rw [note, hi]
      exact .same
  | _ => exact .same

theorem NoteStep.registered (hs : s.NoteStep e h h') {y : Handle} (hy : y ∈ h.registered) : y ∈ h'.registered := by
  cases hs with
  | push => exact List.mem_append_left _ hy
  | same | detach | wake => exact hy

theorem NoteStep.woken (hs : s.NoteStep e h h') {y : Handle} (hy : y ∈ h.woken) : y ∈ h'.woken := by
  cases hs with
  | wake => exact List.mem_append_left _ hy
  | same | push | detach => exact hy

/-- Only a call that is running registers a handle. -/
theorem NoteStep.of_registered (hs : s.NoteStep e h h') {y : Handle} (hy : y ∈ h'.registered) :
    y ∈ h.registered ∨
      ∃ t k pc, e = .act y.call (.push y.side y.number) ∧ s.call y.call = .running t k pc := by
  cases hs with
  | push i t k pc side x he hi =>
    rcases List.mem_append.mp hy with hy | hy
    · exact .inl hy
    · obtain rfl := List.mem_singleton.mp hy
      exact .inr ⟨t, k, pc, he, hi⟩
  | same | detach | wake => exact .inl hy

/-- A list gets no more handles than the calls register. -/
theorem NoteStep.countP (hs : s.NoteStep e h h') (p : Handle → Bool) :
    h'.listed.countP p + h.registered.countP p ≤ h.listed.countP p + h'.registered.countP p := by
  cases hs with
  | push i t k pc side x =>
    simp only [Handles.push, List.countP_append]
    omega
  | detach i m side => exact Nat.add_le_add_right List.filter_sublist.countP_le _
  | same | wake => exact Nat.le_refl _

end State

/-! ## The notes are right -/

theorem Shared.waiting_update (sh : Shared V) (m : MutexId) (k : Side) (ws : List Waker) {x : MutexState}
    (hx : x.waiting = Function.update (sh.mutex m).waiting k ws) (m' : MutexId) (k' : Side) :
    ((sh.setMutex m x).mutex m').waiting k' = if m' = m ∧ k' = k then ws else (sh.mutex m').waiting k' := by
  have hat := congrFun (sh.waitingAt_update_mutex m k ws x hx) (.mutex m' k')
  simpa [Function.update_apply, Shared.waitingAt] using hat

theorem Shared.Applied.waiting_same {sh sh' : Shared V} {m : MutexId} {i : CallId} {t : ThreadId} {a : Act V}
    (h : sh.Applied m i t a sh') (htake : ∀ k ws, a ≠ .mutex (.take k ws)) (hpush : ∀ k n, a ≠ .push k n)
    (m' : MutexId) (k' : Side) : (sh'.mutex m').waiting k' = (sh.mutex m').waiting k' := by
  have hset : ∀ x : MutexState, x.waiting = (sh.mutex m).waiting →
      ((sh.setMutex m x).mutex m').waiting k' = (sh.mutex m').waiting k' := fun x hx =>
    congrFun (sh.waitingAt_mutex m hx) (.mutex m' k')
  cases h with
  | mutex a x hx =>
    cases hx with
    | take k => exact absurd rfl (htake _ _)
    | _ => exact hset _ rfl
  | push k => exact absurd rfl (hpush _ _)
  | _ => rfl

namespace State

/-- The handles in the notes are those in the lists, and those that the calls hold. -/
structure Tracked (s : State V) (h : Handles) : Prop where
  ledger : Ledger h.registered h.present h.woken
  fresh : ∀ x ∈ h.registered, x.number < s.sh.fresh
  waker : ∀ x ∈ h.registered, ∃ t, x.waker = x.side.waker t x.number
  lists : ∀ m k, (h.listedIn m k).map Handle.waker = (s.sh.mutex m).waiting k
  calls : ∀ j, (h.heldBy j).map Handle.waker = (s.call j).toWake

variable {s s' : State V} {h : Handles} {e : Event V} {i : CallId} {t : ThreadId} {k : Caller V} {pc : Pc V}
  {a : Act V} {n : Next V}

theorem Tracked.take (hs : s.Tracked h) {side : Side} {ws : List Waker}
    (ha : Acted s s' i t k pc (.mutex (.take side ws)) n) (hold : pc.toWake = [])
    (hnew : (n.call k t).toWake = ws) : s'.Tracked (h.detach i k.mutex side) := by
  have happ := ha.applied
  obtain ⟨hws, hfresh, hmutex⟩ : ws = (s.sh.mutex k.mutex).waiting side ∧ s'.sh.fresh = s.sh.fresh ∧
      ∀ m' k', (s'.sh.mutex m').waiting k' =
        if m' = k.mutex ∧ k' = side then [] else (s.sh.mutex m').waiting k' := by
    generalize s'.sh = sh' at happ
    cases happ with
    | mutex a x hx =>
      cases hx with
      | take _ hlocked => exact ⟨rfl, rfl, s.sh.waiting_update k.mutex side [] rfl⟩
  refine ⟨hs.ledger.rearrange (Handles.present_detach i k.mutex side), hfresh ▸ hs.fresh, hs.waker,
    fun m' k' => ?_, fun j => ?_⟩
  · rw [Handles.listedIn_detach, hmutex, ← hs.lists]
    split <;> rfl
  · rw [Handles.heldBy_detach, List.map_append, hs.calls]
    by_cases hj : j = i
    · subst hj
      rw [if_pos rfl, ha.running, ha.call_self, hnew, hws, hs.lists]
      exact congrArg (· ++ _) hold
    · rw [if_neg hj, ha.call_ne hj, List.map_nil, List.append_nil]

theorem Tracked.wake (hs : s.Tracked h) {w : Waker} (ha : Acted s s' i t k pc (.wake w) n)
    (hold : pc.toWake = w :: (n.call k t).toWake) : s'.Tracked (h.wake i) ∧
      ∃ x ∈ h.registered, x.waker = w ∧ (h.wake i).woken = h.woken ++ [x] := by
  obtain ⟨x, xs, hheld, hx, hxs⟩ := List.map_eq_cons_iff.mp
    ((hs.calls i).trans (by rw [ha.running]; exact hold))
  obtain ⟨hpresent, hwoken, hself, hne⟩ := Handles.wake_first hheld
  have hsh : s'.sh = s.sh.wake w := by
    have happ := ha.applied
    generalize s'.sh = sh' at happ ⊢
    cases happ
    rfl
  have hmem : x ∈ h.registered := hs.ledger.mem.mpr (.inl (hpresent.symm.subset (by simp)))
  refine ⟨⟨?_, ?_, hs.waker, fun m' k' => ?_, fun j => ?_⟩, x, hmem, hx, hwoken⟩
  · rw [hwoken]; exact hs.ledger.remove hpresent
  · rw [hsh]; exact hs.fresh
  · rw [hsh]; exact hs.lists m' k'
  · by_cases hj : j = i
    · subst hj; rw [hself, hxs, ha.call_self]
    · rw [hne j hj, ha.call_ne hj]; exact hs.calls j

theorem Tracked.push (hs : s.Tracked h) {side : Side} {x : Nat} (ha : Acted s s' i t k pc (.push side x) n)
    (hold : pc.toWake = []) (hnew : (n.call k t).toWake = []) :
    s'.Tracked (h.push ⟨i, k.mutex, side, x, side.waker t x⟩) := by
  have happ := ha.applied
  obtain ⟨hx, hfresh, hmutex⟩ : x = s.sh.fresh ∧ s'.sh.fresh = s.sh.fresh + 1 ∧
      ∀ m' k', (s'.sh.mutex m').waiting k' =
        (s.sh.mutex m').waiting k' ++ if m' = k.mutex ∧ k' = side then [side.waker t x] else [] := by
    generalize s'.sh = sh' at happ
    cases happ with
    | push _ =>
      refine ⟨rfl, rfl, fun m' k' => ?_⟩
      refine (s.sh.waiting_update k.mutex side _ rfl m' k').trans ?_
      by_cases hm : m' = k.mutex ∧ k' = side
      · obtain ⟨rfl, rfl⟩ := hm
        simp
      · simp [hm]
  have hnot : (⟨i, k.mutex, side, x, side.waker t x⟩ : Handle) ∉ h.registered := by
    intro hmem
    have hlt : x < s.sh.fresh := hs.fresh _ hmem
    omega
  refine ⟨hs.ledger.issue hnot (Handles.present_push _), fun y hy => ?_, fun y hy => ?_, fun m' k' => ?_,
    fun j => ?_⟩
  · rcases List.mem_append.mp hy with hy | hy
    · have hlt := hs.fresh y hy
      omega
    · obtain rfl := List.mem_singleton.mp hy
      change x < s'.sh.fresh
      omega
  · rcases List.mem_append.mp hy with hy | hy
    · exact hs.waker y hy
    · obtain rfl := List.mem_singleton.mp hy
      exact ⟨t, rfl⟩
  · rw [Handles.listedIn_push, hmutex, List.map_append, hs.lists]
    by_cases hm : m' = k.mutex ∧ k' = side
    · obtain ⟨rfl, rfl⟩ := hm
      simp [Handle.isIn]
    · have hne : ¬ (k.mutex = m' ∧ side = k') := fun h => hm ⟨h.1.symm, h.2.symm⟩
      simp [Handle.isIn, hm, hne]
  · change (h.heldBy j).map Handle.waker = _
    by_cases hj : j = i
    · subst hj
      rw [hs.calls, ha.running, ha.call_self, hnew]
      exact hold
    · rw [hs.calls, ha.call_ne hj]

/-- No other event moves a handle. -/
theorem Tracked.keep (hs : s.Tracked h) (hfresh : s.sh.fresh ≤ s'.sh.fresh)
    (hlists : ∀ m k, (s'.sh.mutex m).waiting k = (s.sh.mutex m).waiting k)
    (hcalls : ∀ j, (s'.call j).toWake = (s.call j).toWake) : s'.Tracked h where
  ledger := hs.ledger
  fresh x hx := Nat.lt_of_lt_of_le (hs.fresh x hx) hfresh
  waker := hs.waker
  lists m k := (hs.lists m k).trans (hlists m k).symm
  calls j := (hs.calls j).trans (hcalls j).symm

theorem Tracked.acted [DecidableEq V] (hs : s.Tracked h) (ha : Acted s s' i t k pc a n) :
    s'.Tracked (s.note h (.act i a)) := by
  rw [note_act ha.running]
  rcases ha.step.toWake t with
    ⟨side, ws, rfl, hold, hnew⟩ | ⟨w, rfl, hpc, hold⟩ | ⟨htake, hwake, hold, hnew⟩
  · exact hs.take ha hold hnew
  · have hafter : h.after i t k.mutex pc (.wake w) = h.wake i := by simp [Handles.after, hpc]
    rw [hafter]
    exact (hs.wake ha hold).1
  · have hkeep : (∀ k n, a ≠ .push k n) → s'.Tracked h := by
      intro hpush
      refine hs.keep ha.applied.creates.1 (ha.applied.waiting_same htake hpush) fun j => ?_
      by_cases hj : j = i
      · subst hj
        rw [ha.call_self, hnew, ha.running]
        exact hold.symm
      · rw [ha.call_ne hj]
    cases a with
    | push side x => exact hs.push ha hold hnew
    | mutex b =>
      cases b with
      | take side ws => exact absurd rfl (htake side ws)
      | _ => exact hkeep (by simp)
    | wake w =>
      have hafter : h.after i t k.mutex pc (.wake w) = h := by
        unfold Handles.after
        rw [if_neg fun hpc => hwake hpc w rfl]
      rw [hafter]
      exact hkeep (by simp)
    | _ => exact hkeep (by simp)

/-- A handle is woken for the call that has detached it. -/
theorem Tracked.mem_woken_note [DecidableEq V] (hs : s.Tracked h) (hstep : s.step e = some s') {y : Handle}
    (hy : y ∈ (s.note h e).woken) : y ∈ h.woken ∨ ∃ i, e = .act i (.wake y.waker) := by
  have hnote := s.note_step h e
  generalize hh : s.note h e = h' at hy hnote
  cases hnote with
  | wake i w he =>
    subst he
    obtain ⟨t, k, pc, n, ha⟩ := act_acted hstep
    rcases ha.step.toWake t with ⟨side, ws, hne, -⟩ | ⟨w', hw, hpc, hold⟩ | ⟨-, hwake, -⟩
    · cases hne
    · cases hw
      obtain ⟨-, x, -, hx, hwoken⟩ := hs.wake ha hold
      rw [hwoken] at hy
      rcases List.mem_append.mp hy with hy | hy
      · exact .inl hy
      · obtain rfl := List.mem_singleton.mp hy
        exact .inr ⟨i, by rw [hx]⟩
    · rw [note_act ha.running] at hh
      unfold Handles.after at hh
      rw [if_neg fun hpc => hwake hpc w rfl] at hh
      rw [← hh] at hy
      exact .inl hy
  | same | push | detach => exact .inl hy

theorem Tracked.step [DecidableEq V] (hr : s.Reachable) (hs : s.Tracked h) (hstep : s.step e = some s') :
    s'.Tracked (s.note h e) := by
  cases e with
  | act i a =>
    obtain ⟨t, k, pc, n, ha⟩ := act_acted hstep
    exact hs.acted ha
  | _ =>
    change s'.Tracked h
    rcases step_cases hr.sane.numbered hstep with ⟨_, _, _, _, _, _, he, -⟩ | ⟨i, c, ht⟩ | ha
    · cases he
    · refine hs.keep (Nat.le_of_eq (by rw [ht.sh])) (fun m k => by rw [ht.sh]) fun j => ?_
      by_cases hj : j = i
      · subst hj
        obtain ⟨hold, hnew⟩ := ht.turn.toWake (hr.sane.pending j)
        rw [ht.call_self, hold, hnew]
      · rw [ht.call_ne hj]
    · exact hs.keep (Nat.le_of_eq ha.around.fresh.symm) (fun m k => by rw [ha.around.mutex])
        fun j => by rw [ha.call]

theorem tracked_init (cfg : Config) : (cfg.init : State V).Tracked .new where
  ledger := .nil
  fresh x hx := by cases hx
  waker x hx := by cases hx
  lists _ _ := rfl
  calls _ := rfl

theorem Noted.tracked [DecidableEq V] (hr : s.Noted h) : s.Tracked h :=
  hr.induction tracked_init fun _ _ _ _ hn hs hstep => hs.step hn.reachable hstep

end State

end WasmSafeMutex
