import WasmSafeMutex.Lib.Separated
import WasmSafeMutex.Condvar.Registration

/-!
# Where the entries are

A numbered waker is made once. It goes into a list or to a timeout thread, from a list to the
call that is to wake it, and is gone once it is woken or removed. So no number is in two
places, and one whose flag or continuation is set is in none.
-/

namespace WasmSafeMutex

open Interleaving

variable {V : Type}

/-! ## Spots -/

inductive Spot
  | list (c : CondvarId) (k : Kind)
  | mutex (m : MutexId) (k : Side)
  | timers
  /-- With the call that has detached the entry and has still to wake it. -/
  | call (i : CallId)
  deriving DecidableEq

/-- A waker that carries its number. -/
def Waker.asEntry : Waker → Option Entry
  | .thread _ => none
  | .cont n => some ⟨n, .cont n⟩
  | .flag n => some ⟨n, .flag n⟩

def NotifyPc.held : NotifyPc → List Entry
  | .wakeOne e => [e]
  | .wakeAll _ e es => e :: es
  | _ => []

def Pc.held : Pc V → List Entry
  | .notify _ x => x.held
  | .unlock (.wake _ w ws) _ => (w :: ws).filterMap Waker.asEntry
  | .wait _ (.asyncSend n) => [⟨n, .cont n⟩]
  | _ => []

def Next.held : Next V → List Entry
  | .goto pc | .yield pc => pc.held
  | _ => []

def Call.held : Call V → List Entry
  | .running _ _ pc | .suspended _ pc => pc.held
  | _ => []

def Shared.entriesAt (sh : Shared V) : Spot → List Entry
  | .list c k => (sh.condvar c).waiting k
  | .mutex m k => ((sh.mutex m).waiting k).filterMap Waker.asEntry
  | .timers => sh.timers.map fun x => ⟨x.2, .cont x.2⟩
  | .call _ => []

def State.entriesAt (s : State V) : Spot → List Entry
  | .call i => (s.call i).held
  | q => s.sh.entriesAt q

theorem Shared.entriesAt_setCondvar (sh : Shared V) (c : CondvarId) (k : Kind) (es : List Entry) :
    (sh.setCondvar c ((sh.condvar c).set k es)).entriesAt =
      Function.update sh.entriesAt (.list c k) es := by
  funext q
  cases q with
  | list c' k' =>
    by_cases hc : c' = c
    · subst hc
      by_cases hk : k' = k
      · subst hk; simp [entriesAt, setCondvar, CondvarState.set]
      · simp [entriesAt, setCondvar, CondvarState.set, hk]
    · simp [entriesAt, setCondvar, hc]
  | _ => rfl

theorem Shared.entriesAt_setMutex (sh : Shared V) (m : MutexId) (k : Side) (ws : List Waker)
    (x : MutexState) (hx : x.waiting = Function.update (sh.mutex m).waiting k ws) :
    (sh.setMutex m x).entriesAt =
      Function.update sh.entriesAt (.mutex m k) (ws.filterMap Waker.asEntry) := by
  funext q
  cases q with
  | mutex m' k' =>
    by_cases hm : m' = m
    · subst hm
      by_cases hk : k' = k
      · subst hk; simp [entriesAt, setMutex, hx]
      · simp [entriesAt, setMutex, hx, hk]
    · simp [entriesAt, setMutex, hm]
  | _ => rfl

theorem Shared.entriesAt_of_waiting (sh : Shared V) (m : MutexId) {x : MutexState}
    (hx : x.waiting = (sh.mutex m).waiting) : (sh.setMutex m x).entriesAt = sh.entriesAt := by
  funext q
  cases q with
  | mutex m' k' =>
    by_cases hm : m' = m
    · subst hm; simp [entriesAt, setMutex, hx]
    · simp [entriesAt, setMutex, hm]
  | _ => rfl

/-! ## One operation of a call -/

/-- An entry comes into a list of a condition variable by a registration. -/
theorem Shared.Applied.listed {sh sh' : Shared V} {m : MutexId} {i : CallId} {t : ThreadId} {a : Act V}
    (h : sh.Applied m i t a sh') {c : CondvarId} {k : Kind} {x : Entry}
    (hx : x ∈ sh'.entriesAt (.list c k)) :
    x ∈ sh.entriesAt (.list c k) ∨ a = .register c k sh.fresh ∧ x = k.entry t sh.fresh := by
  have hset : ∀ c' k' es, x ∈ (sh.setCondvar c' ((sh.condvar c').set k' es)).entriesAt (.list c k) →
      x ∈ sh.entriesAt (.list c k) ∨ c = c' ∧ k = k' ∧ x ∈ es := by
    intro c' k' es hx
    rw [sh.entriesAt_setCondvar] at hx
    by_cases hq : Spot.list c k = .list c' k'
    · cases hq
      exact .inr ⟨rfl, rfl, by simpa using hx⟩
    · rw [Function.update_of_ne hq] at hx; exact .inl hx
  cases h with
  | condvar c' a y hy =>
    refine .inl ?_
    cases hy with
    | popNone | has | absent => rwa [sh.setCondvar_self] at hx
    | popSome k' es y hk =>
      rcases hset c' k' es hx with hold | ⟨rfl, rfl, hes⟩
      · exact hold
      · rw [entriesAt, hk]; exact List.mem_append_left _ hes
    | take k' => exact (hset c' k' [] hx).resolve_right fun h => absurd h.2.2 List.not_mem_nil
    | removed k' n es y es' hk _ =>
      rcases hset c' k' (es ++ es') hx with hold | ⟨rfl, rfl, hes⟩
      · exact hold
      · rw [entriesAt, hk]
        exact (List.mem_append.mp hes).elim (List.mem_append_left _)
          fun hes => List.mem_append_right _ (List.mem_cons_of_mem _ hes)
  | register c' k' =>
    rcases hset c' k' _ hx with hold | ⟨rfl, rfl, hes⟩
    · exact .inl hold
    · exact (List.mem_append.mp hes).imp_right fun hes => ⟨rfl, List.mem_singleton.mp hes⟩
  | mutex a y hy => exact .inl hx
  | push k' => exact .inl hx
  | _ => exact .inl hx

/-- What an operation does to the entries that its call has detached. -/
def Act.Moves : Act V → List Entry → List Entry → Prop
  | .condvar _ (.pop _ (some x)), es, es' => es = [] ∧ es' = [x]
  | .condvar _ (.take _ xs), es, es' => es = [] ∧ es' = xs
  | .condvar _ (.remove .async n true), es, es' => es = [] ∧ es' = [⟨n, .cont n⟩]
  | .mutex (.take _ ws), es, es' => es = [] ∧ es' = ws.filterMap Waker.asEntry
  | .wake w, es, es' => (∃ x : Entry, x.waker = w ∧ es = x :: es') ∨ w.asEntry = none ∧ es = es'
  | _, es, es' => es = [] ∧ es' = []

theorem Next.held_call (k : Caller V) (t : ThreadId) (n : Next V) : (n.call k t).held = n.held := by
  cases n <;> rfl

theorem NotifyPc.held_drain (k : Caller V) (c : CondvarId) (kind : Kind) (es : List Entry) :
    ((NotifyPc.drain kind es).toNext k c).held = es := by
  cases es with
  | nil => cases kind <;> rfl
  | cons e es => rfl

theorem NotifyPc.Step.moves {c : CondvarId} {x : NotifyPc} {a : Act V} {o : NotifyOut}
    (h : x.Step c a o) (k : Caller V) : a.Moves x.held (o.toNext k c).held := by
  cases h with
  | popSome kind e => exact ⟨rfl, rfl⟩
  | popNone kind => cases kind <;> exact ⟨rfl, rfl⟩
  | wakeOne e => exact .inl ⟨e, rfl, rfl⟩
  | take kind es => exact ⟨rfl, NotifyPc.held_drain k c kind es⟩
  | wakeAll kind e es => exact .inl ⟨e, rfl, by rw [NotifyPc.held_drain]; rfl⟩

theorem UnlockPc.held_drain {ret : UnlockRet V} (hret : ∀ f n, ret ≠ .wait f (.asyncSend n)) (k : Side)
    (ws : List Waker) : ((UnlockPc.drain k ws).toNext ret).held = ws.filterMap Waker.asEntry := by
  cases ws with
  | cons w ws => rfl
  | nil =>
    cases k with
    | sync => rfl
    | async =>
      cases ret with
      | wait f w => cases w <;> first | rfl | exact absurd rfl (hret _ _)
      | _ => rfl

theorem UnlockPc.Step.moves {u : UnlockPc} {a : Act V} {o : UnlockOut} (h : u.Step a o)
    {ret : UnlockRet V} (hret : ∀ f n, ret ≠ .wait f (.asyncSend n)) :
    a.Moves (Pc.unlock u ret).held (o.toNext ret).held := by
  cases h with
  | store => exact ⟨rfl, rfl⟩
  | take k ws => exact ⟨rfl, UnlockPc.held_drain hret k ws⟩
  | wake k w ws =>
    rw [UnlockPc.held_drain hret]
    cases w with
    | thread t => exact .inr ⟨rfl, rfl⟩
    | cont n | flag n => exact .inl ⟨_, rfl, rfl⟩

theorem WaitPc.Step.moves {f : WaitFrame} {w : WaitPc} {a : Act V} {o : WaitOut} (h : w.Step f a o) :
    a.Moves (Pc.wait f w : Pc V).held (o.toNext f : Next V).held := by
  cases h with
  | register n =>
    rcases f with ⟨cv, k, d⟩
    cases k <;> cases d <;> exact ⟨rfl, rfl⟩
  | spinLoad n b =>
    rcases f with ⟨cv, k, d⟩
    cases b <;> cases d <;> exact ⟨rfl, rfl⟩
  | spinNow n d x | blockNow n d x => split <;> exact ⟨rfl, rfl⟩
  | spinRemove n b | spinDrain n b | blockRemove n b | blockCheck n d b | await n b | raceNotify n m b
  | raceTimeout n m b | asyncRemove n b => cases b <;> exact ⟨rfl, rfl⟩
  | asyncSend n => exact .inl ⟨_, rfl, rfl⟩
  | _ => exact ⟨rfl, rfl⟩

theorem Caller.onLocked_held (k : Caller V) (ret : LockRet) : (k.onLocked ret).held = [] := by
  unfold Caller.onLocked
  split <;> rfl

theorem RecvKind.onEmpty_held (rk : RecvKind) (n : Nat) : (rk.onEmpty n : Pc V).held = [] := by
  rcases rk.onEmpty_pc (V := V) n with he | he | ⟨d, he⟩ | ⟨f, -, he⟩ <;> rw [he] <;> rfl

theorem Pc.Step.moves [DecidableEq V] {k : Caller V} {pc : Pc V} {a : Act V} {n : Next V}
    (h : pc.Step k a n) (hp : pc.fits k = true) : a.Moves pc.held n.held := by
  cases h with
  | lock l ret a o ho =>
    have hn : (o.toNext k ret : Next V).held = [] := by
      cases o with
      | acquired => exact k.onLocked_held ret
      | _ => rfl
    cases ho <;> exact ⟨rfl, hn⟩
  | unlock u ret a o ho =>
    refine ho.moves fun f m he => ?_
    subst he
    simp [Pc.fits, WaitPc.starts] at hp
  | wait f w a o ho => exact ho.moves
  | notify c x a o ho => exact ho.moves k
  | sendCheck1 σ st v b | sendCheck2 σ st v b => cases b <;> exact ⟨rfl, rfl⟩
  | recvCount rk m hk => exact ⟨rfl, rk.onEmpty_held m⟩
  | fetchSub σ old => split <;> exact ⟨rfl, rfl⟩
  | _ => exact ⟨rfl, rfl⟩

theorem Pc.held_of_begins {pc : Pc V} (h : pc.begins = true) : pc.held = [] := by
  cases pc with
  | unlock u ret =>
    obtain rfl : u = .store := of_decide_eq_true h
    rfl
  | wait f w =>
    obtain rfl : w = .register := of_decide_eq_true h
    rfl
  | notify c x => rcases of_decide_eq_true h with rfl | rfl <;> rfl
  | _ => rfl

theorem Pc.held_of_pending {pc : Pc V} (h : pc.pending = true) : pc.held = [] := by
  cases pc with
  | wait f w => cases w <;> first | rfl | cases h
  | unlock | notify => cases h
  | _ => rfl

theorem Call.Turn.held {i : CallId} {e : Event V} {c c' : Call V} (h : Call.Turn i e c c')
    (hp : ∀ k pc, c = .suspended k pc → pc.pending = true) : c'.held = c.held := by
  cases h with
  | begin t r => exact Pc.held_of_begins r.begins_entry
  | wait t c w k r => exact Pc.held_of_begins (w.begins_entry (.user c))
  | cancel k pc => exact (Pc.held_of_pending (hp k pc rfl)).symm
  | dropGuard | poll => rfl

/-! ## What one event does to all of them -/

/-- The number of an entry is the one in its waker, when that has one. -/
def Entry.Numbered (x : Entry) : Prop := ∀ y, x.waker.asEntry = some y → y = x

theorem Waker.numbered_entry {w : Waker} {x : Entry} (h : w.asEntry = some x) : x.waker = w ∧ x.Numbered := by
  cases w <;> cases h <;> exact ⟨rfl, fun y hy => (Option.some.inj hy).symm⟩

theorem Kind.numbered_entry (k : Kind) (t : ThreadId) (n : Nat) : (k.entry t n).Numbered := by
  cases k with
  | sync => intro y hy; cases hy
  | spin | async => exact fun y hy => (Option.some.inj hy).symm

/-- Of the flags and continuations, at most this one has been set. -/
def Shared.Sets (sh sh' : Shared V) (o : Option Waker) : Prop :=
  ∀ w x, w.asEntry = some x → sh'.woken w = true → sh.woken w = true ∨ o = some w

inductive EntryStep (s s' : State V) : Prop
  | same (hq : ∀ q, s'.entriesAt q = s.entriesAt q) (hw : s.sh.Sets s'.sh none)
  | added (q : Spot) (x : Entry) (hx : x.wait = s.sh.fresh ∧ s.sh.fresh < s'.sh.fresh ∧ x.Numbered)
    (hq : (s'.entriesAt q).Perm (x :: s.entriesAt q))
    (hne : ∀ q', q' ≠ q → s'.entriesAt q' = s.entriesAt q') (hw : s.sh.Sets s'.sh none)
  | moved (q : Spot) (i : CallId) (hqi : q ≠ .call i)
    (hq : (s'.entriesAt q ++ s'.entriesAt (.call i)).Perm (s.entriesAt q ++ s.entriesAt (.call i)))
    (hne : ∀ q', q' ≠ q → q' ≠ .call i → s'.entriesAt q' = s.entriesAt q') (hw : s.sh.Sets s'.sh none)
  | gone (q : Spot) (x : Entry) (hq : (s.entriesAt q).Perm (x :: s'.entriesAt q))
    (hne : ∀ q', q' ≠ q → s'.entriesAt q' = s.entriesAt q') (hw : s.sh.Sets s'.sh (some x.waker))

namespace State

variable {s s' : State V} {e : Event V}

/-- The numbers of the entries at a spot. -/
def waitsAt (s : State V) (q : Spot) : List Nat := (s.entriesAt q).map Entry.wait

structure EntriesApart (s : State V) : Prop where
  numbered : ∀ q, ∀ x ∈ s.entriesAt q, x.Numbered
  separated : Separated s.waitsAt
  lt_fresh : ∀ q, ∀ n ∈ s.waitsAt q, n < s.sh.fresh
  /-- What has been woken is nowhere any more. -/
  woken : ∀ w x, w.asEntry = some x → s.sh.woken w = true →
    x.wait < s.sh.fresh ∧ ∀ q, x.wait ∉ s.waitsAt q

theorem mem_waitsAt {q : Spot} {n : Nat} : n ∈ s.waitsAt q ↔ ∃ x ∈ s.entriesAt q, x.wait = n :=
  List.mem_map

theorem entriesAt_same (hl : s'.sh.entriesAt = s.sh.entriesAt)
    (hh : ∀ j, (s'.call j).held = (s.call j).held) (q : Spot) : s'.entriesAt q = s.entriesAt q := by
  have hlist := congrFun hl q
  cases q with
  | call j => exact hh j
  | _ => exact hlist

theorem entriesAt_self {q : Spot} {es : List Entry} (hq : ∀ j, q ≠ .call j)
    (hl : s'.sh.entriesAt = Function.update s.sh.entriesAt q es) : s'.entriesAt q = es := by
  have hself : s'.sh.entriesAt q = es := by rw [hl, Function.update_self]
  cases q with
  | call j => exact absurd rfl (hq j)
  | _ => exact hself

theorem entriesAt_ne {q q' : Spot} {es : List Entry}
    (hl : s'.sh.entriesAt = Function.update s.sh.entriesAt q es) (hne : q' ≠ q)
    (hh : ∀ j, q' = .call j → (s'.call j).held = (s.call j).held) : s'.entriesAt q' = s.entriesAt q' := by
  have hother : s'.sh.entriesAt q' = s.sh.entriesAt q' := by rw [hl, Function.update_of_ne hne]
  cases q' with
  | call j => exact hh j rfl
  | _ => exact hother

theorem Turned.entries {i : CallId} {c : Call V} (h : Turned s s' e i c) (hs : s.Sane) :
    EntryStep s s' := by
  refine .same (entriesAt_same (congrArg Shared.entriesAt h.sh) fun j => ?_) fun w _ _ hw => .inl (h.sh ▸ hw)
  by_cases hj : j = i
  · subst hj
    rw [h.call_self]
    exact h.turn.held (hs.pending j)
  · rw [h.call_ne hj]

theorem Surrounded.entries (h : Surrounded s s' e) : EntryStep s s' := by
  have hcall : ∀ j, (s'.call j).held = (s.call j).held := fun j => by rw [h.call]
  rcases h.around.timers with ⟨ht, hw⟩ | ⟨d, n, hmem, ht, hw⟩
  · refine .same (entriesAt_same ?_ hcall) fun w x hx hs => (hw w hs).imp_right ?_
    · funext q
      cases q <;> simp [Shared.entriesAt, h.around.condvar, h.around.mutex, ht]
    · rintro ⟨t, rfl⟩
      cases hx
  · refine .gone .timers ⟨n, .cont n⟩ ?_ (fun q hq => ?_) fun w x _ hs => ?_
    · simp only [entriesAt, Shared.entriesAt, ht]
      exact (List.perm_cons_erase hmem).map fun x : Instant × Nat => (⟨x.2, .cont x.2⟩ : Entry)
    · cases q with
      | call j => exact hcall j
      | timers => exact absurd rfl hq
      | list | mutex => simp [entriesAt, Shared.entriesAt, h.around.condvar, h.around.mutex]
    · rw [hw] at hs
      by_cases hn : w = .cont n
      · exact .inr (by rw [hn])
      · exact .inl (by simpa [hn] using hs)

theorem held_same {i : CallId} (hother : ∀ j, j ≠ i → (s'.call j).held = (s.call j).held)
    (hi : (s'.call i).held = (s.call i).held) (j : CallId) : (s'.call j).held = (s.call j).held := by
  by_cases hj : j = i
  · rw [hj, hi]
  · exact hother j hj

end State

/-! ## How a call moves entries -/

namespace EntryStep

open State

variable {s s' : State V} {i : CallId} {q : Spot} {x : Entry} {es : List Entry}

/-- A new entry goes into a list. -/
theorem of_add (hq : ∀ j, q ≠ .call j)
    (hl : s'.sh.entriesAt = Function.update s.sh.entriesAt q es) (hes : es.Perm (x :: s.entriesAt q))
    (hx : x.wait = s.sh.fresh ∧ s.sh.fresh < s'.sh.fresh ∧ x.Numbered)
    (hheld : ∀ j, (s'.call j).held = (s.call j).held) (hw : s.sh.Sets s'.sh none) : EntryStep s s' := by
  refine .added q x hx ?_ (fun q' hq' => entriesAt_ne hl hq' fun j _ => hheld j) hw
  rw [entriesAt_self hq hl]
  exact hes

/-- The call detaches what one list loses. -/
theorem of_detach (hq : ∀ j, q ≠ .call j)
    (hl : s'.sh.entriesAt = Function.update s.sh.entriesAt q es)
    (hother : ∀ j, j ≠ i → (s'.call j).held = (s.call j).held) (hi : (s.call i).held = [])
    (hes : (s.entriesAt q).Perm (es ++ (s'.call i).held)) (hw : s.sh.Sets s'.sh none) : EntryStep s s' := by
  refine .moved q i (hq i) ?_ (fun q' hq' hi' => entriesAt_ne hl hq' ?_) hw
  · rw [entriesAt_self hq hl, entriesAt, entriesAt, hi, List.append_nil]
    exact hes.symm
  · rintro j rfl
    exact hother j fun hj => hi' (by rw [hj])

/-- An entry is dropped from a list. -/
theorem of_discard (hq : ∀ j, q ≠ .call j)
    (hl : s'.sh.entriesAt = Function.update s.sh.entriesAt q es) (hes : (s.entriesAt q).Perm (x :: es))
    (hheld : ∀ j, (s'.call j).held = (s.call j).held) (hw : s'.sh.woken = s.sh.woken) : EntryStep s s' := by
  refine .gone q x ?_ (fun q' hq' => entriesAt_ne hl hq' fun j _ => hheld j) fun w y _ hs => .inl (hw ▸ hs)
  rw [entriesAt_self hq hl]
  exact hes

/-- The call wakes the first entry it holds. -/
theorem of_wake (hl : s'.sh.entriesAt = s.sh.entriesAt)
    (hother : ∀ j, j ≠ i → (s'.call j).held = (s.call j).held)
    (hi : (s.call i).held = x :: (s'.call i).held) (hw : s.sh.Sets s'.sh (some x.waker)) :
    EntryStep s s' := by
  refine .gone (.call i) x (by rw [entriesAt, entriesAt, hi]) (fun q hq => ?_) hw
  have hself : s'.sh.entriesAt = Function.update s.sh.entriesAt (.call i) (s.sh.entriesAt (.call i)) := by
    rw [hl, Function.update_eq_self]
  exact entriesAt_ne hself hq fun j hj => hother j fun hji => hq (hji ▸ hj)

/-- What an operation on a mutex does to the entries. -/
theorem of_mutex {m : MutexId} {a : MutexAct} {x : MutexState}
    (hx : (s.sh.mutex m).Applied i a x) (hsh : s'.sh = s.sh.setMutex m x)
    (hother : ∀ j, j ≠ i → (s'.call j).held = (s.call j).held)
    (hm : (Act.mutex a : Act V).Moves (s.call i).held (s'.call i).held) : EntryStep s s' := by
  have hquiet : s.sh.Sets s'.sh none := fun _ _ _ hs => .inl (by rw [hsh] at hs; exact hs)
  cases hx with
  | take kind hk =>
    have hl := s.sh.entriesAt_setMutex m kind []
      { s.sh.mutex m with waiting := Function.update (s.sh.mutex m).waiting kind [] } rfl
    refine .of_detach (q := .mutex m kind) (by simp) (hsh ▸ hl) hother hm.1 ?_ hquiet
    rw [hm.2]
    exact List.Perm.refl _
  | _ =>
    refine .same (entriesAt_same ?_ (held_same hother (hm.2.trans hm.1.symm))) hquiet
    rw [hsh]
    exact s.sh.entriesAt_of_waiting m rfl

/-- What an operation on a condition variable does to them. -/
theorem of_condvar {c : CondvarId} {t : ThreadId} {a : CondvarAct} {x : CondvarState}
    (hx : (s.sh.condvar c).Applied t a x) (hsh : s'.sh = s.sh.setCondvar c x)
    (hother : ∀ j, j ≠ i → (s'.call j).held = (s.call j).held)
    (hm : (Act.condvar c a : Act V).Moves (s.call i).held (s'.call i).held)
    (hnum : ∀ q, ∀ x ∈ s.entriesAt q, x.Numbered) : EntryStep s s' := by
  have hwoken : s'.sh.woken = s.sh.woken := by rw [hsh]; rfl
  have hquiet : s.sh.Sets s'.sh none := fun _ _ _ hs => .inl (hwoken ▸ hs)
  have hset : ∀ kind es, s'.sh = s.sh.setCondvar c ((s.sh.condvar c).set kind es) →
      s'.sh.entriesAt = Function.update s.sh.entriesAt (.list c kind) es :=
    fun kind es he => he ▸ s.sh.entriesAt_setCondvar c kind es
  cases hx with
  | popNone | has =>
    refine .same (entriesAt_same ?_ (held_same hother (hm.2.trans hm.1.symm))) hquiet
    rw [hsh, Shared.setCondvar_self]
  | absent kind m =>
    have hnone : (s.call i).held = [] ∧ (s'.call i).held = [] := by cases kind <;> exact hm
    refine .same (entriesAt_same ?_ (held_same hother (hnone.2.trans hnone.1.symm))) hquiet
    rw [hsh, Shared.setCondvar_self]
  | popSome kind es x hk =>
    refine .of_detach (by simp) (hset kind es hsh) hother hm.1 ?_ hquiet
    rw [hm.2, ← hk]
    exact List.Perm.refl _
  | take kind =>
    refine .of_detach (by simp) (hset kind [] hsh) hother hm.1 ?_ hquiet
    rw [hm.2]
    exact List.Perm.refl _
  | removed kind m es x es' hk hx =>
    have hperm : (s.entriesAt (.list c kind)).Perm (x :: (es ++ es')) := by
      rw [show s.entriesAt (.list c kind) = es ++ x :: es' from hk]
      exact List.perm_middle
    by_cases hkind : kind = .async
    · -- A timed out future takes its own entry, to complete its notification.
      subst hkind
      have hself : x = ⟨m, .cont m⟩ :=
        (hnum (.list c .async) x (hperm.symm.subset List.mem_cons_self) _ (by rw [hx]; rfl)).symm
      refine .of_detach (by simp) (hset .async (es ++ es') hsh) hother hm.1 ?_ hquiet
      rw [hm.2, ← hself]
      exact hperm.trans (List.perm_append_singleton x _).symm
    · have hnone : (s.call i).held = [] ∧ (s'.call i).held = [] := by
        cases kind <;> first | exact hm | exact absurd rfl hkind
      exact .of_discard (by simp) (hset kind (es ++ es') hsh) hperm
        (held_same hother (hnone.2.trans hnone.1.symm)) hwoken

end EntryStep

namespace State

variable [DecidableEq V] {s s' : State V} {e : Event V}

theorem Acted.entries {i : CallId} {t : ThreadId} {k : Caller V} {pc : Pc V} {a : Act V} {n : Next V}
    (h : Acted s s' i t k pc a n) (hf : pc.fits k = true) (hnum : ∀ q, ∀ x ∈ s.entriesAt q, x.Numbered) :
    EntryStep s s' := by
  have hother : ∀ j, j ≠ i → (s'.call j).held = (s.call j).held := fun j hj => by rw [h.call_ne hj]
  have hmoves : a.Moves (s.call i).held (s'.call i).held := by
    rw [h.running, h.call_self, Next.held_call]
    exact h.step.moves hf
  have hstay : (s.call i).held = [] ∧ (s'.call i).held = [] →
      ∀ j, (s'.call j).held = (s.call j).held := fun hm => held_same hother (hm.2.trans hm.1.symm)
  generalize hsh : s'.sh = sh'
  have hquiet : sh'.woken = s.sh.woken → s.sh.Sets s'.sh none :=
    fun hw _ _ _ hs => .inl (by rw [hsh, hw] at hs; exact hs)
  cases hsh ▸ h.applied with
  | mutex a x hx => exact .of_mutex hx hsh hother hmoves
  | condvar c a x hx => exact .of_condvar hx hsh hother hmoves hnum
  | push kind =>
    have hl : s'.sh.entriesAt = Function.update s.sh.entriesAt (.mutex k.mutex kind)
        (((s.sh.mutex k.mutex).waiting kind ++ [kind.waker t s.sh.fresh]).filterMap Waker.asEntry) :=
      hsh ▸ s.sh.entriesAt_setMutex k.mutex kind _ _ rfl
    cases hw : (kind.waker t s.sh.fresh).asEntry with
    | none =>
      refine .same (entriesAt_same (hl.trans ?_) (hstay hmoves)) (hquiet rfl)
      rw [List.filterMap_append, List.filterMap_cons, hw]
      simp [Shared.entriesAt]
    | some x =>
      have hwait : x.wait = s.sh.fresh := by cases kind <;> cases hw; rfl
      refine .of_add (x := x) (by simp) hl ?_
        ⟨hwait, hsh ▸ Nat.lt_succ_self _, (Waker.numbered_entry hw).2⟩ (hstay hmoves) (hquiet rfl)
      rw [List.filterMap_append, List.filterMap_cons, hw]
      exact List.perm_append_singleton x _
  | register c kind =>
    have hl : s'.sh.entriesAt = Function.update s.sh.entriesAt (.list c kind)
        ((s.sh.condvar c).waiting kind ++ [kind.entry t s.sh.fresh]) :=
      hsh ▸ s.sh.entriesAt_setCondvar c kind _
    exact .of_add (x := kind.entry t s.sh.fresh) (by simp) hl (List.perm_append_singleton _ _)
      ⟨rfl, hsh ▸ Nat.lt_succ_self _, kind.numbered_entry t _⟩ (hstay hmoves) (hquiet rfl)
  | spawn d =>
    have hl : s'.sh.entriesAt = Function.update s.sh.entriesAt .timers
        (⟨s.sh.fresh, .cont s.sh.fresh⟩ :: s.sh.entriesAt .timers) := by
      rw [hsh]
      funext q
      cases q <;> rfl
    exact .of_add (by simp) hl (List.Perm.refl _)
      ⟨rfl, hsh ▸ Nat.lt_succ_self _, Kind.numbered_entry .async t _⟩ (hstay hmoves) (hquiet rfl)
  | wake w =>
    have hl : s'.sh.entriesAt = s.sh.entriesAt := hsh ▸ rfl
    have hset : ∀ w', s'.sh.woken w' = true → s.sh.woken w' = true ∨ w = w' := by
      intro w' hs
      by_cases he : w = w'
      · exact .inr he
      · rw [hsh] at hs
        exact .inl (by simpa [Shared.wake, Ne.symm he] using hs)
    rcases hmoves with ⟨x, rfl, hx⟩ | ⟨hw, hm⟩
    · exact .of_wake hl hother hx fun w' y _ hs => (hset w' hs).imp_right (congrArg some)
    · refine .same (entriesAt_same hl (held_same hother hm.symm)) fun w' y hy hs =>
        .inl ((hset w' hs).resolve_right ?_)
      rintro rfl
      cases hw.symm.trans hy
  | unparked ht =>
    refine .same (entriesAt_same (hsh ▸ rfl) (hstay hmoves)) fun w x hx hs => .inl ?_
    rw [hsh] at hs
    by_cases hw : w = .thread t
    · subst hw; cases hx
    · simpa [hw] using hs
  | _ => exact .same (entriesAt_same (hsh ▸ rfl) (hstay hmoves)) (hquiet rfl)

end State

/-! ## Reachable states -/

namespace EntryStep

variable {s s' : State V}

/-- An entry was there before, unless it has just been made. -/
theorem comes (h : EntryStep s s') {q : Spot} {x : Entry} (hx : x ∈ s'.entriesAt q) :
    (∃ q', x ∈ s.entriesAt q') ∨ x.wait = s.sh.fresh ∧ s.sh.fresh < s'.sh.fresh ∧ x.Numbered := by
  cases h with
  | same hq hw => exact .inl ⟨q, hq q ▸ hx⟩
  | added q₀ y hy hq hne hw =>
    by_cases he : q = q₀
    · subst he
      rcases List.mem_cons.mp (hq.subset hx) with rfl | hx
      · exact .inr hy
      · exact .inl ⟨q, hx⟩
    · exact .inl ⟨q, hne q he ▸ hx⟩
  | moved q₀ i hqi hq hne hw =>
    by_cases he : q = q₀ ∨ q = .call i
    · have hx' : x ∈ s'.entriesAt q₀ ++ s'.entriesAt (.call i) := by
        rcases he with rfl | rfl
        · exact List.mem_append_left _ hx
        · exact List.mem_append_right _ hx
      rcases List.mem_append.mp (hq.subset hx') with hx | hx
      · exact .inl ⟨_, hx⟩
      · exact .inl ⟨_, hx⟩
    · exact .inl ⟨q, hne q (fun h => he (.inl h)) (fun h => he (.inr h)) ▸ hx⟩
  | gone q₀ y hq hne hw =>
    by_cases he : q = q₀
    · subst he; exact .inl ⟨q, hq.symm.subset (List.mem_cons_of_mem _ hx)⟩
    · exact .inl ⟨q, hne q he ▸ hx⟩

theorem separated (h : EntryStep s s') (hs : s.EntriesApart) : Separated s'.waitsAt := by
  cases h with
  | same hq hw => rw [show s'.waitsAt = s.waitsAt from funext fun q => congrArg _ (hq q)]; exact hs.separated
  | added q x hx hq hne hw =>
    refine hs.separated.push (i := q) (a := x.wait) (fun q' hx' => ?_) (hq.map _) fun q' hq' => ?_
    · exact absurd (hs.lt_fresh q' _ hx') (by simp [hx.1])
    · exact congrArg _ (hne q' hq')
  | moved q i hqi hq hne hw =>
    refine hs.separated.move hqi ?_ fun q' hq' hi => congrArg _ (hne q' hq' hi)
    simp only [State.waitsAt, ← List.map_append]
    exact (hq.map _).subperm
  | gone q x hq hne hw =>
    refine hs.separated.shrink fun q' => ?_
    by_cases he : q' = q
    · subst he
      have hq := hq.map Entry.wait
      exact (List.subperm_cons_self).trans hq.symm.subperm
    · simp only [State.waitsAt, hne q' he]; exact List.Subperm.refl _

theorem apart (h : EntryStep s s') (hmono : s.sh.fresh ≤ s'.sh.fresh) (hs : s.EntriesApart) :
    s'.EntriesApart := by
  have hcomes : ∀ q, ∀ x ∈ s'.entriesAt q, (∃ q', x ∈ s.entriesAt q') ∨
      x.wait = s.sh.fresh ∧ s.sh.fresh < s'.sh.fresh ∧ x.Numbered := fun q x hx => h.comes hx
  -- A number below `fresh` that was nowhere is still nowhere.
  have hstays : ∀ n, n < s.sh.fresh → (∀ q, n ∉ s.waitsAt q) → ∀ q, n ∉ s'.waitsAt q := by
    intro n hn hout q hq
    obtain ⟨x, hx, rfl⟩ := State.mem_waitsAt.mp hq
    rcases hcomes q x hx with ⟨q', hx'⟩ | ⟨hx', -⟩
    · exact hout q' (State.mem_waitsAt.mpr ⟨x, hx', rfl⟩)
    · exact absurd hn (by simp [hx'])
  have hold : ∀ w x, w.asEntry = some x → s.sh.woken w = true →
      x.wait < s'.sh.fresh ∧ ∀ q, x.wait ∉ s'.waitsAt q := fun w x hx hw =>
    have := hs.woken w x hx hw
    ⟨Nat.lt_of_lt_of_le this.1 hmono, hstays x.wait this.1 this.2⟩
  refine ⟨fun q x hx => ?_, h.separated hs, fun q n hn => ?_, fun w x hx hset => ?_⟩
  · rcases hcomes q x hx with ⟨q', hx'⟩ | ⟨-, -, hx'⟩
    · exact hs.numbered q' x hx'
    · exact hx'
  · obtain ⟨x, hx, rfl⟩ := State.mem_waitsAt.mp hn
    rcases hcomes q x hx with ⟨q', hx'⟩ | ⟨hx', hlt, -⟩
    · exact Nat.lt_of_lt_of_le (hs.lt_fresh q' _ (State.mem_waitsAt.mpr ⟨x, hx', rfl⟩)) hmono
    · rw [hx']; exact hlt
  · have hsep := h.separated hs
    cases h with
    | same hq hw => exact hold w x hx ((hw w x hx hset).resolve_right (by simp))
    | added q y hy hq hne hw => exact hold w x hx ((hw w x hx hset).resolve_right (by simp))
    | moved q i hqi hq hne hw => exact hold w x hx ((hw w x hx hset).resolve_right (by simp))
    | gone q y hq hne hw =>
      rcases hw w x hx hset with hset | hy
      · exact hold w x hx hset
      · -- It has been woken by who had its only entry.
        cases hy
        have hyq : y ∈ s.entriesAt q := hq.symm.subset List.mem_cons_self
        obtain rfl := hs.numbered q y hyq x hx
        have hmem : x.wait ∈ s.waitsAt q := State.mem_waitsAt.mpr ⟨x, hyq, rfl⟩
        refine ⟨Nat.lt_of_lt_of_le (hs.lt_fresh q _ hmem) hmono, fun q' hq' => ?_⟩
        by_cases he : q' = q
        · subst he
          have hnodup := (hq.map Entry.wait).nodup_iff.mp (hs.separated.nodup q')
          exact (List.nodup_cons.mp hnodup).1 hq'
        · rw [State.waitsAt, hne q' he] at hq'
          exact he (hs.separated.apart q' q _ hq' hmem)

end EntryStep

namespace State

variable [DecidableEq V] {s s' : State V} {e : Event V}

theorem Reachable.entriesApart (h : s.Reachable) : s.EntriesApart := by
  refine h.induction (P := EntriesApart) ?_ ?_ ?_ ?_
  · intro cfg
    have hnil : ∀ q, (cfg.init : State V).entriesAt q = [] := fun q => by cases q <;> rfl
    refine ⟨fun q x hx => ?_, ?_, fun q n hn => ?_, fun _ _ _ hw => by cases hw⟩
    · rw [hnil] at hx; cases hx
    · rw [show (cfg.init : State V).waitsAt = fun _ => [] from funext fun q => congrArg _ (hnil q)]
      exact .nil
    · rw [waitsAt, hnil] at hn; cases hn
  · intro s s' i t k pc a n hr hs ha
    have hf := hr.fits i
    rw [ha.running] at hf
    exact (ha.entries hf hs.numbered).apart ha.applied.creates.1 hs
  · exact fun s s' e i c hr hs ht => (ht.entries hr.sane).apart (Nat.le_of_eq (congrArg Shared.fresh ht.sh.symm)) hs
  · exact fun s s' e _ hs ha => ha.entries.apart (Nat.le_of_eq ha.around.fresh.symm) hs

/-- An entry comes into a list of a condition variable when its call registers. -/
theorem Reachable.entry_registers (h : s.Reachable) (hstep : s.step e = some s') {c : CondvarId} {kind : Kind}
    {x : Entry} (hx : x ∈ s'.entriesAt (.list c kind)) : x ∈ s.entriesAt (.list c kind) ∨
      ∃ i t k pc n, Acted s s' i t k pc (.register c kind s.sh.fresh) n ∧ x = kind.entry t s.sh.fresh := by
  rcases step_cases h.sane.numbered hstep with ⟨i, a, t, k, pc, n, -, ha⟩ | ⟨i, c', ht⟩ | ha
  · refine (ha.applied.listed hx).imp_right ?_
    rintro ⟨rfl, rfl⟩
    exact ⟨i, t, k, pc, n, ha, rfl⟩
  · exact .inl (by simpa [entriesAt, ht.sh] using hx)
  · exact .inl (by simpa [entriesAt, Shared.entriesAt, ha.around.condvar] using hx)

theorem Reachable.entry_step (h : s.Reachable) (hstep : s.step e = some s') : EntryStep s s' := by
  rcases step_cases h.sane.numbered hstep with ⟨i, a, t, k, pc, n, -, ha⟩ | ⟨i, c, ht⟩ | ha
  · have hf := h.fits i
    rw [ha.running] at hf
    exact ha.entries hf h.entriesApart.numbered
  · exact ht.entries h.sane
  · exact ha.entries

/-- A number that was nowhere does not come back. -/
theorem Reachable.stays_gone (h : s.Reachable) (hstep : s.step e = some s') {n : Nat}
    (hn : n < s.sh.fresh) (hout : ∀ q, n ∉ s.waitsAt q) (q : Spot) : n ∉ s'.waitsAt q := by
  intro hq
  obtain ⟨x, hx, rfl⟩ := mem_waitsAt.mp hq
  rcases (h.entry_step hstep).comes hx with ⟨q', hx'⟩ | ⟨hx', -⟩
  · exact hout q' (mem_waitsAt.mpr ⟨x, hx', rfl⟩)
  · exact absurd hn (by simp [hx'])

/-- A flag or a continuation stays set. -/
theorem Reachable.woken_keeps (hr : s.Reachable) (hstep : s.step e = some s') {w : Waker} {x : Entry}
    (hx : w.asEntry = some x) (hw : s.sh.woken w = true) : s'.sh.woken w = true := by
  rcases step_cases hr.sane.numbered hstep with ⟨i, a, t, k, pc, n, -, ha⟩ | ⟨i, c, ht⟩ | ha
  · generalize hsh : s'.sh = sh'
    cases hsh ▸ ha.applied with
    | wake w' => exact Shared.woken_wake hw
    | unparked ht =>
      have hne : w ≠ .thread t := by
        rintro rfl
        cases hx
      simpa [hne] using hw
    | _ => exact hw
  · rw [ht.sh]; exact hw
  · exact ha.around.woken w hw

end State

end WasmSafeMutex
