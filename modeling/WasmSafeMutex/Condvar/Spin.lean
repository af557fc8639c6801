import WasmSafeMutex.Condvar.Returns

/-!
# Spinning waits

Who removes the flag of a spinning wait decides how the wait returns, and nobody else removes
it. A notifier that has removed one still has to set it, or has done so.
-/

namespace WasmSafeMutex

open Interleaving

variable {V : Type}

/-- The removals of the entry of this wait. -/
def History.removalsOf (h : History V) (r : Registration) : List Removal :=
  h.removals.filter fun m => m.cv = r.frame.cv ∧ m.kind = r.frame.kind ∧ m.entry = r.entry

/-- The spinning waits that returned as notified, and the flags that notifiers have taken. -/
def History.notifiedSpins (h : History V) (c : CondvarId) : List Exit :=
  h.exits.filter fun ex => ex.wait.frame.cv = c ∧ ex.wait.frame.kind = .spin ∧ ex.answer ≠ some true

def History.takenSpins (h : History V) (c : CondvarId) : List Removal :=
  h.removals.filter fun m => m.cv = c ∧ m.kind = .spin ∧ m.notified = true

theorem History.mem_removalsOf {h : History V} {r : Registration} {m : Removal} :
    m ∈ h.removalsOf r ↔ m ∈ h.removals ∧ m.Of r := by
  unfold removalsOf
  simp only [List.mem_filter, decide_eq_true_eq]
  constructor
  · rintro ⟨hm, hc, hk, he⟩; exact ⟨hm, hc, hk, he⟩
  · rintro ⟨hm, ho⟩; exact ⟨hm, ho.cv, ho.kind, ho.entry⟩

theorem WaitPc.Step.into_spinDrain {f : WaitFrame} {w : WaitPc} {a : Act V} {o : WaitOut} {n : Nat}
    (h : w.Step f a o) (ho : o = .goto (.spinDrain n) ∨ o = .yield (.spinDrain n)) :
    w = .spinDrain n ∨ w = .spinRemove n ∧ a = .condvar f.cv (.remove .spin n false) := by
  rcases ho with rfl | rfl
  · generalize hgoto : WaitOut.goto (.spinDrain n) = o at h
    cases h with
    | spinRemove x b => cases b <;> cases hgoto; exact .inr ⟨rfl, rfl⟩
    | spinDrain x b => cases b <;> cases hgoto; exact .inl rfl
    | register x => unfold WaitFrame.registered at hgoto; split at hgoto <;> cases hgoto
    | spinLoad x b =>
      unfold WaitFrame.spinAgain at hgoto
      cases b with
      | true => cases hgoto
      | false =>
        simp only [Bool.false_eq_true, if_false] at hgoto
        split at hgoto <;> cases hgoto
    | spinNow x d y | blockNow x d y => split at hgoto <;> cases hgoto
    | asyncRemove x b | blockCheck x d b | raceNotify x m b | raceTimeout x m b
    | await x b => cases b <;> cases hgoto
    | _ => cases hgoto
  · cases h.pending

namespace State

variable {s s' : State V} {e : Event V} {h : History V}

theorem Accounted.removalsOf_eq (hacc : s.Accounted h) {m : Removal} {r : Registration}
    (hm : m ∈ h.removals) (ho : m.Of r) : h.removalsOf r = [m] := by
  have hmem := History.mem_removalsOf.mpr ⟨hm, ho⟩
  have hnodup : (h.removalsOf r).Nodup := by
    have hgone := (hacc.ledger r.frame.cv r.frame.kind).nodup_gone
    refine (hgone.of_map _).sublist ?_
    apply List.monotone_filter_right
    intro x
    simp only [Bool.decide_and, Bool.and_eq_true, decide_eq_true_eq]
    exact fun hx => ⟨hx.1, hx.2.1⟩
  match hl : h.removalsOf r with
  | [] => rw [hl] at hmem; cases hmem
  | [x] => rw [hl] at hmem; rw [List.mem_singleton.mp hmem]
  | x :: y :: ms =>
    have hx := History.mem_removalsOf.mp (by rw [hl]; exact List.mem_cons_self : x ∈ h.removalsOf r)
    have hy := History.mem_removalsOf.mp
      (by rw [hl]; exact List.mem_cons_of_mem _ List.mem_cons_self : y ∈ h.removalsOf r)
    have hxy := hacc.removal_unique hx.1 hy.1 hx.2 hy.2
    rw [hl, hxy] at hnodup
    exact absurd List.mem_cons_self (List.nodup_cons.mp hnodup).1

/-- The notifications of the spinning waits, one to one. -/
structure SpinsMatched (s : State V) (h : History V) : Prop where
  /-- A wait that is over has returned an answer. -/
  ends : ∀ i r, (i, r) ∈ h.registered → r.frame.kind = .spin →
    (s.call i).registration = some r ∨ ∃ b, ⟨i, r, b⟩ ∈ h.exits
  removed_once : ∀ ex ∈ h.exits, ex.wait.frame.kind = .spin →
    (∃ m, h.removalsOf ex.wait = [m]) ∧ ex.wait.entry ∉ s.entriesAt ex.wait.spot
  verdict : ∀ ex ∈ h.exits, ex.wait.frame.kind = .spin → ex.wait.frame.deadline.isSome = true →
    (ex.answer = some true ↔ ∃ m ∈ h.removalsOf ex.wait, m.notified = false ∧ m.remover = ex.call) ∧
    (ex.answer = some false ↔ ∃ m ∈ h.removalsOf ex.wait, m.notified = true)
  /-- The call returns the answer of its last wait. -/
  returned : ∀ i b, (s.call i).answer? = some b → ∃ ex, h.lastExit i = some ex ∧ ex.answer = b
  held : ∀ m ∈ h.removals, m.kind = .spin → m.notified = true →
    s.sh.woken m.entry.waker = true ∨ m.entry ∈ (s.call m.remover).held
  /-- The inner loop never waits on a flag that nobody will set. -/
  drain : ∀ i f n, (s.call i).pc? = some (.wait f (.spinDrain n)) →
    s.sh.woken (.flag n) = true ∨ ∃ N, ⟨n, .flag n⟩ ∈ (s.call N).held
  bounded : ∀ c, (h.notifiedSpins c).length ≤ (h.takenSpins c).length
  one_each : ∀ i r, (i, r) ∈ h.begun → r.notifiesOne = true → (h.taken i).length ≤ 1

/-- What is kept along a run. -/
structure SpinsExplained (s : State V) (h : History V) : Prop where
  ends : ∀ i r, (i, r) ∈ h.registered → r.frame.kind = .spin →
    (s.call i).registration = some r ∨ ∃ b, ⟨i, r, b⟩ ∈ h.exits
  exits : ∀ ex ∈ h.exits, ex.wait.frame.kind = .spin →
    h.Explains ex ∧ ex.answer.isSome = ex.wait.frame.deadline.isSome
  drained : ∀ i f n, (s.call i).pc? = some (.wait f (.spinDrain n)) →
    n ∉ s.waitsAt (.list f.cv .spin)

variable [DecidableEq V]

theorem SpinsExplained.ends_step (hr : s.Reachable) (hs : s.SpinsExplained h) (hstep : s.step e = some s')
    {i : CallId} {r : Registration} (hi : (i, r) ∈ h.registered ++ s.registers e)
    (hk : r.frame.kind = .spin) :
    (s'.call i).registration = some r ∨ ∃ b, ⟨i, r, b⟩ ∈ h.exits ++ s.exits e := by
  rcases List.mem_append.mp hi with hi | hi
  · rcases hs.ends i r hi hk with hreg | ⟨b, hex⟩
    · rcases hr.registration_ends hstep hreg with hreg | ⟨b, hone⟩ | ⟨rfl, -⟩
      · exact .inl hreg
      · exact .inr ⟨b, List.mem_append_right _ (by rw [hone]; exact List.mem_singleton_self _)⟩
      · rw [hr.cancel_kind hreg hstep] at hk; cases hk
    · exact .inr ⟨b, List.mem_append_left _ hex⟩
  · rcases registers_step hstep with hnil | ⟨j, r', -, -, -, hone, hj⟩
    · rw [hnil] at hi; cases hi
    · rw [hone] at hi
      cases List.mem_singleton.mp hi
      exact .inl hj

theorem SpinsExplained.drained_step (hr : s.Reachable) (hs : s.SpinsExplained h) (hstep : s.step e = some s')
    {i : CallId} {f : WaitFrame} {n : Nat} (hpc : (s'.call i).pc? = some (.wait f (.spinDrain n))) :
    n ∉ s'.waitsAt (.list f.cv .spin) := by
  have hlt : ∀ w : WaitPc, (s.call i).pc? = some (.wait f w) → w.released = true → w.number? = some n →
      n < s.sh.fresh := by
    intro w hw hrel hnum
    obtain ⟨r, hreg, -⟩ := hr.registered hw hrel
    have hreg' := hreg
    simp only [Call.registration, hw, Option.bind_some, Pc.registration] at hreg'
    rw [← (WaitPc.of_registration hreg' hnum).2.1]
    exact hr.number_lt_fresh hreg
  have hstay : (s.call i).pc? = some (.wait f (.spinDrain n)) → n ∉ s'.waitsAt (.list f.cv .spin) :=
    fun hold => hr.stays_unlisted hstep (hlt _ hold rfl rfl) (hs.drained i f n hold)
  rcases hr.sane.numbered.comes_to hstep hpc with hold | hbegin | ⟨a, t, k, pc, m, rfl, ha, hnpc⟩
  · exact hstay hold
  · cases hbegin
  · have hf := hr.fits i
    rw [ha.running] at hf
    rcases ha.step.into_wait hnpc with ⟨w, o, rfl, ho, ho'⟩ | ⟨u, rfl, -⟩ | hreg
    · rcases ho.into_spinDrain ho' with rfl | ⟨rfl, rfl⟩
      · exact hstay (by rw [ha.running]; rfl)
      · apply hr.stays_unlisted hstep (hlt (.spinRemove n) (by rw [ha.running]; rfl) rfl rfl)
        intro hmem
        obtain ⟨x, hx, hxn⟩ := mem_waitsAt.mp hmem
        obtain ⟨t', he⟩ := hr.entry_of_kind f.cv .spin x hx
        -- The call has looked at every flag in the list.
        generalize hsh : s'.sh = sh'
        cases hsh ▸ ha.applied with
        | condvar c a y hy =>
          cases hy with
          | absent kind m hnone => exact hnone x hx (by rw [he, hxn]; rfl)
    · simp [Call.fits, Pc.fits, WaitPc.starts] at hf
    · cases hreg

theorem SpinsExplained.step (hr : s.Reachable) (hacc : s.Accounted h) (hatt : s.Attributed h)
    (hs : s.SpinsExplained h) (hstep : s.step e = some s') : s'.SpinsExplained (s.record h e) := by
  refine ⟨fun i r hi hk => hs.ends_step hr hstep hi hk, fun ex hex hk => ?_,
    fun i f n hpc => hs.drained_step hr hstep hpc⟩
  rcases List.mem_append.mp hex with hex | hex
  · exact ⟨(hs.exits ex hex hk).1.record e, (hs.exits ex hex hk).2⟩
  · obtain ⟨t, k, w, a, -, -, -, ho, hf⟩ := exit_cases hr hstep hex
    exact ⟨hatt.explains hr hacc hstep hex (by simp [hk]) (by simp [hk]), ho.timed hf⟩

omit [DecidableEq V] in
theorem spinsExplained_init (cfg : Config) : (cfg.init : State V).SpinsExplained .new where
  ends i r hi := by cases hi
  exits ex hex := by cases hex
  drained i f n hpc := by cases hpc

theorem Recorded.spins {ok : State V → Event V → Prop} (hr : Recorded ok s h) : s.SpinsExplained h :=
  (hr.induction (P := fun s h => (s.Accounted h ∧ s.Attributed h) ∧ s.SpinsExplained h)
    (fun cfg => ⟨⟨accounted_init cfg, attributed_init cfg⟩, spinsExplained_init cfg⟩)
    fun _ _ _ _ hs hp _ hstep => ⟨⟨hp.1.1.step hs hstep, hp.1.2.step hs hp.1.1 hstep⟩,
      hp.2.step hs hp.1.1 hp.1.2 hstep⟩).2.2

/-! ## One to one -/

omit [DecidableEq V] in
theorem SpinsExplained.bounded (hacc : s.Accounted h) (hs : s.SpinsExplained h) (c : CondvarId) :
    (h.notifiedSpins c).length ≤ (h.takenSpins c).length := by
  have hnodup : ((h.notifiedSpins c).map fun ex => ex.wait.entry).Nodup := by
    have honce : ((h.notifiedSpins c).map Exit.wait).Nodup :=
      (List.filter_sublist.map Exit.wait).nodup hacc.once
    have hcomp : ((h.notifiedSpins c).map fun ex => ex.wait.entry) =
        ((h.notifiedSpins c).map Exit.wait).map Registration.entry := by simp
    rw [hcomp]
    refine honce.map_on fun r hr r' hr' he => ?_
    obtain ⟨ex, hex, rfl⟩ := List.mem_map.mp hr
    obtain ⟨ex', hex', rfl⟩ := List.mem_map.mp hr'
    have hreg := hacc.exits ex (List.mem_filter.mp hex).1
    have hreg' := hacc.exits ex' (List.mem_filter.mp hex').1
    exact (hacc.unique hreg hreg' (congrArg Entry.wait he)).2
  have hsub : ((h.notifiedSpins c).map fun ex => ex.wait.entry) ⊆ (h.takenSpins c).map Removal.entry := by
    intro x hx
    obtain ⟨ex, hex, rfl⟩ := List.mem_map.mp hx
    obtain ⟨hmem, hd⟩ := List.mem_filter.mp hex
    obtain ⟨hc, hk, hne⟩ := of_decide_eq_true hd
    obtain ⟨m, hm, ho, hn⟩ := (hs.exits ex hmem hk).1.notified hne
    refine List.mem_map.mpr ⟨m, List.mem_filter.mpr ⟨hm, ?_⟩, ho.entry⟩
    simp [ho.cv, hc, ho.kind, hk, hn]
  simpa using (List.subperm_of_subset hnodup hsub).length_le

theorem spin_waits_matched {ok : State V → Event V → Prop} (hr : Recorded ok s h) : s.SpinsMatched h := by
  obtain ⟨hreach, hacc, hatt⟩ := hr.attributed
  obtain ⟨hanswered, hones⟩ := hr.returns
  have hs := hr.spins
  have hheld : ∀ m ∈ h.removals, m.kind = .spin → m.notified = true →
      s.sh.woken m.entry.waker = true ∨ m.entry ∈ (s.call m.remover).held :=
    fun m hm hk hn => hatt.delivers hacc hm (by simp [hk]) hn
  refine ⟨hs.ends, fun ex hex hk => ?_, fun ex hex hk hd => ?_, hanswered, hheld, fun i f n hpc => ?_,
    hs.bounded hacc, fun i r hi hreq => (hones.one (i, r) hi hreq).length_le⟩
  · obtain ⟨m, hm, ho⟩ : ∃ m ∈ h.removals, m.Of ex.wait := by
      by_cases hb : ex.answer = some true
      · obtain ⟨m, hm, ho, -⟩ := (hs.exits ex hex hk).1.timed_out hb
        exact ⟨m, hm, ho⟩
      · obtain ⟨m, hm, ho, -⟩ := (hs.exits ex hex hk).1.notified hb
        exact ⟨m, hm, ho⟩
    exact ⟨⟨m, hacc.removalsOf_eq hm ho⟩, hacc.absent hm ho⟩
  · obtain ⟨hexp, htimed⟩ := hs.exits ex hex hk
    have hiff := hacc.answer_iff hexp (htimed.trans hd)
    simpa only [History.mem_removalsOf, and_assoc] using hiff
  · have hout := hs.drained i f n hpc
    obtain ⟨r, hi, rfl⟩ := hreach.registered hpc rfl
    have hreg := hi
    simp only [Call.registration, hpc, Option.bind_some, Pc.registration] at hreg
    obtain ⟨-, rfl, hw⟩ := WaitPc.of_registration hreg rfl
    have hk : r.frame.kind = .spin := And.left (of_decide_eq_true (hreach.wait_fits hpc))
    have hentry : r.entry = ⟨r.number, .flag r.number⟩ := by
      unfold WaitFrame.waker? at hw
      simp only [hk, Option.some.injEq] at hw
      rw [Registration.entry, ← hw]
    obtain ⟨m, hm, ho, hn⟩ := hatt.notified_of_absent hacc hi (by simp [hk]) (by rw [hpc]; simp) (by
      intro hmem
      rw [Registration.spot, hk] at hmem
      exact hout (mem_waitsAt.mpr ⟨_, hmem, rfl⟩))
    have hflag : m.entry = ⟨r.number, .flag r.number⟩ := ho.entry.trans hentry
    rcases hheld m hm (ho.kind.trans hk) hn with hwoken | hmem
    · exact .inl (by rw [hflag] at hwoken; exact hwoken)
    · exact .inr ⟨m.remover, by rw [← hflag]; exact hmem⟩

/-- The deadline passes, and then the flag is popped before the call looks for it. -/
theorem spin_waits_matched_late : ∃ (s : State Nat) (h : History Nat),
    exec stepRecorded ((⟨fun _ => true, 0, 0⟩ : Config).init, .new)
      [.begin 0 (.lock 0 .tryLock), .act 0 (.mutex (.cas true)), .wait 0 0 1 (.waitSpinTimeout 0),
        .act 0 (.register (.user 1) .spin 0), .act 0 (.mutex .store), .act 0 (.mutex (.take .sync [])),
        .act 0 (.mutex (.take .async [])), .act 0 (.observe (.flag 0) false), .act 0 (.now 0),
        .begin 1 (.notifyOne 1), .act 1 (.condvar (.user 1) (.pop .spin (some ⟨0, .flag 0⟩))),
        .act 0 (.condvar (.user 1) (.remove .spin 0 false)), .act 1 (.wake (.flag 0)),
        .act 0 (.observe (.flag 0) true)] = some (s, h) ∧ s.SpinsMatched h := by
  exact exists_recorded (fun _ _ => true) rfl (fun _ _ _ _ => trivial)
    fun s h (hr : Recorded (fun _ _ => True) s h) => spin_waits_matched hr

end State

end WasmSafeMutex
