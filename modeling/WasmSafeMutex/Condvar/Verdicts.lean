import WasmSafeMutex.Condvar.History
import WasmSafeMutex.Condvar.NotifyOne

/-!
# Who took the entry of a wait

Every removal that the history has written down is put down to a notifier, which will wake
the entry, or to a wait, which goes on to return that it timed out.
-/

namespace WasmSafeMutex

open Interleaving

variable {V : Type}

/-- The removal took out the entry of this wait. -/
structure Removal.Of (m : Removal) (r : Registration) : Prop where
  cv : m.cv = r.frame.cv
  kind : m.kind = r.frame.kind
  entry : m.entry = r.entry

/-! ## One operation -/

/-- What a call holds stays with it until it wakes it. -/
theorem Act.Moves.keeps {a : Act V} {es es' : List Entry} (h : a.Moves es es') {x : Entry} (hx : x ∈ es) :
    x ∈ es' ∨ a = .wake x.waker := by
  unfold Act.Moves at h
  split at h
  case h_5 w =>
    rcases h with ⟨y, rfl, rfl⟩ | ⟨-, rfl⟩
    · rcases List.mem_cons.mp hx with rfl | hx
      · exact .inr rfl
      · exact .inl hx
    · exact .inl hx
  all_goals
    rw [h.1] at hx
    cases hx

/-- A call that looks for its own entry in a list. -/
theorem Pc.Step.takes_own {k : Caller V} {pc : Pc V} {n : Next V} {c : CondvarId} {kind : Kind} {x : Nat}
    {b : Bool} (h : pc.Step k (.condvar c (.remove kind x b)) n) :
    ∃ f w o, pc = .wait f w ∧ w.Step (V := V) f (.condvar c (.remove kind x b)) o ∧ n = o.toNext f ∧
      c = f.cv ∧ (kind = .spin ∧ w = .spinRemove x ∨ kind = .sync ∧ w = .blockRemove x ∨
        kind = .async ∧ w = .asyncRemove x) := by
  generalize ha : Act.condvar c (.remove kind x b) = a at h
  cases h with
  | lock l ret a o ho => cases ho <;> cases ha
  | unlock u ret a o ho => cases ho <;> cases ha
  | wait f w a o ho =>
    refine ⟨f, w, o, rfl, ha ▸ ho, rfl, ?_⟩
    cases ho with
    | spinRemove y b => cases ha; exact ⟨rfl, .inl ⟨rfl, rfl⟩⟩
    | blockRemove y b => cases ha; exact ⟨rfl, .inr (.inl ⟨rfl, rfl⟩)⟩
    | asyncRemove y b => cases ha; exact ⟨rfl, .inr (.inr ⟨rfl, rfl⟩)⟩
    | _ => cases ha
  | notify c y a o ho => cases ho <;> cases ha
  | _ => cases ha

theorem Pc.Step.gets {k : Caller V} {pc : Pc V} {a : Act V} {n : Next V} (h : pc.Step k a n)
    {c : CondvarId} {kind : Kind} {x : Entry} (ha : a.gets c kind x) :
    (∃ y, pc = .notify c y) ∧ x ∈ n.held := by
  cases h with
  | lock l ret a o ho => rcases ha with rfl | ⟨es, -, rfl⟩ <;> cases ho
  | unlock u ret a o ho => rcases ha with rfl | ⟨es, -, rfl⟩ <;> cases ho
  | wait f w a o ho => rcases ha with rfl | ⟨es, -, rfl⟩ <;> cases ho
  | notify c' y a o ho =>
    have hmoves := ho.moves k
    rcases ha with rfl | ⟨es, hx, rfl⟩
    · refine ⟨?_, hmoves.2 ▸ List.mem_singleton_self x⟩
      cases ho; exact ⟨_, rfl⟩
    · refine ⟨?_, hmoves.2 ▸ hx⟩
      cases ho; exact ⟨_, rfl⟩
  | _ => rcases ha with h | ⟨es, -, h⟩ <;> cases h

theorem WaitPc.Step.into_asyncSend {f : WaitFrame} {w : WaitPc} {a : Act V} {o : WaitOut} {n : Nat}
    (h : w.Step f a o) (ho : o = .goto (.asyncSend n) ∨ o = .yield (.asyncSend n)) :
    w = .asyncRemove n ∧ a = .condvar f.cv (.remove .async n true) := by
  rcases ho with rfl | rfl
  · generalize hgoto : WaitOut.goto (.asyncSend n) = o at h
    cases h with
    | asyncRemove x b => cases b <;> cases hgoto; exact ⟨rfl, rfl⟩
    | register x => unfold WaitFrame.registered at hgoto; split at hgoto <;> cases hgoto
    | spinLoad x b =>
      unfold WaitFrame.spinAgain at hgoto
      cases b with
      | true => cases hgoto
      | false =>
        simp only [Bool.false_eq_true, if_false] at hgoto
        split at hgoto <;> cases hgoto
    | spinNow x d y | blockNow x d y => split at hgoto <;> cases hgoto
    | spinRemove x b | spinDrain x b | blockCheck x d b | raceNotify x m b | raceTimeout x m b
    | await x b => cases b <;> cases hgoto
    | _ => cases hgoto
  · cases h.pending

/-- A wait with a deadline returns a `WaitTimeoutResult`, and the others do not. -/
theorem WaitPc.Step.timed {f : WaitFrame} {w : WaitPc} {a : Act V} {b : Option Bool}
    (h : w.Step f a (.relock b)) (hf : w.fits f = true) : b.isSome = f.deadline.isSome := by
  generalize ho : WaitOut.relock b = o at h
  cases h with
  | register n => unfold WaitFrame.registered at ho; split at ho <;> cases ho
  | spinLoad n x => cases x <;> cases ho; simp [WaitFrame.notified]
  | spinNow n d x | blockNow n d x => split at ho <;> cases ho
  | spinRemove n x | spinDrain n x | raceNotify n m x | blockCheck n d x | asyncRemove n x | await n x =>
    cases x <;> cases ho
    simp_all [WaitPc.fits]
  | raceTimeout n m x => cases x <;> cases ho
  | park n x | blockRemove n x | asyncSend n => cases ho; simp_all [WaitPc.fits]
  | _ => cases ho

/-- How a spinning or async wait comes to return. -/
theorem WaitPc.Step.answered {f : WaitFrame} {w : WaitPc} {a : Act V} {b : Option Bool}
    (h : w.Step f a (.relock b)) (hf : w.fits f = true) (hk : f.kind ≠ .sync) :
    ∃ n, w.number? = some n ∧
      (b ≠ some true ∧ w ≠ .asyncSend n ∧ (∃ x, a = .observe x true ∧ x.asEntry = some ⟨n, x⟩) ∨
        b = some true ∧ (f.kind = .spin ∧ a = .condvar f.cv (.remove .spin n true) ∨
          f.kind = .async ∧ (w = .asyncSend n ∨ a = .condvar f.cv (.remove .async n false)))) := by
  generalize ho : WaitOut.relock b = o at h
  cases h with
  | register n => unfold WaitFrame.registered at ho; split at ho <;> cases ho
  | spinLoad n x =>
    cases x <;> cases ho
    refine ⟨n, rfl, .inl ⟨?_, by simp, _, rfl, rfl⟩⟩
    cases hd : f.deadline <;> simp [WaitFrame.notified, hd]
  | spinNow n d x | blockNow n d x => split at ho <;> cases ho
  | spinRemove n x =>
    cases x <;> cases ho
    exact ⟨n, rfl, .inr ⟨rfl, .inl ⟨And.left (of_decide_eq_true hf), rfl⟩⟩⟩
  | spinDrain n x | raceNotify n m x | await n x =>
    cases x <;> cases ho
    exact ⟨n, rfl, .inl ⟨by simp, by simp, _, rfl, rfl⟩⟩
  | raceTimeout n m x => cases x <;> cases ho
  | asyncRemove n x =>
    cases x <;> cases ho
    exact ⟨n, rfl, .inr ⟨rfl, .inr ⟨And.left (of_decide_eq_true hf), .inr rfl⟩⟩⟩
  | asyncSend n => cases ho; exact ⟨n, rfl, .inr ⟨rfl, .inr ⟨And.left (of_decide_eq_true hf), .inl rfl⟩⟩⟩
  | park n x => exact absurd (And.left (of_decide_eq_true hf)) hk
  | blockRemove n x => exact absurd (And.left (of_decide_eq_true hf)) hk
  | blockCheck n d x => exact absurd (And.left (of_decide_eq_true hf)) hk
  | _ => cases ho

/-- The removals account for the answer of this wait. -/
structure History.Explains (h : History V) (ex : Exit) : Prop where
  timed_out : ex.answer = some true →
    ∃ m ∈ h.removals, m.Of ex.wait ∧ m.notified = false ∧ m.remover = ex.call
  notified : ex.answer ≠ some true → ∃ m ∈ h.removals, m.Of ex.wait ∧ m.notified = true

theorem History.mem_issued {h : History V} {i : CallId} {r : Registration} (hr : (i, r) ∈ h.registered) :
    r.entry ∈ h.issued r.spot :=
  List.mem_map.mpr ⟨(i, r), List.mem_filter.mpr ⟨hr, by simp⟩, rfl⟩

theorem Removal.mem_from {c : CondvarId} {k : Kind} {ms : List Removal} {x : Entry} :
    x ∈ Removal.from c k ms ↔ ∃ m ∈ ms, m.cv = c ∧ m.kind = k ∧ m.entry = x := by
  simp [Removal.from, and_assoc]

namespace State

variable [DecidableEq V] {s s' : State V} {e : Event V} {h : History V}

/-! ## What a removal says -/

/-- A future is dropped only where it waits as a future. -/
theorem Reachable.cancel_kind (hr : s.Reachable) {i : CallId} {r : Registration}
    (hi : (s.call i).registration = some r) (hstep : s.step (.cancel i) = some s') :
    r.frame.kind = .async := by
  have hf := hr.fits i
  have hpend := hr.sane.pending i
  simp only [State.step] at hstep
  split at hstep
  case h_2 => cases hstep
  case h_1 k pc hc =>
    rw [hc] at hf hi
    have hp := hpend k pc hc
    cases pc with
    | wait f w =>
      have hi : w.registration f none = some r := hi
      obtain ⟨n, hn, -⟩ := Option.bind_eq_some_iff.mp hi
      rw [(WaitPc.of_registration hi hn).1]
      simp only [Call.fits, Pc.fits, Bool.and_eq_true] at hf
      cases w with
      | await | raceNotify => exact And.left (of_decide_eq_true hf.2)
      | _ => cases hp
    | unlock => cases hp
    | _ => cases hi

/-- A number that was given out earlier does not come into a list. -/
theorem Reachable.stays_unlisted (hr : s.Reachable) (hstep : s.step e = some s') {c : CondvarId} {k : Kind}
    {n : Nat} (hn : n < s.sh.fresh) (hout : n ∉ s.waitsAt (.list c k)) : n ∉ s'.waitsAt (.list c k) := by
  intro hmem
  obtain ⟨x, hx, rfl⟩ := mem_waitsAt.mp hmem
  rcases hr.entry_registers hstep hx with hx | ⟨i, t, k', pc, m, -, rfl⟩
  · exact hout (mem_waitsAt.mpr ⟨x, hx, rfl⟩)
  · exact Nat.lt_irrefl _ hn

theorem removals_notified (hstep : s.step e = some s') {m : Removal} (hm : m ∈ s.removals e)
    (hn : m.notified = true) :
    ∃ a, e = .act m.remover a ∧ a.gets m.cv m.kind m.entry ∧ m.entry ∈ (s'.call m.remover).held := by
  have hgets : ∃ a, e = .act m.remover a ∧ a.gets m.cv m.kind m.entry := by
    unfold removals at hm
    split at hm
    case h_1 i c k x =>
      rw [List.mem_singleton.mp hm]
      exact ⟨_, rfl, .inl rfl⟩
    case h_2 i c k xs =>
      obtain ⟨x, hx, rfl⟩ := List.mem_map.mp hm
      exact ⟨_, rfl, .inr ⟨xs, hx, rfl⟩⟩
    case h_3 i c k n =>
      split at hm
      · obtain ⟨x, -, rfl⟩ := List.mem_map.mp hm
        cases hn
      · cases hm
    case h_4 => cases hm
  obtain ⟨a, rfl, hget⟩ := hgets
  obtain ⟨t, k, pc, n, ha⟩ := act_acted hstep
  refine ⟨a, rfl, hget, ?_⟩
  rw [ha.call_self, Next.held_call]
  exact (ha.step.gets hget).2

/-- A wait that removes an entry with its own waker returns that it timed out, at once or
after it has completed its own notification. -/
structure SelfRemoval (s s' : State V) (e : Event V) (m : Removal) (r : Registration) : Prop where
  registered : (s.call m.remover).registration = some r
  spot : r.spot = .list m.cv m.kind
  waker : m.entry.waker = r.waker
  listed : m.entry ∈ s.entriesAt r.spot
  event : e = .act m.remover (.condvar m.cv (.remove m.kind r.number true))
  answer : s.exits e = [⟨m.remover, r, some true⟩] ∨ m.kind = .async ∧
    (s'.call m.remover).registration = some r ∧
    (s'.call m.remover).pc? = some (.wait r.frame (.asyncSend r.number))

theorem removals_own (hr : s.Reachable) (hstep : s.step e = some s') {m : Removal} (hm : m ∈ s.removals e)
    (hn : m.notified = false) : ∃ r, SelfRemoval s s' e m r := by
  unfold removals at hm
  split at hm
  case h_1 => rw [List.mem_singleton.mp hm] at hn; cases hn
  case h_2 =>
    obtain ⟨x, -, rfl⟩ := List.mem_map.mp hm
    cases hn
  case h_4 => cases hm
  case h_3 i c kind x =>
    obtain ⟨t, k, pc, n, ha⟩ := act_acted hstep
    rw [ha.running] at hm
    obtain ⟨y, hy, rfl⟩ := List.mem_map.mp hm
    have hfind := Option.mem_toList.mp hy
    have hwaker : y.waker = kind.waker t x := by
      have := List.find?_some hfind
      simpa [Entry.isOf] using this
    have hlisted : y ∈ s.entriesAt (.list c kind) := List.mem_of_find?_eq_some hfind
    have hf := hr.fits i
    rw [ha.running] at hf
    obtain ⟨f, w, o, rfl, ho, rfl, rfl, hplace⟩ := ha.step.takes_own
    simp only [Call.fits, Pc.fits, Bool.and_eq_true] at hf
    have hnext := WaitPc.next_of_step ho
    have hcall := ha.call_self
    rcases hplace with ⟨rfl, rfl⟩ | ⟨rfl, rfl⟩ | ⟨rfl, rfl⟩
    · have hk : f.kind = .spin := And.left (of_decide_eq_true hf.2)
      have hreg : (WaitPc.spinRemove x).registration f (some t) = some ⟨f, x, .flag x⟩ := by
        simp [WaitPc.registration, WaitPc.number?, WaitFrame.waker?, hk]
      have hspot : Registration.spot ⟨f, x, .flag x⟩ = .list f.cv .spin := by
        rw [Registration.spot, hk]
      refine ⟨⟨f, x, .flag x⟩, by rw [ha.running]; exact hreg, hspot, hwaker, hspot ▸ hlisted, rfl, .inl ?_⟩
      cases ho
      simp [exits, ha.running, hnext, hreg]
    · have hk : f.kind = .sync := And.left (of_decide_eq_true hf.2)
      have hreg : (WaitPc.blockRemove x).registration f (some t) = some ⟨f, x, .thread t⟩ := by
        simp [WaitPc.registration, WaitPc.number?, WaitFrame.waker?, hk]
      have hspot : Registration.spot ⟨f, x, .thread t⟩ = .list f.cv .sync := by
        rw [Registration.spot, hk]
      refine ⟨⟨f, x, .thread t⟩, by rw [ha.running]; exact hreg, hspot, hwaker, hspot ▸ hlisted, rfl, .inl ?_⟩
      cases ho
      simp [exits, ha.running, hnext, hreg]
    · have hk : f.kind = .async := And.left (of_decide_eq_true hf.2)
      have hreg : ∀ w : WaitPc, w.number? = some x → w.registration f (some t) = some ⟨f, x, .cont x⟩ := by
        intro w hw
        simp [WaitPc.registration, hw, WaitFrame.waker?, hk]
      have hspot : Registration.spot ⟨f, x, .cont x⟩ = .list f.cv .async := by
        rw [Registration.spot, hk]
      refine ⟨⟨f, x, .cont x⟩, ?_, hspot, hwaker, hspot ▸ hlisted, rfl, .inr ⟨rfl, ?_⟩⟩
      · rw [ha.running]; exact hreg (.asyncRemove x) rfl
      · cases ho
        rw [hcall]
        exact ⟨hreg (.asyncSend x) rfl, rfl⟩

/-- What the answer of a wait is put down to. -/
structure Attributed (s : State V) (h : History V) : Prop where
  waker : ∀ x ∈ h.registered, ∃ t, x.2.waker = x.2.frame.kind.waker t x.2.number
  /-- Who has taken out a flag or a continuation has set it, or holds it. -/
  held : ∀ m ∈ h.removals, m.notified = true → m.entry.waker.asEntry = some m.entry →
    s.sh.woken m.entry.waker = true ∨ m.entry ∈ (s.call m.remover).held
  own : ∀ m ∈ h.removals, m.notified = false → ∃ r, (m.remover, r) ∈ h.registered ∧
    r.spot = .list m.cv m.kind ∧ r.waker = m.entry.waker ∧
    (⟨m.remover, r, some true⟩ ∈ h.exits ∨ m.kind = .async ∧
      (s.call m.remover).registration = some r ∧
      (s.call m.remover).pc? = some (.wait r.frame (.asyncSend r.number)))
  sends : ∀ i r, (s.call i).registration = some r →
    (s.call i).pc? = some (.wait r.frame (.asyncSend r.number)) →
    ∃ m ∈ h.removals, m.Of r ∧ m.notified = false ∧ m.remover = i

/-- What a call holds, it goes on holding until it wakes it. -/
theorem Reachable.held_keeps (hr : s.Reachable) (hstep : s.step e = some s') {i : CallId} {x : Entry}
    (hx : x ∈ (s.call i).held) : x ∈ (s'.call i).held ∨ s'.sh.woken x.waker = true := by
  rcases call_cases hr.sane.numbered hstep i with hcall | ⟨a, t, k, pc, n, -, ha⟩ | ⟨c, ht⟩
  · rw [hcall]; exact .inl hx
  · have hf := hr.fits i
    rw [ha.running] at hf hx
    rw [ha.call_self, Next.held_call]
    rcases (ha.step.moves hf).keeps hx with hkeep | rfl
    · exact .inl hkeep
    · refine .inr ?_
      generalize hsh : s'.sh = sh'
      cases hsh ▸ ha.applied with
      | wake w => simp [Shared.wake]
  · rw [ht.call_self, ht.turn.held (hr.sane.pending i)]
    exact .inl hx

theorem Attributed.held_step (hr : s.Reachable) (hs : s.Attributed h) (hstep : s.step e = some s')
    {m : Removal} (hm : m ∈ h.removals ++ s.removals e) (hn : m.notified = true)
    (hx : m.entry.waker.asEntry = some m.entry) :
    s'.sh.woken m.entry.waker = true ∨ m.entry ∈ (s'.call m.remover).held := by
  rcases List.mem_append.mp hm with hm | hm
  · rcases hs.held m hm hn hx with hw | hheld
    · exact .inl (hr.woken_keeps hstep hx hw)
    · exact (hr.held_keeps hstep hheld).symm
  · obtain ⟨a, -, -, hheld⟩ := removals_notified hstep hm hn
    exact .inr hheld

/-- A timed out future does not rest before it has completed its own notification. -/
theorem Reachable.asyncSend_step (hr : s.Reachable) (hstep : s.step e = some s') {i : CallId}
    {r : Registration} (hi : (s.call i).registration = some r)
    (hpc : (s.call i).pc? = some (.wait r.frame (.asyncSend r.number))) :
    (s'.call i).registration = some r ∧
      (s'.call i).pc? = some (.wait r.frame (.asyncSend r.number)) ∨
    s.exits e = [⟨i, r, some true⟩] := by
  rcases hr.sane.goes_on hstep hpc rfl with hcall | ⟨a, t, k, n, rfl, ha⟩
  · rw [hcall]; exact .inl ⟨hi, hpc⟩
  · have hrun := ha.running
    rw [hrun] at hi
    refine .inr ?_
    cases ha.step with
    | wait f w a o ho =>
      have hnext := WaitPc.next_of_step ho
      have hreg : (WaitPc.asyncSend r.number).registration r.frame (some t) = some r := hi
      cases ho
      simp [exits, hrun, hnext, hreg]

omit [DecidableEq V] in
theorem Acted.own_removal {i : CallId} {t : ThreadId} {k : Caller V} {pc : Pc V} {n : Next V}
    {c : CondvarId} {kind : Kind} {x : Nat}
    (ha : Acted s s' i t k pc (.condvar c (.remove kind x true)) n) :
    ∃ y ∈ s.entriesAt (.list c kind), y.waker = kind.waker t x ∧
      s.removals (.act i (.condvar c (.remove kind x true))) = [⟨i, c, kind, y, false⟩] := by
  have hrun := ha.running
  generalize hsh : s'.sh = sh'
  cases hsh ▸ ha.applied with
  | condvar c a z hz =>
    cases hz with
    | removed kind m es y es' hk hy hfirst =>
      have hfind := Entry.find?_isOf hk hy hfirst
      refine ⟨y, List.mem_of_find?_eq_some hfind, hy, ?_⟩
      simp [removals, hrun, hfind]

theorem Attributed.sends_step (hr : s.Reachable) (hs : s.Attributed h) (hstep : s.step e = some s')
    {i : CallId} {r : Registration} (hi : (s'.call i).registration = some r)
    (hpc : (s'.call i).pc? = some (.wait r.frame (.asyncSend r.number))) :
    ∃ m ∈ h.removals ++ s.removals e, m.Of r ∧ m.notified = false ∧ m.remover = i := by
  have hold : s'.call i = s.call i → ∃ m ∈ h.removals ++ s.removals e, m.Of r ∧ m.notified = false ∧
      m.remover = i := by
    intro hcall
    rw [hcall] at hi hpc
    obtain ⟨m, hm, hof⟩ := hs.sends i r hi hpc
    exact ⟨m, List.mem_append_left _ hm, hof⟩
  rcases call_cases hr.sane.numbered hstep i with hcall | ⟨a, t, k, pc, n, rfl, ha⟩ | ⟨c, ht⟩
  · exact hold hcall
  · have hf := hr.fits i
    rw [ha.running] at hf
    rw [ha.call_self] at hi hpc
    have hnpc : n.pc? = some (.wait r.frame (.asyncSend r.number)) := by cases n <;> exact hpc
    rcases ha.step.into_wait hnpc with ⟨w, o, rfl, ho, ho'⟩ | ⟨u, rfl, -⟩ | hreg
    · simp only [Call.fits, Pc.fits, Bool.and_eq_true] at hf
      -- It has just found its entry in the list.
      obtain ⟨rfl, rfl⟩ := ho.into_asyncSend ho'
      have hk : r.frame.kind = .async := And.left (of_decide_eq_true hf.2)
      obtain ⟨y, hy, hwaker, hremovals⟩ := ha.own_removal
      have hself := hr.entriesApart.numbered _ y hy ⟨r.number, .cont r.number⟩ (by rw [hwaker]; rfl)
      have hentry : r.entry = ⟨r.number, .cont r.number⟩ := by
        have hw := Call.waker_of_registration hi
        unfold WaitFrame.waker? at hw
        rw [hk] at hw
        simp only [Option.some.injEq] at hw
        rw [Registration.entry, ← hw]
      refine ⟨⟨i, r.frame.cv, .async, y, false⟩, ?_, ⟨rfl, hk.symm, ?_⟩, rfl, rfl⟩
      · rw [hremovals]; exact List.mem_append_right _ (List.mem_singleton_self _)
      · rw [hentry]; exact hself.symm
    · simp [Call.fits, Pc.fits, WaitPc.starts] at hf
    · cases hreg
  · rw [ht.call_self] at hi hpc
    have hturn := ht.turn
    have hpend := hr.sane.pending i
    generalize s.call i = c₀ at hturn hpend
    cases hturn with
    | poll t k pc =>
      obtain rfl : pc = .wait r.frame (.asyncSend r.number) := Option.some.inj hpc
      cases hpend k _ rfl
    | begin t q =>
      have hb := q.begins_entry
      rw [Option.some.inj hpc] at hb
      simp [Pc.begins] at hb
    | wait t c w k b =>
      have hb := w.begins_entry (V := V) (.user c)
      rw [Option.some.inj hpc] at hb
      simp [Pc.begins] at hb
    | dropGuard t k b => cases hpc
    | cancel k pc => cases hpc

theorem Attributed.own_step (hr : s.Reachable) (hacc : s.Accounted h) (hs : s.Attributed h)
    (hstep : s.step e = some s') {m : Removal} (hm : m ∈ h.removals ++ s.removals e)
    (hn : m.notified = false) : ∃ r, (m.remover, r) ∈ h.registered ++ s.registers e ∧
      r.spot = .list m.cv m.kind ∧ r.waker = m.entry.waker ∧
      (⟨m.remover, r, some true⟩ ∈ h.exits ++ s.exits e ∨ m.kind = .async ∧
        (s'.call m.remover).registration = some r ∧
        (s'.call m.remover).pc? = some (.wait r.frame (.asyncSend r.number))) := by
  rcases List.mem_append.mp hm with hm | hm
  · obtain ⟨r, hreg, hspot, hw, hend⟩ := hs.own m hm hn
    refine ⟨r, List.mem_append_left _ hreg, hspot, hw, ?_⟩
    rcases hend with hexit | ⟨hk, hi, hpc⟩
    · exact .inl (List.mem_append_left _ hexit)
    · rcases hr.asyncSend_step hstep hi hpc with hstay | hexit
      · exact .inr ⟨hk, hstay⟩
      · exact .inl (List.mem_append_right _ (by rw [hexit]; exact List.mem_singleton_self _))
  · obtain ⟨r, hself⟩ := removals_own hr hstep hm hn
    refine ⟨r, List.mem_append_left _ (hacc.now _ r hself.registered).1, hself.spot, hself.waker.symm, ?_⟩
    rcases hself.answer with hexit | hsend
    · exact .inl (List.mem_append_right _ (by rw [hexit]; exact List.mem_singleton_self _))
    · exact .inr hsend

theorem Attributed.step (hr : s.Reachable) (hacc : s.Accounted h) (hs : s.Attributed h)
    (hstep : s.step e = some s') : s'.Attributed (s.record h e) := by
  refine ⟨fun x hx => ?_, fun m hm hn hx => hs.held_step hr hstep hm hn hx,
    fun m hm hn => hs.own_step hr hacc hstep hm hn, fun i r hi hpc => hs.sends_step hr hstep hi hpc⟩
  rcases List.mem_append.mp hx with hx | hx
  · exact hs.waker x hx
  · cases e with
    | act i a =>
      obtain ⟨t, k, pc, n, ha⟩ := act_acted hstep
      rcases ha.registers with ⟨-, hnil⟩ | ⟨r, rfl, hnum, hentry, hone, -, -⟩
      · rw [hnil] at hx; cases hx
      · rw [hone] at hx
        obtain rfl := List.mem_singleton.mp hx
        refine ⟨t, ?_⟩
        rw [hnum]
        exact congrArg Entry.waker hentry
    | _ => cases hx

omit [DecidableEq V] in
theorem attributed_init (cfg : Config) : (cfg.init : State V).Attributed .new where
  waker x hx := by cases hx
  held m hm := by cases hm
  own m hm := by cases hm
  sends i r hi := by cases hi

theorem Recorded.attributed {ok : State V → Event V → Prop} (hr : Recorded ok s h) :
    s.Reachable ∧ s.Accounted h ∧ s.Attributed h :=
  hr.induction (P := fun s h => s.Accounted h ∧ s.Attributed h)
    (fun cfg => ⟨accounted_init cfg, attributed_init cfg⟩)
    fun _ _ _ _ hs hp _ hstep => ⟨hp.1.step hs hstep, hp.2.step hs hp.1 hstep⟩

/-! ## The answers -/

omit [DecidableEq V] in
/-- An entry is removed once. -/
theorem Accounted.removal_unique (hacc : s.Accounted h) {m m' : Removal} {r : Registration}
    (hm : m ∈ h.removals) (hm' : m' ∈ h.removals) (ho : m.Of r) (ho' : m'.Of r) : m = m' := by
  have hnodup := (hacc.ledger r.frame.cv r.frame.kind).nodup_gone
  refine List.inj_on_of_nodup_map hnodup ?_ ?_ (ho.entry.trans ho'.entry.symm)
  · exact List.mem_filter.mpr ⟨hm, by simp [ho.cv, ho.kind]⟩
  · exact List.mem_filter.mpr ⟨hm', by simp [ho'.cv, ho'.kind]⟩

omit [DecidableEq V] in
/-- Where the entry of a wait is gone from its list, somebody has removed it. -/
theorem Accounted.removed (hacc : s.Accounted h) {i : CallId} {r : Registration}
    (hr : (i, r) ∈ h.registered) (habsent : r.entry ∉ s.entriesAt r.spot) : ∃ m ∈ h.removals, m.Of r := by
  have hgone := (hacc.ledger r.frame.cv r.frame.kind).gone_of_absent (History.mem_issued hr) habsent
  obtain ⟨m, hm, hc, hk, he⟩ := Removal.mem_from.mp hgone
  exact ⟨m, hm, hc, hk, he⟩

omit [DecidableEq V] in
theorem Accounted.absent (hacc : s.Accounted h) {m : Removal} {r : Registration} (hm : m ∈ h.removals)
    (ho : m.Of r) : r.entry ∉ s.entriesAt r.spot :=
  (hacc.ledger r.frame.cv r.frame.kind).not_present
    (Removal.mem_from.mpr ⟨m, hm, ho.cv, ho.kind, ho.entry⟩)

omit [DecidableEq V] in
/-- What has been removed was the entry of a wait. -/
theorem Accounted.wait_of_removal (hacc : s.Accounted h) {m : Removal} (hm : m ∈ h.removals) :
    ∃ x ∈ h.registered, m.Of x.2 := by
  have hissued : m.entry ∈ h.issued (.list m.cv m.kind) :=
    (hacc.ledger m.cv m.kind).mem.mpr (.inr (Removal.mem_from.mpr ⟨m, hm, rfl, rfl, rfl⟩))
  obtain ⟨x, hx, he⟩ := List.mem_map.mp hissued
  obtain ⟨hreg, hspot⟩ := List.mem_filter.mp hx
  injection of_decide_eq_true hspot with hc hk
  exact ⟨x, hreg, hc.symm, hk.symm, he.symm⟩

omit [DecidableEq V] in
theorem Attributed.numbered (hatt : s.Attributed h) {i : CallId} {r : Registration}
    (hr : (i, r) ∈ h.registered) (hk : r.frame.kind ≠ .sync) : r.waker.asEntry = some r.entry := by
  obtain ⟨t, ht⟩ := hatt.waker _ hr
  have ht : r.waker = r.frame.kind.waker t r.number := ht
  rw [Registration.entry, ht]
  cases hkind : r.frame.kind with
  | sync => exact absurd hkind hk
  | spin | async => rfl

omit [DecidableEq V] in
/-- Whoever takes a flag or a continuation out has set it, or holds it. -/
theorem Attributed.delivers (hacc : s.Accounted h) (hatt : s.Attributed h) {m : Removal}
    (hm : m ∈ h.removals) (hk : m.kind ≠ .sync) (hn : m.notified = true) :
    s.sh.woken m.entry.waker = true ∨ m.entry ∈ (s.call m.remover).held := by
  obtain ⟨x, hx, ho⟩ := hacc.wait_of_removal hm
  apply hatt.held m hm hn
  rw [ho.entry]
  exact hatt.numbered hx (by rw [← ho.kind]; exact hk)

theorem Kind.waker_inj {k : Kind} (hk : k ≠ .sync) {t t' : ThreadId} {n n' : Nat}
    (h : k.waker t n = k.waker t' n') : n = n' := by
  cases k with
  | sync => exact absurd rfl hk
  | spin | async => injection h

omit [DecidableEq V] in
/-- A spinning or async wait whose entry is gone, and that has not removed it itself. -/
theorem Attributed.notified_of_absent (hacc : s.Accounted h) (hs : s.Attributed h) {i : CallId}
    {r : Registration} (hi : (s.call i).registration = some r) (hk : r.frame.kind ≠ .sync)
    (hpc : (s.call i).pc? ≠ some (.wait r.frame (.asyncSend r.number)))
    (habsent : r.entry ∉ s.entriesAt r.spot) : ∃ m ∈ h.removals, m.Of r ∧ m.notified = true := by
  obtain ⟨hreg, hout⟩ := hacc.now i r hi
  obtain ⟨m, hm, ho⟩ := hacc.removed hreg habsent
  refine ⟨m, hm, ho, ?_⟩
  by_contra hn
  obtain ⟨r', hreg', hspot, hw, hend⟩ := hs.own m hm (by simpa using hn)
  -- The waker of such an entry says which wait it belongs to.
  obtain rfl : r' = r := by
    obtain ⟨t, ht⟩ := hs.waker _ hreg
    obtain ⟨t', ht'⟩ := hs.waker _ hreg'
    injection hspot with _ hkind
    rw [ho.entry] at hw
    rw [hkind, ho.kind] at ht'
    have hnum := Kind.waker_inj hk ((ht'.symm.trans hw).trans ht)
    exact (hacc.unique hreg' hreg hnum).2
  rcases hend with hexit | ⟨-, hi', hpc'⟩
  · exact hout _ hexit rfl
  · have hsame : m.remover = i := (hacc.unique (hacc.now _ _ hi').1 hreg rfl).1
    rw [hsame] at hpc'
    exact hpc hpc'

/-- The wait that leaves by this event. -/
theorem exit_cases (hr : s.Reachable) (hstep : s.step e = some s') {ex : Exit} (hex : ex ∈ s.exits e) :
    ∃ t k w a, e = .act ex.call a ∧ s.call ex.call = .running t k (.wait ex.wait.frame w) ∧
      w.registration ex.wait.frame (some t) = some ex.wait ∧
      w.Step (V := V) ex.wait.frame a (.relock ex.answer) ∧ w.fits ex.wait.frame = true := by
  cases e with
  | act i a =>
    obtain ⟨t, k, pc, n, ha⟩ := act_acted hstep
    have hf := hr.fits i
    rw [ha.running] at hf
    cases pc with
    | wait f w =>
      simp only [Call.fits, Pc.fits, Bool.and_eq_true] at hf
      simp only [exits, ha.running] at hex
      split at hex
      case h_2 => cases hex
      case h_1 o b hnext =>
        obtain ⟨r, hreg, rfl⟩ := List.mem_map.mp hex
        have hreg := Option.mem_toList.mp hreg
        obtain ⟨m, hm, -⟩ := Option.bind_eq_some_iff.mp hreg
        obtain rfl := (WaitPc.of_registration hreg hm).1
        exact ⟨t, k, w, a, rfl, ha.running, hreg, WaitPc.step_of_next hnext, hf.2⟩
    | _ => simp [exits, ha.running] at hex
  | _ => cases hex

theorem Attributed.explains (hr : s.Reachable) (hacc : s.Accounted h) (hs : s.Attributed h)
    (hstep : s.step e = some s') {ex : Exit} (hex : ex ∈ s.exits e) (hk : ex.wait.frame.kind ≠ .sync)
    (hok : ex.wait.frame.kind = .async →
      e ≠ .act ex.call (.condvar ex.wait.frame.cv (.remove .async ex.wait.number false))) :
    (s.record h e).Explains ex := by
  obtain ⟨t, k, w, a, rfl, hrun, hreg, ho, hf⟩ := exit_cases hr hstep hex
  obtain ⟨n, hn, hanswer⟩ := ho.answered hf hk
  have hi : (s.call ex.call).registration = some ex.wait := by rw [hrun]; exact hreg
  obtain ⟨-, hnum, hw⟩ := WaitPc.of_registration hreg hn
  obtain ⟨t', k', pc', n', ha⟩ := act_acted hstep
  rcases hanswer with ⟨hne, hplace, x, rfl, hx⟩ | ⟨hb, hown⟩
  · refine ⟨fun hb => absurd hb hne, fun _ => ?_⟩
    -- What the call has seen was set by a notifier.
    have hwoken : s.sh.woken x = true := by
      generalize hsh : s'.sh = sh', hact : Act.observe x true = a
      have happ := hact ▸ hsh ▸ ha.applied
      cases happ with
      | observe w =>
        injection hact with hxw hset
        rw [hxw, ← hset]
      | _ => cases hact
    have habsent : ex.wait.entry ∉ s.entriesAt ex.wait.spot := fun hmem =>
      (hr.entriesApart.woken x _ hx hwoken).2 _ (mem_waitsAt.mpr ⟨_, hmem, hnum⟩)
    obtain ⟨m, hm, hof⟩ := hs.notified_of_absent hacc hi hk
      (by rw [hrun, hnum]; intro hpc; cases hpc; exact hplace rfl) habsent
    exact ⟨m, List.mem_append_left _ hm, hof⟩
  · refine ⟨fun _ => ?_, fun hne => absurd hb hne⟩
    rcases hown with ⟨hkind, rfl⟩ | ⟨hkind, rfl | rfl⟩
    · obtain ⟨y, hy, hyw, hremovals⟩ := ha.own_removal
      have hself := hr.entriesApart.numbered _ y hy ⟨n, .flag n⟩ (by rw [hyw]; rfl)
      unfold WaitFrame.waker? at hw
      rw [hkind] at hw
      simp only [Option.some.injEq] at hw
      refine ⟨⟨ex.call, ex.wait.frame.cv, .spin, y, false⟩, ?_, ⟨rfl, hkind.symm, ?_⟩, rfl, rfl⟩
      · change _ ∈ h.removals ++ s.removals _
        rw [hremovals]; exact List.mem_append_right _ (List.mem_singleton_self _)
      · rw [Registration.entry, hnum, ← hw]; exact hself.symm
    · obtain ⟨m, hm, hof⟩ := hs.sends ex.call ex.wait hi (by rw [hrun, hnum]; rfl)
      exact ⟨m, List.mem_append_left _ hm, hof⟩
    · exact absurd (by rw [hnum]) (hok hkind)

omit [DecidableEq V] in
/-- The one removal of the entry decides on the answer of a timed wait. -/
theorem Accounted.answer_iff (hacc : s.Accounted h) {ex : Exit} (hexp : h.Explains ex)
    (hsome : ex.answer.isSome = true) :
    (ex.answer = some true ↔
      ∃ m ∈ h.removals, m.Of ex.wait ∧ m.notified = false ∧ m.remover = ex.call) ∧
    (ex.answer = some false ↔ ∃ m ∈ h.removals, m.Of ex.wait ∧ m.notified = true) := by
  constructor
  · constructor
    · exact hexp.timed_out
    · rintro ⟨m, hm, ho, hn, -⟩
      by_contra hb
      obtain ⟨m', hm', ho', hn'⟩ := hexp.notified hb
      rw [hacc.removal_unique hm hm' ho ho', hn'] at hn
      cases hn
  · constructor
    · intro hb
      exact hexp.notified (by rw [hb]; simp)
    · rintro ⟨m, hm, ho, hn⟩
      by_contra hb
      have htrue : ex.answer = some true := by
        obtain ⟨b, hb'⟩ := Option.isSome_iff_exists.mp hsome
        cases b with
        | true => exact hb'
        | false => exact absurd hb' hb
      obtain ⟨m', hm', ho', hn', -⟩ := hexp.timed_out htrue
      rw [hacc.removal_unique hm hm' ho ho', hn'] at hn
      cases hn

end State

theorem History.Explains.record {s : State V} {h : History V} {ex : Exit} (hx : h.Explains ex)
    (e : Event V) : (s.record h e).Explains ex := by
  refine ⟨fun hb => ?_, fun hb => ?_⟩
  · obtain ⟨m, hm, hof⟩ := hx.timed_out hb
    exact ⟨m, List.mem_append_left _ hm, hof⟩
  · obtain ⟨m, hm, hof⟩ := hx.notified hb
    exact ⟨m, List.mem_append_left _ hm, hof⟩

end WasmSafeMutex
