import WasmSafeMutex.Entries

/-!
# Whose entry is in a list

A registered call is the owner of its entry. Most ways to leave a wait leave nothing behind:
the call has seen its wake, or it has removed its own entry. The others are named here.
-/

namespace WasmSafeMutex

variable {V : Type}

def Registration.entry (r : Registration) : Entry := ⟨r.number, r.waker⟩

def Registration.spot (r : Registration) : Spot := .list r.frame.cv r.frame.kind

/-- The call leaves its wait, and this operation does not tell that its entry has been woken. -/
def WaitPc.early : WaitPc → Act V → Bool
  | .park _, .park _ => true
  | .blockCheck _ _, .condvar _ (.has false) => true
  | .blockRemove _, .condvar _ (.remove _ _ false) => true
  | .asyncRemove _, .condvar _ (.remove _ _ false) => true
  | _, _ => false

def Pc.early (a : Act V) : Pc V → Bool
  | .wait _ w => w.early a
  | _ => false

/-- Call `i` leaves its wait by this event without having seen its wake. -/
def State.LeavesEarly (s : State V) (i : CallId) : Event V → Prop
  | .act j a => j = i ∧ (s.call i).pc?.any (Pc.early a) = true
  | .cancel j => j = i
  | _ => False

/-- The operations that can be an early leave, wherever they are made. -/
def Event.leaves : Event V → Bool
  | .act _ (.park _) | .act _ (.condvar _ (.has false)) | .act _ (.condvar _ (.remove _ _ false))
  | .cancel _ => true
  | _ => false

theorem State.LeavesEarly.leaves {s : State V} {i : CallId} {e : Event V} (h : s.LeavesEarly i e) :
    e.leaves = true := by
  cases e with
  | act j a =>
    obtain ⟨pc, -, hpc⟩ := (Option.any_eq_true _ _).mp h.2
    cases pc with
    | wait f w =>
      have hw : w.early a = true := hpc
      unfold WaitPc.early at hw
      split at hw <;> first | rfl | cases hw
    | _ => cases hpc
  | cancel j => rfl
  | _ => exact h.elim

/-! ## Registering -/

theorem Pc.Step.registers {k : Caller V} {pc : Pc V} {n : Next V} {c : CondvarId} {kind : Kind}
    {x : Nat} (h : pc.Step k (.register c kind x) n) (t : ThreadId) :
    ∃ f : WaitFrame, f.cv = c ∧ f.kind = kind ∧
      (n.call k t).registration = some ⟨f, x, kind.waker t x⟩ := by
  generalize ha : Act.register c kind x = a at h
  cases h with
  | lock l ret a o ho => cases ho <;> cases ha
  | unlock u ret a o ho => cases ho <;> cases ha
  | wait f w a o ho =>
    cases ho with
    | register y =>
      cases ha
      refine ⟨f, rfl, rfl, ?_⟩
      rcases f with ⟨cv, k, d⟩
      cases k <;> cases d <;> rfl
    | _ => cases ha
  | notify c y a o ho => cases ho <;> cases ha
  | _ => cases ha

theorem WaitPc.of_registration {f : WaitFrame} {w : WaitPc} {o : Option ThreadId} {r : Registration}
    (h : w.registration f o = some r) {n : Nat} (hn : w.number? = some n) :
    r.frame = f ∧ r.number = n ∧ f.waker? o n = some r.waker := by
  simp only [WaitPc.registration, Option.bind_eq_some_iff, Option.map_eq_some_iff] at h
  obtain ⟨m, hm, x, hx, rfl⟩ := h
  cases hm.symm.trans hn
  exact ⟨rfl, rfl, hx⟩

/-! ## Leaving -/

/-- The operation shows, or brings about, that the flag or the continuation of this number is
set. -/
def Act.shows (n : Nat) : Act V → Prop
  | .observe w b => b = true ∧ (w = .flag n ∨ w = .cont n)
  | .wake w => w = .cont n
  | _ => False

theorem Shared.Applied.shown {sh sh' : Shared V} {m : MutexId} {i : CallId} {t : ThreadId} {a : Act V}
    (h : sh.Applied m i t a sh') {n : Nat} (ha : a.shows n) :
    ∃ w, w.asEntry = some ⟨n, w⟩ ∧ sh'.woken w = true := by
  cases h with
  | observe w =>
    obtain ⟨hb, rfl | rfl⟩ := ha
    · exact ⟨.flag n, rfl, hb⟩
    · exact ⟨.cont n, rfl, hb⟩
  | wake w =>
    cases ha
    exact ⟨.cont n, rfl, Function.update_self ..⟩
  | _ => cases ha

theorem WaitPc.Step.relocks {f : WaitFrame} {w : WaitPc} {a : Act V} {o : WaitOut} (h : w.Step f a o)
    (ho : o.pc? = none) (hf : w.fits f = true) : w.early a = true ∨
      ∃ n, w.number? = some n ∧ (a.shows n ∨
        f.kind ≠ .async ∧ a = .condvar f.cv (.remove f.kind n true) ∧ (Pc.wait f w : Pc V).held = []) := by
  cases h with
  | register n =>
    rcases f with ⟨cv, k, d⟩
    cases k <;> cases d <;> cases ho
  | spinLoad n b =>
    cases b with
    | true => exact .inr ⟨n, rfl, .inl ⟨rfl, .inl rfl⟩⟩
    | false => cases ho
  | spinRemove n b =>
    cases b with
    | true =>
      have hk : f.kind = .spin := And.left (of_decide_eq_true hf)
      exact .inr ⟨n, rfl, .inr ⟨by simp [hk], by rw [hk], rfl⟩⟩
    | false => cases ho
  | spinDrain n b =>
    cases b with
    | true => exact .inr ⟨n, rfl, .inl ⟨rfl, .inl rfl⟩⟩
    | false => cases ho
  | blockRemove n b =>
    cases b with
    | true =>
      have hk : f.kind = .sync := And.left (of_decide_eq_true hf)
      exact .inr ⟨n, rfl, .inr ⟨by simp [hk], by rw [hk], rfl⟩⟩
    | false => exact .inl rfl
  | blockCheck n d b =>
    cases b with
    | true => cases ho
    | false => exact .inl rfl
  | await n b | raceNotify n m b =>
    cases b with
    | true => exact .inr ⟨n, rfl, .inl ⟨rfl, .inr rfl⟩⟩
    | false => cases ho
  | raceTimeout n m b => cases b <;> cases ho
  | asyncRemove n b =>
    cases b with
    | true => cases ho
    | false => exact .inl rfl
  | asyncSend n => exact .inr ⟨n, rfl, .inl rfl⟩
  | park n b => exact .inl rfl
  | _ => cases ho

/-- A registered call that goes on waiting keeps its registration. -/
theorem WaitPc.Step.stays {f : WaitFrame} {w w' : WaitPc} {a : Act V} {o : WaitOut} (h : w.Step f a o)
    (ho : o.pc? = some w') (hf : w.fits f = true) {t : ThreadId} {k : Caller V} {r : Registration}
    (hr : w.registration f (some t) = some r) : ((o.toNext f).call k t).registration = some r := by
  simp only [WaitPc.registration, Option.bind_eq_some_iff, Option.map_eq_some_iff] at hr
  obtain ⟨n, hn, x, hx, rfl⟩ := hr
  have hn' : w'.number? = some n := by
    rcases h.number ho with hs | ⟨rfl, -⟩
    · rw [hs, hn]
    · cases hn
  cases o with
  | goto w' | drop w' =>
    cases ho
    simp [WaitOut.toNext, Next.call, Call.registration, Call.pc?, Call.thread?, Pc.registration,
      WaitPc.registration, hn', hx]
  | yield w' =>
    cases ho
    -- Only a future is suspended.
    have hk : f.kind = .async := by
      have hfits := h.fits hf
      have hpend := h.pending
      cases w' with
      | await | raceNotify => exact And.left (of_decide_eq_true hfits)
      | _ => cases hpend
    simp only [WaitFrame.waker?, hk, Option.some.injEq] at hx
    simp [WaitOut.toNext, Next.call, Call.registration, Call.pc?, Call.thread?, Pc.registration,
      WaitPc.registration, WaitFrame.waker?, hn', hk, hx]
  | relock => cases ho

namespace State

variable {s s' : State V} {e : Event V} {i : CallId} {t : ThreadId} {k : Caller V} {pc : Pc V}
  {n : Next V}

/-- An entry that comes into a list is the entry of a call that is registered now. -/
theorem listed_step [DecidableEq V] (h : s.Reachable) (hstep : s.step e = some s') {c : CondvarId}
    {kind : Kind} {x : Entry} (hx : x ∈ s'.entriesAt (.list c kind)) :
    x ∈ s.entriesAt (.list c kind) ∨
      ∃ i r, (s'.call i).registration = some r ∧ r.spot = .list c kind ∧ r.entry = x := by
  refine (h.entry_registers hstep hx).imp_right ?_
  rintro ⟨i, t, k, pc, n, ha, rfl⟩
  obtain ⟨f, rfl, rfl, hr⟩ := ha.step.registers t
  exact ⟨i, _, ha.call_self ▸ hr, rfl, rfl⟩

/-- A spinning or blocking call removes one entry, and its number is nowhere then. -/
theorem Acted.removed {c : CondvarId} {kind : Kind} {m : Nat}
    (h : Acted s s' i t k pc (.condvar c (.remove kind m true)) n) (hs : s.EntriesApart)
    (hheld : pc.held = n.held) : ∃ x ∈ s.entriesAt (.list c kind), x.waker = kind.waker t m ∧
      ∀ q, x.wait ∉ s'.waitsAt q := by
  generalize hsh : s'.sh = sh'
  have happ := hsh ▸ h.applied
  have hcalls : ∀ j, (s'.call j).held = (s.call j).held := fun j => by
    by_cases hj : j = i
    · rw [hj, h.call_self, h.running, Next.held_call, ← hheld]; rfl
    · rw [h.call_ne hj]
  cases happ with
  | condvar c a x hx =>
    cases hx with
    | removed kind m es x es' hk hx =>
      have hold : s.entriesAt (.list c kind) = es ++ x :: es' := hk
      have hl : s'.sh.entriesAt = Function.update s.sh.entriesAt (.list c kind) (es ++ es') :=
        hsh ▸ s.sh.entriesAt_setCondvar c kind (es ++ es')
      have hmem : x ∈ s.entriesAt (.list c kind) := by simp [hold]
      refine ⟨x, hmem, hx, fun q hq => ?_⟩
      by_cases he : q = .list c kind
      · subst he
        rw [waitsAt, entriesAt_self (by simp) hl] at hq
        have hnodup := hs.separated.nodup (.list c kind)
        rw [waitsAt, hold, (List.perm_middle.map Entry.wait).nodup_iff] at hnodup
        exact (List.nodup_cons.mp hnodup).1 hq
      · rw [waitsAt, entriesAt_ne hl he fun j _ => hcalls j] at hq
        exact he (hs.separated.apart q _ _ hq (mem_waitsAt.mpr ⟨x, hmem, rfl⟩))

variable [DecidableEq V]

/-- A call that leaves its wait, and not early, leaves no entry behind. Of the handles of its
thread it may have removed another one. -/
theorem Reachable.left (h : s.Reachable) (hstep : s.step e = some s') {r : Registration}
    (hr : (s.call i).registration = some r) (hr' : (s'.call i).registration ≠ some r) :
    s.LeavesEarly i e ∨ (∀ q, r.number ∉ s'.waitsAt q) ∨
      r.frame.kind = .sync ∧ ∃ x ∈ s.entriesAt r.spot, x.waker = r.waker ∧ ∀ q, x.wait ∉ s'.waitsAt q := by
  rcases call_cases h.sane.numbered hstep i with hcall | ⟨a, t, k, pc, n, rfl, ha⟩ | ⟨c, ht⟩
  · rw [hcall] at hr'
    exact absurd hr hr'
  · have hf := h.fits i
    rw [ha.running] at hf
    have hpc : Pc.registration (some t) pc = some r := by rw [ha.running] at hr; exact hr
    rw [ha.call_self] at hr'
    cases hst : ha.step with
    | unlock u ret a o ho =>
      cases ret with
      | wait f w => cases o <;> exact absurd hpc hr'
      | _ => cases hpc
    | wait f w a o ho =>
      simp only [Call.fits, Pc.fits, Bool.and_eq_true] at hf
      cases ho' : o.pc? with
      | some w' => exact absurd (ho.stays ho' hf.2 hpc) hr'
      | none =>
        rcases ho.relocks ho' hf.2 with he | ⟨m, hm, hend⟩
        · exact .inl ⟨rfl, by simpa [ha.running, Call.pc?, Pc.early] using he⟩
        · obtain ⟨rfl, rfl, hw⟩ := WaitPc.of_registration hpc hm
          refine .inr ?_
          rcases hend with hshow | ⟨hk, rfl, hheld⟩
          · obtain ⟨x, hx, hset⟩ := ha.applied.shown hshow
            exact .inl ((h.step hstep).entriesApart.woken x _ hx hset).2
          · have hnone : (o.toNext r.frame : Next V).held = [] := by
              cases o <;> first | rfl | cases ho'
            obtain ⟨x, hmem, hx, hout⟩ := ha.removed h.entriesApart (hheld.trans hnone.symm)
            unfold WaitFrame.waker? at hw
            split at hw
            case h_1 hspin =>
              rw [hspin] at hx
              have hself := h.entriesApart.numbered _ x hmem ⟨r.number, .flag r.number⟩ (by rw [hx]; rfl)
              subst hself
              exact .inl hout
            case h_2 hsync =>
              refine .inr ⟨hsync, x, hmem, ?_, hout⟩
              rw [hx, hsync, ← Option.some.inj hw]; rfl
            case h_3 hasync => exact absurd hasync hk
    | _ => cases hpc
  · refine .inl ?_
    rw [ht.call_self] at hr'
    have hturn := ht.turn
    generalize s.call i = c₀ at hr hturn
    cases hturn with
    | cancel => exact rfl
    | poll t k pc => exact absurd (Pc.registration_mono t hr) hr'
    | _ => cases hr

/-- Every entry in the list belongs to a call that is registered there. -/
def Owned (s : State V) (c : CondvarId) (k : Kind) : Prop :=
  ∀ x ∈ s.entriesAt (.list c k),
    ∃ i r, (s.call i).registration = some r ∧ r.spot = .list c k ∧ r.entry = x

/-- A thread waits in one call at a time. -/
theorem Reachable.registration_of_thread (h : s.Reachable) {i j : CallId} {r r' : Registration}
    (hr : (s.call i).registration = some r) (hr' : (s.call j).registration = some r')
    (hk : r.frame.kind = .sync) (hk' : r'.frame.kind = .sync) (hw : r.waker = r'.waker) :
    i = j ∧ r = r' := by
  have hwi := Call.waker_of_registration hr
  have hwj := Call.waker_of_registration hr'
  simp only [WaitFrame.waker?, hk, hk', Option.map_eq_some_iff] at hwi hwj
  obtain ⟨t, ht, hti⟩ := hwi
  obtain ⟨t', ht', htj⟩ := hwj
  obtain rfl : t = t' := Waker.thread.inj ((hti.trans hw).trans htj.symm)
  obtain rfl := h.sane.oneCall i j t ht ht'
  exact ⟨rfl, Option.some.inj (hr.symm.trans hr')⟩

/-- Where all entries of a list are owned, a call that does not leave early stays while its
own entry is anywhere. -/
theorem Reachable.owner_stays (h : s.Reachable) (hstep : s.step e = some s') {r : Registration}
    (hr : (s.call i).registration = some r) (hown : s.Owned r.frame.cv r.frame.kind)
    (hearly : ¬ s.LeavesEarly i e) {q : Spot} (hq : r.number ∈ s'.waitsAt q) :
    (s'.call i).registration = some r := by
  by_contra hr'
  rcases h.left hstep hr hr' with he | hout | ⟨hk, x, hx, hw, hout⟩
  · exact hearly he
  · exact hout q hq
  · obtain ⟨j, r', hj, hspot, rfl⟩ := hown x hx
    have hk' : r'.frame.kind = .sync := by
      injection hspot with _ hkind
      rw [hkind, hk]
    rw [← (h.registration_of_thread hj hr hk' hk hw).2] at hq
    exact hout q hq

end State

end WasmSafeMutex
