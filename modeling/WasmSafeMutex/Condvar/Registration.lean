import WasmSafeMutex.Delivery

/-!
# Registered waits

A wait call takes its number when it puts its entry into a list, and keeps it until it goes
to take the mutex again.
-/

namespace WasmSafeMutex

variable {V : Type}

def WaitPc.number? : WaitPc → Option Nat
  | .register => none
  | .spawn n _ | .spinLoad n | .spinNow n _ | .spinRemove n | .spinDrain n | .park n
  | .blockNow n _ | .parkTimeout n _ | .blockRemove n | .blockCheck n _ | .await n
  | .raceNotify n _ | .raceTimeout n _ | .asyncRemove n | .asyncSend n => some n

/-- The waker in the entry of wait `n`. A suspended future is on no thread. -/
def WaitFrame.waker? (f : WaitFrame) (o : Option ThreadId) (n : Nat) : Option Waker :=
  match f.kind with
  | .spin => some (.flag n)
  | .sync => o.map .thread
  | .async => some (.cont n)

/-- A wait that has registered: its frame, its number and the waker that it left. -/
structure Registration where
  frame : WaitFrame
  number : Nat
  waker : Waker
  deriving DecidableEq

def Registration.place (r : Registration) : Place := .condvar r.frame.cv r.frame.kind

def WaitPc.registration (f : WaitFrame) (o : Option ThreadId) (w : WaitPc) : Option Registration :=
  w.number?.bind fun n => (f.waker? o n).map fun x => ⟨f, n, x⟩

def Pc.registration (o : Option ThreadId) : Pc V → Option Registration
  | .wait f w | .unlock _ (.wait f w) => w.registration f o
  | _ => none

def Call.registration (c : Call V) : Option Registration := c.pc?.bind (Pc.registration c.thread?)

/-! ## One operation -/

theorem WaitPc.Step.number {f : WaitFrame} {w w' : WaitPc} {a : Act V} {o : WaitOut}
    (h : w.Step f a o) (ho : o.pc? = some w') :
    w'.number? = w.number? ∨ w = .register ∧ ∃ x, a = .register f.cv f.kind x ∧ w'.number? = some x := by
  cases h with
  | register n =>
    refine .inr ⟨rfl, n, rfl, ?_⟩
    rcases f with ⟨cv, k, d⟩
    cases k <;> cases d <;> cases ho <;> rfl
  | spinLoad n b =>
    rcases f with ⟨cv, k, d⟩
    cases b <;> cases d <;> cases ho <;> exact .inl rfl
  | spinNow n d y | blockNow n d y => split at ho <;> cases ho <;> exact .inl rfl
  | spinRemove n b | spinDrain n b | blockCheck n d b | await n b | raceNotify n m b
  | raceTimeout n m b | asyncRemove n b => cases b <;> cases ho <;> exact .inl rfl
  | spawn n d m | parkTimeout n d b => cases ho; exact .inl rfl
  | _ => cases ho

theorem WaitFrame.waker_mono {f : WaitFrame} {n : Nat} {x : Waker} (t : ThreadId)
    (h : f.waker? none n = some x) : f.waker? (some t) n = some x := by
  rcases f with ⟨cv, k, d⟩
  cases k <;> first | exact h | cases h

theorem WaitPc.registration_mono {f : WaitFrame} {w : WaitPc} {r : Registration} (t : ThreadId)
    (h : w.registration f none = some r) : w.registration f (some t) = some r := by
  simp only [WaitPc.registration, Option.bind_eq_some_iff, Option.map_eq_some_iff] at h ⊢
  obtain ⟨n, hn, x, hx, rfl⟩ := h
  exact ⟨n, hn, x, WaitFrame.waker_mono t hx, rfl⟩

theorem Pc.registration_mono {pc : Pc V} {r : Registration} (t : ThreadId)
    (h : pc.registration none = some r) : pc.registration (some t) = some r := by
  unfold Pc.registration at h ⊢
  split at h
  case h_1 f w | h_2 u f w => exact WaitPc.registration_mono t h
  case h_3 => cases h

theorem Next.registration_of_call {k : Caller V} {t : ThreadId} {n : Next V} {r : Registration}
    (h : (n.call k t).registration = some r) :
    ∃ pc, n.pc? = some pc ∧ pc.registration (some t) = some r := by
  cases n with
  | goto pc => exact ⟨pc, rfl, h⟩
  | yield pc => exact ⟨pc, rfl, Pc.registration_mono t h⟩
  | _ => cases h

theorem WaitPc.Step.registration {f : WaitFrame} {w w' : WaitPc} {a : Act V} {o : WaitOut}
    (h : w.Step f a o) (ho : o.pc? = some w') {x : Option ThreadId} {r : Registration}
    (hr : w'.registration f x = some r) :
    w.registration f x = some r ∨ a = .register r.frame.cv r.frame.kind r.number := by
  simp only [WaitPc.registration, Option.bind_eq_some_iff, Option.map_eq_some_iff] at hr ⊢
  obtain ⟨n, hn, y, hy, rfl⟩ := hr
  rcases h.number ho with he | ⟨-, m, ha, he⟩
  · exact .inl ⟨n, he ▸ hn, y, hy, rfl⟩
  · cases he.symm.trans hn; exact .inr ha

/-- A call comes to be registered by the push, and stays so with the same number. -/
theorem Pc.Step.registration {k : Caller V} {pc : Pc V} {a : Act V} {n : Next V} (h : pc.Step k a n)
    {t : ThreadId} {r : Registration} (hn : (n.call k t).registration = some r) :
    pc.registration (some t) = some r ∨ a = .register r.frame.cv r.frame.kind r.number := by
  obtain ⟨pc', hpc, hr⟩ := Next.registration_of_call hn
  unfold Pc.registration at hr
  split at hr
  case h_1 f w =>
    rcases h.into_wait hpc with ⟨w₀, o, rfl, ho, rfl | rfl⟩ | ⟨u, rfl, -⟩ | rfl
    · exact ho.registration rfl hr
    · exact ho.registration rfl hr
    · exact .inl hr
    · cases hr
  case h_2 u f w =>
    rcases h.into_unlock hpc with ⟨u₀, rfl, -⟩ | ⟨f', w₀, w', rfl, he, rfl, ho⟩ | ⟨rfl, hne⟩
    · exact .inl hr
    · cases he; exact ho.registration rfl hr
    · exact absurd rfl (hne f w)
  case h_3 => cases hr

theorem Call.waker_of_registration {c : Call V} {r : Registration} (h : c.registration = some r) :
    r.frame.waker? c.thread? r.number = some r.waker := by
  obtain ⟨pc, -, hr⟩ := Option.bind_eq_some_iff.mp h
  unfold Pc.registration at hr
  split at hr
  case h_1 f w | h_2 u f w =>
    simp only [WaitPc.registration, Option.bind_eq_some_iff, Option.map_eq_some_iff] at hr
    obtain ⟨n, -, x, hx, rfl⟩ := hr
    exact hx
  case h_3 => cases hr

/-- A call that makes its push is not registered before it. -/
theorem Pc.Step.of_register {k : Caller V} {pc : Pc V} {n : Next V} {c : CondvarId} {kind : Kind}
    {x : Nat} (h : pc.Step k (.register c kind x) n) :
    ∃ f, pc = .wait f .register ∧ c = f.cv ∧ kind = f.kind := by
  generalize ha : Act.register c kind x = a at h
  cases h with
  | lock l ret a o ho => cases ho <;> cases ha
  | unlock u ret a o ho => cases ho <;> cases ha
  | wait f w a o ho =>
    cases ho with
    | register y => cases ha; exact ⟨f, rfl, rfl, rfl⟩
    | _ => cases ha
  | notify c y a o ho => cases ho <;> cases ha
  | _ => cases ha

theorem WaitPc.mem_numbers {w : WaitPc} {n : Nat} (h : w.number? = some n) : n ∈ w.numbers := by
  cases w <;> cases h <;> first | exact List.mem_singleton_self _ | exact List.mem_cons_self

theorem Call.mem_numbers {c : Call V} {r : Registration} (h : c.registration = some r) :
    r.number ∈ c.numbers := by
  obtain ⟨pc, hpc, hr⟩ := Option.bind_eq_some_iff.mp h
  have hn : r.number ∈ pc.numbers := by
    unfold Pc.registration at hr
    split at hr
    case h_1 f w | h_2 u f w =>
      simp only [WaitPc.registration, Option.bind_eq_some_iff, Option.map_eq_some_iff] at hr
      obtain ⟨n, hn, x, -, rfl⟩ := hr
      exact WaitPc.mem_numbers hn
    case h_3 => cases hr
  cases c <;> cases hpc <;> exact hn

variable [DecidableEq V]

theorem Call.Turn.registration {i : CallId} {e : Event V} {c c' : Call V} (h : Call.Turn i e c c')
    (hp : ∀ k pc, c = .suspended k pc → pc.pending = true) (hf : c.fits = true) {r : Registration}
    (hr : c'.registration = some r) : c.registration = some r := by
  cases h with
  | begin t q => cases q <;> cases hr
  | wait t c w k b => cases w <;> cases hr
  | dropGuard t k b => cases hr
  | poll t k pc =>
    have hpend := hp k pc rfl
    cases pc with
    | wait f w =>
      have hasync : f.kind = .async := by
        simp only [Call.fits, Pc.fits, Bool.and_eq_true] at hf
        cases w with
        | await | raceNotify => simpa [WaitPc.fits] using And.left (of_decide_eq_true hf.2)
        | _ => cases hpend
      simpa [Call.registration, Call.pc?, Call.thread?, Pc.registration, WaitPc.registration,
        WaitFrame.waker?, hasync] using hr
    | unlock => cases hpend
    | _ => cases hr
  | cancel k pc => cases hr

namespace State

variable {s s' : State V} {e : Event V}

/-- A registered call was registered before, or has just made its push. -/
theorem registration_step (h : s.Reachable) (hstep : s.step e = some s') {i : CallId}
    {r : Registration} (hr : (s'.call i).registration = some r) :
    (s.call i).registration = some r ∨
      e = .act i (.register r.frame.cv r.frame.kind r.number) ∧ r.number = s.sh.fresh := by
  rcases call_cases h.sane.numbered hstep i with hcall | ⟨a, t, k, pc, n, rfl, ha⟩ | ⟨c, ht⟩
  · rw [hcall] at hr; exact .inl hr
  · rw [ha.call_self] at hr
    rcases ha.step.registration hr with hold | rfl
    · rw [ha.running]; exact .inl hold
    · exact .inr ⟨rfl, (ha.applied.creates.2 _ rfl).1⟩
  · rw [ht.call_self] at hr
    exact .inl (ht.turn.registration (h.sane.pending i) (h.fits i) hr)

/-- The number of a registered call has been given out. -/
theorem Reachable.number_lt_fresh (h : s.Reachable) {i : CallId} {r : Registration}
    (hr : (s.call i).registration = some r) : r.number < s.sh.fresh :=
  h.numbersApart.lt_fresh i _ (Call.mem_numbers hr)

end State

end WasmSafeMutex
