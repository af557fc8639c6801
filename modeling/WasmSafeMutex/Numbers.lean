import WasmSafeMutex.Places

/-!
# Numbers

Flags, continuations and wait calls are numbered from `fresh` upwards. The numbers that a
call still uses are its own.
-/

namespace WasmSafeMutex

variable {V : Type}

/-! ## The numbers of a call -/

def LockPc.numbers : LockPc → List Nat
  | .leave _ _ n | .await n | .spawn _ n => [n]
  | .raceNotify _ n m | .raceTimeout _ n m => [n, m]
  | _ => []

def WaitPc.numbers : WaitPc → List Nat
  | .register => []
  | .raceNotify n m | .raceTimeout n m => [n, m]
  | .spawn n _ | .spinLoad n | .spinNow n _ | .spinRemove n | .spinDrain n | .park n
  | .blockNow n _ | .parkTimeout n _ | .blockRemove n | .blockCheck n _ | .await n
  | .asyncRemove n | .asyncSend n => [n]

def Pc.numbers : Pc V → List Nat
  | .lock l _ => l.numbers
  | .wait _ w | .unlock _ (.wait _ w) => w.numbers
  | _ => []

def Next.numbers : Next V → List Nat
  | .goto pc | .yield pc => pc.numbers
  | _ => []

def Call.numbers : Call V → List Nat
  | .running _ _ pc | .suspended _ pc => pc.numbers
  | _ => []

/-- The operation makes the thing of number `x`. -/
def Act.creates (a : Act V) (x : Nat) : Prop :=
  match a with
  | .push _ n | .register _ _ n | .spawn _ n => x = n
  | _ => False

theorem Next.numbers_call (k : Caller V) (t : ThreadId) (n : Next V) :
    (n.call k t).numbers = n.numbers := by
  cases n <;> rfl

def LockOut.numbers : LockOut → List Nat
  | .goto l | .yield l => l.numbers
  | _ => []

theorem LockPc.Step.numbers {l : LockPc} {a : Act V} {o : LockOut} (h : l.Step a o) {x : Nat}
    (hx : x ∈ o.numbers) : x ∈ l.numbers ∨ a.creates x := by
  cases h with
  | tryLock won | lastTry won | tryIn k d won => cases won <;> cases hx
  | spinNow d y | now k d y => split at hx <;> cases hx
  | probe d b => cases b <;> cases d <;> cases hx
  | push k d n => exact .inr (List.mem_singleton.mp hx)
  | leave k d n => cases k <;> cases d <;> first | exact .inl hx | cases hx
  | park d b => cases d <;> cases hx
  | spawn d n m =>
    rcases List.mem_cons.mp hx with hx | hx
    · exact .inl (List.mem_singleton.mpr hx)
    · exact .inr (List.mem_singleton.mp hx)
  | raceNotify d n m b => cases b <;> first | exact .inl hx | cases hx
  | awaitPending n | racePending d n m => exact .inl hx
  | _ => cases hx

def WaitOut.numbers : WaitOut → List Nat
  | .goto w | .yield w | .drop w => w.numbers
  | .relock _ => []

theorem WaitPc.Step.numbers {f : WaitFrame} {w : WaitPc} {a : Act V} {o : WaitOut}
    (h : w.Step f a o) {x : Nat} (hx : x ∈ o.numbers) : x ∈ w.numbers ∨ a.creates x := by
  cases h with
  | register n =>
    rcases f with ⟨cv, k, d⟩
    cases k <;> cases d <;> exact .inr (List.mem_singleton.mp hx)
  | spawn n d m =>
    rcases List.mem_cons.mp hx with hx | hx
    · exact .inl (List.mem_singleton.mpr hx)
    · exact .inr (List.mem_singleton.mp hx)
  | spinLoad n b =>
    rcases f with ⟨cv, k, d⟩
    cases b <;> cases d <;> first | exact .inl hx | cases hx
  | spinNow n d y | blockNow n d y => split at hx <;> exact .inl hx
  | raceTimeout n m b =>
    cases b with
    | true => exact .inl (List.mem_cons.mpr (.inl (List.mem_singleton.mp hx)))
    | false => exact .inl hx
  | spinRemove n b | spinDrain n b | blockCheck n d b | await n b | raceNotify n m b
  | asyncRemove n b => cases b <;> first | exact .inl hx | cases hx
  | parkTimeout n d b => exact .inl hx
  | _ => cases hx

theorem Caller.onLocked_numbers (k : Caller V) (ret : LockRet) : (k.onLocked ret).numbers = [] := by
  unfold Caller.onLocked
  split <;> rfl

theorem RecvKind.onEmpty_numbers (rk : RecvKind) (n : Nat) : (rk.onEmpty n : Pc V).numbers = [] := by
  unfold RecvKind.onEmpty
  split
  · rfl
  · cases rk with
    | tryRecv => rfl
    | recv st d => cases st <;> cases d <;> rfl

theorem Pc.Step.numbers {k : Caller V} {pc : Pc V} {a : Act V} {n : Next V} (h : pc.Step k a n)
    {x : Nat} (hx : x ∈ n.numbers) : x ∈ pc.numbers ∨ a.creates x := by
  cases h with
  | lock l ret a o ho =>
    refine ho.numbers ?_
    cases o with
    | goto l' | yield l' => exact hx
    | acquired => rw [LockOut.toNext, k.onLocked_numbers] at hx; cases hx
    | failed => cases hx
  | unlock u ret a o ho =>
    cases ret with
    | wait f w => cases o <;> exact .inl hx
    | finish | notify => cases o <;> cases hx
  | wait f w a o ho =>
    refine ho.numbers ?_
    cases o with
    | relock r => rcases f with ⟨cv, k, d⟩; cases k <;> cases hx
    | _ => exact hx
  | notify c y a o ho => cases o <;> cases hx
  | sendCheck1 σ st v b hk =>
    cases b
    · cases hx
    · cases st <;> cases hx
  | sendCheck2 σ st v b hk => cases b <;> cases hx
  | recvCount rk m hk => rw [Next.numbers, rk.onEmpty_numbers] at hx; cases hx
  | fetchSub σ old hk => split at hx <;> cases hx
  | _ => cases hx

/-! ## Reachable states -/

theorem Shared.Applied.creates [DecidableEq V] {sh sh' : Shared V} {m : MutexId} {i : CallId}
    {t : ThreadId} {a : Act V} (h : sh.Applied m i t a sh') :
    sh.fresh ≤ sh'.fresh ∧ ∀ x, a.creates x → x = sh.fresh ∧ x < sh'.fresh := by
  cases h with
  | push k | register c k | spawn d =>
    exact ⟨Nat.le_succ _, by rintro x rfl; exact ⟨rfl, Nat.lt_succ_self _⟩⟩
  | _ => exact ⟨Nat.le_refl _, fun x hx => hx.elim⟩

theorem Call.Turn.numbers {e : Event V} {i : CallId} {c c' : Call V} (h : Call.Turn i e c c')
    {x : Nat} (hx : x ∈ c'.numbers) : x ∈ c.numbers := by
  cases h with
  | begin t r =>
    cases r with
    | lock m c => cases c <;> cases hx
    | recv rk =>
      rcases rk with _ | ⟨st, d⟩
      · cases hx
      · cases st <;> cases d <;> cases hx
    | _ => cases hx
  | wait t c w k r => cases w <;> cases hx
  | dropGuard t k r => cases hx
  | poll t k pc => exact hx
  | cancel k pc => cases hx

namespace State

variable [DecidableEq V] {s s' : State V} {e : Event V}

theorem fresh_mono (hn : s.Numbered) (h : s.step e = some s') : s.sh.fresh ≤ s'.sh.fresh := by
  rcases step_cases hn h with ⟨i, a, t, k, pc, n, -, ha⟩ | ⟨i, c, ht⟩ | ha
  · exact ha.applied.creates.1
  · exact Nat.le_of_eq (congrArg Shared.fresh ht.sh.symm)
  · exact Nat.le_of_eq ha.around.fresh.symm

structure NumbersApart (s : State V) : Prop where
  lt_fresh : ∀ i, ∀ x ∈ (s.call i).numbers, x < s.sh.fresh
  apart : ∀ i j x, x ∈ (s.call i).numbers → x ∈ (s.call j).numbers → i = j

theorem Reachable.numbersApart (h : s.Reachable) : s.NumbersApart := by
  refine h.induction (P := NumbersApart) ?_ ?_ ?_ ?_
  · exact fun _ => ⟨fun _ _ hx => (List.not_mem_nil hx).elim, fun _ _ _ hx => (List.not_mem_nil hx).elim⟩
  · intro s s' i t k pc a n _ hs ha
    obtain ⟨hmono, hfresh⟩ := ha.applied.creates
    -- A number of call `i` is an old one of its own, or the one that it has just taken.
    have hold : ∀ j x, x ∈ (s'.call j).numbers →
        x ∈ (s.call j).numbers ∨ j = i ∧ x = s.sh.fresh ∧ x < s'.sh.fresh := by
      intro j x hx
      by_cases hj : j = i
      · subst hj
        rw [ha.call_self, Next.numbers_call] at hx
        rcases ha.step.numbers hx with hx | hx
        · rw [ha.running]; exact .inl hx
        · exact .inr ⟨rfl, hfresh x hx⟩
      · rw [ha.call_ne hj] at hx; exact .inl hx
    refine ⟨fun j x hx => ?_, fun j j' x hx hx' => ?_⟩
    · rcases hold j x hx with hx | ⟨-, -, hx⟩
      · exact Nat.lt_of_lt_of_le (hs.lt_fresh j x hx) hmono
      · exact hx
    · rcases hold j x hx with hx | ⟨rfl, hxf, -⟩ <;> rcases hold j' x hx' with hx' | ⟨rfl, hxf', -⟩
      · exact hs.apart j j' x hx hx'
      · exact absurd (hs.lt_fresh j x hx) (by simp [hxf'])
      · exact absurd (hs.lt_fresh j' x hx') (by simp [hxf])
      · rfl
  · intro s s' e i c _ hs ht
    have hold : ∀ j x, x ∈ (s'.call j).numbers → x ∈ (s.call j).numbers := by
      intro j x hx
      by_cases hj : j = i
      · subst hj; rw [ht.call_self] at hx; exact ht.turn.numbers hx
      · rw [ht.call_ne hj] at hx; exact hx
    refine ⟨fun j x hx => ?_, fun j j' x hx hx' => hs.apart j j' x (hold j x hx) (hold j' x hx')⟩
    rw [ht.sh]; exact hs.lt_fresh j x (hold j x hx)
  · intro s s' e _ hs ha
    refine ⟨fun j x hx => ?_, fun j j' x => ?_⟩
    · rw [ha.call] at hx; rw [ha.around.fresh]; exact hs.lt_fresh j x hx
    · rw [ha.call]; exact hs.apart j j' x

end State

end WasmSafeMutex
