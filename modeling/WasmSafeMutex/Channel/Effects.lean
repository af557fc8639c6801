import WasmSafeMutex.Channel.Atomic
import WasmSafeMutex.Channel.Fifo

/-!
# When a call on the channel takes effect

Each call does what it answers at one of its operations. `Caller.did` says for each place
whether that operation is behind the call.
-/

namespace WasmSafeMutex

variable {V : Type}

/-- What a call may return, if this is what it has done. -/
inductive Answers : Caller V → ChannelOp V → Outcome V → Prop
  | sent (σ st v) : Answers (.send σ st v) (.send v) .sent
  | sendError (σ st v) : Answers (.send σ st v) (.sendError v) (.sendError v)
  | received (rk v) : Answers (.recv rk) (.recv v) (.received v)
  | disconnected (rk) : Answers (.recv rk) .disconnected .disconnected
  | empty : Answers (.recv .tryRecv) .empty .empty
  | busy : Answers (.recv .tryRecv) .busy .empty
  | timeout (st d) : Answers (.recv (.recv st (some d))) .timeout .timeout
  | dropSender (σ) : Answers (.dropSender σ) .dropSender .dropped
  | dropReceiver : Answers .dropReceiver .dropReceiver .dropped

/-- A call of `k` gives up its attempt to lock the queue. -/
def Caller.gaveUp : Caller V → List (ChannelOp V)
  | .recv .tryRecv => [.busy]
  | .recv (.recv _ _) => [.timeout]
  | _ => []

def RecvKind.sawNothing (rk : RecvKind) (n : Nat) : List (ChannelOp V) :=
  if n = 0 then [.disconnected]
  else match rk with
    | .tryRecv => [.empty]
    | .recv _ _ => []

/-- What an operation of a call of `k` does to the channel of its users. A send takes effect
when it looks at `receiver_active` for the second time, though it pushes later. -/
def Caller.effect (k : Caller V) : Pc V → Act V → List (ChannelOp V)
  | .sendCheck1, .chan (.loadActive b) =>
    match k with
    | .send _ _ v => if b then [] else [.sendError v]
    | _ => []
  | .sendCheck2, .chan (.loadActive b) =>
    match k with
    | .send _ _ v => if b then [.send v] else [.sendError v]
    | _ => []
  | .recvPop, .chan (.popFront (some v)) => [.recv v]
  | .recvCount, .chan (.loadCount n) =>
    match k with
    | .recv rk => rk.sawNothing n
    | _ => []
  | .fetchSub, .chan (.fetchSub _ _) => [.dropSender]
  | .clearActive, .chan .clearActive => [.dropReceiver]
  | .lock l _, a =>
    match l.next a with
    | some .failed => k.gaveUp
    | _ => []
  | .unlock .store (.finish .timeout), .mutex .store => [.timeout]
  | _, _ => []

/-- The same for an event. Nobody calls a `clone`, which is one operation. -/
def State.effect (s : State V) : Event V → List (Option CallId × ChannelOp V)
  | .act i a =>
    match s.call i with
    | .running _ k pc => (k.effect pc a).map fun op => (some i, op)
    | _ => []
  | .clone _ => [(none, .clone)]
  | _ => []

/-! ## What a call has done so far -/

def Outcome.done (u : UnlockPc) : Outcome V → List (ChannelOp V)
  | .sendError v => [.sendError v]
  | .received v => [.recv v]
  | .disconnected => [.disconnected]
  | .empty => [.empty]
  | .timeout => if u = .store then [] else [.timeout]
  | _ => []

/-- What a call of `k` at this place has done. -/
def Caller.did (k : Caller V) : Pc V → List (ChannelOp V)
  | .sendPush | .unlock _ .notify =>
    match k with
    | .send _ _ v => [.send v]
    | _ => []
  | .notify _ _ =>
    match k with
    | .send _ _ v => [.send v]
    | .dropSender _ => [.dropSender]
    | .dropReceiver => [.dropReceiver]
    | _ => []
  | .unlock u (.finish o) => o.done u
  | _ => []

/-- The channel is not the business of such a caller. -/
def Caller.bystander : Caller V → Outcome V → Bool
  | .user _, .failed | .user _, .released | .notify, .notified => true
  | _, _ => false

/-- What a call of `k` has done by the time it has ended so. -/
def Caller.DidAll (k : Caller V) (o : Outcome V) (ops : List (ChannelOp V)) : Prop :=
  (o = .cancelled ∨ k.bystander o = true) ∧ ops = [] ∨ ∃ op, ops = [op] ∧ Answers k op o

def Next.Did (k : Caller V) (ops : List (ChannelOp V)) : Next V → Prop
  | .goto pc | .yield pc => ops = k.did pc
  | .hold _ => ops = []
  | .finish o => k.DidAll o ops

theorem Caller.did_onLocked (k : Caller V) (ret : LockRet) : (k.onLocked ret).Did k [] := by
  unfold Caller.onLocked
  split <;> rfl

theorem RecvKind.did_onEmpty (rk : RecvKind) (m : Nat) :
    (Caller.recv rk : Caller V).did (rk.onEmpty m) = rk.sawNothing m := by
  unfold RecvKind.onEmpty RecvKind.sawNothing
  split
  · rfl
  · cases rk with
    | tryRecv => rfl
    | recv st d => cases st <;> cases d <;> rfl

/-- A call that gives up an attempt to lock is a timed one or a `try_recv`. -/
theorem Caller.did_gaveUp {k : Caller V} (hl : k.locks = true) (ht : k.timed = true) :
    k.DidAll k.onLockFailed k.gaveUp := by
  cases k with
  | user m => exact .inl ⟨.inr rfl, rfl⟩
  | recv rk =>
    cases rk with
    | tryRecv => exact .inr ⟨_, rfl, .busy⟩
    | recv st d =>
      cases d with
      | none => cases ht
      | some d => exact .inr ⟨_, rfl, .timeout st d⟩
  | send => cases ht
  | notify | dropSender | dropReceiver => cases hl

theorem Caller.did_notified {k : Caller V} {c : CondvarId} {x : NotifyPc} (h : k.notifies x = true) :
    k.DidAll k.onNotified (k.did (.notify c x)) := by
  cases k with
  | notify => exact .inl ⟨.inr rfl, rfl⟩
  | send σ st v => exact .inr ⟨_, rfl, .sent σ st v⟩
  | dropSender σ => exact .inr ⟨_, rfl, .dropSender σ⟩
  | dropReceiver => exact .inr ⟨_, rfl, .dropReceiver⟩
  | user | recv => cases h

theorem UnlockPc.Step.ne_store {u u' : UnlockPc} {a : Act V} (h : u.Step a (.goto u')) : u' ≠ .store := by
  generalize ho : UnlockOut.goto u' = o at h
  cases h with
  | store => cases ho; simp
  | take k ws | wake k w ws => cases ws <;> cases k <;> cases ho <;> simp

theorem UnlockPc.Step.finished_ne_store {u : UnlockPc} {a : Act V} (h : u.Step a .finished) : u ≠ .store := by
  rintro rfl
  cases h

/-- Giving the guard away has no effect, but for the store of a receive that has timed out. -/
theorem UnlockPc.Step.effect {k : Caller V} {u : UnlockPc} {a : Act V} {o : UnlockOut} (h : u.Step a o)
    (ret : UnlockRet V) (ho : ret = .finish .timeout → u ≠ .store) : k.effect (.unlock u ret) a = [] := by
  cases h with
  | store =>
    cases ret with
    | finish o => cases o <;> first | rfl | exact absurd rfl (ho rfl)
    | wait | notify => rfl
  | take | wake => cases ret <;> rfl

variable [DecidableEq V]

theorem Caller.did_unlocked {k : Caller V} {o : Outcome V} (h : k.unlocksWith o = true) {u : UnlockPc}
    (hu : u ≠ .store) : k.DidAll o (o.done u) := by
  unfold Caller.unlocksWith at h
  split at h
  case h_1 => exact .inl ⟨.inr rfl, rfl⟩
  case h_2 σ st v v' =>
    obtain rfl := of_decide_eq_true h
    exact .inr ⟨_, rfl, .sendError σ st v'⟩
  case h_3 rk v => exact .inr ⟨_, rfl, .received rk v⟩
  case h_4 rk => exact .inr ⟨_, rfl, .disconnected rk⟩
  case h_5 => exact .inr ⟨_, rfl, .empty⟩
  case h_6 st d =>
    obtain ⟨d, rfl⟩ := Option.isSome_iff_exists.mp h
    simp only [Outcome.done, hu, if_false]
    exact .inr ⟨_, rfl, .timeout st d⟩
  case h_7 => cases h

theorem Pc.Step.did {k : Caller V} {pc : Pc V} {a : Act V} {n : Next V} (h : pc.Step k a n)
    (hf : pc.fits k = true) : n.Did k (k.did pc ++ k.effect pc a) := by
  cases h with
  | lock l ret a o ho =>
    have hnext := LockPc.next_of_step ho
    cases o with
    | goto l' | yield l' => simp [Caller.effect, hnext, Caller.did, LockOut.toNext, Next.Did]
    | acquired =>
      simp only [Caller.effect, hnext, Caller.did]
      exact k.did_onLocked ret
    | failed =>
      have hl : l.untimed = false := by
        cases hu : l.untimed with
        | false => rfl
        | true => exact (ho.untimed hu).symm
      have hk : k.locks = true ∧ k.timed = true := by
        cases ret with
        | first => simpa [Pc.fits, hl] using hf
        | relock r => simp [Pc.fits, hl] at hf
      simp only [Caller.effect, hnext, Caller.did, List.nil_append]
      exact Caller.did_gaveUp hk.1 hk.2
  | unlock u ret a o ho =>
    cases ret with
    | finish out =>
      cases o with
      | goto u' =>
        simp only [UnlockOut.toNext, Next.Did]
        by_cases hstore : out = .timeout ∧ u = .store
        · obtain ⟨rfl, rfl⟩ := hstore
          cases ho
          rfl
        · rw [ho.effect _ fun he hu => hstore ⟨by cases he; rfl, hu⟩, List.append_nil]
          cases out with
          | timeout =>
            have hu : u ≠ .store := fun hu => hstore ⟨rfl, hu⟩
            simp [Caller.did, Outcome.done, hu, ho.ne_store]
          | _ => rfl
      | finished =>
        rw [ho.effect _ fun _ => ho.finished_ne_store, List.append_nil]
        exact Caller.did_unlocked hf ho.finished_ne_store
    | wait f w =>
      rw [ho.effect _ (by simp)]
      cases o <;> rfl
    | notify =>
      rw [ho.effect _ (by simp)]
      cases k with
      | send => cases o <;> rfl
      | _ => cases hf
  | wait f w a o ho => cases o <;> rfl
  | notify c x a o ho =>
    simp only [Pc.fits, Bool.and_eq_true] at hf
    have heffect : k.effect (.notify c x) a = [] := rfl
    rw [heffect, List.append_nil]
    cases o with
    | goto x' => rfl
    | finished => exact Caller.did_notified hf.2
  | waitProbe c d b => rfl
  | sendCheck1 σ st v b hk =>
    subst hk
    cases b with
    | true => rfl
    | false => exact .inr ⟨_, rfl, .sendError σ st v⟩
  | sendCheck2 σ st v b hk => subst hk; cases b <;> rfl
  | sendPush σ st v hk => subst hk; rfl
  | popSome v => rfl
  | popNone => rfl
  | recvCount rk m hk => subst hk; exact (rk.did_onEmpty m).symm
  | fetchSub σ old hk =>
    subst hk
    split
    · rfl
    · exact .inr ⟨_, rfl, .dropSender σ⟩
  | clearActive => cases k <;> first | rfl | cases hf

/-- Only an operation of the channel, a lost lock or a timeout has an effect. -/
theorem Pc.Step.effect_of_ne {k : Caller V} {pc : Pc V} {a : Act V} {n : Next V} (h : pc.Step k a n)
    (hf : pc.fits k = true) (ha : ∀ c, a ≠ .chan c) :
    k.effect pc a = [] ∨ (∃ rk, k = .recv rk) ∧ (k.effect pc a = [.busy] ∨ k.effect pc a = [.timeout]) := by
  have hgaveUp : k.gaveUp = [] ∨ (∃ rk, k = .recv rk) ∧ (k.gaveUp = [.busy] ∨ k.gaveUp = [.timeout]) := by
    cases k with
    | recv rk => cases rk with
      | tryRecv => exact .inr ⟨⟨_, rfl⟩, .inl rfl⟩
      | recv st d => exact .inr ⟨⟨_, rfl⟩, .inr rfl⟩
    | _ => exact .inl rfl
  cases h with
  | lock l ret a o ho =>
    simp only [Caller.effect, LockPc.next_of_step ho]
    cases o with
    | failed => exact hgaveUp
    | goto | yield | acquired => exact .inl rfl
  | unlock u ret a o ho =>
    by_cases hstore : ret = .finish .timeout ∧ u = .store
    · obtain ⟨rfl, rfl⟩ := hstore
      cases ho
      cases k with
      | recv rk => exact .inr ⟨⟨rk, rfl⟩, .inr rfl⟩
      | _ => cases hf
    · exact .inl (ho.effect ret fun hret hu => hstore ⟨hret, hu⟩)
  | wait | notify | waitProbe => exact .inl rfl
  | _ => exact absurd rfl (ha _)

end WasmSafeMutex
