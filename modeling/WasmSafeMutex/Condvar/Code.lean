import WasmSafeMutex.Memory

/-!
# The code of `Condvar`

As for the mutex, a constructor is a place just before an atomic operation or a section of
one of the three waiting lists.
-/

namespace WasmSafeMutex

variable {V : Type}

/-! ## Waiting -/

/-- What one wait call is about: its condition variable, the list it uses and its deadline. -/
structure WaitFrame where
  cv : CondvarId
  kind : Kind
  deadline : Option Instant
  deriving DecidableEq

/-- `n` is the number of the call, and so of the entry that it has put into its list. -/
inductive WaitPc
  | register
  /-- `wait_async_timeout` starts its timeout thread. -/
  | spawn (n : Nat) (d : Instant)
  | spinLoad (n : Nat)
  | spinNow (n : Nat) (d : Instant)
  /-- After the deadline: the section in which the call looks for its own entry. -/
  | spinRemove (n : Nat)
  /-- The inner loop, which waits for the flag that a notifier is about to set. -/
  | spinDrain (n : Nat)
  | park (n : Nat)
  | blockNow (n : Nat) (d : Instant)
  | parkTimeout (n : Nat) (d : Instant)
  | blockRemove (n : Nat)
  | blockCheck (n : Nat) (d : Instant)
  | await (n : Nat)
  | raceNotify (n timeout : Nat)
  | raceTimeout (n timeout : Nat)
  | asyncRemove (n : Nat)
  /-- A timed out async waiter completes its own notification. -/
  | asyncSend (n : Nat)
  deriving DecidableEq

/-- `drop` drops the guard and goes on from there, and `relock` takes the mutex again and
returns. Its value is the `WaitTimeoutResult`, which only the timed calls have. -/
inductive WaitOut
  | goto (w : WaitPc)
  | yield (w : WaitPc)
  | drop (w : WaitPc)
  | relock (r : Option Bool)

/-- Where a call that has registered and released the mutex starts to wait. -/
def WaitFrame.afterDrop (f : WaitFrame) (n : Nat) : WaitPc :=
  match f.kind, f.deadline with
  | .spin, _ => .spinLoad n
  | .sync, none => .park n
  | .sync, some d => .blockNow n d
  | .async, _ => .await n

def WaitFrame.registered (f : WaitFrame) (n : Nat) : WaitOut :=
  match f.kind, f.deadline with
  | .async, some d => .goto (.spawn n d)
  | _, _ => .drop (f.afterDrop n)

/-- The answer of a call that returns because of a notification. -/
def WaitFrame.notified (f : WaitFrame) : Option Bool := f.deadline.map fun _ => false

/-- The flag is still `false`: a timed call looks at the clock. -/
def WaitFrame.spinAgain (f : WaitFrame) (n : Nat) : WaitPc :=
  match f.deadline with
  | none => .spinLoad n
  | some d => .spinNow n d

def WaitPc.next (f : WaitFrame) : WaitPc → Act V → Option WaitOut
  | .register, .register c k n => if c = f.cv ∧ k = f.kind then some (f.registered n) else none
  | .spawn n d, .spawn d' m => if d' = d then some (.drop (.raceNotify n m)) else none
  | .spinLoad n, .observe w b =>
    if w = .flag n then some (if b then .relock f.notified else .goto (f.spinAgain n)) else none
  | .spinNow n d, .now x => some (.goto (if d ≤ x then .spinRemove n else .spinLoad n))
  | .spinRemove n, .condvar c (.remove k n' found) =>
    if c = f.cv ∧ k = .spin ∧ n' = n then
      some (if found then .relock (some true) else .goto (.spinDrain n))
    else none
  | .spinDrain n, .observe w b =>
    if w = .flag n then some (if b then .relock (some false) else .goto (.spinDrain n)) else none
  | .park _, .park _ => some (.relock none)
  | .blockNow n d, .now x => some (.goto (if d ≤ x then .blockRemove n else .parkTimeout n d))
  | .parkTimeout n d, .park _ => some (.goto (.blockCheck n d))
  | .blockRemove n, .condvar c (.remove k n' found) =>
    if c = f.cv ∧ k = .sync ∧ n' = n then some (.relock (some found)) else none
  | .blockCheck n d, .condvar c (.has found) =>
    if c = f.cv then some (if found then .goto (.blockNow n d) else .relock (some false)) else none
  | .await n, .observe w b =>
    if w = .cont n then some (if b then .relock none else .yield (.await n)) else none
  | .raceNotify n m, .observe w b =>
    if w = .cont n then some (if b then .relock (some false) else .goto (.raceTimeout n m)) else none
  | .raceTimeout n m, .observe w b =>
    if w = .cont m then some (if b then .goto (.asyncRemove n) else .yield (.raceNotify n m)) else none
  | .asyncRemove n, .condvar c (.remove k n' found) =>
    if c = f.cv ∧ k = .async ∧ n' = n then
      some (if found then .goto (.asyncSend n) else .relock (some true))
    else none
  | .asyncSend n, .wake w => if w = .cont n then some (.relock (some true)) else none
  | _, _ => none

/-- The inversion of `WaitPc.next`. -/
inductive WaitPc.Step (f : WaitFrame) : WaitPc → Act V → WaitOut → Prop
  | register (n) : Step f .register (.register f.cv f.kind n) (f.registered n)
  | spawn (n d m) : Step f (.spawn n d) (.spawn d m) (.drop (.raceNotify n m))
  | spinLoad (n b) : Step f (.spinLoad n) (.observe (.flag n) b)
    (if b then .relock f.notified else .goto (f.spinAgain n))
  | spinNow (n d x) : Step f (.spinNow n d) (.now x)
    (.goto (if d ≤ x then .spinRemove n else .spinLoad n))
  | spinRemove (n found) : Step f (.spinRemove n) (.condvar f.cv (.remove .spin n found))
    (if found then .relock (some true) else .goto (.spinDrain n))
  | spinDrain (n b) : Step f (.spinDrain n) (.observe (.flag n) b)
    (if b then .relock (some false) else .goto (.spinDrain n))
  | park (n b) : Step f (.park n) (.park b) (.relock none)
  | blockNow (n d x) : Step f (.blockNow n d) (.now x)
    (.goto (if d ≤ x then .blockRemove n else .parkTimeout n d))
  | parkTimeout (n d b) : Step f (.parkTimeout n d) (.park b) (.goto (.blockCheck n d))
  | blockRemove (n found) : Step f (.blockRemove n) (.condvar f.cv (.remove .sync n found))
    (.relock (some found))
  | blockCheck (n d found) : Step f (.blockCheck n d) (.condvar f.cv (.has found))
    (if found then .goto (.blockNow n d) else .relock (some false))
  | await (n b) : Step f (.await n) (.observe (.cont n) b)
    (if b then .relock none else .yield (.await n))
  | raceNotify (n m b) : Step f (.raceNotify n m) (.observe (.cont n) b)
    (if b then .relock (some false) else .goto (.raceTimeout n m))
  | raceTimeout (n m b) : Step f (.raceTimeout n m) (.observe (.cont m) b)
    (if b then .goto (.asyncRemove n) else .yield (.raceNotify n m))
  | asyncRemove (n found) : Step f (.asyncRemove n) (.condvar f.cv (.remove .async n found))
    (if found then .goto (.asyncSend n) else .relock (some true))
  | asyncSend (n) : Step f (.asyncSend n) (.wake (.cont n)) (.relock (some true))

theorem WaitPc.step_of_next {f : WaitFrame} {w : WaitPc} {a : Act V} {o : WaitOut}
    (h : w.next f a = some o) : w.Step f a o := by
  unfold WaitPc.next at h
  split at h
  case h_1 c k n =>
    obtain ⟨⟨rfl, rfl⟩, ho⟩ := Option.ite_none_right_eq_some.mp h
    cases ho; exact .register n
  case h_2 n d d' m =>
    obtain ⟨rfl, ho⟩ := Option.ite_none_right_eq_some.mp h
    cases ho; exact .spawn n d' m
  case h_3 n w b =>
    obtain ⟨rfl, ho⟩ := Option.ite_none_right_eq_some.mp h
    cases ho; exact .spinLoad n b
  case h_4 n d x => cases h; exact .spinNow n d x
  case h_5 n c k n' found =>
    obtain ⟨⟨rfl, rfl, rfl⟩, ho⟩ := Option.ite_none_right_eq_some.mp h
    cases ho; exact .spinRemove n' found
  case h_6 n w b =>
    obtain ⟨rfl, ho⟩ := Option.ite_none_right_eq_some.mp h
    cases ho; exact .spinDrain n b
  case h_7 n b => cases h; exact .park n b
  case h_8 n d x => cases h; exact .blockNow n d x
  case h_9 n d b => cases h; exact .parkTimeout n d b
  case h_10 n c k n' found =>
    obtain ⟨⟨rfl, rfl, rfl⟩, ho⟩ := Option.ite_none_right_eq_some.mp h
    cases ho; exact .blockRemove n' found
  case h_11 n d c found =>
    obtain ⟨rfl, ho⟩ := Option.ite_none_right_eq_some.mp h
    cases ho; exact .blockCheck n d found
  case h_12 n w b =>
    obtain ⟨rfl, ho⟩ := Option.ite_none_right_eq_some.mp h
    cases ho; exact .await n b
  case h_13 n m w b =>
    obtain ⟨rfl, ho⟩ := Option.ite_none_right_eq_some.mp h
    cases ho; exact .raceNotify n m b
  case h_14 n m w b =>
    obtain ⟨rfl, ho⟩ := Option.ite_none_right_eq_some.mp h
    cases ho; exact .raceTimeout n m b
  case h_15 n c k n' found =>
    obtain ⟨⟨rfl, rfl, rfl⟩, ho⟩ := Option.ite_none_right_eq_some.mp h
    cases ho; exact .asyncRemove n' found
  case h_16 n w =>
    obtain ⟨rfl, ho⟩ := Option.ite_none_right_eq_some.mp h
    cases ho; exact .asyncSend n
  case h_17 => cases h

def WaitPc.pending : WaitPc → Bool
  | .await _ | .raceNotify _ _ => true
  | _ => false

theorem WaitPc.Step.pending {f : WaitFrame} {w w' : WaitPc} {a : Act V}
    (h : w.Step f a (.yield w')) : w'.pending = true := by
  generalize ho : WaitOut.yield w' = o at h
  cases h with
  | await n b | raceTimeout n m b => cases b <;> cases ho; rfl
  | register n => unfold WaitFrame.registered at ho; split at ho <;> cases ho
  | spinLoad n b | spinRemove n b | spinDrain n b | blockCheck n d b | raceNotify n m b
  | asyncRemove n b => cases b <;> cases ho
  | _ => cases ho

/-- Where the wait goes on. -/
def WaitOut.pc? : WaitOut → Option WaitPc
  | .goto w | .yield w | .drop w => some w
  | .relock _ => none

/-- The wait methods of `Condvar`, without the predicate loops around them. -/
inductive WaitCall
  | waitSpin
  | waitSpinTimeout (deadline : Instant)
  | waitBlock
  | waitBlockTimeout (deadline : Instant)
  | waitSync
  | waitSyncTimeout (deadline : Instant)
  | waitAsync
  | waitAsyncTimeout (deadline : Instant)
  deriving DecidableEq

/-! ## Notifying -/

inductive NotifyPc
  /-- `notify_one` pops from one list after another until it gets an entry. -/
  | pop (k : Kind)
  | wakeOne (e : Entry)
  /-- `notify_all` detaches one list after another and wakes what it holds. -/
  | take (k : Kind)
  | wakeAll (k : Kind) (e : Entry) (es : List Entry)
  deriving DecidableEq

inductive NotifyOut
  | goto (n : NotifyPc)
  | finished

def Kind.following : Kind → Option Kind
  | .spin => some .sync
  | .sync => some .async
  | .async => none

def NotifyPc.popNext (k : Kind) : NotifyOut :=
  match k.following with
  | some k' => .goto (.pop k')
  | none => .finished

def NotifyPc.drain (k : Kind) : List Entry → NotifyOut
  | e :: es => .goto (.wakeAll k e es)
  | [] => match k.following with
    | some k' => .goto (.take k')
    | none => .finished

def NotifyPc.next (c : CondvarId) : NotifyPc → Act V → Option NotifyOut
  | .pop k, .condvar c' (.pop k' e) =>
    if c' = c ∧ k' = k then
      some (match e with
        | some e => .goto (.wakeOne e)
        | none => popNext k)
    else none
  | .wakeOne e, .wake w => if w = e.waker then some .finished else none
  | .take k, .condvar c' (.take k' es) => if c' = c ∧ k' = k then some (drain k es) else none
  | .wakeAll k e es, .wake w => if w = e.waker then some (drain k es) else none
  | _, _ => none

/-- The inversion of `NotifyPc.next`. -/
inductive NotifyPc.Step (c : CondvarId) : NotifyPc → Act V → NotifyOut → Prop
  | popSome (k e) : Step c (.pop k) (.condvar c (.pop k (some e))) (.goto (.wakeOne e))
  | popNone (k) : Step c (.pop k) (.condvar c (.pop k none)) (popNext k)
  | wakeOne (e) : Step c (.wakeOne e) (.wake e.waker) .finished
  | take (k es) : Step c (.take k) (.condvar c (.take k es)) (drain k es)
  | wakeAll (k e es) : Step c (.wakeAll k e es) (.wake e.waker) (drain k es)

theorem NotifyPc.step_of_next {c : CondvarId} {x : NotifyPc} {a : Act V} {o : NotifyOut}
    (h : x.next c a = some o) : x.Step c a o := by
  unfold NotifyPc.next at h
  split at h
  case h_1 k c' k' e =>
    obtain ⟨⟨rfl, rfl⟩, ho⟩ := Option.ite_none_right_eq_some.mp h
    cases ho
    cases e with
    | some e => exact .popSome k' e
    | none => exact .popNone k'
  case h_2 e w =>
    obtain ⟨rfl, ho⟩ := Option.ite_none_right_eq_some.mp h
    cases ho; exact .wakeOne e
  case h_3 k c' k' es =>
    obtain ⟨⟨rfl, rfl⟩, ho⟩ := Option.ite_none_right_eq_some.mp h
    cases ho; exact .take k' es
  case h_4 k e es w =>
    obtain ⟨rfl, ho⟩ := Option.ite_none_right_eq_some.mp h
    cases ho; exact .wakeAll k e es
  case h_5 => cases h

def notifyOne : NotifyPc := .pop .spin
def notifyAll : NotifyPc := .take .spin

end WasmSafeMutex
