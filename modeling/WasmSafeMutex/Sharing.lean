import WasmSafeMutex.RwLock.Code

/-!
# What may be sent and shared

The compiler believes the `unsafe impl`s of `Send` and `Sync`. Here a program moves and
shares the values of the crate as these and the auto traits allow, and takes its locks in any
order.
-/

namespace WasmSafeMutex.Sharing

open Interleaving

/-! ## Traits -/

/-- Whether a type is `Send` and whether it is `Sync`. -/
structure Traits where
  send : Bool
  sync : Bool
  deriving DecidableEq, Repr

namespace Traits

/-- A struct of two fields has the traits that both of them have. -/
def both (x y : Traits) : Traits := ⟨x.send && y.send, x.sync && y.sync⟩

/-- `&X`, `&mut X`, `Arc<X>` and `PhantomData<Cell<()>>`. -/
def ref (x : Traits) : Traits := ⟨x.sync, x.sync⟩
def refMut (x : Traits) : Traits := ⟨x.send, x.sync⟩
def arc (x : Traits) : Traits := ⟨x.send && x.sync, x.send && x.sync⟩
def cellMarker : Traits := ⟨true, false⟩

/-- `unsafe impl<T: Send> Send` and `unsafe impl<T: Send> Sync`. -/
def mutex (T : Traits) : Traits := ⟨T.send, T.send⟩
def rwLock (T : Traits) : Traits := ⟨T.send, T.send⟩
def spinlock (T : Traits) : Traits := ⟨T.send, T.send⟩
def sender (T : Traits) : Traits := ⟨T.send, T.send⟩

/-- Both traits of the guards come from their fields. -/
def guard (T : Traits) : Traits := both (ref (mutex T)) (refMut T)
def readGuard (T : Traits) : Traits := ref (rwLock T)
def writeGuard (T : Traits) : Traits := ref (rwLock T)

/-- `unsafe impl<T: Send> Send`. `Sync` comes from the fields: the `Arc` of the shared state,
which is `Sync` as its `Mutex` is, and the marker. -/
def receiver (T : Traits) : Traits := ⟨T.send, (both (arc (mutex T)) cellMarker).sync⟩

end Traits

/-! ## Values on threads -/

/-- The thread that a value is on, and those that hold a reference to it. -/
structure Place where
  owner : ThreadId
  sharedWith : List ThreadId

inductive Transfer
  | move (t : ThreadId)
  | share (t : ThreadId)
  /-- The thread gives its reference up. -/
  | unshare (t : ThreadId)

namespace Place

def reaches (p : Place) (t : ThreadId) : Prop := t = p.owner ∨ t ∈ p.sharedWith

instance (p : Place) (t : ThreadId) : Decidable (p.reaches t) := inferInstanceAs (Decidable (_ ∨ _))

/-- A value moves if it is `Send` and not borrowed. A reference to it is `Send` if it is
`Sync`. -/
def transfer (x : Traits) (p : Place) : Transfer → Option Place
  | .move t => if x.send ∧ p.sharedWith = [] then some ⟨t, []⟩ else none
  | .share t => if x.sync then some { p with sharedWith := t :: p.sharedWith } else none
  | .unshare t => some { p with sharedWith := p.sharedWith.erase t }

/-- No thread but `c` reaches the value. -/
def Only (c : ThreadId) (p : Place) : Prop := ∀ t, p.reaches t → t = c

theorem only_new (c : ThreadId) : Place.Only c ⟨c, []⟩ := by
  intro t ht
  unfold reaches at ht
  simpa using ht

theorem Only.transfer {x : Traits} {c : ThreadId} {p p' : Place} {e : Transfer} (h : p.Only c)
    (hsend : x.send = false) (hsync : x.sync = false) (ht : p.transfer x e = some p') : p'.Only c := by
  unfold Place.transfer at ht
  cases e with
  | move t => simp [hsend] at ht
  | share t => simp [hsync] at ht
  | unshare t =>
    cases ht
    intro u hu
    exact h u (hu.imp_right List.mem_of_mem_erase)

theorem transfer_unshared {x : Traits} {p p' : Place} {e : Transfer} (hsync : x.sync = false)
    (hp : p.sharedWith = []) (ht : p.transfer x e = some p') : p'.sharedWith = [] := by
  unfold Place.transfer at ht
  cases e with
  | move t =>
    simp only [Option.ite_none_right_eq_some, Option.some.injEq] at ht
    rw [← ht.2]
  | share t => simp [hsync] at ht
  | unshare t => cases ht; simp [hp]

end Place

/-! ## Locks and what they lend -/

inductive LockKind
  | mutex
  | rwLock
  | spinlock
  deriving DecidableEq, Repr

/-- A guard, or a running closure of a `with_*` method. The closure stays on its thread. -/
inductive Hold
  | guard (a : RwLock.Access)
  | closure (a : RwLock.Access)
  deriving DecidableEq, Repr

def Hold.access : Hold → RwLock.Access
  | .guard a | .closure a => a

def Hold.isGuard : Hold → Bool
  | .guard _ => true
  | .closure _ => false

def LockKind.traits (T : Traits) : LockKind → Traits
  | .mutex => T.mutex
  | .rwLock => T.rwLock
  | .spinlock => T.spinlock

def Hold.traits (T : Traits) (k : LockKind) : Hold → Traits
  | .guard a =>
    match k, a with
    | .rwLock, .read => T.readGuard
    | .rwLock, .write => T.writeGuard
    | _, _ => T.guard
  | .closure _ => ⟨false, false⟩

/-- The guard of a mutex gives access by `Deref` and `DerefMut`, and a spinlock has only
`with_mut`. -/
def LockKind.lends : LockKind → Hold → Bool
  | .mutex, .guard a => a = .write
  | .spinlock, h => h = .closure .write
  | _, _ => true

/-- `data_lock` of a mutex and `locked` of a spinlock, or the byte of an `RwLock`. -/
inductive Word
  | flag (b : Bool)
  | byte (b : UInt8)
  deriving DecidableEq, Repr

def Word.new : LockKind → Word
  | .rwLock => .byte RwLock.unlocked
  | _ => .flag false

/-- What the acquisition that succeeds does. -/
def Word.acquire (a : RwLock.Access) : Word → Option Word
  | .flag b => if b then none else some (.flag true)
  | .byte b =>
    match a with
    | .read =>
      match RwLock.readUpdate b with
      | .some b' => some (.byte b')
      | _ => none
    | .write => if b = RwLock.unlocked then some (.byte RwLock.lockedWrite) else none

def Word.release (a : RwLock.Access) : Word → Word
  | .flag _ => .flag false
  | .byte b =>
    match a with
    | .read => .byte (b - 1)
    | .write => .byte RwLock.unlocked

structure Held where
  hold : Hold
  place : Place
  /-- The threads that hold a reference to the payload from it. -/
  derefs : List ThreadId

/-- A closure is called with its reference. -/
def Held.new (h : Hold) (t : ThreadId) : Held := ⟨h, ⟨t, []⟩, if h.isGuard then [] else [t]⟩

inductive HeldEvent
  | transfer (e : Transfer)
  | deref (t : ThreadId)
  | endDeref (t : ThreadId)

/-- The references end before what they come from moves or is given back. -/
def Transfer.after (ts : List ThreadId) : Transfer → Bool
  | .move _ => ts = []
  | .share _ => true
  | .unshare t => t ∉ ts

def Held.step (x : Traits) (h : Held) : HeldEvent → Option Held
  | .transfer e =>
    if e.after h.derefs then (h.place.transfer x e).map fun p => { h with place := p } else none
  | .deref t => if h.place.reaches t then some { h with derefs := t :: h.derefs } else none
  | .endDeref t => if h.hold.isGuard then some { h with derefs := h.derefs.erase t } else none

def Held.droppable (h : Held) : Prop := h.hold.isGuard = true → h.place.sharedWith = [] ∧ h.derefs = []

instance (h : Held) : Decidable h.droppable := inferInstanceAs (Decidable (_ → _))

structure State where
  word : Word
  place : Place
  holds : List Held

def init (k : LockKind) (creator : ThreadId) : State := ⟨.new k, ⟨creator, []⟩, []⟩

inductive Event
  | lock (e : Transfer)
  | acquire (t : ThreadId) (h : Hold)
  | on (g : Nat) (e : HeldEvent)
  | drop (g : Nat)
  /-- `mem::forget`, or a panic in a closure of `Spinlock::with_mut`. -/
  | forget (g : Nat)

def Transfer.isMove : Transfer → Bool
  | .move _ => true
  | _ => false

def State.step (T : Traits) (k : LockKind) (s : State) : Event → Option State
  | .lock e =>
    if e.isMove → s.holds.isEmpty then
      (s.place.transfer (k.traits T) e).map fun p => { s with place := p }
    else none
  | .acquire t h =>
    if s.place.reaches t ∧ k.lends h then
      (s.word.acquire h.access).map fun w => { s with word := w, holds := .new h t :: s.holds }
    else none
  | .on g e =>
    s.holds[g]?.bind fun h =>
      (h.step (h.hold.traits T k) e).map fun h' => { s with holds := s.holds.set g h' }
  | .drop g =>
    s.holds[g]?.bind fun h =>
      if h.droppable then
        some { s with word := s.word.release h.hold.access, holds := s.holds.eraseIdx g }
      else none
  | .forget g =>
    s.holds[g]?.bind fun h =>
      if h.droppable then some { s with holds := s.holds.eraseIdx g } else none

/-- The threads that hold a reference to the payload. -/
def State.refs (s : State) : List ThreadId := s.holds.flatMap Held.derefs

/-- The thread that the lock is on will drop the payload with it. -/
def State.accesses (s : State) (t : ThreadId) : Prop := t ∈ s.refs ∨ t = s.place.owner

structure State.Respects (T : Traits) (creator : ThreadId) (s : State) : Prop where
  sync : ∀ t ∈ s.refs, ∀ u ∈ s.refs, t ≠ u → T.sync = true
  send : ∀ t, s.accesses t → t ≠ creator → T.send = true

/-! ## A payload that is not `Send` -/

/-- No other thread has anything to do with it. -/
structure Held.Confined (c : ThreadId) (h : Held) : Prop where
  place : h.place.Only c
  derefs : ∀ t ∈ h.derefs, t = c

structure State.Confined (c : ThreadId) (s : State) : Prop where
  place : s.place.Only c
  holds : ∀ h ∈ s.holds, h.Confined c

theorem LockKind.traits_of_not_send {T : Traits} (hT : T.send = false) (k : LockKind) :
    (k.traits T).send = false ∧ (k.traits T).sync = false := by
  cases k <;> exact ⟨hT, hT⟩

theorem Hold.traits_of_not_send {T : Traits} (hT : T.send = false) (k : LockKind) (h : Hold) :
    (h.traits T k).send = false ∧ (h.traits T k).sync = false := by
  cases h with
  | closure a => exact ⟨rfl, rfl⟩
  | guard a =>
    cases k <;> cases a <;> simp [Hold.traits, Traits.guard, Traits.readGuard, Traits.writeGuard,
      Traits.both, Traits.ref, Traits.refMut, Traits.mutex, Traits.rwLock, hT]

theorem Held.Confined.step {x : Traits} {c : ThreadId} {h h' : Held} {e : HeldEvent} (hc : h.Confined c)
    (hx : x.send = false ∧ x.sync = false) (hstep : h.step x e = some h') : h'.Confined c := by
  unfold Held.step at hstep
  cases e with
  | transfer e =>
    simp only [Option.ite_none_right_eq_some, Option.map_eq_some_iff] at hstep
    obtain ⟨-, p, hp, rfl⟩ := hstep
    exact ⟨hc.place.transfer hx.1 hx.2 hp, hc.derefs⟩
  | deref t =>
    simp only [Option.ite_none_right_eq_some, Option.some.injEq] at hstep
    obtain ⟨ht, rfl⟩ := hstep
    refine ⟨hc.place, fun u hu => ?_⟩
    rcases List.mem_cons.mp hu with rfl | hu
    · exact hc.place u ht
    · exact hc.derefs u hu
  | endDeref t =>
    simp only [Option.ite_none_right_eq_some, Option.some.injEq] at hstep
    obtain ⟨-, rfl⟩ := hstep
    exact ⟨hc.place, fun u hu => hc.derefs u (List.mem_of_mem_erase hu)⟩

theorem Held.confined_new (h : Hold) (c : ThreadId) : (Held.new h c).Confined c := by
  refine ⟨Place.only_new c, fun t ht => ?_⟩
  cases h with
  | guard a => cases ht
  | closure a => exact List.mem_singleton.mp ht

theorem State.Confined.step {T : Traits} {k : LockKind} {c : ThreadId} {s s' : State} {e : Event}
    (hT : T.send = false) (hs : s.Confined c) (hstep : s.step T k e = some s') : s'.Confined c := by
  cases e with
  | lock e =>
    simp only [State.step, Option.ite_none_right_eq_some, Option.map_eq_some_iff] at hstep
    obtain ⟨-, p, hp, rfl⟩ := hstep
    have hk := k.traits_of_not_send hT
    exact ⟨hs.place.transfer hk.1 hk.2 hp, hs.holds⟩
  | acquire t h =>
    simp only [State.step, Option.ite_none_right_eq_some, Option.map_eq_some_iff] at hstep
    obtain ⟨⟨ht, -⟩, w, -, rfl⟩ := hstep
    obtain rfl := hs.place t ht
    refine ⟨hs.place, fun x hx => ?_⟩
    rcases List.mem_cons.mp hx with rfl | hx
    · exact Held.confined_new h t
    · exact hs.holds x hx
  | on g e =>
    simp only [State.step, Option.bind_eq_some_iff, Option.map_eq_some_iff] at hstep
    obtain ⟨h, hg, h', hh, rfl⟩ := hstep
    refine ⟨hs.place, fun x hx => ?_⟩
    rcases List.mem_or_eq_of_mem_set hx with hx | rfl
    · exact hs.holds x hx
    · exact (hs.holds h (List.mem_of_getElem? hg)).step (Hold.traits_of_not_send hT k h.hold) hh
  | drop g | forget g =>
    simp only [State.step, Option.bind_eq_some_iff, Option.ite_none_right_eq_some,
      Option.some.injEq] at hstep
    obtain ⟨h, -, -, rfl⟩ := hstep
    exact ⟨hs.place, fun x hx => hs.holds x (List.mem_of_mem_eraseIdx hx)⟩

theorem State.Confined.accesses {c : ThreadId} {s : State} (hs : s.Confined c) {t : ThreadId}
    (ht : s.accesses t) : t = c := by
  rcases ht with ht | rfl
  · obtain ⟨h, hh, ht⟩ := List.mem_flatMap.mp ht
    exact (hs.holds h hh).derefs t ht
  · exact hs.place _ (.inl rfl)

/-! ## A payload that is `Send` but not `Sync` -/

/-- The guard is on one thread only, with all references that come from it. -/
structure Held.Single (h : Held) : Prop where
  unshared : h.place.sharedWith = []
  derefs : ∀ t ∈ h.derefs, t = h.place.owner

/-- The lock is exclusive, and its one guard is not shared. -/
structure State.Exclusive (s : State) : Prop where
  flag : ∃ b, s.word = .flag b ∧ (b = false → s.holds = [])
  one : s.holds.length ≤ 1
  single : ∀ h ∈ s.holds, h.Single

theorem Held.Single.step {x : Traits} {h h' : Held} {e : HeldEvent} (hs : h.Single) (hx : x.sync = false)
    (hstep : h.step x e = some h') : h'.Single := by
  unfold Held.step at hstep
  cases e with
  | transfer e =>
    simp only [Option.ite_none_right_eq_some, Option.map_eq_some_iff] at hstep
    obtain ⟨hafter, p, hp, rfl⟩ := hstep
    refine ⟨Place.transfer_unshared hx hs.unshared hp, fun t ht => ?_⟩
    cases e with
    | move u =>
      -- It moves without references.
      have hnil : h.derefs = [] := by simpa [Transfer.after] using hafter
      have ht : t ∈ h.derefs := ht
      rw [hnil] at ht
      cases ht
    | share u => simp [Place.transfer, hx] at hp
    | unshare u => cases hp; exact hs.derefs t ht
  | deref t =>
    simp only [Option.ite_none_right_eq_some, Option.some.injEq] at hstep
    obtain ⟨ht, rfl⟩ := hstep
    refine ⟨hs.unshared, fun u hu => ?_⟩
    rcases List.mem_cons.mp hu with rfl | hu
    · refine ht.resolve_right fun hmem => ?_
      rw [hs.unshared] at hmem
      cases hmem
    · exact hs.derefs u hu
  | endDeref t =>
    simp only [Option.ite_none_right_eq_some, Option.some.injEq] at hstep
    obtain ⟨-, rfl⟩ := hstep
    exact ⟨hs.unshared, fun u hu => hs.derefs u (List.mem_of_mem_erase hu)⟩

theorem Held.single_new (h : Hold) (t : ThreadId) : (Held.new h t).Single := by
  refine ⟨rfl, fun u hu => ?_⟩
  cases h with
  | guard a => cases hu
  | closure a => exact List.mem_singleton.mp hu

theorem Hold.traits_of_not_sync {T : Traits} (hT : T.sync = false) {k : LockKind} (hk : k ≠ .rwLock)
    (h : Hold) : (h.traits T k).sync = false := by
  cases h with
  | closure a => rfl
  | guard a =>
    cases k with
    | rwLock => exact absurd rfl hk
    | mutex | spinlock => simp [Hold.traits, Traits.guard, Traits.both, Traits.refMut, hT]

theorem State.Exclusive.step {T : Traits} {k : LockKind} {s s' : State} {e : Event} (hT : T.sync = false)
    (hk : k ≠ .rwLock) (hs : s.Exclusive) (hstep : s.step T k e = some s') : s'.Exclusive := by
  obtain ⟨b, hb, hfree⟩ := hs.flag
  cases e with
  | lock e =>
    simp only [State.step, Option.ite_none_right_eq_some, Option.map_eq_some_iff] at hstep
    obtain ⟨-, p, -, rfl⟩ := hstep
    exact ⟨hs.flag, hs.one, hs.single⟩
  | acquire t h =>
    simp only [State.step, Option.ite_none_right_eq_some, Option.map_eq_some_iff] at hstep
    obtain ⟨-, w, hw, rfl⟩ := hstep
    unfold Word.acquire at hw
    simp only [hb, Option.ite_none_left_eq_some, Option.some.injEq] at hw
    obtain ⟨hwon, rfl⟩ := hw
    -- The flag was clear, so nobody held it.
    have hnil : s.holds = [] := hfree (by simpa using hwon)
    refine ⟨⟨true, rfl, by simp⟩, by simp [hnil], fun x hx => ?_⟩
    simp only [hnil, List.mem_singleton] at hx
    rw [hx]
    exact Held.single_new h t
  | on g e =>
    simp only [State.step, Option.bind_eq_some_iff, Option.map_eq_some_iff] at hstep
    obtain ⟨h, hg, h', hh, rfl⟩ := hstep
    refine ⟨⟨b, hb, fun hfalse => ?_⟩, by simpa using hs.one, fun x hx => ?_⟩
    · simp [hfree hfalse]
    · rcases List.mem_or_eq_of_mem_set hx with hx | rfl
      · exact hs.single x hx
      · exact (hs.single h (List.mem_of_getElem? hg)).step (Hold.traits_of_not_sync hT hk h.hold) hh
  | drop g =>
    simp only [State.step, Option.bind_eq_some_iff, Option.ite_none_right_eq_some,
      Option.some.injEq] at hstep
    obtain ⟨h, hg, -, rfl⟩ := hstep
    have hlt : g < s.holds.length := (List.getElem?_eq_some_iff.mp hg).1
    have hnil : s.holds.eraseIdx g = [] := by
      have hone := hs.one
      apply List.eq_nil_of_length_eq_zero
      rw [List.length_eraseIdx, if_pos hlt]
      omega
    rw [hnil]
    exact ⟨⟨false, by simp [hb, Word.release], fun _ => rfl⟩, by simp, by simp⟩
  | forget g =>
    simp only [State.step, Option.bind_eq_some_iff, Option.ite_none_right_eq_some,
      Option.some.injEq] at hstep
    obtain ⟨h, -, -, rfl⟩ := hstep
    refine ⟨⟨b, hb, fun hfalse => ?_⟩, ?_, fun x hx => hs.single x (List.mem_of_mem_eraseIdx hx)⟩
    · simp [hfree hfalse]
    · have hone := hs.one
      have hle := List.length_eraseIdx_le s.holds g
      simp only
      omega

theorem State.Exclusive.refs {s : State} (hs : s.Exclusive) {t u : ThreadId} (ht : t ∈ s.refs)
    (hu : u ∈ s.refs) : t = u := by
  obtain ⟨h, hh, ht⟩ := List.mem_flatMap.mp ht
  obtain ⟨h', hh', hu⟩ := List.mem_flatMap.mp hu
  have hsame : h = h' := by
    have hone := hs.one
    match hl : s.holds with
    | [] => rw [hl] at hh; cases hh
    | [x] =>
      rw [hl] at hh hh'
      rw [List.mem_singleton.mp hh, List.mem_singleton.mp hh']
    | x :: y :: l => simp [hl] at hone
  subst hsame
  rw [(hs.single h hh).derefs t ht, (hs.single h hh).derefs u hu]

/-! ## The halves of a channel -/

/-- A message is on one thread, or in the queue. The thread that drops the last half of the
channel drops what is still in the queue. -/
inductive Message
  | heldBy (t : ThreadId)
  | queued
  | droppedBy (t : ThreadId)
  deriving DecidableEq

structure Halves where
  senders : List Place
  receiver : Option Place
  message : Message

/-- Thread `maker` calls `channel()`, and the message is made on thread `creator`. -/
def Halves.init (maker creator : ThreadId) : Halves :=
  ⟨[⟨maker, []⟩], some ⟨maker, []⟩, .heldBy creator⟩

inductive HalvesEvent
  | sender (g : Nat) (e : Transfer)
  | clone (g : Nat) (t : ThreadId)
  | dropSender (g : Nat)
  | receiver (e : Transfer)
  | dropReceiver
  | send (g : Nat) (t : ThreadId)
  | recv (t : ThreadId)

namespace Halves

/-- One of the halves has been dropped on this thread. -/
def dropped (t : ThreadId) (h : Halves) : Halves :=
  if h.senders.isEmpty ∧ h.receiver.isNone ∧ h.message = .queued then
    { h with message := .droppedBy t }
  else h

def step (T : Traits) (h : Halves) : HalvesEvent → Option Halves
  | .sender g e =>
    h.senders[g]?.bind fun p =>
      (p.transfer T.sender e).map fun p' => { h with senders := h.senders.set g p' }
  | .clone g t =>
    h.senders[g]?.bind fun p =>
      if p.reaches t then some { h with senders := ⟨t, []⟩ :: h.senders } else none
  | .dropSender g =>
    h.senders[g]?.bind fun p =>
      if p.sharedWith = [] then
        some (dropped p.owner { h with senders := h.senders.eraseIdx g })
      else none
  | .receiver e =>
    h.receiver.bind fun p =>
      (p.transfer T.receiver e).map fun p' => { h with receiver := some p' }
  | .dropReceiver =>
    h.receiver.bind fun p =>
      if p.sharedWith = [] then some (dropped p.owner { h with receiver := none }) else none
  | .send g t =>
    h.senders[g]?.bind fun p =>
      if p.reaches t ∧ h.message = .heldBy t ∧ h.receiver.isSome then
        some { h with message := .queued }
      else none
  | .recv t =>
    h.receiver.bind fun p =>
      if p.reaches t ∧ h.message = .queued then some { h with message := .heldBy t } else none

def accesses (h : Halves) (t : ThreadId) : Prop := h.message = .heldBy t ∨ h.message = .droppedBy t

structure Respects (T : Traits) (creator : ThreadId) (h : Halves) : Prop where
  sync : ∀ t u, h.accesses t → h.accesses u → t ≠ u → T.sync = true
  send : ∀ t, h.accesses t → t ≠ creator → T.send = true

/-- A channel whose messages are not `Send`. -/
structure Confined (maker creator : ThreadId) (h : Halves) : Prop where
  senders : ∀ p ∈ h.senders, p.Only maker
  receiver : ∀ p, h.receiver = some p → p.Only maker
  queued : h.message = .queued → maker = creator
  message : ∀ t, h.accesses t → t = creator

theorem Confined.dropped {maker creator t : ThreadId} {h : Halves} (hs : h.Confined maker creator)
    (ht : t = maker) : (h.dropped t).Confined maker creator := by
  unfold Halves.dropped
  split
  · rename_i hlast
    have hm := hs.queued hlast.2.2
    refine ⟨hs.senders, hs.receiver, by simp, fun u hu => ?_⟩
    rcases hu with hu | hu
    · cases hu
    · cases hu; rw [ht, hm]
  · exact hs

theorem Confined.step {T : Traits} {maker creator : ThreadId} {h h' : Halves} {e : HalvesEvent}
    (hT : T.send = false) (hs : h.Confined maker creator) (hstep : h.step T e = some h') :
    h'.Confined maker creator := by
  have howner : ∀ p ∈ h.senders, p.owner = maker := fun p hp => hs.senders p hp _ (.inl rfl)
  cases e with
  | sender g e =>
    simp only [Halves.step, Option.bind_eq_some_iff, Option.map_eq_some_iff] at hstep
    obtain ⟨p, hp, p', hp', rfl⟩ := hstep
    refine ⟨fun q hq => ?_, hs.receiver, hs.queued, hs.message⟩
    rcases List.mem_or_eq_of_mem_set hq with hq | rfl
    · exact hs.senders q hq
    · have hsender : T.sender.send = false ∧ T.sender.sync = false := ⟨hT, hT⟩
      exact (hs.senders p (List.mem_of_getElem? hp)).transfer hsender.1 hsender.2 hp'
  | clone g t =>
    simp only [Halves.step, Option.bind_eq_some_iff, Option.ite_none_right_eq_some,
      Option.some.injEq] at hstep
    obtain ⟨p, hp, ht, rfl⟩ := hstep
    refine ⟨fun q hq => ?_, hs.receiver, hs.queued, hs.message⟩
    rcases List.mem_cons.mp hq with rfl | hq
    · rw [hs.senders p (List.mem_of_getElem? hp) t ht]
      exact Place.only_new maker
    · exact hs.senders q hq
  | dropSender g =>
    simp only [Halves.step, Option.bind_eq_some_iff, Option.ite_none_right_eq_some,
      Option.some.injEq] at hstep
    obtain ⟨p, hp, -, rfl⟩ := hstep
    refine Confined.dropped ⟨fun q hq => ?_, hs.receiver, hs.queued, hs.message⟩
      (howner p (List.mem_of_getElem? hp))
    exact hs.senders q (List.mem_of_mem_eraseIdx hq)
  | receiver e =>
    simp only [Halves.step, Option.bind_eq_some_iff, Option.map_eq_some_iff] at hstep
    obtain ⟨p, hp, p', hp', rfl⟩ := hstep
    refine ⟨hs.senders, fun q hq => ?_, hs.queued, hs.message⟩
    cases hq
    have hreceiver : T.receiver.send = false ∧ T.receiver.sync = false :=
      ⟨hT, by simp [Traits.receiver, Traits.both, Traits.cellMarker]⟩
    exact (hs.receiver p hp).transfer hreceiver.1 hreceiver.2 hp'
  | dropReceiver =>
    simp only [Halves.step, Option.bind_eq_some_iff, Option.ite_none_right_eq_some,
      Option.some.injEq] at hstep
    obtain ⟨p, hp, -, rfl⟩ := hstep
    exact Confined.dropped ⟨hs.senders, by simp, hs.queued, hs.message⟩ (hs.receiver p hp _ (.inl rfl))
  | send g t =>
    simp only [Halves.step, Option.bind_eq_some_iff, Option.ite_none_right_eq_some,
      Option.some.injEq] at hstep
    obtain ⟨p, hp, ⟨ht, hm, -⟩, rfl⟩ := hstep
    refine ⟨hs.senders, hs.receiver, fun _ => ?_, by simp [accesses]⟩
    rw [← hs.message t (.inl hm), hs.senders p (List.mem_of_getElem? hp) t ht]
  | recv t =>
    simp only [Halves.step, Option.bind_eq_some_iff, Option.ite_none_right_eq_some,
      Option.some.injEq] at hstep
    obtain ⟨p, hp, ⟨ht, hm⟩, rfl⟩ := hstep
    refine ⟨hs.senders, hs.receiver, by simp, fun u hu => ?_⟩
    rcases hu with hu | hu
    · cases hu; rw [hs.receiver p hp t ht, hs.queued hm]
    · cases hu

theorem accesses_unique {h : Halves} {t u : ThreadId} (ht : h.accesses t) (hu : h.accesses u) : t = u := by
  unfold accesses at ht hu
  rcases ht with ht | ht <;> rcases hu with hu | hu <;> cases ht.symm.trans hu <;> rfl

theorem respects {T : Traits} {maker creator : ThreadId} {h : Halves}
    (hr : Run (Halves.step T) (Halves.init maker creator) h) : h.Respects T creator := by
  refine ⟨fun t u ht hu hne => absurd (accesses_unique ht hu) hne, fun t ht hne => ?_⟩
  by_contra hT
  have hT : T.send = false := by simpa using hT
  have hinit : (Halves.init maker creator).Confined maker creator := by
    refine ⟨fun p hp => ?_, fun p hp => ?_, by simp [Halves.init], fun u hu => ?_⟩
    · rw [List.mem_singleton.mp hp]; exact Place.only_new maker
    · cases hp; exact Place.only_new maker
    · rcases hu with hu | hu
      · cases hu; rfl
      · cases hu
  have hs := hr.invariant hinit fun _ _ _ hs _ hstep => hs.step hT hstep
  exact hne (hs.message t ht)

end Halves

/-! ## Every program -/

theorem State.respects_of_not_send {T : Traits} {k : LockKind} {creator : ThreadId} {s : State}
    (hT : T.send = false) (hr : Run (State.step T k) (init k creator) s) : s.Respects T creator := by
  have hs : s.Confined creator :=
    hr.invariant ⟨Place.only_new creator, by simp [init]⟩ fun _ _ _ hs _ hstep => hs.step hT hstep
  refine ⟨fun t ht u hu hne => absurd ?_ hne, fun t ht hne => absurd (hs.accesses ht) hne⟩
  rw [hs.accesses (.inl ht), hs.accesses (.inl hu)]

theorem State.respects_of_exclusive {T : Traits} {k : LockKind} {creator : ThreadId} {s : State}
    (hT : T.send = true) (hk : k ≠ .rwLock) (hr : Run (State.step T k) (init k creator) s) :
    s.Respects T creator := by
  refine ⟨fun t ht u hu hne => ?_, fun _ _ _ => hT⟩
  by_contra hsync
  have hsync : T.sync = false := by simpa using hsync
  have hinit : (init k creator).Exclusive := by
    refine ⟨⟨false, ?_, fun _ => rfl⟩, Nat.zero_le _, by simp [init]⟩
    cases k with
    | rwLock => exact absurd rfl hk
    | mutex | spinlock => rfl
  have hs := hr.invariant hinit fun _ _ _ hs _ hstep => hs.step hsync hk hstep
  exact hne (hs.refs ht hu)

/-- A `Cell<i32>` is `Send` and not `Sync`. Threads 0 and 1 lock an `RwLock` of it for reading
and dereference their guards. -/
def readBoth : List Event :=
  [.lock (.share 1), .acquire 0 (.guard .read), .acquire 1 (.guard .read),
    .on 0 (.deref 1), .on 1 (.deref 0)]

theorem readBoth_refs : ∃ s, exec (State.step ⟨true, false⟩ .rwLock) (init .rwLock 0) readBoth = some s ∧
    0 ∈ s.refs ∧ 1 ∈ s.refs := by
  refine ⟨_, rfl, ?_, ?_⟩ <;> decide

/-- Mutexes, spinlocks and channels keep what the payload demands. An `RwLock` does unless the
payload is `Send` and not `Sync`. -/
theorem sharing_respects (T : Traits) :
    (∀ k, (∀ creator s, Run (State.step T k) (init k creator) s → s.Respects T creator) ↔
      (k = .rwLock → T.send = true → T.sync = true)) ∧
    ∀ maker creator h, Run (Halves.step T) (Halves.init maker creator) h → h.Respects T creator := by
  refine ⟨fun k => ⟨fun hall hk hsend => ?_, fun hcond creator s hr => ?_⟩, fun _ _ _ hr => Halves.respects hr⟩
  · by_contra hsync
    have hT : T = ⟨true, false⟩ := by
      cases T
      simp only [Bool.not_eq_true] at hsend hsync
      rw [hsend, hsync]
    subst hT hk
    obtain ⟨s, hexec, h0, h1⟩ := readBoth_refs
    exact hsync ((hall 0 s (run_of_exec hexec)).sync 0 h0 1 h1 (by decide))
  · cases hsend : T.send with
    | false => exact State.respects_of_not_send hsend hr
    | true =>
      by_cases hk : k = .rwLock
      · exact ⟨fun _ _ _ _ _ => hcond hk hsend, fun _ _ _ => hsend⟩
      · exact State.respects_of_exclusive hsend hk hr

theorem read_guards_share_cell : ¬ ∀ (T : Traits) (k : LockKind) (creator : ThreadId) (s : State),
    Run (State.step T k) (init k creator) s → s.Respects T creator := by
  intro hall
  obtain ⟨s, hexec, h0, h1⟩ := readBoth_refs
  have hsync := (hall ⟨true, false⟩ .rwLock 0 s (run_of_exec hexec)).sync 0 h0 1 h1 (by decide)
  cases hsync

end WasmSafeMutex.Sharing
