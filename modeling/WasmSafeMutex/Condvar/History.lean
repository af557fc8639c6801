import WasmSafeMutex.Lib.Ledger
import WasmSafeMutex.Lib.Noted
import WasmSafeMutex.Condvar.Owners

/-!
# The history of the waits

What the events of a run do to the lists of the condition variables is written down: which
wait made which entry, who took it out, and with what answer each wait went back to its
mutex. An entry is issued once, and gone once.
-/

namespace WasmSafeMutex

open Interleaving
open scoped List

variable {V : Type}

/-! ## The record -/

structure Removal where
  remover : CallId
  cv : CondvarId
  kind : Kind
  entry : Entry
  /-- By the `pop` or the `take` of a notifier, and not by the wait itself. -/
  notified : Bool
  deriving DecidableEq

/-- A wait call has left its wait and goes to take the mutex, to return this answer. -/
structure Exit where
  call : CallId
  wait : Registration
  answer : Option Bool
  deriving DecidableEq

structure History (V : Type) where
  begun : List (CallId × Request V)
  registered : List (CallId × Registration)
  removals : List Removal
  exits : List Exit

def History.new : History V := ⟨[], [], [], []⟩

namespace State

def begins (s : State V) : Event V → List (CallId × Request V)
  | .begin _ r => [(s.used, r)]
  | _ => []

def registers (s : State V) : Event V → List (CallId × Registration)
  | .act i (.register _ k n) =>
    match s.call i with
    | .running t _ (.wait f _) => [(i, ⟨f, n, k.waker t n⟩)]
    | _ => []
  | _ => []

def removals (s : State V) : Event V → List Removal
  | .act i (.condvar c (.pop k (some x))) => [⟨i, c, k, x, true⟩]
  | .act i (.condvar c (.take k xs)) => xs.map fun x => ⟨i, c, k, x, true⟩
  | .act i (.condvar c (.remove k n true)) =>
    match s.call i with
    | .running t _ _ =>
      (((s.sh.condvar c).waiting k).find? (Entry.isOf (k.waker t n))).toList.map fun x => ⟨i, c, k, x, false⟩
    | _ => []
  | _ => []

def exits (s : State V) : Event V → List Exit
  | .act i a =>
    match s.call i with
    | .running t _ (.wait f w) =>
      match w.next f a with
      | some (.relock b) => (w.registration f (some t)).toList.map fun r => ⟨i, r, b⟩
      | _ => []
    | _ => []
  | _ => []

def record (s : State V) (h : History V) (e : Event V) : History V where
  begun := h.begun ++ s.begins e
  registered := h.registered ++ s.registers e
  removals := h.removals ++ s.removals e
  exits := h.exits ++ s.exits e

/-- A step, and its record. -/
def stepRecorded [DecidableEq V] (x : State V × History V) (e : Event V) : Option (State V × History V) :=
  (x.1.step e).map fun s => (s, x.1.record x.2 e)

/-- A run from the start to `s`, whose steps meet `ok`, has the history `h`. -/
def Recorded [DecidableEq V] (ok : State V → Event V → Prop) (s : State V) (h : History V) : Prop :=
  ∃ cfg : Config, RunWhere stepRecorded (fun x e => ok x.1 e) (cfg.init, .new) (s, h)

variable [DecidableEq V] {s s' : State V} {e : Event V} {ok : State V → Event V → Prop} {h : History V}

/-- The invariant rule for recorded runs. -/
theorem Recorded.induction {P : State V → History V → Prop} (hr : Recorded ok s h)
    (init : ∀ cfg : Config, P cfg.init .new)
    (step : ∀ s s' h e, s.Reachable → P s h → ok s e → s.step e = some s' → P s' (s.record h e)) :
    s.Reachable ∧ P s h := by
  obtain ⟨cfg, hrun⟩ := hr
  have hnoted : RunWhere (noting State.step record) (fun x e => ok x.1 e) (cfg.init, .new) (s, h) := hrun
  refine noting_invariant (P := fun s h => s.Reachable ∧ P s h) hnoted ⟨⟨cfg, .refl⟩, init cfg⟩ ?_
  rintro s h e s' ⟨hs, hp⟩ hok hstep
  exact ⟨hs.step hstep, step s s' h e hs hp hok hstep⟩

theorem Recorded.reachable (hr : Recorded ok s h) : s.Reachable :=
  (hr.induction (P := fun _ _ => True) (fun _ => trivial) fun _ _ _ _ _ _ _ _ => trivial).1

/-- For runs on fixed events, as `exists_of_passes`. -/
theorem exists_recorded {cfg : Config} {es : List (Event V)} {P : State V → History V → Prop}
    (chk : State V → Event V → Bool)
    (h : passes stepRecorded (fun x e => chk x.1 e) (cfg.init, .new) es = true)
    (hchk : ∀ s e, s.Reachable → chk s e = true → ok s e) (hP : ∀ s h, Recorded ok s h → P s h) :
    ∃ s h, exec stepRecorded (cfg.init, .new) es = some (s, h) ∧ P s h := by
  have hstart : (cfg.init : State V).Reachable := ⟨cfg, .refl⟩
  obtain ⟨⟨s, h⟩, hs, hal⟩ := Along.of_passes (I := fun x : State V × History V => x.1.Reachable)
    (fun x y e hx hy => hx.step (noting_eq_some.mp hy).1) (fun x e => hchk x.1 e) hstart h
  exact ⟨s, h, hs, hP s h ⟨cfg, RunWhere.refl.extend hal hs⟩⟩

end State

/-! ## The ledger of a list -/

namespace History

/-- The entries that have been put into the list. -/
def issued (h : History V) (q : Spot) : List Entry :=
  (h.registered.filter fun x => x.2.spot = q).map fun x => x.2.entry

end History

theorem WaitPc.next_of_step {f : WaitFrame} {w : WaitPc} {a : Act V} {o : WaitOut} (h : w.Step f a o) :
    w.next f a = some o := by
  cases h <;> simp [WaitPc.next]

/-- The first entry of a list with this waker is the one that is found. -/
theorem Entry.find?_isOf {l es es' : List Entry} {e : Entry} {w : Waker} (hl : l = es ++ e :: es')
    (he : e.waker = w) (hfirst : ∀ y ∈ es, y.waker ≠ w) : l.find? (Entry.isOf w) = some e := by
  have hnone : es.find? (Entry.isOf w) = none :=
    List.find?_eq_none.mpr fun y hy => by simpa [Entry.isOf] using hfirst y hy
  rw [hl, List.find?_append, hnone]
  simp [Entry.isOf, he]

/-- The entries that these removals took out of one list. -/
def Removal.from (c : CondvarId) (k : Kind) (ms : List Removal) : List Entry :=
  (ms.filter fun m => m.cv = c ∧ m.kind = k).map Removal.entry

namespace State

variable {s s' : State V} {e : Event V} {i : CallId} {t : ThreadId} {k : Caller V} {pc : Pc V} {a : Act V}
  {n : Next V}

/-- What an operation does to one list of a condition variable. -/
theorem Acted.list_change (h : Acted s s' i t k pc a n) (c : CondvarId) (kind : Kind) :
    a = .register c kind s.sh.fresh ∧
        s'.entriesAt (.list c kind) ~ kind.entry t s.sh.fresh :: s.entriesAt (.list c kind) ∨
      (∀ x, a ≠ .register c kind x) ∧ s.entriesAt (.list c kind) ~
        s'.entriesAt (.list c kind) ++ Removal.from c kind (s.removals (.act i a)) := by
  have hrun := h.running
  have hself : ∀ q, s'.sh = s.sh.setCondvar q (s.sh.condvar q) →
      s'.entriesAt (.list c kind) = s.entriesAt (.list c kind) := by
    intro q hq
    rw [Shared.setCondvar_self] at hq
    exact congrArg (fun sh => sh.entriesAt (.list c kind)) hq
  have hset : ∀ c' k' es ms, s'.sh = s.sh.setCondvar c' ((s.sh.condvar c').set k' es) →
      (s.sh.condvar c').waiting k' ~ es ++ Removal.from c' k' ms → (∀ m ∈ ms, m.cv = c' ∧ m.kind = k') →
      s.entriesAt (.list c kind) ~ s'.entriesAt (.list c kind) ++ Removal.from c kind ms := by
    intro c' k' es ms hsh hperm hms
    have hl := hsh ▸ s.sh.entriesAt_setCondvar c' k' es
    by_cases hq : Spot.list c kind = .list c' k'
    · cases hq
      rw [entriesAt_self (by simp) hl]
      exact hperm
    · have hnone : Removal.from c kind ms = [] := by
        have hfilter : (ms.filter fun m => m.cv = c ∧ m.kind = kind) = [] := by
          refine List.filter_eq_nil_iff.mpr fun m hm hd => hq ?_
          obtain ⟨hc, hk⟩ := of_decide_eq_true hd
          rw [← hc, ← hk, (hms m hm).1, (hms m hm).2]
        rw [Removal.from, hfilter]; rfl
      rw [hnone, List.append_nil, entriesAt_ne hl hq (by simp)]
  generalize hsh : s'.sh = sh' at hself hset
  have happ := hsh ▸ h.applied
  have hsame : sh'.entriesAt (.list c kind) = s.sh.entriesAt (.list c kind) →
      s.entriesAt (.list c kind) ~ s'.entriesAt (.list c kind) ++ [] := by
    intro he
    change s.sh.entriesAt (.list c kind) ~ s'.sh.entriesAt (.list c kind) ++ []
    rw [hsh, he, List.append_nil]
  cases happ with
  | condvar c' a x hx =>
    refine .inr ⟨by simp, ?_⟩
    cases hx with
    | popNone | has | absent => rw [hself c' rfl]; exact List.Perm.of_eq (List.append_nil _).symm
    | popSome k' es y hy =>
      refine hset c' k' es [⟨i, c', k', y, true⟩] rfl ?_ (by simp)
      simp [Removal.from, hy]
    | take k' =>
      refine hset c' k' [] (((s.sh.condvar c').waiting k').map fun y => ⟨i, c', k', y, true⟩) rfl ?_ (by simp)
      simp [Removal.from, List.filter_map, Function.comp_def]
    | removed k' m es y es' hk hy hfirst =>
      have hfind := Entry.find?_isOf hk hy hfirst
      refine hset c' k' (es ++ es') [⟨i, c', k', y, false⟩] rfl ?_ (by simp) |>.trans ?_
      · simp only [Removal.from, hk]
        simpa using List.perm_middle.trans (List.perm_append_singleton y (es ++ es')).symm
      · simp [removals, hrun, hfind]
  | register c' k' =>
    have hl : s'.sh.entriesAt = Function.update s.sh.entriesAt (.list c' k')
        ((s.sh.condvar c').waiting k' ++ [k'.entry t s.sh.fresh]) :=
      hsh ▸ s.sh.entriesAt_setCondvar c' k' _
    by_cases hq : Spot.list c kind = .list c' k'
    · cases hq
      refine .inl ⟨rfl, ?_⟩
      rw [entriesAt_self (by simp) hl]
      exact List.perm_append_singleton _ _
    · refine .inr ⟨fun x he => hq (by cases he; rfl), ?_⟩
      rw [entriesAt_ne hl hq (by simp)]
      exact List.Perm.of_eq (List.append_nil _).symm
  | _ => exact .inr ⟨by simp, hsame rfl⟩

/-! ## What one event writes down -/

variable [DecidableEq V]

theorem Acted.registers (h : Acted s s' i t k pc a n) :
    (∀ c kind x, a ≠ .register c kind x) ∧ s.registers (.act i a) = [] ∨
      ∃ r : Registration, a = .register r.frame.cv r.frame.kind r.number ∧ r.number = s.sh.fresh ∧
        r.entry = r.frame.kind.entry t s.sh.fresh ∧ s.registers (.act i a) = [(i, r)] ∧
        (s.call i).registration = none ∧ (s'.call i).registration = some r := by
  have hrun := h.running
  have hcall := h.call_self
  have hcreates := h.applied.creates.2
  have hstep := h.step
  cases a with
  | register c kind x =>
    obtain ⟨f, rfl, rfl, rfl⟩ := hstep.of_register
    obtain ⟨f', hc, hk, hr⟩ := hstep.registers t
    refine .inr ⟨⟨f, x, f.kind.waker t x⟩, rfl, (hcreates x rfl).1, ?_, ?_, ?_, ?_⟩
    · rw [← (hcreates x rfl).1]; rfl
    · simp [State.registers, hrun]
    · rw [hrun]; rfl
    · rw [hcall, hr]
      have hframe : f' = f := by
        cases hstep with
        | wait f w a o ho =>
          cases ho with
          | register =>
            rcases f with ⟨cv, kind, d⟩
            cases kind <;> cases d <;> cases hr <;> rfl
      rw [hframe]
  | _ => exact .inl ⟨by simp, rfl⟩

theorem registers_step (hstep : s.step e = some s') :
    s.registers e = [] ∨ ∃ i r, e = .act i (.register r.frame.cv r.frame.kind r.number) ∧
      r.number = s.sh.fresh ∧ s.sh.fresh < s'.sh.fresh ∧ s.registers e = [(i, r)] ∧
      (s'.call i).registration = some r := by
  cases e with
  | act i a =>
    obtain ⟨t, k, pc, n, ha⟩ := act_acted hstep
    rcases ha.registers with ⟨-, hnil⟩ | ⟨r, rfl, hnum, -, hreg, -, hnew⟩
    · exact .inl hnil
    · exact .inr ⟨i, r, rfl, hnum, hnum ▸ (ha.applied.creates.2 _ rfl).2, hreg, hnew⟩
  | _ => exact .inl rfl

/-- One list, after one event. -/
theorem list_step (hr : s.Reachable) (hstep : s.step e = some s') (c : CondvarId) (kind : Kind) :
    (∃ i r, s.registers e = [(i, r)] ∧ r.spot = .list c kind ∧ r.number = s.sh.fresh ∧
        s'.entriesAt (.list c kind) ~ r.entry :: s.entriesAt (.list c kind) ∧ s.removals e = []) ∨
      (s.registers e).filter (fun x => x.2.spot = .list c kind) = [] ∧ s.entriesAt (.list c kind) ~
        s'.entriesAt (.list c kind) ++ Removal.from c kind (s.removals e) := by
  cases e with
  | act i a =>
    obtain ⟨t, k, pc, n, ha⟩ := act_acted hstep
    rcases ha.registers with ⟨hne, hnil⟩ | ⟨r, rfl, hnum, hentry, hreg, -, -⟩
    · refine .inr ⟨by rw [hnil]; rfl, ?_⟩
      rcases ha.list_change c kind with ⟨he, -⟩ | ⟨-, hperm⟩
      · exact absurd he (hne _ _ _)
      · exact hperm
    · rcases ha.list_change c kind with ⟨he, hperm⟩ | ⟨hne, hperm⟩
      · injection he with hc hk
        refine .inl ⟨i, r, hreg, by rw [Registration.spot, hc, hk], hnum, ?_, rfl⟩
        rw [hentry, hk]; exact hperm
      · refine .inr ⟨?_, hperm⟩
        rw [hreg]
        refine List.filter_cons_of_neg fun hspot => ?_
        injection of_decide_eq_true hspot with hc hk
        exact hne r.number (by rw [hc, hk])
  | _ =>
    have hlist : s'.entriesAt (.list c kind) = s.entriesAt (.list c kind) := by
      rcases step_cases hr.sane.numbered hstep with ⟨_, _, _, _, _, _, he, -⟩ | ⟨_, _, ht⟩ | ha
      · cases he
      · exact congrArg (fun sh => sh.entriesAt (.list c kind)) ht.sh
      · simp [entriesAt, Shared.entriesAt, ha.around.condvar]
    refine .inr ⟨rfl, ?_⟩
    rw [hlist]
    exact List.Perm.of_eq (List.append_nil _).symm

/-- The waits that leave by this event were registered, and go to take the mutex. -/
theorem exits_step (hstep : s.step e = some s') :
    s.exits e = [] ∨ ∃ i r b a t k, e = .act i a ∧ s.exits e = [⟨i, r, b⟩] ∧
      (s.call i).registration = some r ∧
      s'.call i = .running t k (.lock r.frame.relock (.relock b)) := by
  cases e with
  | act i a =>
    obtain ⟨t, k, pc, n, ha⟩ := act_acted hstep
    cases pc with
    | wait f w =>
      simp only [exits, ha.running]
      split
      case h_2 => exact .inl rfl
      case h_1 o b hnext =>
        cases hreg : w.registration f (some t) with
        | none => exact .inl rfl
        | some r =>
          refine .inr ⟨i, r, b, a, t, k, rfl, rfl, by rw [ha.running]; exact hreg, ?_⟩
          obtain ⟨m, hm, -⟩ := Option.bind_eq_some_iff.mp hreg
          rw [ha.call_self, (WaitPc.of_registration hreg hm).1]
          cases ha.step with
          | wait f w a o ho =>
            cases (WaitPc.next_of_step ho).symm.trans hnext
            rfl
    | _ => exact .inl (by simp [exits, ha.running])
  | _ => exact .inl rfl

/-- A wait goes on, or has its exit written down, or is dropped. -/
theorem Reachable.registration_ends (hr : s.Reachable) (hstep : s.step e = some s') {i : CallId}
    {r : Registration} (hi : (s.call i).registration = some r) :
    (s'.call i).registration = some r ∨ (∃ b, s.exits e = [⟨i, r, b⟩]) ∨
      e = .cancel i ∧ s'.call i = .done .cancelled := by
  rcases call_cases hr.sane.numbered hstep i with hcall | ⟨a, t, k, pc, n, rfl, ha⟩ | ⟨c, ht⟩
  · rw [hcall]; exact .inl hi
  · have hf := hr.fits i
    rw [ha.running] at hf hi
    have hrun := ha.running
    rw [ha.call_self]
    cases ha.step with
    | unlock u ret a o ho =>
      cases ret with
      | wait f w => cases o <;> exact .inl hi
      | _ => cases hi
    | wait f w a o ho =>
      simp only [Call.fits, Pc.fits, Bool.and_eq_true] at hf
      cases ho' : o.pc? with
      | some w' => exact .inl (ho.stays ho' hf.2 hi)
      | none =>
        cases o with
        | relock b =>
          have hreg : w.registration f (some t) = some r := hi
          exact .inr (.inl ⟨b, by simp [exits, hrun, WaitPc.next_of_step ho, hreg]⟩)
        | _ => cases ho'
    | _ => cases hi
  · rw [ht.call_self]
    have hturn := ht.turn
    generalize s.call i = c₀ at hi hturn
    cases hturn with
    | cancel => exact .inr (.inr ⟨rfl, rfl⟩)
    | poll t k pc => exact .inl (Pc.registration_mono t hi)
    | _ => cases hi

/-! ## The accounts -/

/-- The history accounts for every entry and for every wait. -/
structure Accounted (s : State V) (h : History V) : Prop where
  ledger : ∀ c kind, Ledger (h.issued (.list c kind)) (s.entriesAt (.list c kind))
    (Removal.from c kind h.removals)
  fresh : ∀ x ∈ h.registered, x.2.number < s.sh.fresh
  nodup : (h.registered.map fun x => x.2.number).Nodup
  now : ∀ i r, (s.call i).registration = some r → (i, r) ∈ h.registered ∧ ∀ ex ∈ h.exits, ex.wait ≠ r
  exits : ∀ ex ∈ h.exits, (ex.call, ex.wait) ∈ h.registered
  once : (h.exits.map Exit.wait).Nodup
  ended : ∀ i r, (i, r) ∈ h.registered → (s.call i).registration = some r ∨
    (∃ b, ⟨i, r, b⟩ ∈ h.exits) ∨ s.call i = .done .cancelled

variable {h : History V}

theorem Accounted.ledger_step (hr : s.Reachable) (hs : s.Accounted h) (hstep : s.step e = some s')
    (c : CondvarId) (kind : Kind) : Ledger ((s.record h e).issued (.list c kind))
      (s'.entriesAt (.list c kind)) (Removal.from c kind (s.record h e).removals) := by
  have hold := hs.ledger c kind
  simp only [record, History.issued, Removal.from, List.filter_append, List.map_append]
  rcases list_step hr hstep c kind with ⟨i, r, hreg, hspot, hnum, hperm, hnil⟩ | ⟨hnil, hperm⟩
  · rw [hnil, hreg, List.filter_nil, List.map_nil, List.append_nil,
      List.filter_cons_of_pos (by simpa using hspot)]
    refine hold.issue (fun hmem => ?_) hperm
    obtain ⟨x, hx, he⟩ := List.mem_map.mp hmem
    have hlt := hs.fresh x (List.mem_filter.mp hx).1
    have hwait : x.2.number = r.number := congrArg Entry.wait he
    omega
  · rw [hnil, List.map_nil, List.append_nil]
    exact hold.remove hperm

omit [DecidableEq V] in
theorem Accounted.unique (hs : s.Accounted h) {i j : CallId} {r r' : Registration}
    (hi : (i, r) ∈ h.registered) (hj : (j, r') ∈ h.registered) (hn : r.number = r'.number) :
    i = j ∧ r = r' := by
  have heq := List.inj_on_of_nodup_map hs.nodup hi hj hn
  cases heq
  exact ⟨rfl, rfl⟩

theorem Accounted.now_step (hr : s.Reachable) (hs : s.Accounted h) (hstep : s.step e = some s') {i : CallId}
    {r : Registration} (hi : (s'.call i).registration = some r) :
    (i, r) ∈ h.registered ++ s.registers e ∧ ∀ ex ∈ h.exits ++ s.exits e, ex.wait ≠ r := by
  have hnew : ∀ ex ∈ s.exits e, (ex.call, ex.wait) ∈ h.registered ∧ (s'.call ex.call).registration = none := by
    intro ex hex
    rcases exits_step hstep with hnil | ⟨j, r', b, a, t, k, -, hone, hj, hj'⟩
    · rw [hnil] at hex; cases hex
    · rw [hone] at hex
      obtain rfl := List.mem_singleton.mp hex
      exact ⟨(hs.now j r' hj).1, by rw [hj']; rfl⟩
  rcases registration_step hr hstep hi with hold | ⟨he, hnum⟩
  · obtain ⟨hmem, hout⟩ := hs.now i r hold
    refine ⟨List.mem_append_left _ hmem, fun ex hex => ?_⟩
    rcases List.mem_append.mp hex with hex | hex
    · exact hout ex hex
    · rintro rfl
      obtain ⟨hreg, hnone⟩ := hnew ex hex
      obtain ⟨rfl, -⟩ := hs.unique hmem hreg rfl
      cases hi.symm.trans hnone
  · have hreg : (i, r) ∈ s.registers e := by
      rcases registers_step hstep with hnil | ⟨j, r', he', -, -, hone, hj⟩
      · obtain ⟨t, k, pc, n, ha⟩ := act_acted (he ▸ hstep)
        rcases ha.registers with ⟨hne, -⟩ | ⟨r', -, -, -, hone, -⟩
        · exact absurd rfl (hne _ _ _)
        · rw [he, hone] at hnil; cases hnil
      · obtain rfl : i = j := by
          injection he.symm.trans he'
        cases hi.symm.trans hj
        rw [hone]; exact List.mem_singleton_self _
    refine ⟨List.mem_append_right _ hreg, fun ex hex => ?_⟩
    rintro rfl
    have hlt : ex.wait.number < s.sh.fresh := by
      rcases List.mem_append.mp hex with hex | hex
      · exact hs.fresh _ (hs.exits ex hex)
      · exact hs.fresh _ (hnew ex hex).1
    omega

theorem Accounted.step (hr : s.Reachable) (hs : s.Accounted h) (hstep : s.step e = some s') :
    s'.Accounted (s.record h e) := by
  have hmono := fresh_mono hr.sane.numbered hstep
  refine ⟨hs.ledger_step hr hstep, fun x hx => ?_, ?_, fun i r hi => hs.now_step hr hstep hi,
    fun ex hex => ?_, ?_, fun i r hi => ?_⟩
  · rcases List.mem_append.mp hx with hx | hx
    · exact Nat.lt_of_lt_of_le (hs.fresh x hx) hmono
    · rcases registers_step hstep with hnil | ⟨i, r, -, hnum, hlt, hone, -⟩
      · rw [hnil] at hx; cases hx
      · rw [hone] at hx
        obtain rfl := List.mem_singleton.mp hx
        exact hnum ▸ hlt
  · simp only [record, List.map_append]
    rcases registers_step hstep with hnil | ⟨i, r, -, hnum, -, hone, -⟩
    · rw [hnil, List.map_nil, List.append_nil]; exact hs.nodup
    · rw [hone]
      refine (List.perm_append_singleton _ _).nodup_iff.mpr (List.nodup_cons.mpr ⟨fun hmem => ?_, hs.nodup⟩)
      obtain ⟨x, hx, he⟩ := List.mem_map.mp hmem
      have hlt := hs.fresh x hx
      simp only [he, hnum, Nat.lt_irrefl] at hlt
  · rcases List.mem_append.mp hex with hex | hex
    · exact List.mem_append_left _ (hs.exits ex hex)
    · rcases exits_step hstep with hnil | ⟨j, r, b, a, t, k, -, hone, hj, -⟩
      · rw [hnil] at hex; cases hex
      · rw [hone] at hex
        obtain rfl := List.mem_singleton.mp hex
        exact List.mem_append_left _ (hs.now j r hj).1
  · simp only [record, List.map_append]
    rcases exits_step hstep with hnil | ⟨j, r, b, a, t, k, -, hone, hj, -⟩
    · rw [hnil, List.map_nil, List.append_nil]; exact hs.once
    · rw [hone]
      refine (List.perm_append_singleton _ _).nodup_iff.mpr (List.nodup_cons.mpr ⟨fun hmem => ?_, hs.once⟩)
      obtain ⟨ex, hex, he⟩ := List.mem_map.mp hmem
      exact (hs.now j r hj).2 ex hex he
  · rcases List.mem_append.mp hi with hi | hi
    · rcases hs.ended i r hi with hreg | ⟨b, hex⟩ | hdone
      · rcases hr.registration_ends hstep hreg with hreg | ⟨b, hone⟩ | ⟨-, hdone⟩
        · exact .inl hreg
        · exact .inr (.inl ⟨b, List.mem_append_right _ (by rw [hone]; exact List.mem_singleton_self _)⟩)
        · exact .inr (.inr hdone)
      · exact .inr (.inl ⟨b, List.mem_append_left _ hex⟩)
      · exact .inr (.inr (hr.sane.numbered.done_step hstep hdone))
    · rcases registers_step hstep with hnil | ⟨j, r', -, -, -, hone, hj⟩
      · rw [hnil] at hi; cases hi
      · rw [hone] at hi
        cases List.mem_singleton.mp hi
        exact .inl hj

omit [DecidableEq V] in
theorem accounted_init (cfg : Config) : (cfg.init : State V).Accounted .new where
  ledger _ _ := .nil
  fresh x hx := by cases hx
  nodup := List.nodup_nil
  now i r hi := by cases hi
  exits ex hex := by cases hex
  once := List.nodup_nil
  ended i r hi := by cases hi

end State

end WasmSafeMutex
