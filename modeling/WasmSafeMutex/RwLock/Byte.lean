import Mathlib.Data.List.Nodup
import Mathlib.Data.Nat.Bitwise
import Mathlib.Tactic.Common
import WasmSafeMutex.RwLock.Code

/-!
# The byte of a `RwLock` counts its guards

Either one writer owns the lock and the byte is 128, or the byte is the number of readers
that own it, and at most 127.
-/

namespace WasmSafeMutex.RwLock

open Interleaving

variable {T : Type}

/-! ## `fetch_update` -/

theorem and_lockedWrite (f : UInt8) : f &&& lockedWrite = 0 ↔ f.toNat < 128 := by
  have hlt := f.toNat_lt
  have hbit : f.toNat &&& 128 = (f.toNat.testBit 7).toNat * 128 := Nat.and_two_pow f.toNat 7
  have hmask : f &&& lockedWrite = 0 ↔ f.toNat &&& 128 = 0 := by
    rw [← UInt8.toNat_inj, UInt8.toNat_and]
    rfl
  rw [hmask, hbit, Nat.testBit_eq_decide_div_mod_eq]
  simp
  omega

theorem readUpdate_none (f : UInt8) : readUpdate f = .none ↔ 128 ≤ f.toNat := by
  have hf := and_lockedWrite f
  unfold readUpdate
  split
  · simp_all
  · split <;> simp_all

theorem readUpdate_panic (f : UInt8) : readUpdate f = .panic ↔ f.toNat = 127 := by
  have hf := and_lockedWrite f
  have he : f = lockedWrite - 1 ↔ f.toNat = 127 := by rw [← UInt8.toNat_inj]; rfl
  unfold readUpdate
  split
  · simp_all; omega
  · split <;> simp_all

theorem readUpdate_some {f g : UInt8} (h : readUpdate f = .some g) : f.toNat < 127 ∧ g = f + 1 := by
  have hnone := readUpdate_none f
  have hpanic := readUpdate_panic f
  simp only [h, reduceCtorEq, false_iff] at hnone hpanic
  refine ⟨by omega, ?_⟩
  unfold readUpdate at h
  split at h
  · cases h
  · split at h <;> cases h; rfl

/-- A reader counts without touching the bit of the writers. -/
theorem toNat_add_one {f : UInt8} (h : f.toNat < 127) : (f + 1).toNat = f.toNat + 1 := by
  rw [UInt8.toNat_add]
  simp
  omega

theorem toNat_sub_one {f : UInt8} (h : 0 < f.toNat) : (f - 1).toNat = f.toNat - 1 := by
  rw [UInt8.toNat_sub_of_le]
  · rfl
  · rw [UInt8.le_iff_toNat_le]; exact h

/-! ## Who owns -/

/-- From the update of the byte that takes the lock to the one that gives it back. -/
def Pc.owns : Pc → Bool
  | .lock (.leaveOwner _) | .drop .release => true
  | _ => false

def Next.owns : Next → Bool
  | .goto pc => pc.owns
  | .hold => true
  | _ => false

def Call.owns (a : Access) : Call → Bool
  | .running _ a' pc => decide (a' = a) && pc.owns
  | .holding a' => decide (a' = a)
  | _ => false

/-- The places of a call for `a`. -/
def Pc.fits (a : Access) : Pc → Bool
  | .lock (.load _) => a = .read
  | .lock (.exchange _ f) => a = .read ∧ f.toNat < 127
  | .lock (.cas _) => a = .write
  | .drop (.take q qs) => a = .write ∨ ∀ q' ∈ q :: qs, q'.1 = .write
  | .drop (.wake q _ _ qs) => a = .write ∨ ∀ q' ∈ q :: qs, q'.1 = .write
  | _ => true

def Next.fits (a : Access) : Next → Bool
  | .goto pc => pc.fits a
  | .yield l => match l with
    | .await _ => true
    | _ => false
  | _ => true

def Call.fits : Call → Bool
  | .running _ a pc => pc.fits a
  | .suspended a l => (Next.yield l).fits a
  | _ => true

theorem Next.fits_call (n : Next) (t : ThreadId) (a : Access) : (n.call t a).fits = n.fits a := by
  cases n <;> rfl

theorem Next.owns_call (n : Next) (t : ThreadId) (a a' : Access) :
    (n.call t a).owns a' = (decide (a = a') && n.owns) := by
  cases n <;> simp [Next.call, Call.owns, Next.owns]

theorem Access.attempt_fits (a : Access) (x : Site) : (Pc.lock (a.attempt x)).fits a = true := by
  cases a <;> rfl

theorem Access.attempt_owns (a : Access) (x : Site) : (Pc.lock (a.attempt x)).owns = false := by
  cases a <;> rfl

theorem Site.ok_owns (x : Site) (a : Access) : x.ok.owns = true ∧ x.ok.fits a = true := by
  cases x <;> exact ⟨rfl, rfl⟩

theorem Site.err_owns (x : Site) (a : Access) : (x.err a).owns = false ∧ (x.err a).fits a = true := by
  cases x with
  | spin => exact ⟨a.attempt_owns _, a.attempt_fits _⟩
  | once | inList => exact ⟨rfl, rfl⟩

theorem Site.update_owns (x : Site) (f : UInt8) :
    (x.update f).owns = false ∧ (x.update f).fits .read = true := by
  unfold Site.update
  split
  case h_1 => exact x.err_owns .read
  case h_2 => exact ⟨rfl, rfl⟩
  case h_3 g hg =>
    refine ⟨rfl, ?_⟩
    simp [Next.fits, Pc.fits, (readUpdate_some hg).1]

theorem DropPc.drain_owns (q : Queue) (ws : List Waker) (qs : List Queue) :
    (drain q ws qs).owns = false := by
  unfold drain
  split <;> rfl

theorem DropPc.drain_fits {a : Access} {q : Queue} {qs : List Queue} (ws : List Waker)
    (h : a = .write ∨ ∀ q' ∈ q :: qs, q'.1 = .write) : (drain q ws qs).fits a = true := by
  unfold drain
  split
  · simpa [Next.fits, Pc.fits] using h
  · rcases h with h | h
    · simp [Next.fits, Pc.fits, h]
    · simp only [Next.fits, Pc.fits, decide_eq_true_eq]
      exact .inr fun q' hq' => h q' (List.mem_cons_of_mem _ hq')
  · rfl

/-- What an operation does to the byte and to the histories beside it. -/
inductive Counts (sh sh' : Shared T) (i : CallId) : Access → Bool → Bool → Prop
  | readBegins : sh.byte.toNat < 127 → sh'.byte = sh.byte + 1 → sh'.reads = i :: sh.reads →
    sh'.writes = sh.writes → Counts sh sh' i .read false true
  | writeBegins : sh.byte = unlocked → sh'.byte = lockedWrite → sh'.reads = sh.reads →
    sh'.writes = i :: sh.writes → Counts sh sh' i .write false true
  | readEnds : sh'.byte = sh.byte - 1 → sh'.reads = sh.reads.erase i → sh'.writes = sh.writes →
    Counts sh sh' i .read true false
  | writeEnds : sh'.byte = unlocked → sh'.reads = sh.reads → sh'.writes = sh.writes.erase i →
    Counts sh sh' i .write true false
  | none (a : Access) (b : Bool) : sh'.byte = sh.byte → sh'.reads = sh.reads → sh'.writes = sh.writes →
    Counts sh sh' i a b b

/-- One writer and the byte 128, or at most 127 readers and their number. -/
def Shared.Exact (sh : Shared T) : Prop :=
  sh.byte = lockedWrite ∧ sh.writes.length = 1 ∧ sh.reads = [] ∨
    sh.byte.toNat = sh.reads.length ∧ sh.byte.toNat ≤ 127 ∧ sh.writes = []

section

variable {sh sh' : Shared T} {i : CallId} {t : ThreadId} {a : Access} {pc : Pc} {n : Next}

theorem Pc.Step.fits (h : pc.Step sh i t a sh' n) (hf : pc.fits a = true) : n.fits a = true := by
  cases h with
  | probe b =>
    cases b
    · exact a.attempt_fits _
    · rfl
  | load x | exchangeLost x f =>
    simp only [Pc.fits, decide_eq_true_eq] at hf
    first | subst hf | obtain ⟨rfl, -⟩ := hf
    exact (x.update_owns _).2
  | exchanged x | casWon x => exact (x.ok_owns a).2
  | casLost x =>
    simp only [Pc.fits, decide_eq_true_eq] at hf
    subst hf
    exact (x.err_owns .write).2
  | enter k => exact a.attempt_fits _
  | leave k m => cases k <;> rfl
  | releaseRead ha =>
    subst ha
    split <;> rfl
  | releaseWrite ha =>
    subst ha
    split <;> rfl
  | take q qs hl =>
    simp only [Pc.fits, decide_eq_true_eq] at hf
    exact DropPc.drain_fits _ hf
  | wake q w ws qs =>
    simp only [Pc.fits, decide_eq_true_eq] at hf
    exact DropPc.drain_fits _ hf
  | push | leaveOwner | unparked | spurious | ready | pending => rfl

theorem Pc.Step.counts (h : pc.Step sh i t a sh' n) (hf : pc.fits a = true) :
    Counts sh sh' i a pc.owns n.owns := by
  have hsame : ∀ b, sh'.byte = sh.byte → sh'.reads = sh.reads → sh'.writes = sh.writes → pc.owns = b →
      n.owns = b → Counts sh sh' i a pc.owns n.owns := by
    intro b hb hr hw hpc hn
    rw [hpc, hn]
    exact .none a b hb hr hw
  cases h with
  | probe b =>
    refine hsame false rfl rfl rfl rfl ?_
    cases b
    · exact a.attempt_owns _
    · rfl
  | load x | exchangeLost x f => exact hsame false rfl rfl rfl rfl (x.update_owns _).1
  | exchanged x =>
    simp only [Pc.fits, decide_eq_true_eq] at hf
    obtain ⟨rfl, hlt⟩ := hf
    rw [(x.ok_owns .read).1]
    exact .readBegins hlt rfl rfl rfl
  | casWon x hb =>
    simp only [Pc.fits, decide_eq_true_eq] at hf
    subst hf
    rw [(x.ok_owns .write).1]
    exact .writeBegins hb rfl rfl rfl
  | casLost x => exact hsame false rfl rfl rfl rfl (x.err_owns _).1
  | enter k => exact hsame false rfl rfl rfl rfl (a.attempt_owns _)
  | leave k m =>
    refine hsame false rfl rfl rfl rfl ?_
    cases k <;> rfl
  | leaveOwner k => exact hsame true rfl rfl rfl rfl rfl
  | releaseRead ha =>
    subst ha
    have hn : (if sh.byte > 0 then Next.goto (.drop Access.read.didUnlock)
        else .finish .assertFailed).owns = false := by split <;> rfl
    rw [hn]
    exact .readEnds rfl rfl rfl
  | releaseWrite ha =>
    subst ha
    have hn : (if sh.byte = lockedWrite then Next.goto (.drop Access.write.didUnlock)
        else .finish .assertFailed).owns = false := by split <;> rfl
    rw [hn]
    exact .writeEnds rfl rfl rfl
  | take q qs hl => exact hsame false rfl rfl rfl rfl (DropPc.drain_owns _ _ _)
  | wake q w ws qs => exact hsame false rfl rfl rfl rfl (DropPc.drain_owns _ _ _)
  | push | unparked | spurious | ready | pending => exact hsame false rfl rfl rfl rfl rfl

theorem toNat_lockedWrite : lockedWrite.toNat = 128 := rfl

theorem Shared.Exact.writing (h : sh.Exact) (hw : sh.writes ≠ []) :
    sh.byte = lockedWrite ∧ sh.writes.length = 1 ∧ sh.reads = [] := by
  rcases h with h | ⟨-, -, h⟩
  · exact h
  · exact absurd h hw

theorem Shared.Exact.reading (h : sh.Exact) (hb : sh.byte ≠ lockedWrite) :
    sh.byte.toNat = sh.reads.length ∧ sh.byte.toNat ≤ 127 ∧ sh.writes = [] := by
  rcases h with ⟨h, -⟩ | h
  · exact absurd h hb
  · exact h

/-- Owners of one kind keep those of the other kind out. -/
theorem Shared.Exact.no_write (h : sh.Exact) (hr : sh.reads ≠ []) : sh.byte ≠ lockedWrite := by
  intro hb
  rcases h with ⟨-, -, h⟩ | ⟨h, h', -⟩
  · exact hr h
  · rw [hb, toNat_lockedWrite] at h'
    omega

theorem Shared.Exact.counts (h : sh.Exact) {b b' : Bool} (hcounts : Counts sh sh' i a b b')
    (hr : a = .read → b = true → i ∈ sh.reads) (hw : a = .write → b = true → i ∈ sh.writes) :
    sh'.Exact := by
  cases hcounts with
  | readBegins hlt hb hreads hwrites =>
    have hne : sh.byte ≠ lockedWrite := by
      intro he
      rw [he, toNat_lockedWrite] at hlt
      omega
    obtain ⟨hlen, -, hnil⟩ := h.reading hne
    right
    rw [hb, hreads, hwrites, toNat_add_one hlt]
    exact ⟨by simp [hlen], by omega, hnil⟩
  | writeBegins h0 hb hreads hwrites =>
    have hne : sh.byte ≠ lockedWrite := by rw [h0]; decide
    obtain ⟨hlen, -, hnil⟩ := h.reading hne
    left
    rw [hb, hreads, hwrites]
    refine ⟨rfl, by simp [hnil], ?_⟩
    rw [h0] at hlen
    exact List.length_eq_zero_iff.mp hlen.symm
  | readEnds hb hreads hwrites =>
    have hmem := hr rfl rfl
    obtain ⟨hlen, hle, hnil⟩ := h.reading (h.no_write (List.ne_nil_of_mem hmem))
    have hpos : 0 < sh.byte.toNat := hlen ▸ List.length_pos_of_mem hmem
    right
    rw [hb, hreads, hwrites, toNat_sub_one hpos, List.length_erase_of_mem hmem]
    exact ⟨by omega, by omega, hnil⟩
  | writeEnds hb hreads hwrites =>
    have hmem := hw rfl rfl
    obtain ⟨-, hone, hnil⟩ := h.writing (List.ne_nil_of_mem hmem)
    right
    rw [hb, hreads, hwrites, hnil]
    refine ⟨rfl, Nat.zero_le _, ?_⟩
    rw [← List.length_eq_zero_iff, List.length_erase_of_mem hmem, hone]
  | none _ _ hb hreads hwrites =>
    unfold Shared.Exact at h ⊢
    rw [hb, hreads, hwrites]
    exact h

end

/-! ## The invariant -/

namespace State

/-- The byte, and who owns what. -/
structure Counted (s : State T) : Prop where
  numbered : s.Numbered
  fits : ∀ i, (s.call i).fits = true
  reader : ∀ j, j ∈ s.sh.reads ↔ (s.call j).owns .read = true
  writer : ∀ j, j ∈ s.sh.writes ↔ (s.call j).owns .write = true
  nodup : s.sh.reads.Nodup ∧ s.sh.writes.Nodup
  byte : s.sh.Exact

variable {s s' : State T} {e : Event T} {i : CallId} {t : ThreadId} {a : Access} {pc : Pc} {n : Next}
  {sh : Shared T}

theorem counted_init (x : T) (w : ThreadId → Bool) : (init x w).Counted where
  numbered _ _ := rfl
  fits _ := rfl
  reader j := by simp [init, Call.owns]
  writer j := by simp [init, Call.owns]
  nodup := ⟨List.nodup_nil, List.nodup_nil⟩
  byte := .inr ⟨rfl, Nat.zero_le _, rfl⟩

/-- A list of owners follows one call that begins to own, ends it, or does neither. -/
theorem owners_step {l m : List CallId} {own own' : CallId → Bool} (hl : ∀ j, j ∈ l ↔ own j = true)
    (hn : l.Nodup) (hne : ∀ j, j ≠ i → own' j = own j)
    (h : own i = false ∧ own' i = true ∧ m = i :: l ∨ own i = true ∧ own' i = false ∧ m = l.erase i ∨
      own' i = own i ∧ m = l) : (∀ j, j ∈ m ↔ own' j = true) ∧ m.Nodup := by
  rcases h with ⟨hi, hi', rfl⟩ | ⟨hi, hi', rfl⟩ | ⟨hi, rfl⟩
  · refine ⟨fun j => ?_, List.nodup_cons.mpr ⟨fun hmem => by simp [(hl i).mp hmem] at hi, hn⟩⟩
    by_cases hj : j = i
    · subst hj; simp [hi']
    · rw [hne j hj, ← hl j]; simp [hj]
  · refine ⟨fun j => ?_, hn.erase i⟩
    by_cases hj : j = i
    · subst hj; simp [hi', hn.mem_erase_iff]
    · rw [hne j hj, ← hl j]; simp [hn.mem_erase_iff, hj]
  · refine ⟨fun j => ?_, hn⟩
    by_cases hj : j = i
    · subst hj; rw [hi]; exact hl j
    · rw [hne j hj]; exact hl j

theorem Counted.acted (h : s.Counted) (hc : s.call i = .running t a pc) (hs : pc.Step s.sh i t a sh n) :
    ({ s.setCall i (n.call t a) with sh := sh } : State T).Counted := by
  have hf : pc.fits a = true := by
    have := h.fits i
    rwa [hc] at this
  have hold : ∀ a', (s.call i).owns a' = (decide (a = a') && pc.owns) := by
    intro a'; rw [hc]; rfl
  have hself : ∀ a', ((s.setCall i (n.call t a)).call i).owns a' = (decide (a = a') && n.owns) := by
    intro a'
    simp [setCall, Next.owns_call]
  have hne : ∀ a' j, j ≠ i → ((s.setCall i (n.call t a)).call j).owns a' = (s.call j).owns a' := by
    intro a' j hj
    simp [setCall, hj]
  have hcounts := hs.counts hf
  have hread := owners_step (i := i) (m := sh.reads) h.reader h.nodup.1 (hne .read)
  have hwrite := owners_step (i := i) (m := sh.writes) h.writer h.nodup.2 (hne .write)
  have hlists : ((∀ j, j ∈ sh.reads ↔ ((s.setCall i (n.call t a)).call j).owns .read = true) ∧ sh.reads.Nodup) ∧
      (∀ j, j ∈ sh.writes ↔ ((s.setCall i (n.call t a)).call j).owns .write = true) ∧ sh.writes.Nodup := by
    rw [hself, hold] at hread hwrite
    generalize pc.owns = b at hcounts hread hwrite
    generalize n.owns = b' at hcounts hread hwrite
    cases hcounts with
    | readBegins hlt hb hr hw => exact ⟨hread (.inl ⟨rfl, rfl, hr⟩), hwrite (.inr (.inr ⟨rfl, hw⟩))⟩
    | writeBegins h0 hb hr hw => exact ⟨hread (.inr (.inr ⟨rfl, hr⟩)), hwrite (.inl ⟨rfl, rfl, hw⟩)⟩
    | readEnds hb hr hw => exact ⟨hread (.inr (.inl ⟨rfl, rfl, hr⟩)), hwrite (.inr (.inr ⟨rfl, hw⟩))⟩
    | writeEnds hb hr hw => exact ⟨hread (.inr (.inr ⟨rfl, hr⟩)), hwrite (.inr (.inl ⟨rfl, rfl, hw⟩))⟩
    | none a b hb hr hw => exact ⟨hread (.inr (.inr ⟨rfl, hr⟩)), hwrite (.inr (.inr ⟨rfl, hw⟩))⟩
  refine ⟨fun j hj => ?_, fun j => ?_, hlists.1.1, hlists.2.1, ⟨hlists.1.2, hlists.2.2⟩, ?_⟩
  · have hji : j ≠ i := by
      rintro rfl
      exact Nat.not_lt.mpr hj (h.numbered.lt_used (by simp [hc]))
    simp only [setCall, Function.update_of_ne hji]
    exact h.numbered j hj
  · by_cases hji : j = i
    · subst hji
      simp only [setCall, Function.update_self, Next.fits_call]
      exact hs.fits hf
    · simp only [setCall, Function.update_of_ne hji]
      exact h.fits j
  · refine h.byte.counts hcounts (fun ha hb => ?_) fun ha hb => ?_
    · rw [h.reader, hold, ha, hb]; rfl
    · rw [h.writer, hold, ha, hb]; rfl

theorem Call.Turn.keeps {c c' : Call} (h : Call.Turn c c') (hf : c.fits = true) :
    c'.fits = true ∧ ∀ a, c'.owns a = c.owns a := by
  cases h with
  | begin t a c =>
    cases c with
    | tryLock | lockSpin =>
      exact ⟨a.attempt_fits _, fun a' => by simp [Call.owns, LockCall.entry, a.attempt_owns]⟩
    | lockBlock | lockSync | lockAsync => exact ⟨rfl, fun a' => by simp [Call.owns, LockCall.entry, Pc.owns]⟩
  | dropGuard t a => exact ⟨rfl, fun a' => by simp [Call.owns, Pc.owns]⟩
  | poll t a l =>
    cases l with
    | await n => exact ⟨rfl, fun a' => by simp [Call.owns, Pc.owns]⟩
    | _ => cases hf
  | cancel a l => exact ⟨rfl, fun a' => rfl⟩

theorem Counted.turned (h : s.Counted) {c : Call} {used : Nat} (ht : (s.call i).Turn c)
    (hused : s.used ≤ used) (hi : i < used) :
    ({ s.setCall i c with used := used } : State T).Counted := by
  obtain ⟨hfits, howns⟩ := Call.Turn.keeps ht (h.fits i)
  have hsame : ∀ j a, ((s.setCall i c).call j).owns a = (s.call j).owns a := by
    intro j a
    by_cases hj : j = i
    · subst hj; simpa [setCall] using howns a
    · simp [setCall, hj]
  refine ⟨fun j hj => ?_, fun j => ?_, fun j => ?_, fun j => ?_, h.nodup, h.byte⟩
  · have hji : j ≠ i := by
      rintro rfl
      exact Nat.not_lt.mpr hj hi
    simp only [setCall, Function.update_of_ne hji]
    exact h.numbered j (Nat.le_trans hused hj)
  · by_cases hj : j = i
    · subst hj; simpa [setCall] using hfits
    · simpa [setCall, hj] using h.fits j
  · exact (h.reader j).trans (by rw [← hsame j .read])
  · exact (h.writer j).trans (by rw [← hsame j .write])

theorem Counted.step (h : s.Counted) (hstep : s.step e = some s') : s'.Counted := by
  cases stepped_of_step h.numbered hstep with
  | acted _ i t a pc sh n he hc hs => exact h.acted hc hs
  | turned _ i c used ht hfree hused hi hne => exact h.turned ht hused hi
  | wrote | unpark | parkElsewhere => exact ⟨h.numbered, h.fits, h.reader, h.writer, h.nodup, h.byte⟩

theorem Reachable.counted (h : s.Reachable) : s.Counted := by
  obtain ⟨x, w, hr⟩ := h
  exact hr.invariant (counted_init x w) fun _ _ _ hs _ hstep => hs.step hstep

/-! ## What follows -/

/-- The drop of a guard finds the byte that its `assert!` asks for. -/
theorem Counted.release (h : s.Counted) (hc : s.call i = .running t a (.drop .release)) :
    (a = .read → s.sh.byte > 0) ∧ (a = .write → s.sh.byte = lockedWrite) := by
  have howns : (s.call i).owns a = true := by rw [hc]; simp [Call.owns, Pc.owns]
  constructor
  · rintro rfl
    have hmem := (h.reader i).mpr howns
    obtain ⟨hlen, -⟩ := h.byte.reading (h.byte.no_write (List.ne_nil_of_mem hmem))
    have hpos := List.length_pos_of_mem hmem
    rw [gt_iff_lt, UInt8.lt_iff_toNat_lt, hlen]
    exact hpos
  · rintro rfl
    exact (h.byte.writing (List.ne_nil_of_mem ((h.writer i).mpr howns))).1

theorem Reachable.asserts (h : s.Reachable) (j : CallId) : s.call j ≠ .done .assertFailed := by
  obtain ⟨x, w, hr⟩ := h
  have hboth : s.Counted ∧ ∀ j, s.call j ≠ .done .assertFailed := by
    refine hr.invariant (P := fun s => s.Counted ∧ ∀ j, s.call j ≠ .done .assertFailed)
      ⟨counted_init x w, fun j h => by cases h⟩ ?_
    rintro s s' e ⟨hcount, hs⟩ - hstep
    refine ⟨hcount.step hstep, fun j hj => ?_⟩
    cases stepped_of_step hcount.numbered hstep with
    | acted _ i t a pc sh n he hc hstep' =>
      by_cases hji : j = i
      case neg => exact hs j (by simpa [setCall, hji] using hj)
      subst hji
      have hn : n.call t a = .done .assertFailed := by simpa [setCall] using hj
      have hrel := hcount.release (i := j) (t := t) (a := a)
      cases hstep' with
      | releaseRead ha => simp [(hrel hc).1 ha, Next.call] at hn
      | releaseWrite ha => simp [(hrel hc).2 ha, Next.call] at hn
      | load x | exchangeLost x f =>
        unfold Site.update at hn
        split at hn
        · cases x <;> simp [Site.err, Next.call] at hn
        · simp [Next.call] at hn
        · simp [Next.call] at hn
      | exchanged x | casWon x => cases x <;> simp [Site.ok, Next.call] at hn
      | casLost x => cases x <;> simp [Site.err, Next.call] at hn
      | take q qs hl | wake q w ws qs =>
        unfold DropPc.drain at hn
        split at hn <;> simp [Next.call] at hn
      | probe | enter | push | leaveOwner | leave | unparked | spurious | ready | pending =>
        simp [Next.call] at hn
    | turned _ i c used ht hfree hused hi hne =>
      by_cases hji : j = i
      · subst hji
        have hc : c = .done .assertFailed := by simpa [setCall] using hj
        rw [hc] at ht
        generalize s.call j = c₀ at ht
        cases ht
      · exact hs j (by simpa [setCall, hji] using hj)
    | wrote | unpark | parkElsewhere => exact hs j hj
  exact hboth.2 j

/-- What one event does to the byte and to the data. -/
structure ByteStep (s s' : State T) : Prop where
  /-- A new reader raises the number by one and leaves the bit of the writers clear. -/
  begins : s'.sh.reads.length = s.sh.reads.length + 1 →
    s'.sh.byte.toNat = s.sh.byte.toNat + 1 ∧ s'.sh.byte &&& lockedWrite = 0
  /-- `fetch_sub` does not wrap. -/
  ends : s.sh.reads.length = s'.sh.reads.length + 1 → s.sh.byte.toNat = s'.sh.byte.toNat + 1
  data : s.sh.reads ≠ [] → s'.sh.data = s.sh.data
  /-- A call that neither comes to own nor stops owning leaves the byte as it is. -/
  kept : (∀ j a, (s'.call j).owns a = (s.call j).owns a) → s'.sh.byte = s.sh.byte

theorem ByteStep.of_same (hb : s'.sh.byte = s.sh.byte) (hr : s'.sh.reads = s.sh.reads)
    (hd : s'.sh.data = s.sh.data) : s.ByteStep s' :=
  ⟨fun hl => by simp [hr] at hl, fun hl => by simp [hr] at hl, fun _ => hd, fun _ => hb⟩

theorem Counted.acted_byte (h : s.Counted) (hc : s.call i = .running t a pc)
    (hs : pc.Step s.sh i t a sh n) :
    s.ByteStep ({ s.setCall i (n.call t a) with sh := sh } : State T) := by
  have hf : pc.fits a = true := by
    have := h.fits i
    rwa [hc] at this
  have hmem : pc.owns = true → i ∈ s.sh.reads ∧ a = .read ∨ i ∈ s.sh.writes ∧ a = .write := by
    intro ho
    cases a with
    | read => exact .inl ⟨(h.reader i).mpr (by rw [hc]; simp [Call.owns, ho]), rfl⟩
    | write => exact .inr ⟨(h.writer i).mpr (by rw [hc]; simp [Call.owns, ho]), rfl⟩
  have hdata : sh.data = s.sh.data := by cases hs <;> rfl
  have hself : pc.owns ≠ n.owns → ¬ ∀ j a', ((s.setCall i (n.call t a)).call j).owns a' = (s.call j).owns a' := by
    intro hne hall
    have := hall i a
    simp only [setCall, Function.update_self] at this
    rw [Next.owns_call, hc] at this
    simp only [Call.owns, decide_true, Bool.true_and] at this
    exact hne this.symm
  have hcounts := hs.counts hf
  generalize pc.owns = b at hcounts hmem hself
  generalize n.owns = b' at hcounts hself
  cases hcounts with
  | readBegins hlt hb hr hw =>
    refine ⟨fun _ => ?_, fun hl => ?_, fun _ => hdata, fun hall => absurd hall (hself (by simp))⟩
    · rw [and_lockedWrite, hb, toNat_add_one hlt]
      exact ⟨rfl, Nat.succ_lt_succ hlt⟩
    · simp [hr] at hl
      omega
  | writeBegins h0 hb hr hw =>
    refine ⟨fun hl => ?_, fun hl => ?_, fun _ => hdata, fun hall => absurd hall (hself (by simp))⟩
    · simp [hr] at hl
    · simp [hr] at hl
  | readEnds hb hr hw =>
    have hi : i ∈ s.sh.reads := by
      rcases hmem rfl with h | ⟨-, ha⟩
      · exact h.1
      · cases ha
    have hlen := List.length_erase_of_mem hi
    have hpos := List.length_pos_of_mem hi
    refine ⟨fun hl => ?_, fun _ => ?_, fun _ => hdata, fun hall => absurd hall (hself (by simp))⟩
    · simp only [hr] at hl
      omega
    · have hcount := (h.byte.reading (h.byte.no_write (List.ne_nil_of_mem hi))).1
      simp only [hb]
      rw [toNat_sub_one (by omega)]
      omega
  | writeEnds hb hr hw =>
    refine ⟨fun hl => ?_, fun hl => ?_, fun _ => hdata, fun hall => absurd hall (hself (by simp))⟩
    · simp [hr] at hl
    · simp [hr] at hl
  | none _ _ hb hr hw => exact .of_same hb hr hdata

theorem Counted.byte_step (h : s.Counted) (hstep : s.step e = some s') : s.ByteStep s' := by
  cases stepped_of_step h.numbered hstep with
  | acted _ i t a pc sh n he hc hs => exact h.acted_byte hc hs
  | turned | unpark | parkElsewhere => exact .of_same rfl rfl rfl
  | wrote i u hc =>
    refine ⟨fun hl => by simp at hl, fun hl => by simp at hl, fun hr => ?_, fun _ => rfl⟩
    have hwrite : i ∈ s.sh.writes := (h.writer i).mpr (by rw [hc]; rfl)
    exact absurd (h.byte.writing (List.ne_nil_of_mem hwrite)).2.2 hr

/-- An owner stays one until the release in the drop of its guard. -/
theorem Counted.owner_step (h : s.Counted) (hstep : s.step e = some s') {j : CallId}
    (hj : (s.call j).owns a = true) :
    (s'.call j).owns a = true ∨ ∃ t, s.call j = .running t a (.drop .release) := by
  cases stepped_of_step h.numbered hstep with
  | acted _ i t a' pc sh n he hc hs =>
    by_cases hji : j = i
    case neg => exact .inl (by simpa [setCall, hji] using hj)
    subst hji
    rw [hc] at hj
    simp only [Call.owns, Bool.and_eq_true, decide_eq_true_eq] at hj
    obtain ⟨rfl, hpc⟩ := hj
    unfold Pc.owns at hpc
    split at hpc
    · cases hs
      left
      simp [setCall, Next.call, Call.owns]
    · exact .inr ⟨t, hc⟩
    · cases hpc
  | turned _ i c used ht =>
    left
    by_cases hji : j = i
    · subst hji
      have := (Call.Turn.keeps ht (h.fits j)).2 a
      simpa [setCall, this] using hj
    · simpa [setCall, hji] using hj
  | wrote | unpark | parkElsewhere => exact .inl hj

/-- The byte is exactly the owners, in every reachable state. -/
structure ByteExact (s : State T) : Prop where
  count : s.sh.byte = lockedWrite ∧ s.sh.writes.length = 1 ∧ s.sh.reads = [] ∨
    s.sh.byte.toNat = s.sh.reads.length ∧ s.sh.byte.toNat ≤ 127 ∧ s.sh.writes = []
  reader : ∀ j, j ∈ s.sh.reads ↔ (s.call j).owns .read = true
  writer : ∀ j, j ∈ s.sh.writes ↔ (s.call j).owns .write = true
  once : s.sh.reads.Nodup ∧ s.sh.writes.Nodup
  asserts : ∀ j, s.call j ≠ .done .assertFailed
  step : ∀ e s', s.step e = some s' → s.ByteStep s'
  owner : ∀ e s' j a, s.step e = some s' → (s.call j).owns a = true →
    (s'.call j).owns a = true ∨ ∃ t, s.call j = .running t a (.drop .release)

theorem Reachable.byte_exact (h : s.Reachable) : s.ByteExact where
  count := h.counted.byte
  reader := h.counted.reader
  writer := h.counted.writer
  once := h.counted.nodup
  asserts := h.asserts
  step _ _ hstep := h.counted.byte_step hstep
  owner _ _ _ _ hstep hj := h.counted.owner_step hstep hj

/-- Two readers, one of whom is on its way out. -/
theorem byte_exact_readers : ∃ s : State Nat,
    exec State.step (init 0 fun _ => true) [.begin 0 .read .tryLock, .act 0, .act 0,
      .begin 1 .read .lockBlock, .act 1, .act 1, .act 1, .dropGuard 0 0] = some s ∧ s.ByteExact := by
  have hrun : ∃ s : State Nat, exec State.step (init 0 fun _ => true) [.begin 0 .read .tryLock, .act 0,
      .act 0, .begin 1 .read .lockBlock, .act 1, .act 1, .act 1, .dropGuard 0 0] = some s := ⟨_, rfl⟩
  obtain ⟨s, hs⟩ := hrun
  exact ⟨s, hs, Reachable.byte_exact ⟨0, fun _ => true, run_of_exec hs⟩⟩

end State

end WasmSafeMutex.RwLock
