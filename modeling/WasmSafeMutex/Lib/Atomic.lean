import WasmSafeMutex.Lib.Exact
import WasmSafeMutex.Lib.Run
import Mathlib.Logic.Function.Basic

/-!
# Sections taken apart

A model may take a whole section of a lock as one event. The code takes it in steps: it swaps a bit,
reads the data under the lock, writes them back, and clears the bit. Other threads run in between.
`Coarse.fineStep` is that code. It comes to the same, as long as the coarse model keeps the data
of a lock outside the sections of that lock.
-/

namespace Interleaving

/-- A system whose events may be whole sections. -/
structure Coarse (σ α ι τ π : Type) where
  step : σ → α → Option σ
  /-- The thread on which the event happens. -/
  thread : σ → α → Option τ
  /-- The lock whose section the event is. -/
  within : σ → α → Option π
  /-- The thread of this agent, and the lock that it is about to take. -/
  next : σ → ι → Option (τ × π)
  /-- The event takes this lock, for a section of several events. -/
  opens : σ → α → Option π
  locked : σ → π → Bool
  Data : π → Type
  read : (p : π) → σ → Data p
  write : (p : π) → Data p → σ → σ

inductive Stage (D : Type)
  | entered
  /-- The section has read the data, and computes on what it has read. -/
  | loaded (d : D)
  | stored

namespace Coarse

variable {σ α ι τ π : Type} (M : Coarse σ α ι τ π)

structure Inside where
  agent : ι
  lock : π
  stage : Stage (M.Data lock)

structure Fine where
  base : σ
  /-- The locks of the sections that `base` takes as one event. -/
  bit : π → Bool
  inside : τ → Option M.Inside

inductive FineEvent (α ι τ : Type)
  /-- `swap(true)`, with what it finds. A thread that finds the lock taken spins. -/
  | swap (i : ι) (taken : Bool)
  | load (t : τ)
  /-- Writes what the section `a` makes of the data that it has read. -/
  | store (t : τ) (a : α)
  | release (t : τ)
  | other (a : α)

/-- The event of the coarse system that takes place here. -/
def FineEvent.coarse : FineEvent α ι τ → Option α
  | .store _ a | .other a => some a
  | _ => none

def fine (s : σ) : M.Fine := ⟨s, fun _ => false, fun _ => none⟩

variable [DecidableEq τ] [DecidableEq π]

def fineStep (s : M.Fine) : FineEvent α ι τ → Option M.Fine
  | .swap i taken =>
    match M.next s.base i with
    | some (t, p) =>
      if (s.inside t).isNone ∧ taken = (s.bit p || M.locked s.base p) then
        if taken then some s
        else some { s with
          bit := Function.update s.bit p true
          inside := Function.update s.inside t (some ⟨i, p, .entered⟩) }
      else none
    | none => none
  | .load t =>
    match s.inside t with
    | some ⟨i, p, .entered⟩ =>
      some { s with inside := Function.update s.inside t (some ⟨i, p, .loaded (M.read p s.base)⟩) }
    | _ => none
  | .store t a =>
    match s.inside t with
    | some ⟨i, p, .loaded d⟩ =>
      if M.thread s.base a = some t ∧ M.within s.base a = some p then
        (M.step (M.write p d s.base) a).map fun b =>
          { s with base := b, inside := Function.update s.inside t (some ⟨i, p, .stored⟩) }
      else none
    | _ => none
  | .release t =>
    match s.inside t with
    | some ⟨_, p, .stored⟩ =>
      some { s with bit := Function.update s.bit p false, inside := Function.update s.inside t none }
    | _ => none
  | .other a =>
    if M.within s.base a = none ∧ (M.thread s.base a).all (fun t => (s.inside t).isNone) ∧
        (M.opens s.base a).all (fun p => !s.bit p) then
      (M.step s.base a).map fun b => { s with base := b }
    else none

/-- What the coarse system has to keep to, in the states that it reaches. -/
structure Lawful (good : σ → Prop) : Prop where
  step : ∀ s s' a, good s → M.step s a = some s' → good s'
  write_read : ∀ s p, M.write p (M.read p s) s = s
  /-- A section is taken only where the lock is free, by an agent that was about to. -/
  unlocked : ∀ s s' a p, good s → M.step s a = some s' → M.within s a = some p → M.locked s p = false
  taker : ∀ s s' a p, good s → M.step s a = some s' → M.within s a = some p →
    ∃ i t, M.thread s a = some t ∧ M.next s i = some (t, p)
  opens : ∀ s s' a p, good s → M.step s a = some s' → M.locked s p = false → M.locked s' p = true →
    M.opens s a = some p ∧ M.within s a = none
  /-- Nobody else changes the data of a lock that is free. -/
  keeps : ∀ s s' a p, good s → M.step s a = some s' → M.locked s p = false → M.within s a ≠ some p →
    M.read p s' = M.read p s
  /-- An agent is about to take a lock until its own thread goes on. -/
  waits : ∀ s s' a i t p, good s → M.step s a = some s' → M.next s i = some (t, p) →
    M.thread s a ≠ some t → M.next s' i = some (t, p)
  enabled : ∀ s i t p, good s → M.next s i = some (t, p) → M.locked s p = false →
    ∃ a s', M.step s a = some s' ∧ M.thread s a = some t ∧ M.within s a = some p

/-! ## One step -/

/-- The inversion of `fineStep`. -/
inductive FineStepped (s : M.Fine) : FineEvent α ι τ → M.Fine → Prop
  | spin (i t p) : M.next s.base i = some (t, p) → FineStepped s (.swap i true) s
  | enter (i t p) : M.next s.base i = some (t, p) → s.inside t = none → s.bit p = false →
    M.locked s.base p = false → FineStepped s (.swap i false) { s with
      bit := Function.update s.bit p true
      inside := Function.update s.inside t (some ⟨i, p, .entered⟩) }
  | load (t i p) : s.inside t = some ⟨i, p, .entered⟩ → FineStepped s (.load t) { s with
      inside := Function.update s.inside t (some ⟨i, p, .loaded (M.read p s.base)⟩) }
  | store (t a i p d b) : s.inside t = some ⟨i, p, .loaded d⟩ → M.thread s.base a = some t →
    M.within s.base a = some p → M.step (M.write p d s.base) a = some b → FineStepped s (.store t a)
      { s with base := b, inside := Function.update s.inside t (some ⟨i, p, .stored⟩) }
  | release (t i p) : s.inside t = some ⟨i, p, .stored⟩ → FineStepped s (.release t)
    { s with bit := Function.update s.bit p false, inside := Function.update s.inside t none }
  | other (a b) : M.within s.base a = none → (∀ t, M.thread s.base a = some t → s.inside t = none) →
    (∀ p, M.opens s.base a = some p → s.bit p = false) → M.step s.base a = some b →
    FineStepped s (.other a) { s with base := b }

variable {M} {s s' : M.Fine} {e : FineEvent α ι τ} {good : σ → Prop}

theorem stepped_of_fineStep (h : M.fineStep s e = some s') : M.FineStepped s e s' := by
  cases e with
  | swap i taken =>
    simp only [fineStep] at h
    split at h
    case h_2 => cases h
    case h_1 t p hn =>
      obtain ⟨⟨hin, htaken⟩, h⟩ := Option.ite_none_right_eq_some.mp h
      cases taken with
      | true => cases h; exact .spin i t p hn
      | false =>
        cases h
        obtain ⟨hb, hl⟩ := Bool.or_eq_false_iff.mp htaken.symm
        exact .enter i t p hn (Option.isNone_iff_eq_none.mp hin) hb hl
  | load t =>
    simp only [fineStep] at h
    split at h
    case h_2 => cases h
    case h_1 i p hin => cases h; exact .load t i p hin
  | store t a =>
    simp only [fineStep] at h
    split at h
    case h_2 => cases h
    case h_1 i p d hin =>
      obtain ⟨⟨ht, hw⟩, h⟩ := Option.ite_none_right_eq_some.mp h
      obtain ⟨b, hb, rfl⟩ := Option.map_eq_some_iff.mp h
      exact .store t a i p d b hin ht hw hb
  | release t =>
    simp only [fineStep] at h
    split at h
    case h_2 => cases h
    case h_1 i p hin => cases h; exact .release t i p hin
  | other a =>
    obtain ⟨⟨hw, ht, ho⟩, h⟩ := Option.ite_none_right_eq_some.mp h
    obtain ⟨b, hb, rfl⟩ := Option.map_eq_some_iff.mp h
    refine .other a b hw (fun t hat => ?_) (fun p hap => ?_) hb
    · rw [hat] at ht
      exact Option.isNone_iff_eq_none.mp ht
    · rw [hap] at ho
      exact (Bool.not_eq_true' _).mp ho

/-! ## The invariant -/

/-- The thread is in a section of this lock. -/
def Fine.isIn (s : M.Fine) (p : π) (t : τ) : Bool := (s.inside t).any fun w => w.lock = p

structure Fine.Sound (good : σ → Prop) (s : M.Fine) : Prop where
  good : good s.base
  exact : ∀ p, Exact (s.bit p) (s.isIn p)
  apart : ∀ p, s.bit p = true → M.locked s.base p = false
  /-- What a section has read is still there. -/
  loaded : ∀ t i p d, s.inside t = some ⟨i, p, .loaded d⟩ → d = M.read p s.base
  waiting : ∀ t i p g, s.inside t = some ⟨i, p, g⟩ → g ≠ .stored → M.next s.base i = some (t, p)

omit [DecidableEq τ] in
theorem Fine.isIn_of_inside {t : τ} {w : M.Inside} (h : s.inside t = some w) : s.isIn w.lock t = true := by
  simp [isIn, h]

omit [DecidableEq τ] in
theorem Fine.Sound.bit_of_inside (hs : s.Sound good) {t : τ} {w : M.Inside} (h : s.inside t = some w) :
    s.bit w.lock = true :=
  (hs.exact w.lock).set_of_holds (isIn_of_inside h)

omit [DecidableEq τ] in
theorem sound_fine {s : σ} (h : good s) : (M.fine s).Sound good where
  good := h
  exact _ := .free fun _ => rfl
  apart _ hb := by cases hb
  loaded _ _ _ _ hin := by cases hin
  waiting _ _ _ _ hin := by cases hin

omit [DecidableEq τ] in
/-- What the coarse event of a thread leaves to the sections of the others. -/
theorem Fine.Sound.keeps (hM : M.Lawful good) (hs : s.Sound good) {a : α} {b : σ} (hstep : M.step s.base a = some b)
    (hopens : ∀ p, M.opens s.base a = some p → M.within s.base a = none → s.bit p = false) :
    (∀ p, s.bit p = true → M.locked b p = false) ∧
      ∀ p, s.bit p = true → M.within s.base a ≠ some p → M.read p b = M.read p s.base := by
  constructor
  · intro p hb
    cases hl : M.locked b p with
    | false => rfl
    | true =>
      obtain ⟨ho, hw⟩ := hM.opens _ _ _ _ hs.good hstep (hs.apart p hb) hl
      exact absurd (hopens p ho hw) (by simp [hb])
  · intro p hb hw
    exact hM.keeps _ _ _ _ hs.good hstep (hs.apart p hb) hw

theorem Fine.isIn_self {t : τ} {w : Option M.Inside} (h : s'.inside = Function.update s.inside t w) (p : π) :
    s'.isIn p t = w.any fun w => w.lock = p := by
  simp [isIn, h]

theorem Fine.isIn_ne {t u : τ} {w : Option M.Inside} (h : s'.inside = Function.update s.inside t w) (hu : u ≠ t)
    (p : π) : s'.isIn p u = s.isIn p u := by
  simp [isIn, h, hu]

/-- A thread that stays in its section keeps the bits. -/
theorem Fine.Sound.exact_stays (hs : s.Sound good) {t : τ} {i : ι} {p : π} {g g' : Stage (M.Data p)}
    (hin : s.inside t = some ⟨i, p, g⟩) (hin' : s'.inside = Function.update s.inside t (some ⟨i, p, g'⟩))
    (hbit : s'.bit = s.bit) (q : π) : Exact (s'.bit q) (s'.isIn q) := by
  rw [hbit]
  refine (hs.exact q).step (fun u hu => isIn_ne hin' hu q) (.inr (.inr ⟨rfl, ?_⟩))
  rw [isIn_self hin', isIn, hin]
  rfl

omit [DecidableEq π] in
theorem inside_of_update {f : τ → Option M.Inside} {t u : τ} {w : Option M.Inside} {x : M.Inside}
    (h : Function.update f t w u = some x) : u = t ∧ w = some x ∨ u ≠ t ∧ f u = some x := by
  by_cases hu : u = t
  · subst hu
    exact .inl ⟨rfl, by simpa using h⟩
  · exact .inr ⟨hu, by simpa [hu] using h⟩

theorem Fine.Sound.enter (hs : s.Sound good) {i : ι} {t : τ} {p : π} (hn : M.next s.base i = some (t, p))
    (hin : s.inside t = none) (hb : s.bit p = false) (hl : M.locked s.base p = false) :
    ({ s with
      bit := Function.update s.bit p true
      inside := Function.update s.inside t (some ⟨i, p, .entered⟩) } : M.Fine).Sound good where
  good := hs.good
  exact q := by
    refine (hs.exact q).step (fun u hu => isIn_ne rfl hu q) ?_
    by_cases hq : q = p
    · subst hq
      exact .inl ⟨hb, by simp, by simp [isIn]⟩
    · exact .inr (.inr ⟨by simp [hq], by simp [isIn, hin, Ne.symm hq]⟩)
  apart q hq := by
    by_cases hqp : q = p
    · subst hqp; exact hl
    · exact hs.apart q (by simpa [hqp] using hq)
  loaded u j q d hu := by
    rcases inside_of_update hu with ⟨-, hw⟩ | ⟨-, hu⟩
    · cases hw
    · exact hs.loaded u j q d hu
  waiting u j q g hu hg := by
    rcases inside_of_update hu with ⟨rfl, hw⟩ | ⟨-, hu⟩
    · cases hw; exact hn
    · exact hs.waiting u j q g hu hg

theorem Fine.Sound.load (hs : s.Sound good) {t : τ} {i : ι} {p : π} (hin : s.inside t = some ⟨i, p, .entered⟩) :
    ({ s with inside := Function.update s.inside t (some ⟨i, p, .loaded (M.read p s.base)⟩) } :
      M.Fine).Sound good where
  good := hs.good
  exact := hs.exact_stays hin rfl rfl
  apart := hs.apart
  loaded u j q d hu := by
    rcases inside_of_update hu with ⟨-, hw⟩ | ⟨-, hu⟩
    · cases hw; rfl
    · exact hs.loaded u j q d hu
  waiting u j q g hu hg := by
    rcases inside_of_update hu with ⟨rfl, hw⟩ | ⟨-, hu⟩
    · cases hw
      exact hs.waiting _ _ _ _ hin (by simp)
    · exact hs.waiting u j q g hu hg

theorem Fine.Sound.store (hM : M.Lawful good) (hs : s.Sound good) {t : τ} {i : ι} {p : π} {d : M.Data p} {a : α}
    {b : σ} (hin : s.inside t = some ⟨i, p, .loaded d⟩) (ht : M.thread s.base a = some t)
    (hw : M.within s.base a = some p) (hb : M.step s.base a = some b) :
    ({ s with base := b, inside := Function.update s.inside t (some ⟨i, p, .stored⟩) } : M.Fine).Sound good := by
  obtain ⟨hapart, hread⟩ := hs.keeps hM hb fun q _ hnot => by cases hw.symm.trans hnot
  refine ⟨hM.step _ _ _ hs.good hb, hs.exact_stays hin rfl rfl, hapart, fun u j q d' hu => ?_,
    fun u j q g hu hg => ?_⟩
  · rcases inside_of_update hu with ⟨-, hx⟩ | ⟨hne, hu⟩
    · cases hx
    · -- The other thread is in the section of another lock.
      have hq : M.within s.base a ≠ some q := by
        intro hq
        obtain rfl : p = q := Option.some.inj (hw.symm.trans hq)
        exact hne ((hs.exact p).unique (isIn_of_inside hu) (isIn_of_inside hin))
      rw [hs.loaded u j q d' hu]
      exact (hread q (hs.bit_of_inside hu) hq).symm
  · rcases inside_of_update hu with ⟨-, hx⟩ | ⟨hne, hu⟩
    · cases hx
      exact absurd rfl hg
    · exact hM.waits _ _ _ _ _ _ hs.good hb (hs.waiting u j q g hu hg) fun h =>
        hne (Option.some.inj (h.symm.trans ht))

theorem Fine.Sound.release (hs : s.Sound good) {t : τ} {i : ι} {p : π} (hin : s.inside t = some ⟨i, p, .stored⟩) :
    ({ s with bit := Function.update s.bit p false, inside := Function.update s.inside t none } :
      M.Fine).Sound good where
  good := hs.good
  exact q := by
    refine (hs.exact q).step (fun u hu => isIn_ne rfl hu q) ?_
    by_cases hq : q = p
    · subst hq
      exact .inr (.inl ⟨by simp, isIn_of_inside hin, by simp [isIn]⟩)
    · exact .inr (.inr ⟨by simp [hq], by simp [isIn, hin, Ne.symm hq]⟩)
  apart q hq := by
    by_cases hqp : q = p
    · subst hqp; simp at hq
    · exact hs.apart q (by simpa [hqp] using hq)
  loaded u j q d hu := by
    rcases inside_of_update hu with ⟨-, hx⟩ | ⟨-, hu⟩
    · cases hx
    · exact hs.loaded u j q d hu
  waiting u j q g hu hg := by
    rcases inside_of_update hu with ⟨-, hx⟩ | ⟨-, hu⟩
    · cases hx
    · exact hs.waiting u j q g hu hg

omit [DecidableEq τ] in
theorem Fine.Sound.other (hM : M.Lawful good) (hs : s.Sound good) {a : α} {b : σ}
    (hw : M.within s.base a = none) (ht : ∀ t, M.thread s.base a = some t → s.inside t = none)
    (ho : ∀ p, M.opens s.base a = some p → s.bit p = false) (hb : M.step s.base a = some b) :
    ({ s with base := b } : M.Fine).Sound good := by
  obtain ⟨hapart, hread⟩ := hs.keeps hM hb fun q hq _ => ho q hq
  refine ⟨hM.step _ _ _ hs.good hb, hs.exact, hapart, fun u j q d hu => ?_, fun u j q g hu hg => ?_⟩
  · rw [hs.loaded u j q d hu]
    exact (hread q (hs.bit_of_inside hu) (by simp [hw])).symm
  · refine hM.waits _ _ _ _ _ _ hs.good hb (hs.waiting u j q g hu hg) fun h => ?_
    cases (ht u h).symm.trans hu

omit [DecidableEq τ] in
/-- A section works on what is there when it writes. So the coarse event can take place there. -/
theorem Fine.Sound.store_coarse (hM : M.Lawful good) (hs : s.Sound good) {t : τ} {i : ι} {p : π} {d : M.Data p}
    {a : α} (hin : s.inside t = some ⟨i, p, .loaded d⟩) :
    M.step (M.write p d s.base) a = M.step s.base a := by
  rw [hs.loaded t i p d hin, hM.write_read]

theorem Fine.Sound.step (hM : M.Lawful good) (hs : s.Sound good) (h : M.fineStep s e = some s') :
    s'.Sound good := by
  cases stepped_of_fineStep h with
  | spin => exact hs
  | enter i t p hn hin hb hl => exact hs.enter hn hin hb hl
  | load t i p hin => exact hs.load hin
  | store t a i p d b hin ht hw hb => exact hs.store hM hin ht hw ((hs.store_coarse hM hin).symm.trans hb)
  | release t i p hin => exact hs.release hin
  | other a b hw ht ho hb => exact hs.other hM hw ht ho hb

/-! ## Both ways -/

/-- An event of the fine system is the coarse event in it, or nothing. -/
theorem Fine.Sound.coarse_step (hM : M.Lawful good) (hs : s.Sound good) (h : M.fineStep s e = some s') :
    match e.coarse with
    | some a => M.step s.base a = some s'.base
    | none => s'.base = s.base := by
  cases stepped_of_fineStep h with
  | spin | enter | load | release => rfl
  | store t a i p d b hin ht hw hb => exact (hs.store_coarse hM hin).symm.trans hb
  | other a b hw ht ho hb => exact hb

theorem Fine.Sound.coarse_run (hM : M.Lawful good) {es : List (FineEvent α ι τ)} (hs : s.Sound good)
    (h : exec M.fineStep s es = some s') :
    s'.Sound good ∧ exec M.step s.base (es.filterMap FineEvent.coarse) = some s'.base := by
  induction es generalizing s with
  | nil => cases h; exact ⟨hs, rfl⟩
  | cons e es ih =>
    obtain ⟨u, hu, hrest⟩ := Option.bind_eq_some_iff.mp h
    obtain ⟨hs', hexec⟩ := ih (hs.step hM hu) hrest
    refine ⟨hs', ?_⟩
    have hc := hs.coarse_step hM hu
    rw [List.filterMap_cons]
    cases he : e.coarse with
    | none =>
      rw [he] at hc
      exact hc ▸ hexec
    | some a =>
      rw [he] at hc
      simp [exec, hc, hexec]

/-- The steps of a section that is one coarse event. -/
theorem Lawful.section_run (hM : M.Lawful good) {s s' : σ} {a : α} {p : π} (hs : good s)
    (hstep : M.step s a = some s') (hw : M.within s a = some p) :
    ∃ i t, exec M.fineStep (M.fine s) [.swap i false, .load t, .store t a, .release t] = some (M.fine s') := by
  obtain ⟨i, t, ht, hn⟩ := hM.taker _ _ _ _ hs hstep hw
  have hl := hM.unlocked _ _ _ _ hs hstep hw
  refine ⟨i, t, ?_⟩
  simp [exec, fineStep, fine, hn, hl, ht, hw, hM.write_read, hstep]

theorem Lawful.fine_run (hM : M.Lawful good) {as : List α} {s s' : σ} (hs : good s)
    (h : exec M.step s as = some s') :
    ∃ es, es.filterMap FineEvent.coarse = as ∧ exec M.fineStep (M.fine s) es = some (M.fine s') := by
  induction as generalizing s with
  | nil => cases h; exact ⟨[], rfl, rfl⟩
  | cons a as ih =>
    obtain ⟨u, hu, hrest⟩ := Option.bind_eq_some_iff.mp h
    obtain ⟨es, hes, hexec⟩ := ih (hM.step _ _ _ hs hu) hrest
    cases hw : M.within s a with
    | none =>
      have hother : M.fineStep (M.fine s) (.other a) = some (M.fine u) := by
        simp [fineStep, fine, hw, hu]
      exact ⟨.other a :: es, by rw [List.filterMap_cons, hes]; rfl, by simp [exec, hother, hexec]⟩
    | some p =>
      obtain ⟨i, t, hsec⟩ := hM.section_run hs hu hw
      exact ⟨[.swap i false, .load t, .store t a, .release t] ++ es, by rw [List.filterMap_append, hes]; rfl,
        by rw [exec_append hsec, hexec]⟩

/-! ## Sections end -/

/-- A step of this thread inside its section. -/
def FineEvent.isBy (t : τ) : FineEvent α ι τ → Prop
  | .load u | .store u _ | .release u => u = t
  | _ => False

/-- The thread leaves its section, and the bit of the lock is clear. -/
def Fine.Leaves (s : M.Fine) (t : τ) (p : π) : Prop :=
  ∃ es s', exec M.fineStep s es = some s' ∧ (∀ e ∈ es, e.isBy t) ∧ s'.inside t = none ∧ s'.bit p = false

theorem Fine.leaves_of_step {t : τ} {p : π} (h : M.fineStep s e = some s') (he : e.isBy t) (hl : s'.Leaves t p) :
    s.Leaves t p := by
  obtain ⟨es, u, hexec, hes, hu⟩ := hl
  refine ⟨e :: es, u, by simp [exec, h, hexec], fun x hx => ?_, hu⟩
  rcases List.mem_cons.mp hx with rfl | hx
  · exact he
  · exact hes x hx

theorem Fine.leaves_stored {t : τ} {i : ι} {p : π} (hin : s.inside t = some ⟨i, p, .stored⟩) : s.Leaves t p :=
  ⟨[.release t], _, by simp [exec, fineStep, hin]; rfl, by simp [FineEvent.isBy], by simp, by simp⟩

theorem Fine.Sound.leaves_loaded (hM : M.Lawful good) (hs : s.Sound good) {t : τ} {i : ι} {p : π} {d : M.Data p}
    (hin : s.inside t = some ⟨i, p, .loaded d⟩) : s.Leaves t p := by
  have hn := hs.waiting t i p _ hin (by simp)
  have hl := hs.apart p (hs.bit_of_inside hin)
  obtain ⟨a, b, hb, ht, hw⟩ := hM.enabled _ _ _ _ hs.good hn hl
  have hstep : M.fineStep s (.store t a) =
      some { s with base := b, inside := Function.update s.inside t (some ⟨i, p, .stored⟩) } := by
    simp [fineStep, hin, ht, hw, hs.store_coarse hM hin, hb]
  exact leaves_of_step hstep rfl (leaves_stored (i := i) (Function.update_self ..))

theorem Fine.Sound.leaves (hM : M.Lawful good) (hs : s.Sound good) {t : τ} {w : M.Inside}
    (hin : s.inside t = some w) : s.Leaves t w.lock := by
  obtain ⟨i, p, g⟩ := w
  cases g with
  | stored => exact leaves_stored hin
  | loaded d => exact hs.leaves_loaded hM hin
  | entered =>
    have hstep : M.fineStep s (.load t) =
        some { s with inside := Function.update s.inside t (some ⟨i, p, .loaded (M.read p s.base)⟩) } := by
      simp [fineStep, hin]
    exact leaves_of_step hstep rfl ((hs.step hM hstep).leaves_loaded (i := i) hM (Function.update_self ..))

/-! ## The result -/

variable (M) in
/-- The sections of the fine system, which starts at `s₀`, are as good as one event each. -/
structure Atomic (s₀ : σ) : Prop where
  /-- A run is a run of the coarse system, in which each section takes place where it writes. -/
  refines : ∀ es s, exec M.fineStep (M.fine s₀) es = some s →
    exec M.step s₀ (es.filterMap FineEvent.coarse) = some s.base
  /-- Every run of the coarse system is there. -/
  covers : ∀ as s, exec M.step s₀ as = some s →
    ∃ es, es.filterMap FineEvent.coarse = as ∧ exec M.fineStep (M.fine s₀) es = some (M.fine s)
  /-- A lock has one section at a time, and none while the coarse system has it. -/
  one : ∀ s, Run M.fineStep (M.fine s₀) s → ∀ p,
    Exact (s.bit p) (s.isIn p) ∧ (s.bit p = true → M.locked s.base p = false)
  /-- Who is in a section can leave it without anybody else. -/
  leaves : ∀ s, Run M.fineStep (M.fine s₀) s → ∀ t w, s.inside t = some w → s.Leaves t w.lock

theorem Lawful.atomic (hM : M.Lawful good) {s₀ : σ} (h : good s₀) : M.Atomic s₀ := by
  have hsound : ∀ s, Run M.fineStep (M.fine s₀) s → s.Sound good := fun s hr =>
    hr.invariant (sound_fine h) fun _ _ _ hs _ hstep => hs.step hM hstep
  exact ⟨fun es s hs => ((sound_fine h).coarse_run hM hs).2, fun as s hs => hM.fine_run h hs,
    fun s hr p => ⟨(hsound s hr).exact p, (hsound s hr).apart p⟩,
    fun s hr t w hin => (hsound s hr).leaves hM hin⟩

end Coarse

end Interleaving
