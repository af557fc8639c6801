import Mathlib.Logic.Basic

/-!
# Runs of a step function

`step s a` is the state after event `a`, or `none` when `a` cannot happen in `s`. A run
may be asked to meet a condition at each of its steps.
-/

namespace Interleaving

variable {σ α : Type}

/-- A run from `s` to the second state, each of whose steps meets `ok` where it is taken. -/
inductive RunWhere (step : σ → α → Option σ) (ok : σ → α → Prop) (s : σ) : σ → Prop
  | refl : RunWhere step ok s s
  | tail {t u : σ} {a : α} : RunWhere step ok s t → ok t a → step t a = some u → RunWhere step ok s u

/-- A run with no condition on its steps. -/
abbrev Run (step : σ → α → Option σ) (s t : σ) : Prop := RunWhere step (fun _ _ => True) s t

/-- Follows a list of events, as far as they can all happen. -/
def exec (step : σ → α → Option σ) (s : σ) : List α → Option σ
  | [] => some s
  | a :: as => (step s a).bind fun t => exec step t as

/-- Each step that follows these events from `s` meets `ok` where it is taken. -/
def Along (step : σ → α → Option σ) (ok : σ → α → Prop) : σ → List α → Prop
  | _, [] => True
  | s, a :: as => ok s a ∧ ∀ t, step s a = some t → Along step ok t as

/-- Follows a list of events, and checks each of them where it is taken. -/
def passes (step : σ → α → Option σ) (chk : σ → α → Bool) : σ → List α → Bool
  | _, [] => true
  | s, a :: as => chk s a && (step s a).any fun t => passes step chk t as

/-- Some step that follows these events from `s` meets `P` where it is taken. -/
def Sometime (step : σ → α → Option σ) (P : σ → α → Prop) : σ → List α → Prop
  | _, [] => False
  | s, a :: as => P s a ∨ ∃ t, step s a = some t ∧ Sometime step P t as

variable {step : σ → α → Option σ} {ok ok' : σ → α → Prop}

theorem sometime_cons {P : σ → α → Prop} {s t : σ} {a : α} {as : List α} (h : step s a = some t) :
    Sometime step P s (a :: as) ↔ P s a ∨ Sometime step P t as := by
  simp [Sometime, h]

theorem RunWhere.head {s t u : σ} {a : α} (hok : ok s a) (h : step s a = some t)
    (hr : RunWhere step ok t u) : RunWhere step ok s u := by
  induction hr with
  | refl => exact .tail .refl hok h
  | tail _ hok' h' ih => exact .tail ih hok' h'

theorem RunWhere.trans {s t u : σ} (h : RunWhere step ok s t) (h' : RunWhere step ok t u) :
    RunWhere step ok s u := by
  induction h' with
  | refl => exact h
  | tail _ hok hs ih => exact .tail ih hok hs

theorem RunWhere.mono_of_step {s t : σ} (hsub : ∀ s a t, ok s a → step s a = some t → ok' s a)
    (h : RunWhere step ok s t) : RunWhere step ok' s t := by
  induction h with
  | refl => exact .refl
  | tail _ hok hs ih => exact .tail ih (hsub _ _ _ hok hs) hs

theorem RunWhere.mono {s t : σ} (hsub : ∀ s a, ok s a → ok' s a) (h : RunWhere step ok s t) :
    RunWhere step ok' s t :=
  h.mono_of_step fun s a _ hok _ => hsub s a hok

/-- The invariant rule: what holds at the start and survives each step holds throughout. -/
theorem RunWhere.invariant {P : σ → Prop} {s t : σ} (h : RunWhere step ok s t) (h0 : P s)
    (hstep : ∀ s t a, P s → ok s a → step s a = some t → P t) : P t := by
  induction h with
  | refl => exact h0
  | tail _ hok hs ih => exact hstep _ _ _ ih hok hs

/-- Where a property that did not hold at the start does, some step of the run was the last one
that brought it about. -/
theorem RunWhere.exists_last_entry {P : σ → Prop} {s t : σ} (h : RunWhere step ok s t) (h0 : ¬ P s)
    (ht : P t) : ∃ u v a, RunWhere step ok s u ∧ ¬ P u ∧ ok u a ∧ step u a = some v ∧ P v ∧
      RunWhere step (fun x b => ok x b ∧ P x) v t := by
  induction h with
  | refl => exact absurd ht h0
  | @tail t u a hr hok hs ih =>
    by_cases hp : P t
    · obtain ⟨x, y, b, h1, h2, h3, h4, h5, h6⟩ := ih hp
      exact ⟨x, y, b, h1, h2, h3, h4, h5, h6.tail ⟨hok, hp⟩ hs⟩
    · exact ⟨t, u, a, hr, hp, hok, hs, ht, .refl⟩

theorem exec_bind {s : σ} {as bs : List α} :
    exec step s (as ++ bs) = (exec step s as).bind fun t => exec step t bs := by
  induction as generalizing s with
  | nil => rfl
  | cons a as ih => simp only [List.cons_append, exec, ih, Option.bind_assoc]

theorem exec_append {s t : σ} {as bs : List α} (h : exec step s as = some t) :
    exec step s (as ++ bs) = exec step t bs := by
  rw [exec_bind, h, Option.bind_some]

theorem run_of_exec {s t : σ} {as : List α} (h : exec step s as = some t) : Run step s t := by
  induction as generalizing s with
  | nil => simp only [exec, Option.some.injEq] at h; subst h; exact .refl
  | cons a as ih =>
    simp only [exec, Option.bind_eq_some_iff] at h
    obtain ⟨u, hu, hrest⟩ := h
    exact .head trivial hu (ih hrest)

theorem RunWhere.extend {s t u : σ} {as : List α} (hr : RunWhere step ok s t) (hok : Along step ok t as)
    (h : exec step t as = some u) : RunWhere step ok s u := by
  induction as generalizing t with
  | nil => cases h; exact hr
  | cons a as ih =>
    obtain ⟨v, hv, hrest⟩ := Option.bind_eq_some_iff.mp h
    exact ih (hr.tail hok.1 hv) (hok.2 v hv) hrest

theorem Along.mono (hsub : ∀ s a, ok s a → ok' s a) {s : σ} {as : List α} (h : Along step ok s as) :
    Along step ok' s as := by
  induction as generalizing s with
  | nil => trivial
  | cons a as ih => exact ⟨hsub s a h.1, fun t ht => ih (h.2 t ht)⟩

theorem Along.of_forall {s : σ} {as : List α} (h : ∀ a ∈ as, ∀ s, ok s a) : Along step ok s as := by
  induction as generalizing s with
  | nil => trivial
  | cons a as ih =>
    exact ⟨h a List.mem_cons_self s, fun _ _ => ih fun b hb => h b (List.mem_cons_of_mem a hb)⟩

/-- What a check of each event says, where an invariant goes with it. -/
theorem Along.of_passes {I : σ → Prop} {chk : σ → α → Bool}
    (hstep : ∀ s t a, I s → step s a = some t → I t) (hchk : ∀ s a, I s → chk s a = true → ok s a)
    {s : σ} {as : List α} (h0 : I s) (h : passes step chk s as = true) :
    ∃ t, exec step s as = some t ∧ Along step ok s as := by
  induction as generalizing s with
  | nil => exact ⟨s, rfl, trivial⟩
  | cons a as ih =>
    simp only [passes, Bool.and_eq_true, Option.any_eq_true] at h
    obtain ⟨ha, t, ht, hrest⟩ := h
    obtain ⟨u, hu, hal⟩ := ih (hstep s t a h0 ht) hrest
    refine ⟨u, by simp [exec, ht, hu], hchk s a h0 ha, fun v hv => ?_⟩
    cases ht.symm.trans hv
    exact hal

theorem along_concat {s t : σ} {a : α} {as : List α} (h : exec step s as = some t) :
    Along step ok s (as ++ [a]) ↔ Along step ok s as ∧ ok t a := by
  induction as generalizing s with
  | nil => cases h; simp [Along]
  | cons b as ih =>
    obtain ⟨v, hv, hrest⟩ := Option.bind_eq_some_iff.mp h
    simp only [List.cons_append, Along, hv, Option.some.injEq, forall_eq', ih hrest, and_assoc]

/-- Where a property is lost over a list of events, one of them loses it. -/
theorem Along.exists_loss {P : σ → Prop} {s t : σ} {as : List α} (hok : Along step ok s as)
    (h : exec step s as = some t) (h0 : P s) (ht : ¬ P t) :
    ∃ as₁ a as₂ u v, as = as₁ ++ a :: as₂ ∧ exec step s as₁ = some u ∧ Along step ok s as₁ ∧
      step u a = some v ∧ ok u a ∧ P u ∧ ¬ P v := by
  induction as generalizing s with
  | nil => cases h; exact absurd h0 ht
  | cons a as ih =>
    obtain ⟨v, hv, hrest⟩ := Option.bind_eq_some_iff.mp h
    by_cases hp : P v
    · obtain ⟨as₁, b, as₂, u, w, rfl, hu, hal, hw, hok', hpu, hpw⟩ := ih (hok.2 v hv) hrest hp
      refine ⟨a :: as₁, b, as₂, u, w, rfl, ?_, ⟨hok.1, fun x hx => ?_⟩, hw, hok', hpu, hpw⟩
      · simp [exec, hv, hu]
      · cases hv.symm.trans hx; exact hal
    · exact ⟨[], a, as, s, v, rfl, rfl, trivial, hv, hok.1, h0, hp⟩

end Interleaving
