import Mathlib.Data.List.Basic
import WasmSafeMutex.Lib.Run

/-!
# Calls that take effect at one moment

Each event of a run may do something to an abstract object, on behalf of a call. `effects`
reads off the events what was done, and in which order. A run is `Linearized` when that is a
run of the object alone, and when no call has an effect before it begins or after it ends.
-/

namespace Interleaving

variable {σ α ι ω A : Type}

/-! ## What the events do -/

def effects (step : σ → α → Option σ) (eff : σ → α → List (ι × ω)) : σ → List α → List (ι × ω)
  | _, [] => []
  | s, a :: as =>
    match step s a with
    | some t => eff s a ++ effects step eff t as
    | none => []

/-- What call `i` has done. -/
def doneBy [DecidableEq ι] (i : ι) (log : List (ι × ω)) : List ω :=
  (log.filter fun x => x.1 = i).map Prod.snd

variable {step : σ → α → Option σ} {eff : σ → α → List (ι × ω)} {s t : σ} {as bs : List α}

theorem effects_append (h : exec step s as = some t) :
    effects step eff s (as ++ bs) = effects step eff s as ++ effects step eff t bs := by
  induction as generalizing s with
  | nil => cases h; rfl
  | cons a as ih =>
    obtain ⟨u, hu, hrest⟩ := Option.bind_eq_some_iff.mp h
    simp only [List.cons_append, effects, hu, ih hrest, List.append_assoc]

variable (eff) in
/-- The induction rule: an invariant of the state and of what has been done so far. -/
theorem effects_invariant {P : σ → List (ι × ω) → Prop} (h : exec step s as = some t) {log : List (ι × ω)}
    (h0 : P s log) (hstep : ∀ s log a t, P s log → step s a = some t → P t (log ++ eff s a)) :
    P t (log ++ effects step eff s as) := by
  induction as generalizing s log with
  | nil => cases h; simpa [effects] using h0
  | cons a as ih =>
    obtain ⟨u, hu, hrest⟩ := Option.bind_eq_some_iff.mp h
    have hgo := ih hrest (hstep s log a u h0 hu)
    simpa only [effects, hu, List.append_assoc] using hgo

section

variable [DecidableEq ι] {log log' : List (ι × ω)} {i j : ι}

@[simp] theorem doneBy_nil : doneBy i ([] : List (ι × ω)) = [] := rfl

@[simp] theorem doneBy_append : doneBy i (log ++ log') = doneBy i log ++ doneBy i log' := by
  simp [doneBy]

@[simp] theorem doneBy_self (ops : List ω) : doneBy i (ops.map fun op => (i, op)) = ops := by
  simp [doneBy, List.filter_map, Function.comp_def]

theorem doneBy_ne (hj : j ≠ i) (ops : List ω) : doneBy i (ops.map fun op => (j, op)) = [] := by
  simp [doneBy, List.filter_map, Function.comp_def, hj]

variable {I D : σ → Prop}

/-- Once a call has ended, it does nothing more. -/
theorem effects_of_ended (hI : ∀ s a t, I s → step s a = some t → I t)
    (hstep : ∀ s a t, I s → D s → step s a = some t → D t ∧ doneBy i (eff s a) = [])
    (h : exec step s as = some t) (h0 : I s) (hs : D s) : doneBy i (effects step eff s as) = [] := by
  have hnone := effects_invariant eff (P := fun s log => I s ∧ D s ∧ doneBy i log = []) h
    ⟨h0, hs, doneBy_nil⟩ fun s log a t hs hst => by
      obtain ⟨hinv, hend, hlog⟩ := hs
      obtain ⟨ht, hnone⟩ := hstep s a t hinv hend hst
      exact ⟨hI s a t hinv hst, ht, by simp [hlog, hnone]⟩
  simpa using hnone.2.2

/-- Before a call begins, it does nothing. -/
theorem effects_of_idle (hI : ∀ s a t, I s → step s a = some t → I t)
    (hstep : ∀ s a t, I s → D t → step s a = some t → D s ∧ doneBy i (eff s a) = [])
    (h : exec step s as = some t) (h0 : I s) (ht : D t) : doneBy i (effects step eff s as) = [] := by
  have hnone := effects_invariant eff (P := fun s log => I s ∧ (D s → doneBy i log = [])) h
    ⟨h0, fun _ => doneBy_nil⟩ fun s log a t hs hst => by
      refine ⟨hI s a t hs.1 hst, fun ht => ?_⟩
      obtain ⟨hidle, hnone⟩ := hstep s a t hs.1 ht hst
      simp [hs.2 hidle, hnone]
  simpa using hnone.2 ht

end

/-! ## Simulation -/

/-- Each event does to the object what it does to the state that stands for the object. -/
def Simulates (step : σ → α → Option σ) (eff : σ → α → List (ι × ω)) (ostep : A → ω → Option A)
    (R : σ → A → Prop) : Prop :=
  ∀ s x a t, R s x → step s a = some t → ∃ y, exec ostep x ((eff s a).map Prod.snd) = some y ∧ R t y

theorem Simulates.run {ostep : A → ω → Option A} {R : σ → A → Prop} (hsim : Simulates step eff ostep R)
    {x : A} (h0 : R s x) (h : exec step s as = some t) :
    ∃ y, exec ostep x ((effects step eff s as).map Prod.snd) = some y ∧ R t y := by
  have hnew : ∃ y, exec ostep x (([] : List (ι × ω)).map Prod.snd) = some y ∧ R s y := ⟨x, rfl, h0⟩
  have hrun := effects_invariant eff (P := fun s log => ∃ y, exec ostep x (log.map Prod.snd) = some y ∧ R s y) h
    hnew fun s log a t hs hstep => by
      obtain ⟨y, hy, hR⟩ := hs
      obtain ⟨z, hz, hR'⟩ := hsim s y a t hR hstep
      exact ⟨z, by rw [List.map_append, exec_append hy, hz], hR'⟩
  simpa using hrun

variable [DecidableEq ι]

/-- The calls of the run `as` take effect one at a time, each between its beginning and its
end: what they do is a run of the object from `x₀`, and every first part of the run has done a
first part of it. `R` says how a state shows the object. -/
structure Linearized (step : σ → α → Option σ) (idle ended : σ → ι → Prop) (ostep : A → ω → Option A)
    (R : σ → A → Prop) (x₀ : A) (s₀ : σ) (as : List α) (log : List (ι × ω)) : Prop where
  legal : ∀ t, exec step s₀ as = some t → ∃ x, exec ostep x₀ (log.map Prod.snd) = some x ∧ R t x
  cut : ∀ bs cs t, as = bs ++ cs → exec step s₀ bs = some t → ∃ log₁ log₂, log = log₁ ++ log₂ ∧
    (∃ x, exec ostep x₀ (log₁.map Prod.snd) = some x ∧ R t x) ∧
    (∀ i, ended t i → doneBy i log₂ = []) ∧ ∀ i, idle t i → doneBy i log₁ = []

variable {idle ended : σ → ι → Prop} {ostep : A → ω → Option A} {R : σ → A → Prop} {x₀ : A} {s₀ : σ}

/-- The simulation rule for linearized runs. -/
theorem Simulates.linearized {I : σ → Prop} (hsim : Simulates step eff ostep R)
    (hI : ∀ s a t, I s → step s a = some t → I t)
    (hended : ∀ i s a t, I s → ended s i → step s a = some t → ended t i ∧ doneBy i (eff s a) = [])
    (hidle : ∀ i s a t, I s → idle t i → step s a = some t → idle s i ∧ doneBy i (eff s a) = [])
    (hI0 : I s₀) (h0 : R s₀ x₀) (h : exec step s₀ as = some t) :
    Linearized step idle ended ostep R x₀ s₀ as (effects step eff s₀ as) := by
  refine ⟨fun u hu => hsim.run h0 hu, fun bs cs u hsplit hu => ?_⟩
  subst hsplit
  rw [exec_append hu] at h
  have hIu : I u := by
    exact (run_of_exec hu).invariant hI0 fun _ _ _ hs _ hst => hI _ _ _ hs hst
  exact ⟨effects step eff s₀ bs, effects step eff u cs, effects_append hu, hsim.run h0 hu,
    fun i hi => effects_of_ended (D := fun s => ended s i) hI (hended i) h hIu hi,
    fun i hi => effects_of_idle (D := fun s => idle s i) hI (hidle i) hu hI0 hi⟩

end Interleaving
