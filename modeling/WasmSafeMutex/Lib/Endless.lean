import Mathlib.Order.Filter.EventuallyConst
import WasmSafeMutex.Lib.Run

/-!
# Endless runs

A run without an end, of which several parties see a part each. A party whose part only ever
falls comes to rest. In a fair run it is then not ready to act. A run that comes back to where it was
goes round for ever, and what happens in the round happens again and again.
-/

namespace Interleaving

open Filter

variable {σ α ι γ β : Type}

structure Endless (step : σ → α → Option σ) where
  state : ℕ → σ
  event : ℕ → α
  steps : ∀ n, step (state n) (event n) = some (state (n + 1))

/-- A sequence that from some time on only stays or falls comes to rest. -/
theorem eventuallyConst_of_falls [Preorder β] [WellFoundedLT β] {f : γ → β} {x : ℕ → γ}
    (h : ∀ᶠ n in atTop, x (n + 1) = x n ∨ f (x (n + 1)) < f (x n)) : EventuallyConst x atTop := by
  obtain ⟨N, hN⟩ := eventually_atTop.mp h
  obtain ⟨y, ⟨M, hM, rfl⟩, hmin⟩ :=
    wellFounded_lt.has_min (r := (· < · : β → β → Prop)) {y | ∃ n ≥ N, f (x n) = y} ⟨_, N, le_rfl, rfl⟩
  refine eventuallyConst_atTop.mpr ⟨M, fun n hn => ?_⟩
  induction n, hn using Nat.le_induction with
  | base => rfl
  | succ n hn ih =>
    rcases hN n (le_trans hM hn) with heq | hlt
    · exact heq.trans ih
    · rw [ih] at hlt
      exact absurd hlt (hmin _ ⟨n + 1, le_trans (le_trans hM hn) (Nat.le_succ n), rfl⟩)

namespace Endless

variable {step : σ → α → Option σ}

/-- The invariant rule. -/
theorem invariant (r : Endless step) {P : σ → Prop} (h0 : P (r.state 0))
    (hstep : ∀ s t a, P s → step s a = some t → P t) (n : ℕ) : P (r.state n) := by
  induction n with
  | zero => exact h0
  | succ n ih => exact hstep _ _ _ ih (r.steps n)

/-- Strong fairness: who is ready again and again acts again and again. -/
def Fair (r : Endless step) (ready : σ → ι → Prop) (acts : α → ι → Prop) : Prop :=
  ∀ i, (∃ᶠ n in atTop, ready (r.state n) i) → ∃ᶠ n in atTop, acts (r.event n) i

/-- In a fair run, a party at rest is not ready, if to act is to change. -/
theorem Fair.not_ready {r : Endless step} {ready : σ → ι → Prop} {acts : α → ι → Prop} (hf : r.Fair ready acts)
    {v : σ → ι → γ} {i : ι} (hacts : ∀ᶠ n in atTop, acts (r.event n) i →
      v (r.state (n + 1)) i ≠ v (r.state n) i)
    (hrest : EventuallyConst (fun n => v (r.state n) i) atTop) : ∀ᶠ n in atTop, ¬ ready (r.state n) i := by
  refine not_frequently.mp fun hready => hf i hready ?_
  obtain ⟨N, hN⟩ := eventuallyConst_atTop.mp hrest
  filter_upwards [hacts, eventually_ge_atTop N] with n hn hle hact
  exact hn hact ((hN (n + 1) (le_trans hle (Nat.le_succ n))).trans (hN n hle).symm)

end Endless

/-! ## Going round -/

/-- The state after the first `n` of these events. -/
def follow (step : σ → α → Option σ) (s : σ) (ev : ℕ → α) (n : ℕ) : Option σ :=
  exec step s ((List.range n).map ev)

/-- From `N` on, the events and the states come back after `k` steps. -/
structure Cycles (step : σ → α → Option σ) (s : σ) (ev : ℕ → α) (N k : ℕ) : Prop where
  pos : 0 < k
  event : ∀ n ≥ N, ev (n + k) = ev n
  comes : (follow step s ev N).isSome = true
  back : follow step s ev (N + k) = follow step s ev N

variable {step : σ → α → Option σ} {s : σ} {ev : ℕ → α} {N k m n : ℕ}

theorem follow_succ : follow step s ev (n + 1) = (follow step s ev n).bind fun t => step t (ev n) := by
  simp [follow, List.range_succ, exec_bind, exec]

namespace Cycles

theorem again (h : Cycles step s ev N k) (hn : N ≤ n) : follow step s ev (n + k) = follow step s ev n := by
  induction n, hn using Nat.le_induction with
  | base => exact h.back
  | succ n hn ih => rw [Nat.add_right_comm, follow_succ, follow_succ, ih, h.event n hn]

/-- Every moment is like one of the first round. -/
theorem exists_first (h : Cycles step s ev N k) (n : ℕ) : ∃ m < N + k, (N ≤ n → N ≤ m) ∧
    follow step s ev n = follow step s ev m ∧ ev n = ev m := by
  induction n using Nat.strong_induction_on with
  | _ n ih =>
    by_cases hn : n < N + k
    · exact ⟨n, hn, id, rfl, rfl⟩
    · obtain ⟨l, rfl⟩ := Nat.exists_eq_add_of_le' (Nat.not_lt.mp hn)
      have hpos := h.pos
      obtain ⟨m, hm, hlate, hstate, hevent⟩ := ih (l + N) (by omega)
      refine ⟨m, hm, fun _ => hlate (Nat.le_add_left ..), ?_, ?_⟩
      · rw [← hstate, ← Nat.add_assoc]
        exact h.again (Nat.le_add_left ..)
      · rw [← hevent, ← Nat.add_assoc]
        exact h.event _ (Nat.le_add_left ..)

/-- A moment of the round comes back. -/
theorem round (h : Cycles step s ev N k) (hm : N ≤ m) (l : ℕ) :
    follow step s ev (m + k * l) = follow step s ev m ∧ ev (m + k * l) = ev m := by
  induction l with
  | zero => exact ⟨rfl, rfl⟩
  | succ l ih =>
    have hle : N ≤ m + k * l := le_trans hm (Nat.le_add_right ..)
    rw [Nat.mul_succ, ← Nat.add_assoc]
    exact ⟨(h.again hle).trans ih.1, (h.event _ hle).trans ih.2⟩

theorem isSome (h : Cycles step s ev N k) (n : ℕ) : (follow step s ev n).isSome = true := by
  have hdown : ∀ l, (follow step s ev (n + l)).isSome = true → (follow step s ev n).isSome = true := by
    intro l hl
    induction l with
    | zero => exact hl
    | succ l ih =>
      rw [← Nat.add_assoc, follow_succ] at hl
      exact ih (Option.isSome_of_isSome_bind hl)
  refine hdown (N + k * n - n) ?_
  have hle : n ≤ k * n := Nat.le_mul_of_pos_left n h.pos
  rw [Nat.add_sub_cancel' (le_trans hle (Nat.le_add_left ..)), (h.round le_rfl n).1]
  exact h.comes

def endless (h : Cycles step s ev N k) : Endless step where
  state n := (follow step s ev n).get (h.isSome n)
  event := ev
  steps n := by
    obtain ⟨t, ht⟩ := Option.isSome_iff_exists.mp (h.isSome n)
    obtain ⟨u, hu⟩ := Option.isSome_iff_exists.mp (h.isSome (n + 1))
    simp only [ht, hu, Option.get_some]
    rwa [follow_succ, ht, Option.bind_some] at hu

theorem endless_state (h : Cycles step s ev N k) {t : σ} (ht : follow step s ev n = some t) :
    h.endless.state n = t := Option.get_of_eq_some _ ht

/-- What happens again and again is what happens in the round. -/
theorem frequently_iff (h : Cycles step s ev N k) {P : σ → α → Prop} :
    (∃ᶠ n in atTop, P (h.endless.state n) (h.endless.event n)) ↔
      ∃ m ≥ N, m < N + k ∧ ∃ t, follow step s ev m = some t ∧ P t (ev m) := by
  constructor
  · intro hfreq
    obtain ⟨n, hp, hn⟩ := (hfreq.and_eventually (eventually_ge_atTop N)).exists
    obtain ⟨m, hm, hlate, hstate, hevent⟩ := h.exists_first n
    obtain ⟨t, ht⟩ := Option.isSome_iff_exists.mp (h.isSome n)
    rw [h.endless_state ht] at hp
    exact ⟨m, hlate hn, hm, t, hstate.symm.trans ht, hevent ▸ hp⟩
  · rintro ⟨m, hm, -, t, ht, hp⟩
    refine frequently_atTop.mpr fun l => ⟨m + k * l, ?_, ?_⟩
    · exact le_trans (Nat.le_mul_of_pos_left l h.pos) (Nat.le_add_left ..)
    · obtain ⟨hstate, hevent⟩ := h.round hm l
      rw [h.endless_state (hstate.trans ht)]
      change P t (ev (m + k * l))
      rw [hevent]
      exact hp

/-- Only one party is ever ready in the round, and it acts in it. -/
theorem fair (h : Cycles step s ev N k) {ready : σ → ι → Prop} {acts : α → ι → Prop} {i : ι} (hacts : acts (ev N) i)
    (hothers : ∀ m ≥ N, m < N + k → ∀ t, follow step s ev m = some t → ∀ j ≠ i, ¬ ready t j) :
    h.endless.Fair ready acts := by
  intro j hready
  obtain ⟨m, hm, hlt, t, ht, hat⟩ := (h.frequently_iff (P := fun s _ => ready s j)).mp hready
  obtain rfl : j = i := by
    by_contra hj
    exact hothers m hm hlt t ht j hj hat
  obtain ⟨u, hu⟩ := Option.isSome_iff_exists.mp h.comes
  refine (h.frequently_iff (P := fun _ a => acts a j)).mpr ⟨N, le_rfl, ?_, u, hu, hacts⟩
  exact Nat.lt_add_of_pos_right h.pos

end Cycles

end Interleaving
