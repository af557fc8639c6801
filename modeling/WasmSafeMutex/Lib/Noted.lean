import WasmSafeMutex.Lib.Run

/-!
# Runs with notes

A note is kept beside the state, and each step adds to it. No step looks at it.
-/

namespace Interleaving

variable {σ η α : Type} {step : σ → α → Option σ} {note : σ → η → α → η}

/-- A step, and what is noted of it. -/
def noting (step : σ → α → Option σ) (note : σ → η → α → η) (x : σ × η) (a : α) : Option (σ × η) :=
  (step x.1 a).map fun s => (s, note x.1 x.2 a)

theorem noting_eq_some {x y : σ × η} {a : α} :
    noting step note x a = some y ↔ step x.1 a = some y.1 ∧ y.2 = note x.1 x.2 a := by
  unfold noting
  rw [Option.map_eq_some_iff]
  constructor
  · rintro ⟨s, hs, rfl⟩; exact ⟨hs, rfl⟩
  · rintro ⟨hs, hn⟩; exact ⟨y.1, hs, by rw [← hn]⟩

/-- The invariant rule for runs with notes. -/
theorem noting_invariant {ok : σ × η → α → Prop} {P : σ → η → Prop} {x y : σ × η}
    (h : RunWhere (noting step note) ok x y) (h0 : P x.1 x.2)
    (hstep : ∀ s n a t, P s n → ok (s, n) a → step s a = some t → P t (note s n a)) : P y.1 y.2 := by
  refine h.invariant (P := fun z => P z.1 z.2) h0 ?_
  intro z w a hz hok hzw
  obtain ⟨hs, hn⟩ := noting_eq_some.mp hzw
  rw [hn]
  exact hstep z.1 z.2 a w.1 hz hok hs

theorem run_of_noting {x y : σ × η} (h : Run (noting step note) x y) : Run step x.1 y.1 :=
  noting_invariant (P := fun s _ => Run step x.1 s) h .refl fun _ _ _ _ hr _ hs => hr.tail trivial hs

end Interleaving
