import Mathlib.Logic.Basic
import Mathlib.Data.Option.Basic

/-!
# A lock bit and the agents that hold it

`Exact bit holds` says that the bit is set just while one agent holds, and that no two do.
The three rules are what a test-and-set lock does to it: one agent acquires a clear bit,
the holder releases, or nothing changes.
-/

namespace Interleaving

variable {ι : Type} {bit : Bool} {holds holds' : ι → Bool} {i : ι}

def Exact (bit : Bool) (holds : ι → Bool) : Prop :=
  ∃ o : Option ι, bit = o.isSome ∧ ∀ j, holds j = true ↔ o = some j

theorem Exact.free (h : ∀ j, holds j = false) : Exact false holds :=
  ⟨none, rfl, fun j => by simp [h j]⟩

theorem Exact.unique (h : Exact bit holds) {i j : ι} (hi : holds i = true) (hj : holds j = true) :
    i = j := by
  obtain ⟨o, -, ho⟩ := h
  exact Option.some.inj (((ho i).mp hi).symm.trans ((ho j).mp hj))

theorem Exact.set_of_holds (h : Exact bit holds) (hi : holds i = true) : bit = true := by
  obtain ⟨o, hb, ho⟩ := h
  simp [hb, (ho i).mp hi]

theorem Exact.exists_of_set (h : Exact bit holds) (hb : bit = true) : ∃ i, holds i = true := by
  obtain ⟨o, rfl, ho⟩ := h
  obtain ⟨i, rfl⟩ := Option.isSome_iff_exists.mp hb
  exact ⟨i, (ho i).mpr rfl⟩

theorem Exact.none_of_clear (h : Exact false holds) (j : ι) : holds j = false := by
  obtain ⟨o, hb, ho⟩ := h
  cases o with
  | none => simpa using ho j
  | some k => simp at hb

theorem Exact.acquire (h : Exact false holds) (hi : holds' i = true)
    (hne : ∀ j, j ≠ i → holds' j = holds j) : Exact true holds' := by
  refine ⟨some i, rfl, fun j => ?_⟩
  by_cases hj : j = i
  · simp [hj, hi]
  · simp [hne j hj, h.none_of_clear j, Ne.symm hj]

theorem Exact.release (h : Exact bit holds) (hi : holds i = true) (hi' : holds' i = false)
    (hne : ∀ j, j ≠ i → holds' j = holds j) : Exact false holds' := by
  refine .free fun j => ?_
  by_cases hj : j = i
  · rw [hj, hi']
  · rw [hne j hj]
    cases hh : holds j with
    | false => rfl
    | true => exact absurd (h.unique hh hi) hj

theorem Exact.keep (h : Exact bit holds) (hsame : ∀ j, holds' j = holds j) : Exact bit holds' := by
  rwa [show holds' = holds from funext hsame]

/-- What one step of agent `i` may do to the bit. -/
theorem Exact.step {bit' : Bool} (h : Exact bit holds) (hne : ∀ j, j ≠ i → holds' j = holds j)
    (hi : bit = false ∧ bit' = true ∧ holds' i = true ∨
      bit' = false ∧ holds i = true ∧ holds' i = false ∨
      bit' = bit ∧ holds' i = holds i) : Exact bit' holds' := by
  rcases hi with ⟨rfl, rfl, hi⟩ | ⟨rfl, hi, hi'⟩ | ⟨rfl, hi⟩
  · exact h.acquire hi hne
  · exact h.release hi hi' hne
  · refine h.keep fun j => ?_
    by_cases hj : j = i
    · rw [hj, hi]
    · exact hne j hj

end Interleaving
