import Mathlib.Data.Set.Card

/-!
# A supply

At least so many things are in a set. Things come into it, leave it and take each other's place.
-/

namespace Interleaving

variable {α : Type} {n : Nat} {S T : Set α} {a b : α}

def Supply (n : Nat) (S : Set α) : Prop := (n : ℕ∞) ≤ S.encard

namespace Supply

theorem zero (S : Set α) : Supply 0 S := by
  unfold Supply
  simp

theorem mono (h : Supply n S) (hS : S ⊆ T) : Supply n T :=
  le_trans h (Set.encard_le_encard hS)

theorem exists_mem (h : Supply n S) (hn : 0 < n) : ∃ x, x ∈ S := by
  have hpos : 0 < S.encard := lt_of_lt_of_le (by exact_mod_cast hn) h
  exact Set.encard_pos.mp hpos

/-- One more comes. -/
theorem add (h : Supply n S) (ha : a ∉ S) (hS : insert a S ⊆ T) : Supply (n + 1) T := by
  refine le_trans ?_ (Set.encard_le_encard hS)
  rw [Set.encard_insert_of_notMem ha, Nat.cast_add, Nat.cast_one]
  exact add_le_add_left h 1

/-- At most one is used up. -/
theorem use (h : Supply (n + 1) S) (hS : S ⊆ insert a T) : Supply n T := by
  have hle : ((n + 1 : Nat) : ℕ∞) ≤ T.encard + 1 :=
    le_trans h (le_trans (Set.encard_le_encard hS) (Set.encard_insert_le T a))
  rw [Nat.cast_add, Nat.cast_one] at hle
  exact (ENat.add_le_add_iff_right ENat.one_ne_top).mp hle

/-- One comes for another one. -/
theorem exchange (h : Supply n S) (hb : b ∉ S) (hT : b ∈ T) (hS : S ⊆ insert a T) : Supply n T := by
  by_cases ha : a ∈ S
  · refine le_trans h ?_
    rw [← Set.encard_exchange hb ha]
    refine Set.encard_le_encard (Set.insert_subset hT ?_)
    rintro x ⟨hx, hne⟩
    exact (hS hx).resolve_left hne
  · refine h.mono fun x hx => (hS hx).resolve_left ?_
    rintro rfl
    exact ha hx

end Supply

end Interleaving
