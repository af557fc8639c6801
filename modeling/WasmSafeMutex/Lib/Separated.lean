import Mathlib.Data.List.Perm.Subperm
import Mathlib.Data.List.Nodup
import Mathlib.Logic.Function.Basic

/-!
# Lists that share nothing

A family of lists is separated when no item occurs twice, in one list or in two. Moving
items from one list to another keeps that, and so does adding an item that is nowhere.
-/

namespace Interleaving

variable {ι α : Type} {L L' : ι → List α}

structure Separated (L : ι → List α) : Prop where
  nodup : ∀ i, (L i).Nodup
  apart : ∀ i j a, a ∈ L i → a ∈ L j → i = j

theorem Separated.nil : Separated fun _ : ι => ([] : List α) :=
  ⟨fun _ => List.nodup_nil, fun _ _ _ h => absurd h List.not_mem_nil⟩

theorem Separated.shrink (h : Separated L) (hsub : ∀ i, (L' i).Subperm (L i)) : Separated L' := by
  refine ⟨fun i => ?_, fun i j a hi hj => h.apart i j a ((hsub i).subset hi) ((hsub j).subset hj)⟩
  obtain ⟨l, hperm, hl⟩ := hsub i
  exact hperm.nodup_iff.mp ((h.nodup i).sublist hl)

theorem Separated.push (h : Separated L) {i : ι} {a : α} (hfresh : ∀ j, a ∉ L j)
    (hi : (L' i).Perm (a :: L i)) (hne : ∀ j, j ≠ i → L' j = L j) : Separated L' := by
  have hmem : ∀ j b, b ∈ L' j → b ∈ L j ∨ j = i ∧ b = a := by
    intro j b hb
    by_cases hj : j = i
    · subst hj
      exact (List.mem_cons.mp (hi.subset hb)).symm.imp_right fun hb => ⟨rfl, hb⟩
    · rw [hne j hj] at hb; exact .inl hb
  refine ⟨fun j => ?_, fun j k b hb hb' => ?_⟩
  · by_cases hj : j = i
    · subst hj
      exact hi.nodup_iff.mpr (List.nodup_cons.mpr ⟨hfresh j, h.nodup j⟩)
    · rw [hne j hj]; exact h.nodup j
  · rcases hmem j b hb with hb | ⟨rfl, rfl⟩ <;> rcases hmem k b hb' with hb' | ⟨rfl, hb'⟩
    · exact h.apart j k b hb hb'
    · exact absurd (hb' ▸ hb) (hfresh j)
    · exact absurd hb' (hfresh k)
    · rfl

/-- Two lists exchange items, and together they gain none. -/
theorem Separated.move (h : Separated L) {i j : ι} (hij : i ≠ j)
    (hsub : (L' i ++ L' j).Subperm (L i ++ L j)) (hne : ∀ k, k ≠ i → k ≠ j → L' k = L k) :
    Separated L' := by
  have hnodup : (L' i ++ L' j).Nodup := by
    obtain ⟨l, hperm, hl⟩ := hsub
    have hold : (L i ++ L j).Nodup :=
      (h.nodup i).append (h.nodup j) fun a hi hj => hij (h.apart i j a hi hj)
    exact hperm.nodup_iff.mp (hold.sublist hl)
  have hmem : ∀ a, a ∈ L' i ∨ a ∈ L' j → a ∈ L i ∨ a ∈ L j := fun a ha =>
    List.mem_append.mp (hsub.subset (List.mem_append.mpr ha))
  have hother : ∀ k a, k ≠ i → k ≠ j → a ∈ L' k → ¬ (a ∈ L' i ∨ a ∈ L' j) := by
    intro k a hki hkj hk ha
    rw [hne k hki hkj] at hk
    rcases hmem a ha with ha | ha
    · exact hki (h.apart k i a hk ha)
    · exact hkj (h.apart k j a hk ha)
  obtain ⟨hni, hnj, hdisj⟩ := List.nodup_append'.mp hnodup
  refine ⟨fun k => ?_, fun k l a hk hl => ?_⟩
  · by_cases hki : k = i
    · rw [hki]; exact hni
    · by_cases hkj : k = j
      · rw [hkj]; exact hnj
      · rw [hne k hki hkj]; exact h.nodup k
  · by_cases hk' : k = i ∨ k = j <;> by_cases hl' : l = i ∨ l = j
    · rcases hk' with rfl | rfl <;> rcases hl' with rfl | rfl
      · rfl
      · exact absurd hl (hdisj hk)
      · exact absurd hk (hdisj hl)
      · rfl
    · have hout := hother l a (fun he => hl' (.inl he)) (fun he => hl' (.inr he)) hl
      rcases hk' with rfl | rfl
      · exact absurd (.inl hk) hout
      · exact absurd (.inr hk) hout
    · have hout := hother k a (fun he => hk' (.inl he)) (fun he => hk' (.inr he)) hk
      rcases hl' with rfl | rfl
      · exact absurd (.inl hl) hout
      · exact absurd (.inr hl) hout
    · rw [hne k (fun he => hk' (.inl he)) fun he => hk' (.inr he)] at hk
      rw [hne l (fun he => hl' (.inl he)) fun he => hl' (.inr he)] at hl
      exact h.apart k l a hk hl

end Interleaving
