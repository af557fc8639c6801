import Mathlib.Data.List.Perm.Basic
import Mathlib.Data.List.Nodup
import Mathlib.Data.List.Perm.Subperm

/-!
# What has been issued, and where it went

Each item is issued once. From then on it is present, until it is gone for good.
-/

namespace Interleaving

open scoped List

variable {α : Type} {issued present gone present' : List α} {x : α}

structure Ledger (issued present gone : List α) : Prop where
  perm : issued ~ present ++ gone
  nodup : issued.Nodup

theorem Ledger.nil : Ledger ([] : List α) [] [] := ⟨List.Perm.refl _, List.nodup_nil⟩

theorem Ledger.issue (h : Ledger issued present gone) (hx : x ∉ issued)
    (hp : present' ~ x :: present) : Ledger (issued ++ [x]) present' gone := by
  refine ⟨?_, (List.perm_append_singleton x issued).nodup_iff.mpr (List.nodup_cons.mpr ⟨hx, h.nodup⟩)⟩
  calc issued ++ [x]
    _ ~ x :: issued := List.perm_append_singleton x issued
    _ ~ x :: (present ++ gone) := h.perm.cons x
    _ ~ present' ++ gone := hp.symm.append_right gone

theorem Ledger.rearrange (h : Ledger issued present gone) (hp : present ~ present') :
    Ledger issued present' gone :=
  ⟨h.perm.trans (hp.append_right gone), h.nodup⟩

theorem Ledger.remove {xs : List α} (h : Ledger issued present gone) (hp : present ~ present' ++ xs) :
    Ledger issued present' (gone ++ xs) := by
  refine ⟨?_, h.nodup⟩
  calc issued
    _ ~ present ++ gone := h.perm
    _ ~ present' ++ xs ++ gone := hp.append_right gone
    _ ~ present' ++ (xs ++ gone) := by rw [List.append_assoc]
    _ ~ present' ++ (gone ++ xs) := List.perm_append_comm.append_left present'

theorem Ledger.nodup_all (h : Ledger issued present gone) : (present ++ gone).Nodup :=
  h.perm.nodup_iff.mp h.nodup

theorem Ledger.nodup_gone (h : Ledger issued present gone) : gone.Nodup :=
  h.nodup_all.of_append_right

theorem Ledger.mem (h : Ledger issued present gone) : x ∈ issued ↔ x ∈ present ∨ x ∈ gone :=
  h.perm.mem_iff.trans List.mem_append

/-- What is gone is not present. -/
theorem Ledger.not_present (h : Ledger issued present gone) (hx : x ∈ gone) : x ∉ present := fun hp =>
  (List.disjoint_of_nodup_append h.nodup_all) hp hx

theorem Ledger.gone_of_absent (h : Ledger issued present gone) (hx : x ∈ issued) (hp : x ∉ present) :
    x ∈ gone := (h.mem.mp hx).resolve_left hp

end Interleaving
