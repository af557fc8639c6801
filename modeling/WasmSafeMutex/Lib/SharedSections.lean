import Mathlib.Logic.Function.Basic
import WasmSafeMutex.Lib.Sections

/-!
# Critical sections that may be shared

Several agents may be in their closures at once, as long as these only read. `Overlapped` is
what holds meanwhile: a closure that shares the data sees it as the closures before left it.
-/

namespace Interleaving

variable {ι T L R : Type} {code : Code T L R}

/-- Of a section that has found the data `x` and shares it. `place` says where the closures are. -/
def Section.Shares (code : Code T L R) (place : ι → Option L) (x : T) (s : Section ι L R) : Prop :=
  match s.ending with
  | some o => code.Alone s.closure x o x
  | none => ∃ l, place s.agent = some l ∧ ∀ o y, code.Alone l x o y → code.Alone s.closure x o y

/-- The sections that are shared may still be in any order. One that is exclusive is the last
one, and those before it have ended. `w` is the agent of an exclusive section. -/
inductive Overlapped (code : Code T L R) (x₀ : T) (place : ι → Option L) :
    List (Section ι L R) → Option ι → T → Prop
  | shared {ss tail : List (Section ι L R)} {os : List (Ending R)} {x : T} :
    ss.map Section.ending = os.map some → code.Serially x₀ (ss.map Section.closure) os x →
    (∀ s ∈ tail, s.Shares code place x) → Overlapped code x₀ place (ss ++ tail) none x
  | exclusive {ss : List (Section ι L R)} {os : List (Ending R)} {x y : T} {i : ι} {c l : L} :
    ss.map Section.ending = os.map some → code.Serially x₀ (ss.map Section.closure) os y →
    place i = some l → (∀ o z, code.Alone l x o z → code.Alone c y o z) →
    Overlapped code x₀ place (ss ++ [⟨i, c, none⟩]) (some i) x

variable {x₀ x : T} {place : ι → Option L} {ss : List (Section ι L R)} {w : Option ι} {i : ι} {l : L}

theorem Overlapped.start : Overlapped code x₀ place ([] : List (Section ι L R)) none x₀ := by
  have hnone : ([] : List (Section ι L R)).map Section.ending = ([] : List (Ending R)).map some := rfl
  have hempty : Overlapped code x₀ place (([] : List (Section ι L R)) ++ []) none x₀ :=
    .shared hnone .nil fun _ hs => by cases hs
  exact hempty

/-- Sections that have shared the data and ended might as well have come one after another. -/
theorem Code.Serially.settle {tail : List (Section ι L R)} {os : List (Ending R)}
    (he : ss.map Section.ending = os.map some) (hs : code.Serially x₀ (ss.map Section.closure) os x)
    (ht : ∀ s ∈ tail, s.Shares code place x) (hall : ∀ s ∈ tail, s.ending ≠ none) :
    ∃ os', (ss ++ tail).map Section.ending = os'.map some ∧
      code.Serially x₀ ((ss ++ tail).map Section.closure) os' x := by
  induction tail generalizing ss os with
  | nil => exact ⟨os, by simpa using he, by simpa using hs⟩
  | cons s tail ih =>
    obtain ⟨o, ho⟩ := Option.ne_none_iff_exists'.mp (hall s List.mem_cons_self)
    have halone : code.Alone s.closure x o x := by
      have hshares := ht s List.mem_cons_self
      simpa only [Section.Shares, ho] using hshares
    have hend : (ss ++ [s]).map Section.ending = (os ++ [o]).map some := by simp [he, ho]
    have hserial : code.Serially x₀ ((ss ++ [s]).map Section.closure) (os ++ [o]) x := by
      simpa using hs.snoc halone
    have hgo := ih hend hserial (fun s' hs' => ht s' (List.mem_cons_of_mem s hs'))
      fun s' hs' => hall s' (List.mem_cons_of_mem s hs')
    simpa using hgo

theorem Overlapped.settled (h : Overlapped code x₀ place ss w x) (hall : ∀ s ∈ ss, s.ending ≠ none) :
    ∃ os, ss.map Section.ending = os.map some ∧ code.Serially x₀ (ss.map Section.closure) os x := by
  cases h with
  | shared he hs ht => exact hs.settle he ht fun s hs => hall s (List.mem_append_right _ hs)
  | exclusive => exact absurd rfl (hall _ (List.mem_append_right _ List.mem_cons_self))

/-! ## The rules -/

/-- The places of the agents with an open section are all that matters. -/
theorem Section.Shares.congr {s : Section ι L R} (h : s.Shares code place x) {place' : ι → Option L}
    (hp : s.ending = none → place' s.agent = place s.agent) : s.Shares code place' x := by
  unfold Section.Shares at h ⊢
  split
  · simp_all
  · rename_i hn
    simp only [hn] at h
    rw [hp hn]
    exact h

theorem Overlapped.congr (h : Overlapped code x₀ place ss w x) {place' : ι → Option L}
    (hp : ∀ s ∈ ss, s.ending = none → place' s.agent = place s.agent) :
    Overlapped code x₀ place' ss w x := by
  cases h with
  | shared he hs ht =>
    exact .shared he hs fun s hs => (ht s hs).congr (hp s (List.mem_append_right _ hs))
  | exclusive he hs hl hc =>
    exact .exclusive he hs ((hp _ (List.mem_append_right _ List.mem_cons_self) rfl).trans hl) hc

/-- Another agent shares the data. -/
theorem Overlapped.share (h : Overlapped code x₀ place ss none x) {c : L} (hi : place i = some c) :
    Overlapped code x₀ place (ss ++ [⟨i, c, none⟩]) none x := by
  cases h with
  | shared he hs ht =>
    rw [List.append_assoc]
    refine .shared he hs fun s hmem => ?_
    rcases List.mem_append.mp hmem with hmem | hmem
    · exact ht s hmem
    · obtain rfl := List.mem_singleton.mp hmem
      exact ⟨c, hi, fun o y h => h⟩

/-- An agent gets the data for itself. -/
theorem Overlapped.exclude (h : Overlapped code x₀ place ss w x) (hall : ∀ s ∈ ss, s.ending ≠ none) {c : L}
    (hi : place i = some c) : Overlapped code x₀ place (ss ++ [⟨i, c, none⟩]) (some i) x := by
  obtain ⟨os, he, hs⟩ := h.settled hall
  exact .exclusive he hs hi fun o z h => h

/-- A closure goes on. It leaves the data as it is, if it shares them. -/
theorem Overlapped.step [DecidableEq ι] (h : Overlapped code x₀ place ss w x) (hi : place i = some l)
    {l' : L} {x' : T} (hn : code.next l x = some (l', x')) (hw : w = some i ∨ w = none ∧ x' = x) :
    Overlapped code x₀ (Function.update place i (some l')) ss w x' := by
  cases h with
  | shared he hs ht =>
    obtain ⟨-, rfl⟩ := hw.resolve_left (by simp)
    refine .shared he hs fun s hmem => ?_
    have hshares := ht s hmem
    unfold Section.Shares at hshares ⊢
    split
    · simp_all
    · rename_i hnone
      simp only [hnone] at hshares
      obtain ⟨m, hm, hgo⟩ := hshares
      by_cases hs : s.agent = i
      · obtain rfl : l = m := Option.some.inj (hi.symm.trans (hs ▸ hm))
        exact ⟨l', by simp [hs], fun o y ha => hgo o y (.step hn ha)⟩
      · exact ⟨m, by simpa [hs] using hm, hgo⟩
  | @exclusive ss os x y j c m he hs hl hc =>
    obtain rfl : j = i := by simpa using hw
    obtain rfl : l = m := Option.some.inj (hi.symm.trans hl)
    exact .exclusive he hs (Function.update_self _ _ _) fun o z ha => hc o z (.step hn ha)

theorem closeSection_append [DecidableEq ι] (o : Ending R) (ss tail : List (Section ι L R)) :
    closeSection i o (ss ++ tail) = closeSection i o ss ++ closeSection i o tail :=
  List.map_append

theorem open_of_closeSection [DecidableEq ι] {o : Ending R} {s : Section ι L R} (h : s ∈ closeSection i o ss)
    (hs : s.ending = none) : s ∈ ss ∧ s.agent ≠ i := by
  obtain ⟨s', hs', rfl⟩ := List.mem_map.mp h
  split at hs
  · cases hs
  · rename_i hopen
    rw [if_neg hopen]
    exact ⟨hs', fun hi => hopen ⟨hi, hs⟩⟩

theorem Section.Shares.close [DecidableEq ι] {tail : List (Section ι L R)}
    (ht : ∀ s ∈ tail, s.Shares code place x) (hi : place i = some l) {o : Ending R}
    (ho : code.ending l = some o) : ∀ s ∈ closeSection i o tail, s.Shares code place x := by
  intro s hmem
  obtain ⟨s', hmem', rfl⟩ := List.mem_map.mp hmem
  have hshares := ht s' hmem'
  split
  · rename_i hopen
    unfold Section.Shares at hshares
    simp only [hopen.2] at hshares
    obtain ⟨m, hm, hgo⟩ := hshares
    obtain rfl : l = m := Option.some.inj (hi.symm.trans (hopen.1 ▸ hm))
    exact hgo o x (.ends ho)
  · exact hshares

/-- A closure ends. -/
theorem Overlapped.finish [DecidableEq ι] (h : Overlapped code x₀ place ss w x) (hi : place i = some l)
    {o : Ending R} (ho : code.ending l = some o) (hw : w = some i ∨ w = none) :
    Overlapped code x₀ place (closeSection i o ss) none x := by
  cases h with
  | shared he hs ht =>
    rw [closeSection_append, closeSection_of_ended he]
    exact .shared he hs (Section.Shares.close ht hi ho)
  | @exclusive ss os x y j c m he hs hl hc =>
    obtain rfl : j = i := by simpa using hw
    obtain rfl : l = m := Option.some.inj (hi.symm.trans hl)
    rw [closeSection_append, closeSection_of_ended he]
    have hclose : closeSection j o [⟨j, c, none⟩] = [⟨j, c, some o⟩] := by simp [closeSection]
    have hend : (ss ++ [(⟨j, c, some o⟩ : Section _ L R)]).map Section.ending = (os ++ [o]).map some := by
      simp [he]
    rw [hclose, ← List.append_nil (ss ++ _)]
    refine .shared hend ?_ fun _ hs => by cases hs
    rw [List.map_append]
    exact hs.snoc (hc o x (.ends ho))

theorem Overlapped.serializable (h : Overlapped code x₀ place ss w x) (hall : ∀ s ∈ ss, s.ending ≠ none) :
    Serializable code x₀ ss x := by
  obtain ⟨os, he, hs⟩ := h.settled hall
  refine ⟨hall, ⟨os, he, hs⟩, fun os' y hy => ?_⟩
  obtain ⟨rfl, rfl⟩ := hs.unique hy
  exact ⟨he, rfl⟩

end Interleaving
