import WasmSafeMutex.Lib.SharedSections

/-!
# Pre- and postconditions of closures

What a closure does when it runs alone. Closures that keep an invariant of the data and end as
they promise do so among others too, as long as only one of them writes at a time.
-/

namespace Interleaving

variable {ι T L R : Type} {code : Code T L R}

/-! ## Triples -/

/-- The closure at `l`, run alone on data in `P`, ends in `Q`, if it ends. -/
def Code.Triple (code : Code T L R) (P : T → Prop) (l : L) (Q : Ending R → T → Prop) : Prop :=
  ∀ x o y, P x → code.Alone l x o y → Q o y

section

variable {P P' : T → Prop} {Q : Ending R → T → Prop} {l : L}

theorem Code.Triple.ret {r : R} (hc : code l = .ret r) (hQ : ∀ x, P x → Q (some r) x) : code.Triple P l Q := by
  intro x o y hx ha
  have he : code.ending l = some (some r) := by simp [ending, hc]
  obtain ⟨rfl, rfl⟩ := ha.unique (.ends he)
  exact hQ y hx

theorem Code.Triple.read {k : T → L} (hc : code l = .read k)
    (hk : ∀ x, P x → code.Triple (fun y => y = x) (k x) Q) : code.Triple P l Q := by
  intro x o y hx ha
  cases ha with
  | ends he => simp [ending, hc] at he
  | step hn ha =>
    simp only [next, hc, Option.some.injEq, Prod.mk.injEq] at hn
    obtain ⟨rfl, rfl⟩ := hn
    exact hk _ hx _ o y rfl ha

theorem Code.Triple.write {u : T → T} {l' : L} (hc : code l = .write u l') (h : code.Triple P' l' Q)
    (hu : ∀ x, P x → P' (u x)) : code.Triple P l Q := by
  intro x o y hx ha
  cases ha with
  | ends he => simp [ending, hc] at he
  | step hn ha =>
    simp only [next, hc, Option.some.injEq, Prod.mk.injEq] at hn
    obtain ⟨rfl, rfl⟩ := hn
    exact h _ o y (hu x hx) ha

end

/-! ## An invariant of the data -/

variable {I : T → Prop} {Q : L → Ending R → Prop}

/-- The closure keeps the invariant, whether it returns or panics, and ends as `Q` says. -/
def Code.Meets (code : Code T L R) (I : T → Prop) (Q : L → Ending R → Prop) (c : L) : Prop :=
  code.Triple I c fun o y => I y ∧ Q c o

def Section.Met (Q : L → Ending R → Prop) (s : Section ι L R) : Prop := ∀ o, s.ending = some o → Q s.closure o

variable {x₀ x y : T} {ss : List (Section ι L R)} {os : List (Ending R)} {place : ι → Option L}

theorem Code.Serially.meets (h : code.Serially x (ss.map Section.closure) os y)
    (he : ss.map Section.ending = os.map some) (hx : I x) (hss : ∀ s ∈ ss, code.Meets I Q s.closure) :
    I y ∧ ∀ s ∈ ss, s.Met Q := by
  induction ss generalizing x os with
  | nil =>
    cases h
    exact ⟨hx, fun s hs => by cases hs⟩
  | cons s ss ih =>
    cases h with
    | cons ha h =>
      simp only [List.map_cons, List.cons.injEq] at he
      obtain ⟨hz, hQ⟩ := hss s List.mem_cons_self x _ _ hx ha
      obtain ⟨hy, hmet⟩ := ih h he.2 hz fun s' hs' => hss s' (List.mem_cons_of_mem s hs')
      refine ⟨hy, fun s' hs' o ho => ?_⟩
      rcases List.mem_cons.mp hs' with rfl | hs'
      · obtain rfl := Option.some.inj (he.1.symm.trans ho)
        exact hQ
      · exact hmet s' hs' o ho

theorem Section.met_snoc {s : Section ι L R} (h : ∀ s ∈ ss, s.Met Q) (hs : s.ending = none) :
    ∀ s' ∈ ss ++ [s], s'.Met Q := by
  intro s' hs' o ho
  rcases List.mem_append.mp hs' with hs' | hs'
  · exact h s' hs' o ho
  · obtain rfl := List.mem_singleton.mp hs'
    cases hs.symm.trans ho

/-- Where one closure runs at a time. -/
theorem Serialized.meets {cur : Option (ι × L)} (h : Serialized code x₀ ss cur x) (h0 : I x₀)
    (hss : ∀ s ∈ ss, code.Meets I Q s.closure) : (cur = none → I x) ∧ ∀ s ∈ ss, s.Met Q := by
  cases h with
  | idle he hs =>
    obtain ⟨hx, hmet⟩ := hs.meets he h0 hss
    exact ⟨fun _ => hx, hmet⟩
  | inside he hs hc =>
    obtain ⟨-, hmet⟩ := hs.meets he h0 fun s hs => hss s (List.mem_append_left _ hs)
    exact ⟨fun h => (by cases h), Section.met_snoc hmet rfl⟩

/-- Where closures that only read run together. -/
theorem Overlapped.meets {w : Option ι} (h : Overlapped code x₀ place ss w x) (h0 : I x₀)
    (hss : ∀ s ∈ ss, code.Meets I Q s.closure) : (w = none → I x) ∧ ∀ s ∈ ss, s.Met Q := by
  cases h with
  | shared he hs ht =>
    obtain ⟨hx, hmet⟩ := hs.meets he h0 fun s hs => hss s (List.mem_append_left _ hs)
    refine ⟨fun _ => hx, fun s hmem o ho => ?_⟩
    rcases List.mem_append.mp hmem with hmem' | htail
    · exact hmet s hmem' o ho
    · have hshares := ht s htail
      simp only [Section.Shares, ho] at hshares
      exact (hss s hmem x o x hx hshares).2
  | exclusive he hs hl hc =>
    obtain ⟨-, hmet⟩ := hs.meets he h0 fun s hs => hss s (List.mem_append_left _ hs)
    exact ⟨fun h => (by cases h), Section.met_snoc hmet rfl⟩

/-- What holds of the closures of a list is not changed when one of them ends. -/
theorem closures_of_closeSection [DecidableEq ι] {i : ι} {o : Ending R} {p : L → Prop}
    (h : ∀ s ∈ ss, p s.closure) : ∀ s ∈ closeSection i o ss, p s.closure := by
  intro s hs
  obtain ⟨s', hs', rfl⟩ := List.mem_map.mp hs
  split
  · exact h s' hs'
  · exact h s' hs'

end Interleaving
