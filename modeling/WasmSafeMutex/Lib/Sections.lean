import Mathlib.Data.List.Basic

/-!
# Critical sections

A closure reads and writes shared data in separate steps. `Alone` runs it with nobody else
around, and `Serially` runs one closure after another. `Serialized` is what holds while many
agents run closures one step at a time, if only one of them is in its closure.
-/

namespace Interleaving

variable {ι T L R : Type}

/-! ## Closures -/

/-- What a closure does next. A write changes the data or a part of it. -/
inductive Op (T L R : Type)
  | ret (r : R)
  | panic
  | read (k : T → L)
  | write (u : T → T) (l : L)

/-- The locals of a closure, its place in the code among them, say what comes next. -/
abbrev Code (T L R : Type) := L → Op T L R

/-- `none` for a panic. -/
abbrev Ending (R : Type) := Option R

variable {code : Code T L R}

/-- One read or write. -/
def Code.next (code : Code T L R) (l : L) (x : T) : Option (L × T) :=
  match code l with
  | .read k => some (k x, x)
  | .write u l' => some (l', u x)
  | _ => none

def Code.ending (code : Code T L R) (l : L) : Option (Ending R) :=
  match code l with
  | .ret r => some (some r)
  | .panic => some none
  | _ => none

/-- The closure at `l` takes the data from `x` to `y` and ends. -/
inductive Code.Alone (code : Code T L R) : L → T → Ending R → T → Prop
  | ends {l : L} {x : T} {o : Ending R} : code.ending l = some o → Alone code l x o x
  | step {l l' : L} {x x' y : T} {o : Ending R} :
    code.next l x = some (l', x') → Alone code l' x' o y → Alone code l x o y

theorem Code.next_of_ending {l : L} {o : Ending R} (h : code.ending l = some o) (x : T) :
    code.next l x = none := by
  unfold Code.ending at h
  unfold Code.next
  split at h <;> simp_all

/-- There is one way to run a closure alone. -/
theorem Code.Alone.unique {l : L} {x y y' : T} {o o' : Ending R} (h : code.Alone l x o y)
    (h' : code.Alone l x o' y') : o = o' ∧ y = y' := by
  induction h with
  | ends he =>
    cases h' with
    | ends he' => exact ⟨Option.some.inj (he.symm.trans he'), rfl⟩
    | step hn => simp [Code.next_of_ending he] at hn
  | step hn _ ih =>
    cases h' with
    | ends he => simp [Code.next_of_ending he] at hn
    | step hn' h' =>
      have heq := Option.some.inj (hn.symm.trans hn')
      simp only [Prod.mk.injEq] at heq
      obtain ⟨rfl, rfl⟩ := heq
      exact ih h'

/-- These closures one after another, without interleaving. -/
inductive Code.Serially (code : Code T L R) : T → List L → List (Ending R) → T → Prop
  | nil {x : T} : Serially code x [] [] x
  | cons {x y z : T} {c : L} {cs : List L} {o : Ending R} {os : List (Ending R)} :
    code.Alone c x o y → Serially code y cs os z → Serially code x (c :: cs) (o :: os) z

theorem Code.Serially.unique {x y y' : T} {cs : List L} {os os' : List (Ending R)}
    (h : code.Serially x cs os y) (h' : code.Serially x cs os' y') : os = os' ∧ y = y' := by
  induction h generalizing os' with
  | nil => cases h'; exact ⟨rfl, rfl⟩
  | cons ha _ ih =>
    cases h' with
    | cons ha' h' =>
      obtain ⟨ho, rfl⟩ := ha.unique ha'
      obtain ⟨hos, hy⟩ := ih h'
      exact ⟨by rw [ho, hos], hy⟩

theorem Code.Serially.snoc {x y z : T} {cs : List L} {os : List (Ending R)} {c : L} {o : Ending R}
    (h : code.Serially x cs os y) (ha : code.Alone c y o z) :
    code.Serially x (cs ++ [c]) (os ++ [o]) z := by
  induction h with
  | nil => exact .cons ha .nil
  | cons hb _ ih => exact .cons hb (ih ha)

/-! ## Interleaved sections -/

/-- One critical section, in the order of the acquisitions. -/
structure Section (ι L R : Type) where
  agent : ι
  closure : L
  /-- How the closure has ended, if it has. -/
  ending : Option (Ending R)

/-- The closure of this agent has ended. -/
def closeSection [DecidableEq ι] (i : ι) (o : Ending R) (ss : List (Section ι L R)) :
    List (Section ι L R) :=
  ss.map fun s => if s.agent = i ∧ s.ending = none then { s with ending := some o } else s

/-- The sections that have ended were run one at a time from `x₀`, and the data is what they
left. An agent in its closure has taken it from there as far as it would get alone. -/
inductive Serialized (code : Code T L R) (x₀ : T) : List (Section ι L R) → Option (ι × L) → T → Prop
  | idle {ss : List (Section ι L R)} {os : List (Ending R)} {x : T} :
    ss.map Section.ending = os.map some → code.Serially x₀ (ss.map Section.closure) os x →
    Serialized code x₀ ss none x
  | inside {ss : List (Section ι L R)} {os : List (Ending R)} {x y : T} {i : ι} {c l : L} :
    ss.map Section.ending = os.map some → code.Serially x₀ (ss.map Section.closure) os y →
    (∀ o z, code.Alone l x o z → code.Alone c y o z) →
    Serialized code x₀ (ss ++ [⟨i, c, none⟩]) (some (i, l)) x

variable {x₀ x : T} {ss : List (Section ι L R)} {i : ι} {l : L}

theorem Serialized.start : Serialized code x₀ ([] : List (Section ι L R)) none x₀ :=
  .idle (List.map_nil (f := some)).symm .nil

theorem Serialized.acquire (h : Serialized code x₀ ss none x) (i : ι) (c : L) :
    Serialized code x₀ (ss ++ [⟨i, c, none⟩]) (some (i, c)) x := by
  cases h with
  | idle he hs => exact .inside he hs fun o z ha => ha

theorem Serialized.step (h : Serialized code x₀ ss (some (i, l)) x) {l' : L} {x' : T}
    (hn : code.next l x = some (l', x')) : Serialized code x₀ ss (some (i, l')) x' := by
  cases h with
  | inside he hs hc => exact .inside he hs fun o z ha => hc o z (.step hn ha)

theorem closeSection_of_ended [DecidableEq ι] {o : Ending R} {os : List (Ending R)}
    (h : ss.map Section.ending = os.map some) : closeSection i o ss = ss := by
  unfold closeSection
  refine (List.map_congr_left fun s hs => ?_).trans (List.map_id ss)
  have hmem : s.ending ∈ os.map some := h ▸ List.mem_map_of_mem hs
  obtain ⟨o', -, ho'⟩ := List.mem_map.mp hmem
  simp [← ho']

theorem Serialized.finish [DecidableEq ι] (h : Serialized code x₀ ss (some (i, l)) x) {o : Ending R}
    (ho : code.ending l = some o) : Serialized code x₀ (closeSection i o ss) none x := by
  cases h with
  | @inside ss os x y i c l he hs hc =>
    have hclose : closeSection i o (ss ++ [⟨i, c, none⟩]) = ss ++ [⟨i, c, some o⟩] := by
      have hss := closeSection_of_ended (i := i) (o := o) he
      unfold closeSection at hss ⊢
      rw [List.map_append, hss]
      simp
    rw [hclose]
    have hend : (ss ++ [(⟨i, c, some o⟩ : Section _ L R)]).map Section.ending = (os ++ [o]).map some := by
      simp [he]
    apply Serialized.idle hend
    rw [List.map_append]
    exact hs.snoc (hc o x (.ends ho))

/-- All the closures that were begun have ended. The data and the values that they returned
are those of the only way to run them one at a time in the order of the acquisitions. -/
structure Serializable (code : Code T L R) (x₀ : T) (ss : List (Section ι L R)) (x : T) : Prop where
  ended : ∀ s ∈ ss, s.ending ≠ none
  serial : ∃ os, ss.map Section.ending = os.map some ∧
    code.Serially x₀ (ss.map Section.closure) os x
  only : ∀ os y, code.Serially x₀ (ss.map Section.closure) os y →
    ss.map Section.ending = os.map some ∧ y = x

theorem Serialized.serializable (h : Serialized code x₀ ss none x) : Serializable code x₀ ss x := by
  cases h with
  | idle he hs =>
    refine ⟨fun s hmem hnone => ?_, ⟨_, he, hs⟩, fun os y hy => ?_⟩
    · have hin := he ▸ List.mem_map_of_mem (f := Section.ending) hmem
      rw [hnone] at hin
      simp at hin
    · obtain ⟨rfl, rfl⟩ := hs.unique hy
      exact ⟨he, rfl⟩

end Interleaving
