import Mathlib.Data.List.Basic

/-! # Word patterns with wildcards

A pattern consumes a list of words: a wildcard for exactly one word, a wildcard for any number of words, and
literal words. The table algorithm extends pattern and words at their ends, so that the rules at the end are
derived from the rules at the front. -/

namespace Lib

inductive Pat (α : Type) where
  | one
  | many
  | word (a : α)
deriving DecidableEq, Repr

/-- The words match the pattern. -/
inductive Matches {α : Type} : List (Pat α) → List α → Prop
  | nil : Matches [] []
  | one {ps ws} (a : α) : Matches ps ws → Matches (.one :: ps) (a :: ws)
  | manyNone {ps ws} : Matches ps ws → Matches (.many :: ps) ws
  | manyMore {ps ws} (a : α) : Matches (.many :: ps) ws → Matches (.many :: ps) (a :: ws)
  | word {ps ws} (a : α) : Matches ps ws → Matches (.word a :: ps) (a :: ws)

namespace Matches
variable {α : Type} {ps qs : List (Pat α)} {us ws : List α} {a w : α}

theorem nil_iff : Matches ([] : List (Pat α)) ws ↔ ws = [] :=
  ⟨fun h => by cases h; rfl, fun h => h ▸ .nil⟩

theorem many_append (h : Matches ps ws) : ∀ us : List α, Matches (.many :: ps) (us ++ ws)
  | [] => .manyNone h
  | a :: us => .manyMore a (many_append h us)

theorem append (h : Matches ps us) (h' : Matches qs ws) : Matches (ps ++ qs) (us ++ ws) := by
  induction h with
  | nil => exact h'
  | one a _ ih => exact .one a ih
  | manyNone _ ih => exact .manyNone ih
  | manyMore a _ ih => exact .manyMore a ih
  | word a _ ih => exact .word a ih

/-- A match of a joined pattern splits the words. -/
theorem append_iff : ∀ {ps : List (Pat α)} {ws : List α},
    Matches (ps ++ qs) ws ↔ ∃ us vs, ws = us ++ vs ∧ Matches ps us ∧ Matches qs vs := by
  intro ps ws
  refine ⟨fun h => ?_, fun ⟨us, vs, hws, h, h'⟩ => hws ▸ h.append h'⟩
  generalize hpat : ps ++ qs = pat at h
  induction h generalizing ps with
  | nil =>
    obtain ⟨rfl, rfl⟩ := List.append_eq_nil_iff.mp hpat
    exact ⟨[], [], rfl, .nil, .nil⟩
  | one a h ih =>
    cases ps with
    | nil =>
      obtain rfl : qs = _ := hpat
      exact ⟨[], _, rfl, .nil, .one a h⟩
    | cons p ps =>
      obtain ⟨rfl, rfl⟩ := List.cons_eq_cons.mp hpat
      obtain ⟨us, vs, rfl, h₁, h₂⟩ := ih rfl
      exact ⟨a :: us, vs, rfl, .one a h₁, h₂⟩
  | manyNone h ih =>
    cases ps with
    | nil =>
      obtain rfl : qs = _ := hpat
      exact ⟨[], _, rfl, .nil, .manyNone h⟩
    | cons p ps =>
      obtain ⟨rfl, rfl⟩ := List.cons_eq_cons.mp hpat
      obtain ⟨us, vs, rfl, h₁, h₂⟩ := ih rfl
      exact ⟨us, vs, rfl, .manyNone h₁, h₂⟩
  | manyMore a h ih =>
    cases ps with
    | nil =>
      obtain rfl : qs = _ := hpat
      exact ⟨[], _, rfl, .nil, .manyMore a h⟩
    | cons p ps =>
      obtain ⟨us, vs, rfl, h₁, h₂⟩ := ih hpat
      obtain ⟨rfl, rfl⟩ := List.cons_eq_cons.mp hpat
      exact ⟨a :: us, vs, rfl, .manyMore a h₁, h₂⟩
  | word a h ih =>
    cases ps with
    | nil =>
      obtain rfl : qs = _ := hpat
      exact ⟨[], _, rfl, .nil, .word a h⟩
    | cons p ps =>
      obtain ⟨rfl, rfl⟩ := List.cons_eq_cons.mp hpat
      obtain ⟨us, vs, rfl, h₁, h₂⟩ := ih rfl
      exact ⟨a :: us, vs, rfl, .word a h₁, h₂⟩

theorem one_iff : Matches [.one] ws ↔ ∃ a, ws = [a] := by
  constructor
  · intro h
    cases h with
    | one a h => exact ⟨a, by rw [nil_iff.mp h]⟩
  · rintro ⟨a, rfl⟩
    exact .one a .nil

theorem many_all (ws : List α) : Matches [.many] ws := by
  have := many_append (.nil : Matches ([] : List (Pat α)) []) ws
  rwa [List.append_nil] at this

theorem word_iff : Matches [.word a] ws ↔ ws = [a] := by
  constructor
  · intro h
    cases h with
    | word a h => rw [nil_iff.mp h]
  · rintro rfl
    exact .word a .nil

/-! ### The last element of a pattern -/

theorem concat_one : Matches (ps ++ [.one]) (ws ++ [w]) ↔ Matches ps ws := by
  rw [append_iff]
  constructor
  · rintro ⟨us, vs, heq, h, hv⟩
    obtain ⟨a, rfl⟩ := one_iff.mp hv
    rwa [(List.append_inj' heq rfl).1]
  · exact fun h => ⟨ws, [w], rfl, h, one_iff.mpr ⟨w, rfl⟩⟩

theorem concat_word : Matches (ps ++ [.word a]) (ws ++ [w]) ↔ a = w ∧ Matches ps ws := by
  rw [append_iff]
  constructor
  · rintro ⟨us, vs, heq, h, hv⟩
    obtain rfl := word_iff.mp hv
    obtain ⟨rfl, hw⟩ := List.append_inj' heq rfl
    exact ⟨(List.cons.inj hw).1.symm, h⟩
  · rintro ⟨rfl, h⟩
    exact ⟨ws, [a], rfl, h, word_iff.mpr rfl⟩

/-- The last wildcard takes any end of the words. -/
theorem concat_many_iff : Matches (ps ++ [.many]) ws ↔ ∃ us, us <+: ws ∧ Matches ps us := by
  rw [append_iff]
  constructor
  · rintro ⟨us, vs, rfl, h, -⟩
    exact ⟨us, List.prefix_append us vs, h⟩
  · rintro ⟨us, ⟨vs, rfl⟩, h⟩
    exact ⟨us, vs, rfl, h, many_all vs⟩

theorem concat_many : Matches (ps ++ [.many]) (ws ++ [w]) ↔ Matches (ps ++ [.many]) ws ∨ Matches ps (ws ++ [w]) := by
  rw [concat_many_iff, concat_many_iff]
  constructor
  · rintro ⟨us, hus, h⟩
    rcases List.prefix_concat_iff.mp hus with rfl | hus
    · exact Or.inr h
    · exact Or.inl ⟨us, hus, h⟩
  · rintro (⟨us, hus, h⟩ | h)
    · exact ⟨us, hus.trans (List.prefix_append ws [w]), h⟩
    · exact ⟨ws ++ [w], List.prefix_refl _, h⟩

/-- Only wildcards for any number of words match no words. -/
theorem nil_right_iff : Matches ps [] ↔ ∀ p ∈ ps, p = .many := by
  induction ps with
  | nil => exact ⟨fun _ => nofun, fun _ => .nil⟩
  | cons p ps ih =>
    rw [List.forall_mem_cons, ← ih]
    constructor
    · intro h
      cases h with
      | manyNone h => exact ⟨rfl, h⟩
    · rintro ⟨rfl, h⟩
      exact .manyNone h

end Matches
end Lib
