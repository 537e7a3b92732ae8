import Mathlib.Data.List.Basic
import Mathlib.Logic.Function.Basic

/-! # Conveyors

Items wait in lines, one line a key, and one item at a time is taken off the front of a line and passed on. What has
been passed on of a key, what is on the way and what waits are together what entered under the key, in this order, less
what was lost. -/

namespace Lib

structure Conveyor (κ α : Type) where
  waiting : κ → List α
  hold : Option (κ × α)
  left : List (κ × α)

namespace Conveyor
variable {κ α : Type} [DecidableEq κ]

/-- The items of one key. -/
def of (k : κ) (items : List (κ × α)) : List α := (items.filter (·.1 = k)).map (·.2)

@[simp] theorem of_nil (k : κ) : of k ([] : List (κ × α)) = [] := rfl

theorem of_append (k : κ) (items items' : List (κ × α)) : of k (items ++ items') = of k items ++ of k items' := by
  rw [of, List.filter_append, List.map_append, of, of]

theorem of_cons_self (k : κ) (a : α) (items : List (κ × α)) : of k ((k, a) :: items) = a :: of k items := by
  simp [of]

theorem of_cons_ne {k k' : κ} (h : k' ≠ k) (a : α) (items : List (κ × α)) : of k ((k', a) :: items) = of k items := by
  simp [of, h]

theorem of_map_self (k : κ) (as : List α) : of k (as.map (k, ·)) = as := by
  induction as with
  | nil => rfl
  | cons a as ih => rw [List.map_cons, of_cons_self, ih]

theorem of_map_ne {k k' : κ} (h : k' ≠ k) (as : List α) : of k (as.map (k', ·)) = [] := by
  induction as with
  | nil => rfl
  | cons a as ih => rw [List.map_cons, of_cons_ne h, ih]

theorem of_filterMap {β : Type} (k : κ) (f : α → Option β) (items : List (κ × α)) :
    of k (items.filterMap fun x => (f x.2).map (x.1, ·)) = (of k items).filterMap f := by
  induction items with
  | nil => rfl
  | cons x items ih =>
    rcases x with ⟨k', a⟩
    by_cases hk : k' = k
    · subst hk
      rw [of_cons_self]
      cases hf : f a with
      | none => rw [List.filterMap_cons_none (by rw [hf, Option.map_none]), List.filterMap_cons_none hf, ih]
      | some b => rw [List.filterMap_cons_some (by rw [hf, Option.map_some]), List.filterMap_cons_some hf, of_cons_self, ih]
    · rw [of_cons_ne hk]
      cases hf : f a with
      | none => rw [List.filterMap_cons_none (by rw [hf, Option.map_none]), ih]
      | some b => rw [List.filterMap_cons_some (by rw [hf, Option.map_some]), of_cons_ne hk, ih]

theorem of_filter (k : κ) (p : α → Bool) (items : List (κ × α)) :
    of k (items.filter fun x => p x.2) = (of k items).filter p := by
  simp only [of, List.filter_map, List.filter_filter, Function.comp_def, Bool.and_comm]

theorem mem_of {k : κ} {a : α} {items : List (κ × α)} : a ∈ of k items ↔ (k, a) ∈ items := by
  simp [of]

theorem of_flatMap_of_notMem {k : κ} {ks : List κ} (hk : k ∉ ks) (lines : κ → List α) :
    of k (ks.flatMap fun k' => (lines k').map (k', ·)) = [] := by
  induction ks with
  | nil => rfl
  | cons k' ks ih =>
    rw [List.mem_cons, not_or] at hk
    rw [List.flatMap_cons, of_append, of_map_ne (Ne.symm hk.1), ih hk.2, List.nil_append]

theorem of_flatMap_self {k : κ} {ks : List κ} (hnodup : ks.Nodup) (hk : k ∈ ks) (lines : κ → List α) :
    of k (ks.flatMap fun k' => (lines k').map (k', ·)) = lines k := by
  induction ks with
  | nil => cases hk
  | cons k' ks ih =>
    rw [List.nodup_cons] at hnodup
    rw [List.flatMap_cons, of_append]
    rcases List.mem_cons.mp hk with rfl | hk
    · rw [of_map_self, of_flatMap_of_notMem hnodup.1, List.append_nil]
    · have hne : k' ≠ k := by
        rintro rfl
        exact hnodup.1 hk
      rw [of_map_ne hne, ih hnodup.2 hk, List.nil_append]

variable (c : Conveyor κ α) (k : κ)

/-- What has passed, what is on the way and what waits. -/
def line : List α := of k c.left ++ (of k c.hold.toList ++ c.waiting k)

/-- A step, with the items that enter in it, and the key of which it loses something. -/
inductive Step (c : Conveyor κ α) : List (κ × α) → Option κ → Conveyor κ α → Prop
  | stay : Step c [] none c
  | enter (k : κ) (as : List α) :
    Step c (as.map (k, ·)) none { c with waiting := Function.update c.waiting k (c.waiting k ++ as) }
  | take {k : κ} {a : α} {as : List α} (hwaiting : c.waiting k = a :: as) (hfree : c.hold = none) :
    Step c [] none { c with waiting := Function.update c.waiting k as, hold := some (k, a) }
  | hand {item : κ × α} (hhold : c.hold = some item) : Step c [] none { c with hold := none, left := c.left ++ [item] }
  | drop {item : κ × α} (hhold : c.hold = some item) : Step c [] (some item.1) { c with hold := none }
  | clear (k : κ) : Step c [] (some k) { c with waiting := Function.update c.waiting k [] }

variable {c} {c' : Conveyor κ α} {k} {ins : List (κ × α)} {lost : Option κ}

theorem line_enter (k : κ) (as : List α) (k' : κ) :
    line { c with waiting := Function.update c.waiting k (c.waiting k ++ as) } k' = c.line k' ++ of k' (as.map (k, ·)) := by
  unfold line
  by_cases hk : k' = k
  · subst hk
    simp only [Function.update_self, of_map_self, List.append_assoc]
  · simp only [Function.update_of_ne hk, of_map_ne (Ne.symm hk), List.append_nil]

theorem line_take {a : α} {as : List α} (hwaiting : c.waiting k = a :: as) (hfree : c.hold = none) (k' : κ) :
    line { c with waiting := Function.update c.waiting k as, hold := some (k, a) } k' = c.line k' := by
  unfold line
  by_cases hk : k' = k
  · subst hk
    simp [hfree, hwaiting, of_cons_self]
  · simp [hfree, Function.update_of_ne hk, of_cons_ne (Ne.symm hk)]

theorem line_hand {item : κ × α} (hhold : c.hold = some item) (k' : κ) :
    line { c with hold := none, left := c.left ++ [item] } k' = c.line k' := by
  unfold line
  rw [of_append, hhold, List.append_assoc]
  rfl

/-- Nothing else comes into a line than what enters, and what is there keeps its order. -/
theorem Step.sublist (h : c.Step ins lost c') (k : κ) : (c'.line k).Sublist (c.line k ++ of k ins) := by
  cases h with
  | stay =>
    rw [of_nil, List.append_nil]
  | enter k₁ as => rw [line_enter]
  | take hwaiting hfree =>
    rw [line_take hwaiting hfree, of_nil, List.append_nil]
  | hand hhold =>
    rw [line_hand hhold, of_nil, List.append_nil]
  | drop hhold =>
    rw [of_nil, List.append_nil, line, line]
    exact (List.Sublist.refl _).append ((List.nil_sublist _).append (List.Sublist.refl _))
  | clear k₁ =>
    rw [of_nil, List.append_nil, line, line]
    refine (List.Sublist.refl _).append ((List.Sublist.refl _).append ?_)
    dsimp only
    by_cases hk : k = k₁
    · subst hk
      rw [Function.update_self]
      exact List.nil_sublist _
    · rw [Function.update_of_ne hk]

/-- A line of which nothing is lost. -/
theorem Step.line_eq (h : c.Step ins lost c') (hlost : lost ≠ some k) : c'.line k = c.line k ++ of k ins := by
  cases h with
  | stay => rw [of_nil, List.append_nil]
  | enter k₁ as => rw [line_enter]
  | take hwaiting hfree => rw [line_take hwaiting hfree, of_nil, List.append_nil]
  | hand hhold => rw [line_hand hhold, of_nil, List.append_nil]
  | @drop item hhold =>
    have hne : item.1 ≠ k := fun hk => hlost (congrArg some hk)
    have hnone : of k c.hold.toList = [] := by
      rw [hhold, Option.toList_some, of_cons_ne hne, of_nil]
    rw [of_nil, List.append_nil, line, line, hnone]
    rfl
  | clear k₁ =>
    have hne : k ≠ k₁ := fun hk => hlost (congrArg some hk.symm)
    rw [of_nil, List.append_nil, line, line]
    dsimp only
    rw [Function.update_of_ne hne]

end Conveyor
end Lib
