import Mathlib.Data.List.Basic
import Mathlib.Logic.Function.Basic
import Mathlib.Logic.Pairwise

/-! # Tickets

Holders draw numbers from a counter, in any order, and each as many as it likes. No number has two holders. -/

namespace Lib

/-- A counter, and the numbers that each holder drew from it, oldest first. -/
structure Tickets (ι : Type) where
  next : Nat
  held : ι → List Nat
  below : ∀ i, ∀ n ∈ held i, n < next
  apart : Pairwise fun i j => (held i).Disjoint (held j)

namespace Tickets
variable {ι : Type} (t : Tickets ι) {i j : ι}

def start (next : Nat) : Tickets ι where
  next := next
  held _ := []
  below _ _ hn := absurd hn List.not_mem_nil
  apart _ _ _ := List.disjoint_nil_left _

/-- Holders of the same numbers are one holder. -/
theorem eq_of_held_eq (h : t.held i = t.held j) (hne : t.held i ≠ []) : i = j := by
  by_contra hij
  rcases List.exists_mem_of_ne_nil _ hne with ⟨n, hn⟩
  exact t.apart hij hn (h ▸ hn)

variable [DecidableEq ι]

theorem mem_update_snoc {n : Nat} (hn : n ∈ Function.update t.held i (t.held i ++ [t.next]) j) :
    n ∈ t.held j ∨ (j = i ∧ n = t.next) := by
  rw [Function.update_apply] at hn
  split at hn
  · next heq =>
    rcases List.mem_append.mp hn with hn | hn
    · exact Or.inl (heq ▸ hn)
    · exact Or.inr ⟨heq, List.mem_singleton.mp hn⟩
  · exact Or.inl hn

def draw (i : ι) : Tickets ι where
  next := t.next + 1
  held := Function.update t.held i (t.held i ++ [t.next])
  below := by
    intro j n hn
    rcases t.mem_update_snoc hn with hn | ⟨-, rfl⟩
    · exact Nat.lt_succ_of_lt (t.below j n hn)
    · exact Nat.lt_succ_self _
  apart := by
    -- The new number is above all that were drawn.
    intro j k hjk n hj hk
    rcases t.mem_update_snoc hj with hj' | ⟨rfl, rfl⟩ <;> rcases t.mem_update_snoc hk with hk' | ⟨rfl, hn⟩
    · exact t.apart hjk hj' hk'
    · exact Nat.lt_irrefl _ (hn ▸ t.below j n hj')
    · exact Nat.lt_irrefl _ (t.below k _ hk')
    · exact hjk rfl

theorem held_draw_self : (t.draw i).held i = t.held i ++ [t.next] := Function.update_self ..

theorem held_draw_ne (h : j ≠ i) : (t.draw i).held j = t.held j := Function.update_of_ne h ..

end Tickets
end Lib
