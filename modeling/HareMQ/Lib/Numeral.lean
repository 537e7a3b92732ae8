import Mathlib.Algebra.Group.Nat.Defs
import Mathlib.Data.List.Basic

/-! # Numerals of a fixed width

The digits of a number, in a base up to 16, with zeros in front up to a width. -/

namespace Lib
open Nat

def numeral (b w n : Nat) : List Char := (toDigits b n).leftpad w '0'

variable {b w m n : Nat}

theorem digitChar_inj (hm : m < 16) (hn : n < 16) (h : digitChar m = digitChar n) : m = n := by
  have hall : ∀ m n : Fin 16, digitChar m = digitChar n → m = n := by decide
  exact congrArg Fin.val (hall ⟨m, hm⟩ ⟨n, hn⟩ h)

theorem length_numeral (hb : 1 < b) (hw : 0 < w) (hn : n < b ^ w) : (numeral b w n).length = w := by
  rw [numeral, List.length_leftpad]
  exact Nat.max_eq_left ((length_toDigits_le_iff hb hw).mpr hn)

theorem numeral_of_lt (hn : n < b) : numeral b 1 n = [digitChar n] := by
  rw [numeral, toDigits_of_lt_base hn]
  rfl

/-- The last digit comes off the end. -/
theorem numeral_succ (hb : 1 < b) (hw : 0 < w) :
    numeral b (w + 1) n = numeral b w (n / b) ++ [digitChar (n % b)] := by
  obtain ⟨w, rfl⟩ := Nat.exists_eq_add_of_lt hw
  rw [numeral, numeral, toDigits_eq_if hb]
  split
  · next hn =>
    rw [Nat.div_eq_of_lt hn, Nat.mod_eq_of_lt hn, toDigits_zero]
    simp [List.leftpad, List.replicate_succ']
  · rw [List.leftpad, List.leftpad, List.length_append, List.length_singleton, Nat.add_sub_add_right,
      List.append_assoc]

theorem numeral_inj (hb : 1 < b) (hb' : b ≤ 16) (hw : 0 < w) (hm : m < b ^ w) (hn : n < b ^ w)
    (h : numeral b w m = numeral b w n) : m = n := by
  induction w generalizing m n with
  | zero => exact absurd hw (Nat.lt_irrefl 0)
  | succ w ih =>
    rcases Nat.eq_zero_or_pos w with rfl | hpos
    · rw [Nat.zero_add, Nat.pow_one] at hm hn
      rw [Nat.zero_add, numeral_of_lt hm, numeral_of_lt hn, List.singleton_inj] at h
      exact digitChar_inj (Nat.lt_of_lt_of_le hm hb') (Nat.lt_of_lt_of_le hn hb') h
    · rw [numeral_succ hb hpos, numeral_succ hb hpos] at h
      rcases List.append_inj' h rfl with ⟨hfront, hlast⟩
      have hquot : m / b = n / b := by
        rw [Nat.pow_succ'] at hm hn
        exact ih hpos (Nat.div_lt_of_lt_mul hm) (Nat.div_lt_of_lt_mul hn) hfront
      have hlt : ∀ k, k % b < 16 := by
        intro k
        exact Nat.lt_of_lt_of_le (Nat.mod_lt k (Nat.zero_lt_of_lt hb)) hb'
      have hrem := digitChar_inj (hlt m) (hlt n) (List.singleton_inj.mp hlast)
      rw [← Nat.div_add_mod m b, ← Nat.div_add_mod n b, hquot, hrem]

end Lib
