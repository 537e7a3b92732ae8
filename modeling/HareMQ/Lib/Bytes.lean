import Mathlib.Data.List.Basic
import Mathlib.Tactic.Ring

/-! # Byte strings

Little-endian 64-bit numbers, slices of a byte string, and writing in place. -/

namespace Lib

abbrev Bytes := List UInt8

/-- The part of `data` of length `len` that starts at `offset`. -/
def slice (data : Bytes) (offset len : Nat) : Bytes := (data.drop offset).take len

/-- `data` after `bs` is written at `offset`. Writing past the end fills the hole with zeros. -/
def overwrite (data : Bytes) (offset : Nat) (bs : Bytes) : Bytes :=
  if bs.isEmpty then data
  else data.take offset ++ List.replicate (offset - data.length) 0 ++ bs ++ data.drop (offset + bs.length)

/-- A 64-bit number as eight bytes, the lowest first. -/
def le64 (n : Nat) : Bytes :=
  [UInt8.ofNat n, UInt8.ofNat (n / 2 ^ 8), UInt8.ofNat (n / 2 ^ 16), UInt8.ofNat (n / 2 ^ 24),
    UInt8.ofNat (n / 2 ^ 32), UInt8.ofNat (n / 2 ^ 40), UInt8.ofNat (n / 2 ^ 48), UInt8.ofNat (n / 2 ^ 56)]

/-- The number that a little-endian byte string stands for. -/
def fromLe : Bytes → Nat
  | [] => 0
  | b :: bs => b.toNat + 256 * fromLe bs

/-! ### Little-endian numbers -/

@[simp] theorem length_le64 (n : Nat) : (le64 n).length = 8 := rfl

theorem le64_ne_nil (n : Nat) : le64 n ≠ [] := by simp [le64]

theorem fromLe_le64 {n : Nat} (h : n < 2 ^ 64) : fromLe (le64 n) = n := by
  simp only [le64, fromLe, UInt8.toNat_ofNat']
  omega

/-! ### Slices -/

/-- The slice at a known position of a byte string in three parts. -/
theorem slice_append_mid {a b c : Bytes} {offset len : Nat} (ho : offset = a.length) (hl : len = b.length) :
    slice (a ++ (b ++ c)) offset len = b := by
  subst ho hl
  simp [slice]

/-! ### Writing in place -/

@[simp] theorem overwrite_nil (data : Bytes) (offset : Nat) : overwrite data offset [] = data := rfl

/-- Writing at the end appends. -/
@[simp] theorem overwrite_end (data bs : Bytes) : overwrite data data.length bs = data ++ bs := by
  unfold overwrite
  cases bs with
  | nil => simp
  | cons b bs => simp

/-- Writing as many bytes as the middle part has replaces that part and nothing else. -/
theorem overwrite_mid {a b b' c : Bytes} {offset : Nat} (ho : offset = a.length) (hl : b'.length = b.length) :
    overwrite (a ++ (b ++ c)) offset b' = a ++ (b' ++ c) := by
  subst ho
  unfold overwrite
  cases b' with
  | nil =>
    have : b = [] := List.length_eq_zero_iff.mp hl.symm
    simp [this]
  | cons x xs =>
    have hd : List.drop (a.length + (x :: xs).length) (a ++ (b ++ c)) = c := by
      rw [hl, ← List.append_assoc, List.drop_left' (by simp)]
    rw [hd]
    simp

end Lib
