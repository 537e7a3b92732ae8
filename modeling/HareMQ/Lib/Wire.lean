import HareMQ.Lib.Bytes

/-! # The protobuf wire format

Base-128 numbers, fields and the loop that reads a message field by field. A message keeps what it has
read when a later field is malformed. Numbers are not bounded to 64 bits, and groups are not read. -/

namespace Lib.Wire

/-! ### Numbers -/

/-- A number in groups of seven bits, the lowest first, with the high bit set on all bytes but the last. -/
def varintFrom : Nat → Nat → Bytes
  | 0, n => [UInt8.ofNat n]
  | fuel + 1, n => if n < 128 then [UInt8.ofNat n] else UInt8.ofNat (n % 128 + 128) :: varintFrom fuel (n / 128)

def varint (n : Nat) : Bytes := varintFrom n n

/-- The number at the start of the input, and the rest of the input. -/
def readVarint : Bytes → Option (Nat × Bytes)
  | [] => none
  | b :: bs =>
    if b.toNat < 128 then some (b.toNat, bs)
    else (readVarint bs).map fun (n, rest) => (b.toNat - 128 + 128 * n, rest)

theorem readVarint_varintFrom (rest : Bytes) : ∀ fuel n : Nat, n ≤ fuel →
    readVarint (varintFrom fuel n ++ rest) = some (n, rest)
  | 0, n, h => by
    obtain rfl : n = 0 := by omega
    simp [varintFrom, readVarint]
  | fuel + 1, n, h => by
    by_cases hn : n < 128
    · have hb : (UInt8.ofNat n).toNat = n := by
        rw [UInt8.toNat_ofNat']
        omega
      simp only [varintFrom, if_pos hn, List.singleton_append, readVarint, hb]
    · have hb : (UInt8.ofNat (n % 128 + 128)).toNat = n % 128 + 128 := by
        rw [UInt8.toNat_ofNat']
        omega
      have ih := readVarint_varintFrom rest fuel (n / 128) (by omega)
      have hhigh : ¬ n % 128 + 128 < 128 := by omega
      simp only [varintFrom, if_neg hn, List.cons_append, readVarint, hb, if_neg hhigh, ih, Option.map_some,
        Option.some.injEq, Prod.mk.injEq, and_true]
      omega

theorem readVarint_varint (n : Nat) (rest : Bytes) : readVarint (varint n ++ rest) = some (n, rest) :=
  readVarint_varintFrom rest n n (Nat.le_refl n)

/-! ### Fields -/

inductive Value
  | number (n : Nat)
  | fixed64 (bytes : Bytes)
  | bytes (bytes : Bytes)
  | fixed32 (bytes : Bytes)
deriving DecidableEq, Repr

/-- A number field. -/
def numberField (field n : Nat) : Bytes := varint (field * 8) ++ varint n

/-- A length-delimited field. -/
def bytesField (field : Nat) (bs : Bytes) : Bytes := varint (field * 8 + 2) ++ (varint bs.length ++ bs)

/-- The first `n` bytes of the input and the rest, if there are so many. -/
def readBytes (n : Nat) (input : Bytes) : Option (Bytes × Bytes) :=
  if n ≤ input.length then some (input.take n, input.drop n) else none

/-- One field: its number, its value and the rest of the input. -/
def readField (input : Bytes) : Option (Nat × Value × Bytes) :=
  match readVarint input with
  | none => none
  | some (key, rest) =>
    if key / 8 = 0 then none
    else
      match key % 8 with
      | 0 => (readVarint rest).map fun (n, rest) => (key / 8, .number n, rest)
      | 1 => (readBytes 8 rest).map fun (bs, rest) => (key / 8, .fixed64 bs, rest)
      | 2 =>
        match readVarint rest with
        | none => none
        | some (n, rest) => (readBytes n rest).map fun (bs, rest) => (key / 8, .bytes bs, rest)
      | 5 => (readBytes 4 rest).map fun (bs, rest) => (key / 8, .fixed32 bs, rest)
      | _ => none

theorem readField_numberField {field : Nat} (hf : 0 < field) (n : Nat) (rest : Bytes) :
    readField (numberField field n ++ rest) = some (field, .number n, rest) := by
  have h1 : field * 8 / 8 = field := by omega
  have h2 : field * 8 % 8 = 0 := by omega
  simp [readField, numberField, List.append_assoc, readVarint_varint, h1, h2, Nat.pos_iff_ne_zero.mp hf]

theorem readField_bytesField {field : Nat} (hf : 0 < field) (bs rest : Bytes) :
    readField (bytesField field bs ++ rest) = some (field, .bytes bs, rest) := by
  have h1 : (field * 8 + 2) / 8 = field := by omega
  have h2 : (field * 8 + 2) % 8 = 2 := by omega
  simp [readField, bytesField, List.append_assoc, readVarint_varint, h1, h2, Nat.pos_iff_ne_zero.mp hf, readBytes]

/-! ### Messages -/

section Messages
variable {σ : Type} (step : σ → Nat → Value → Bool × σ)

/-- Reads fields until the input ends. The result is false when a field is malformed or refused. -/
def readMessage : Nat → σ → Bytes → Bool × σ
  | _, s, [] => (true, s)
  | 0, s, _ :: _ => (false, s)
  | fuel + 1, s, b :: bs =>
    match readField (b :: bs) with
    | none => (false, s)
    | some (field, value, rest) =>
      match step s field value with
      | (false, s) => (false, s)
      | (true, s) => readMessage fuel s rest

/-- A field that is read and accepted is one step of the loop. -/
theorem readMessage_field {encoded rest : Bytes} {s s' : σ} {field : Nat} {value : Value} {fuel : Nat}
    (hread : readField (encoded ++ rest) = some (field, value, rest)) (hstep : step s field value = (true, s'))
    (hne : encoded ≠ []) (hfuel : (encoded ++ rest).length ≤ fuel) :
    ∃ fuel', rest.length ≤ fuel' ∧ readMessage step fuel s (encoded ++ rest) = readMessage step fuel' s' rest := by
  cases encoded with
  | nil => exact absurd rfl hne
  | cons b bs =>
    rw [List.cons_append] at hread hfuel ⊢
    obtain ⟨fuel, rfl⟩ : ∃ k, fuel = k + 1 := ⟨fuel - 1, by rw [List.length_cons] at hfuel; omega⟩
    refine ⟨fuel, ?_, by simp only [readMessage, hread, hstep]⟩
    simp only [List.length_cons, List.length_append] at hfuel
    omega

theorem readMessage_nil (fuel : Nat) (s : σ) : readMessage step fuel s [] = (true, s) := by
  cases fuel <;> rfl

end Messages

theorem varint_ne_nil (n : Nat) : varint n ≠ [] := by
  cases n with
  | zero => simp [varint, varintFrom]
  | succ n =>
    unfold varint varintFrom
    split <;> simp

theorem numberField_ne_nil (field n : Nat) : numberField field n ≠ [] := by
  simp [numberField, varint_ne_nil]

theorem bytesField_ne_nil (field : Nat) (bs : Bytes) : bytesField field bs ≠ [] := by
  simp [bytesField, varint_ne_nil]

theorem length_bytesField_congr {field : Nat} {as bs : Bytes} (h : as.length = bs.length) :
    (bytesField field as).length = (bytesField field bs).length := by
  simp [bytesField, h]

end Lib.Wire
