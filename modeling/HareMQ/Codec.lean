import HareMQ.Lib.Wire
import HareMQ.Msg

/-! # Serialised payloads (`mqcommon/msg.pb.cc`)

The wire form of `BasicProperties` and of `Message.Payload`: a field with its default value is not
written, and fields of other numbers are passed over. -/

namespace HareMQ
open Lib Wire

/-! ### Strings and enums -/

/-- The bytes of a string field, which is UTF-8. -/
def utf8 (s : String) : Bytes := s.toByteArray.data.toList

/-- `VerifyUTF8`. -/
def fromUtf8 (bs : Bytes) : Option String := String.fromUTF8? ⟨bs.toArray⟩

theorem fromUtf8_utf8 (s : String) : fromUtf8 (utf8 s) = some s := by
  simp [fromUtf8, utf8, String.fromUTF8?, String.fromUTF8, s.isValidUTF8]

namespace DeliveryMode

/-- The enum as the 64-bit number of the wire: a negative one is sign-extended. -/
def toWire : DeliveryMode → Nat
  | unknowMode => 0
  | undurable => 1
  | durable => 2
  | unrecognized value _ => if value.toNat < 2 ^ 31 then value.toNat else value.toNat + (2 ^ 64 - 2 ^ 32)

/-- The cast of the number to the enum, which keeps 32 bits. -/
def ofWire (n : Nat) : DeliveryMode :=
  let value := UInt32.ofNat n
  if h : 3 ≤ value then unrecognized value h
  else if value = 0 then unknowMode else if value = 1 then undurable else durable

theorem ofWire_toWire (mode : DeliveryMode) : ofWire mode.toWire = mode := by
  cases mode with
  | unknowMode => rfl
  | undurable => rfl
  | durable => rfl
  | unrecognized value out =>
    have hvalue : UInt32.ofNat (toWire (unrecognized value out)) = value := by
      apply UInt32.toNat_inj.mp
      have := value.toNat_lt
      rw [UInt32.toNat_ofNat']
      simp only [toWire]
      split <;> omega
    unfold ofWire
    simp only [hvalue, out, dif_pos]

theorem toWire_eq_zero {mode : DeliveryMode} (h : mode.toWire = 0) : mode = unknowMode := by
  rw [← ofWire_toWire mode, h]
  rfl

end DeliveryMode

/-- A string field, written unless it is empty. -/
def stringField (field : Nat) (s : String) : Bytes := if s = "" then [] else bytesField field (utf8 s)

/-- A string field is read into `set`, if it is UTF-8. -/
def readString {σ : Type} (s : σ) (bs : Bytes) (set : String → σ) : Bool × σ :=
  match fromUtf8 bs with
  | none => (false, s)
  | some str => (true, set str)

/-! ### `BasicProperties` -/

namespace BasicProperties

/-- `_InternalSerialize`. -/
def serialize (bp : BasicProperties) : Bytes :=
  stringField 1 bp.id ++
    ((if bp.deliveryMode.toWire = 0 then [] else numberField 2 bp.deliveryMode.toWire) ++ stringField 3 bp.routingKey)

/-- One round of `_InternalParse`. -/
def readField (bp : BasicProperties) : Nat → Value → Bool × BasicProperties
  | 1, .bytes bs => readString bp bs fun str => { bp with id := str }
  | 2, .number n => (true, { bp with deliveryMode := DeliveryMode.ofWire n })
  | 3, .bytes bs => readString bp bs fun str => { bp with routingKey := str }
  | _, _ => (true, bp)

/-- `_InternalParse`, into an object that may hold values already. -/
def parseInto (bp : BasicProperties) (bs : Bytes) : Bool × BasicProperties := readMessage readField bs.length bp bs

end BasicProperties

/-! ### `Message.Payload` -/

namespace Payload

/-- `_InternalSerialize`. -/
def serialize (p : Payload) : Bytes :=
  (match p.properties with
    | none => []
    | some bp => bytesField 1 bp.serialize) ++
    (stringField 2 p.body ++ stringField 3 p.valid)

/-- One round of `_InternalParse`. -/
def readField (p : Payload) : Nat → Value → Bool × Payload
  | 1, .bytes bs =>
    match p.props.parseInto bs with
    | (ok, bp) => (ok, { p with properties := some bp })
  | 2, .bytes bs => readString p bs fun str => { p with body := str }
  | 3, .bytes bs => readString p bs fun str => { p with valid := str }
  | _, _ => (true, p)

/-- `ParseFromString` on a fresh payload. -/
def parse (bs : Bytes) : Bool × Payload := readMessage readField bs.length {} bs

end Payload

/-! ### What is written is read back -/

/-- An optional string field in front of the input is read as one round, or as none when it is empty. -/
theorem readMessage_stringField {σ : Type} (step : σ → Nat → Value → Bool × σ) {field : Nat} (hf : 0 < field)
    (s s' : σ) {str : String} {rest : Bytes} {fuel : Nat} (hfuel : (stringField field str ++ rest).length ≤ fuel)
    (hstep : str ≠ "" → step s field (.bytes (utf8 str)) = (true, s')) (hsame : str = "" → s' = s) :
    ∃ fuel', rest.length ≤ fuel' ∧
      readMessage step fuel s (stringField field str ++ rest) = readMessage step fuel' s' rest := by
  unfold stringField at hfuel ⊢
  by_cases he : str = ""
  · simp only [he, if_pos, List.nil_append] at hfuel ⊢
    exact ⟨fuel, hfuel, by rw [hsame he]⟩
  · rw [if_neg he] at hfuel ⊢
    exact readMessage_field step (readField_bytesField hf _ _) (hstep he) (bytesField_ne_nil _ _) hfuel

/-- The last field of a message. -/
theorem readMessage_stringField_last {σ : Type} {step : σ → Nat → Value → Bool × σ} {field : Nat} (hf : 0 < field)
    {s s' : σ} {str : String} {fuel : Nat} (hfuel : (stringField field str).length ≤ fuel)
    (hstep : str ≠ "" → step s field (.bytes (utf8 str)) = (true, s')) (hsame : str = "" → s' = s) :
    readMessage step fuel s (stringField field str) = (true, s') := by
  rw [← List.append_nil (stringField field str)] at hfuel ⊢
  obtain ⟨fuel', -, h⟩ := readMessage_stringField step hf s s' hfuel hstep hsame
  rw [h, readMessage_nil]

theorem BasicProperties.parseInto_serialize (bp : BasicProperties) :
    ({} : BasicProperties).parseInto bp.serialize = (true, bp) := by
  unfold parseInto serialize
  generalize hfuel : (stringField 1 bp.id ++ ((if bp.deliveryMode.toWire = 0 then []
    else numberField 2 bp.deliveryMode.toWire) ++ stringField 3 bp.routingKey)).length = fuel
  obtain ⟨fuel₁, hfuel₁, h₁⟩ := readMessage_stringField readField (by omega : 0 < 1) {} { id := bp.id }
    (le_of_eq hfuel) (fun _ => by simp [readField, readString, fromUtf8_utf8])
    (fun h => by rw [h])
  rw [h₁]
  obtain ⟨fuel₂, hfuel₂, h₂⟩ : ∃ fuel₂, (stringField 3 bp.routingKey).length ≤ fuel₂ ∧
      readMessage readField fuel₁ { id := bp.id } ((if bp.deliveryMode.toWire = 0 then []
        else numberField 2 bp.deliveryMode.toWire) ++ stringField 3 bp.routingKey) =
      readMessage readField fuel₂ { id := bp.id, deliveryMode := bp.deliveryMode } (stringField 3 bp.routingKey) := by
    by_cases h0 : bp.deliveryMode.toWire = 0
    · simp only [if_pos h0, List.nil_append] at hfuel₁ ⊢
      exact ⟨fuel₁, hfuel₁, by rw [DeliveryMode.toWire_eq_zero h0]⟩
    · simp only [if_neg h0] at hfuel₁ ⊢
      exact readMessage_field readField (readField_numberField (by omega) _ _)
        (by simp [readField, DeliveryMode.ofWire_toWire]) (numberField_ne_nil _ _) hfuel₁
  rw [h₂]
  exact readMessage_stringField_last (by omega) hfuel₂ (fun _ => by simp [readField, readString, fromUtf8_utf8])
    fun h => by rw [← h]

theorem Payload.parse_serialize (p : Payload) : parse p.serialize = (true, p) := by
  have hbody : ∀ {properties : Option BasicProperties} {fuel : Nat},
      (stringField 2 p.body ++ stringField 3 p.valid).length ≤ fuel →
      readMessage readField fuel { properties } (stringField 2 p.body ++ stringField 3 p.valid) =
        (true, { properties, body := p.body, valid := p.valid }) := by
    intro properties fuel hfuel
    obtain ⟨fuel₁, hfuel₁, h₁⟩ := readMessage_stringField readField (by omega : 0 < 2) { properties }
      { properties, body := p.body } hfuel
      (fun _ => by simp [readField, readString, fromUtf8_utf8]) (fun h => by rw [h])
    rw [h₁]
    exact readMessage_stringField_last (by omega) hfuel₁ (fun _ => by simp [readField, readString, fromUtf8_utf8])
      fun h => by rw [h]
  unfold parse serialize
  cases hp : p.properties with
  | none =>
    simp only [List.nil_append]
    rw [hbody (Nat.le_refl _), ← hp]
  | some bp =>
    have hfirst : readField {} 1 (.bytes bp.serialize) = (true, { properties := some bp }) := by
      simp [readField, props, BasicProperties.parseInto_serialize]
    obtain ⟨fuel₁, hfuel₁, h₁⟩ := readMessage_field readField
      (readField_bytesField (by omega : 0 < 1) bp.serialize (stringField 2 p.body ++ stringField 3 p.valid)) hfirst
      (bytesField_ne_nil _ _) (Nat.le_refl _)
    rw [h₁, hbody hfuel₁, ← hp]

/-- The generated code as the codec of the store. -/
def protobuf : PayloadCodec where
  serialize := Payload.serialize
  parse := Payload.parse
  parse_serialize := Payload.parse_serialize
  length_serialize p := by
    have h0 : (utf8 "0").length = (utf8 "1").length := by decide
    simp only [Payload.serialize, Payload.setValid, stringField, List.length_append, String.reduceEq, if_false,
      length_bytesField_congr h0]
    rfl

end HareMQ
