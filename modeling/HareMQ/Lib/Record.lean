import HareMQ.Lib.Wire
import Mathlib.Data.List.Nodup
import Mathlib.Data.List.Perm.Basic

/-! # Records on the wire

A record is written field by field, and read in whatever order its values arrive. A codec says how the contents of one
field are written and read; a schema is a list of fields that together make up the record. -/

namespace Lib.Wire

/-! ### Values -/

/-- The values that are written under a field number. -/
def Value.encode (field : Nat) : Value → Bytes
  | .number n => numberField field n
  | .fixed64 bs => varint (field * 8 + 1) ++ bs
  | .bytes bs => bytesField field bs
  | .fixed32 bs => varint (field * 8 + 5) ++ bs

/-- The values of a fixed size have it. -/
def Value.Sized : Value → Prop
  | .fixed64 bs => bs.length = 8
  | .fixed32 bs => bs.length = 4
  | _ => True

theorem Value.encode_ne_nil (field : Nat) (v : Value) : v.encode field ≠ [] := by
  cases v with
  | number n => exact numberField_ne_nil field n
  | bytes bs => exact bytesField_ne_nil field bs
  | fixed64 bs => exact List.append_ne_nil_of_left_ne_nil (varint_ne_nil _) _
  | fixed32 bs => exact List.append_ne_nil_of_left_ne_nil (varint_ne_nil _) _

theorem readBytes_append {n : Nat} {bs : Bytes} (h : bs.length = n) (rest : Bytes) :
    readBytes n (bs ++ rest) = some (bs, rest) := by
  subst h
  simp [readBytes]

theorem readField_encode {field : Nat} (hf : 0 < field) {v : Value} (hv : v.Sized) (rest : Bytes) :
    readField (v.encode field ++ rest) = some (field, v, rest) := by
  have hne : field ≠ 0 := Nat.pos_iff_ne_zero.mp hf
  cases v with
  | number n => exact readField_numberField hf n rest
  | bytes bs => exact readField_bytesField hf bs rest
  | fixed64 bs =>
    have h1 : (field * 8 + 1) / 8 = field := by omega
    have h2 : (field * 8 + 1) % 8 = 1 := by omega
    have h3 : readBytes 8 (bs ++ rest) = some (bs, rest) := readBytes_append hv rest
    simp only [Value.encode, readField, List.append_assoc, readVarint_varint, h1, h2, hne, if_false, h3, Option.map_some]
  | fixed32 bs =>
    have h1 : (field * 8 + 5) / 8 = field := by omega
    have h2 : (field * 8 + 5) % 8 = 5 := by omega
    have h3 : readBytes 4 (bs ++ rest) = some (bs, rest) := readBytes_append hv rest
    simp only [Value.encode, readField, List.append_assoc, readVarint_varint, h1, h2, hne, if_false, h3, Option.map_some]

/-! ### Reading one value after the other -/

/-- Reads until a value is refused. -/
def readAll {α β : Type} (read : α → β → Bool × α) : α → List β → Bool × α
  | a, [] => (true, a)
  | a, b :: bs =>
    match read a b with
    | (false, a) => (false, a)
    | (true, a) => readAll read a bs

theorem readAll_cons {α β : Type} {read : α → β → Bool × α} {a t : α} {b : β} {bs : List β}
    (h : readAll read a (b :: bs) = (true, t)) : ∃ a', read a b = (true, a') ∧ readAll read a' bs = (true, t) := by
  unfold readAll at h
  split at h
  · simp only [Prod.mk.injEq, Bool.false_eq_true, false_and] at h
  · next a' hread => exact ⟨a', hread, h⟩

/-- A value under its field number. -/
abbrev Pair := Nat × Value

def encodePairs (ps : List Pair) : Bytes := ps.flatMap fun p => p.2.encode p.1

/-- What a message can be made of. -/
def Pair.Legal (p : Pair) : Prop := 0 < p.1 ∧ p.2.Sized

/-- The loop reads the values one after the other. -/
theorem readMessage_encode {σ : Type} (step : σ → Nat → Value → Bool × σ) {ps : List Pair} :
    (∀ p ∈ ps, p.Legal) → ∀ {s : σ} {fuel : Nat}, (encodePairs ps).length ≤ fuel →
    readMessage step fuel s (encodePairs ps) = readAll (fun s p => step s p.1 p.2) s ps := by
  induction ps with
  | nil =>
    intro _ s fuel _
    exact readMessage_nil step fuel s
  | cons p ps ih =>
    intro hps s fuel hfuel
    have hcons : encodePairs (p :: ps) = p.2.encode p.1 ++ encodePairs ps := List.flatMap_cons
    have hp : p.Legal := hps p List.mem_cons_self
    have hread := readField_encode hp.1 hp.2 (encodePairs ps)
    rw [hcons] at hfuel ⊢
    rw [readAll]
    rcases hstep : step s p.1 p.2 with ⟨ok, s'⟩
    cases ok with
    | true =>
      rcases readMessage_field step hread hstep (Value.encode_ne_nil _ _) hfuel with ⟨fuel', hfuel', heq⟩
      rw [heq, ih (fun q hq => hps q (List.mem_cons_of_mem _ hq)) hfuel']
    | false =>
      cases hbytes : p.2.encode p.1 with
      | nil => exact absurd hbytes (Value.encode_ne_nil _ _)
      | cons b bs =>
        rw [hbytes] at hread hfuel
        rw [List.cons_append] at hread hfuel ⊢
        cases fuel with
        | zero => cases hfuel
        | succ fuel => simp only [readMessage, hread, hstep]

/-- The values under one number, in their order. -/
def valuesOf (n : Nat) (ps : List Pair) : List Value := (ps.filter (·.1 = n)).map (·.2)

theorem valuesOf_cons_self (n : Nat) (v : Value) (ps : List Pair) : valuesOf n ((n, v) :: ps) = v :: valuesOf n ps := by
  simp [valuesOf]

theorem valuesOf_cons_ne {n m : Nat} (h : m ≠ n) (v : Value) (ps : List Pair) :
    valuesOf n ((m, v) :: ps) = valuesOf n ps := by
  simp [valuesOf, h]

/-! ### Codecs -/

/-- The contents of a field. A fresh record holds `blank`, and of what is written of `a` the reader makes the same, in
    whatever order the values arrive. -/
structure Codec (α : Type) where
  blank : α
  values : α → List Value
  read : α → Value → Bool × α
  Same : α → α → Prop := Eq
  sized : ∀ a, ∀ v ∈ values a, v.Sized
  restores : ∀ a vs, vs.Perm (values a) → ∃ a', readAll read blank vs = (true, a') ∧ Same a' a

/-- A field of the record `σ`. -/
structure Field (σ : Type) where
  number : Nat
  {α : Type}
  codec : Codec α
  get : σ → α
  set : α → σ → σ

namespace Field
variable {σ : Type} (f : Field σ)

def read (s : σ) (v : Value) : Bool × σ :=
  match f.codec.read (f.get s) v with
  | (ok, a) => (ok, f.set a s)

def pairs (s : σ) : List Pair := (f.codec.values (f.get s)).map (f.number, ·)

end Field

/-! ### Layouts -/

/-- The fields of a record, in the order in which they are written. A record is determined by them. -/
structure Schema (σ : Type) where
  fields : List (Field σ)
  empty : σ
  numbers : (fields.map Field.number).Nodup := by simp
  positive : ∀ f ∈ fields, 0 < f.number := by simp
  blank : ∀ f ∈ fields, f.get empty = f.codec.blank := by simp
  get_set : ∀ f ∈ fields, ∀ a s, f.get (f.set a s) = a := by simp
  get_set_ne : ∀ f ∈ fields, ∀ g ∈ fields, f.number ≠ g.number → ∀ a s, g.get (f.set a s) = g.get s := by simp
  ext : ∀ s t, (∀ f ∈ fields, f.get s = f.get t) → s = t := by rintro ⟨⟩ ⟨⟩; simp

namespace Schema
variable {σ : Type} (l : Schema σ)

def pairs (s : σ) : List Pair := l.fields.flatMap fun f => f.pairs s

/-- `_InternalSerialize`. -/
def serialize (s : σ) : Bytes := encodePairs (l.pairs s)

/-- One round of `_InternalParse`: a value of an unknown number is passed over. -/
def readPair (s : σ) (n : Nat) (v : Value) : Bool × σ :=
  match l.fields.find? (·.number = n) with
  | none => (true, s)
  | some f => f.read s v

/-- `ParseFromString` on a fresh record. -/
def parse (bs : Bytes) : Bool × σ := readMessage l.readPair bs.length l.empty bs

variable {l} {s t : σ} {f : Field σ}

theorem find?_number (hf : f ∈ l.fields) : l.fields.find? (·.number = f.number) = some f := by
  rcases hfind : l.fields.find? (·.number = f.number) with _ | g
  · rw [List.find?_eq_none] at hfind
    exact absurd (decide_eq_true rfl) (hfind f hf)
  · have hg := List.mem_of_find?_eq_some hfind
    have hnum : g.number = f.number := by simpa using List.find?_some hfind
    rw [hfind, List.inj_on_of_nodup_map l.numbers hg hf hnum]

theorem readPair_known (hf : f ∈ l.fields) (v : Value) : l.readPair s f.number v = f.read s v := by
  rw [readPair, find?_number hf]

theorem readPair_unknown {n : Nat} (hn : ∀ f ∈ l.fields, f.number ≠ n) (v : Value) : l.readPair s n v = (true, s) := by
  have hnone : l.fields.find? (·.number = n) = none :=
    List.find?_eq_none.mpr fun f hf heq => hn f hf (of_decide_eq_true heq)
  rw [readPair, hnone]

/-- The values of the fields are read independently of each other, and no others matter. -/
theorem readAll_readPair {ps : List Pair} {P : (f : Field σ) → f.α → Prop} :
    ∀ {s : σ}, (∀ f ∈ l.fields, ∃ a, readAll f.codec.read (f.get s) (valuesOf f.number ps) = (true, a) ∧ P f a) →
    ∃ t, readAll (fun s p => l.readPair s p.1 p.2) s ps = (true, t) ∧ ∀ f ∈ l.fields, P f (f.get t) := by
  induction ps with
  | nil =>
    intro s h
    refine ⟨s, rfl, fun f hf => ?_⟩
    rcases h f hf with ⟨a, hread, ha⟩
    obtain rfl : f.get s = a := (Prod.mk.inj hread).2
    exact ha
  | cons p ps ih =>
    rcases p with ⟨n, v⟩
    intro s h
    rw [readAll]
    by_cases hknown : ∃ f ∈ l.fields, f.number = n
    · rcases hknown with ⟨f, hf, rfl⟩
      rcases h f hf with ⟨target, hself, hp⟩
      rw [valuesOf_cons_self] at hself
      rcases readAll_cons hself with ⟨a, hread, hrest⟩
      have hstep : l.readPair s f.number v = (true, f.set a s) := by rw [readPair_known hf, Field.read, hread]
      simp only [hstep]
      refine ih fun g hg => ?_
      by_cases hgf : g.number = f.number
      · obtain rfl := List.inj_on_of_nodup_map l.numbers hg hf hgf
        rw [l.get_set g hg]
        exact ⟨target, hrest, hp⟩
      · have hall := h g hg
        rw [valuesOf_cons_ne (Ne.symm hgf)] at hall
        rw [l.get_set_ne f hf g hg (Ne.symm hgf)]
        exact hall
    · have hn : ∀ f ∈ l.fields, f.number ≠ n := fun f hf heq => hknown ⟨f, hf, heq⟩
      simp only [readPair_unknown hn]
      refine ih fun f hf => ?_
      have hall := h f hf
      rwa [valuesOf_cons_ne (Ne.symm (hn f hf))] at hall

/-- A record is read back from its values, in whatever order they arrive and whatever other fields stand between them. -/
theorem parse_encode {ps : List Pair} (hlegal : ∀ p ∈ ps, p.Legal)
    (hvalues : ∀ f ∈ l.fields, (valuesOf f.number ps).Perm (f.codec.values (f.get s))) :
    ∃ t, l.parse (encodePairs ps) = (true, t) ∧ ∀ f ∈ l.fields, f.codec.Same (f.get t) (f.get s) := by
  rw [parse, readMessage_encode l.readPair hlegal (Nat.le_refl _)]
  refine readAll_readPair (P := fun f a => f.codec.Same a (f.get s)) fun f hf => ?_
  rw [l.blank f hf]
  exact f.codec.restores _ _ (hvalues f hf)

/-! ### What a record writes -/

theorem legal_pairs (s : σ) : ∀ p ∈ l.pairs s, p.Legal := by
  intro p hp
  rcases List.mem_flatMap.mp hp with ⟨f, hf, hp⟩
  rcases List.mem_map.mp hp with ⟨v, hv, rfl⟩
  exact ⟨l.positive f hf, f.codec.sized _ v hv⟩

theorem valuesOf_flatMap_pairs (s : σ) {fs : List (Field σ)} (hnodup : (fs.map Field.number).Nodup) (n : Nat) :
    valuesOf n (fs.flatMap fun f => f.pairs s) =
      ((fs.find? (·.number = n)).map fun f => f.codec.values (f.get s)).getD [] := by
  induction fs with
  | nil => rfl
  | cons f fs ih =>
    rw [List.map_cons, List.nodup_cons] at hnodup
    have hsplit : valuesOf n ((f :: fs).flatMap fun f => f.pairs s) =
        valuesOf n (f.pairs s) ++ valuesOf n (fs.flatMap fun f => f.pairs s) := by
      rw [List.flatMap_cons, valuesOf, List.filter_append, List.map_append]
      rfl
    rw [hsplit, List.find?_cons]
    by_cases hn : f.number = n
    · have hrest : fs.find? (·.number = n) = none := by
        rw [List.find?_eq_none]
        intro g hg heq
        exact hnodup.1 (List.mem_map.mpr ⟨g, hg, (of_decide_eq_true heq).trans hn.symm⟩)
      rw [ih hnodup.2, hrest, decide_eq_true hn]
      simp [valuesOf, Field.pairs, hn, List.filter_map, Function.comp_def]
    · rw [ih hnodup.2, decide_eq_false hn]
      simp [valuesOf, Field.pairs, hn, List.filter_map, Function.comp_def]

theorem valuesOf_pairs (hf : f ∈ l.fields) (s : σ) : valuesOf f.number (l.pairs s) = f.codec.values (f.get s) := by
  rw [pairs, valuesOf_flatMap_pairs s l.numbers, find?_number hf, Option.map_some, Option.getD_some]

end Schema
end Lib.Wire
