import HareMQ.Theorems.Faults
import HareMQ.Theorems.Loading

/-! # Places of records

The place of a record is computed as a 64-bit size and kept in two 32-bit fields, so that it is the true one only in the
first four gigabytes of the data file. -/

namespace HareMQ
open Lib

namespace MessageMapper
variable {pb : PayloadCodec}

/-- The message knows where its record is, which starts at `start`: an acknowledgement overwrites the body of that record
    and nothing else, whatever stands around it by then. -/
structure Recorded (pb : PayloadCodec) (start : Nat) (msg : Message) : Prop where
  offset : msg.offset = start + 8
  length : msg.length = (pb.serialize msg.payload).length
  remove : ∀ (m : MessageMapper) (d : Disk) (before behind : Bytes), d.Calm → before.length = start →
    d.file? m.dataFile = some (before ++ (frame (pb.serialize msg.payload) ++ behind)) →
    m.remove pb msg d = (true, { msg with payload := msg.payload.setValid "0" },
      d.put m.dataFile (before ++ (frame (pb.serialize (msg.payload.setValid "0")) ++ behind)))

/-- The place of the record fits in the fields, and the flag `"0"` fits in the record. -/
structure Fits (pb : PayloadCodec) (start : Nat) (p : Payload) : Prop where
  offset : start + 8 < 2 ^ 32
  length : (pb.serialize p).length < 2 ^ 32
  flag : (pb.serialize (p.setValid "0")).length = (pb.serialize p).length

/-- What `insert` appends has the flag `"1"`. -/
theorem Fits.of_valid {start : Nat} {p : Payload} (hoffset : start + 8 < 2 ^ 32) (hlength : (pb.serialize p).length < 2 ^ 32)
    (hvalid : p.valid = "1") : Fits pb start p where
  offset := hoffset
  length := hlength
  flag := by
    have hsame : p.setValid "1" = p := by rw [← hvalid, Payload.setValid]
    rw [pb.length_serialize, hsame]

theorem recorded_setPlace_iff (start : Nat) (msg : Message) :
    Recorded pb start (msg.setPlace (start + 8) (pb.serialize msg.payload).length) ↔ Fits pb start msg.payload := by
  constructor
  · intro h
    refine ⟨?_, ?_, ?_⟩
    · have hoffset : (start + 8) % 2 ^ 32 = start + 8 := h.offset
      omega
    · have hlength : (pb.serialize msg.payload).length % 2 ^ 32 = (pb.serialize msg.payload).length := h.length
      omega
    · -- A record that would change its length is not overwritten at all.
      have hremove := h.remove (files "data" "q")
        (written (List.replicate start 0 ++ (frame (pb.serialize msg.payload) ++ []))) (List.replicate start 0) [] rfl
        (List.length_replicate ..) (written_file _)
      by_contra hflag
      have hlength : (msg.setPlace (start + 8) (pb.serialize msg.payload).length).length = (pb.serialize msg.payload).length :=
        h.length
      rw [MessageMapper.remove, hlength, Message.payload_setPlace] at hremove
      dsimp only at hremove
      rw [if_pos hflag] at hremove
      cases congrArg Prod.fst hremove
  · intro h
    have hoffset : (msg.setPlace (start + 8) (pb.serialize msg.payload).length).offset = start + 8 :=
      Nat.mod_eq_of_lt h.offset
    have hlength : (msg.setPlace (start + 8) (pb.serialize msg.payload).length).length = (pb.serialize msg.payload).length :=
      Nat.mod_eq_of_lt h.length
    refine ⟨hoffset, hlength, ?_⟩
    intro m d before behind hd hstart hf
    exact remove_eq pb hd _ h.flag hf (by rw [hoffset, hstart]) hlength

/-- A successful append. -/
theorem insertInto_recorded {name : String} {msg msg' : Message} {d d' : Disk} (hd : d.Reliable)
    (h : insertInto pb name msg d = (true, msg', d')) :
    ∃ data, d.file? name = some data ∧ d'.file? name = some (data ++ frame (pb.serialize msg.payload)) ∧
      msg'.payload = msg.payload ∧ d'.fates = d.fates.drop 2 ∧
      (Recorded pb data.length msg' ↔ Fits pb data.length msg.payload) := by
  by_cases hok : (d.file? name).isSome ∧ d.allows 2 = true
  · obtain ⟨data, hf⟩ := Option.isSome_iff_exists.mp hok.1
    obtain ⟨d₁, hinsert, hf₁, hfates⟩ := insertInto_allowed pb hf hok.2 msg
    rw [hinsert] at h
    obtain ⟨-, rfl, rfl⟩ : true = true ∧ msg.setPlace (data.length + 8) (pb.serialize msg.payload).length = msg' ∧ d₁ = d' := by
      simpa using h
    exact ⟨data, hf, hf₁, rfl, hfates, recorded_setPlace_iff data.length msg⟩
  · have hrefused := insertInto_refused pb hd hok msg
    rw [h] at hrefused
    cases hrefused

/-- The appends of a compaction. -/
theorem insertAll_recorded {name : String} (lst : List Message) : ∀ {lst' : List Message} {d d' : Disk} {data : Bytes},
    d.Reliable → d.file? name = some data → insertAll pb name lst d = (true, lst', d') →
    d'.file? name = some (data ++ encode pb (lst.map (·.payload))) ∧
      lst'.map (·.payload) = lst.map (·.payload) ∧
      ∀ (i : Nat) (msg' : Message), lst'[i]? = some msg' →
        (Recorded pb (data ++ encode pb ((lst.take i).map (·.payload))).length msg' ↔
          Fits pb (data ++ encode pb ((lst.take i).map (·.payload))).length msg'.payload) := by
  induction lst with
  | nil =>
    intro lst' d d' data _ hf h
    obtain ⟨rfl, rfl⟩ : [] = lst' ∧ d = d' := by simpa [insertAll] using h
    exact ⟨by simpa using hf, rfl, by simp⟩
  | cons msg lst ih =>
    intro lst' d d' data hd hf h
    rw [insertAll] at h
    split at h
    · cases h
    · next msg₁ d₁ hinsert =>
      obtain ⟨data₀, hf₀, hf₁, hpayload, hfates, hrecorded⟩ := insertInto_recorded hd hinsert
      obtain rfl : data = data₀ := Option.some.inj (hf.symm.trans hf₀)
      obtain ⟨lst₁, hrest, rfl⟩ : ∃ lst₁, insertAll pb name lst d₁ = (true, lst₁, d') ∧ lst' = msg₁ :: lst₁ := by
        cases hrest : insertAll pb name lst d₁ with
        | mk ok rest =>
          rw [hrest] at h
          obtain ⟨rfl, rfl, rfl⟩ : ok = true ∧ msg₁ :: rest.1 = lst' ∧ rest.2 = d' := by simpa using h
          exact ⟨rest.1, rfl, rfl⟩
      obtain ⟨hf', hpayloads, hall⟩ := ih (hd.of_fates hfates) hf₁ hrest
      refine ⟨by simpa using hf', by simp [hpayload, hpayloads], ?_⟩
      intro i msg' hmsg'
      cases i with
      | zero =>
        obtain rfl : msg₁ = msg' := by simpa using hmsg'
        rw [hpayload]
        simpa using hrecorded
      | succ i =>
        have htail := hall i msg' (by simpa using hmsg')
        simpa using htail

variable (pb) in
theorem recorded_iff (m : MessageMapper) :
    (∀ (msg msg' : Message) (d d' : Disk), d.Reliable → m.insert pb msg d = (true, msg', d') →
      ∃ data, d.file? m.dataFile = some data ∧ d'.file? m.dataFile = some (data ++ frame (pb.serialize msg.payload)) ∧
        msg'.payload = msg.payload ∧ (Recorded pb data.length msg' ↔ Fits pb data.length msg.payload)) ∧
    ∀ (lst lst' : List Message) (d d' : Disk) (data : Bytes), d.Reliable → d.file? m.tmpFile = some data →
      insertAll pb m.tmpFile lst d = (true, lst', d') →
      d'.file? m.tmpFile = some (data ++ encode pb (lst.map (·.payload))) ∧
        lst'.map (·.payload) = lst.map (·.payload) ∧
        ∀ (i : Nat) (msg' : Message), lst'[i]? = some msg' →
          (Recorded pb (data ++ encode pb ((lst.take i).map (·.payload))).length msg' ↔
            Fits pb (data ++ encode pb ((lst.take i).map (·.payload))).length msg'.payload) := by
  constructor
  · intro msg msg' d d' hd h
    obtain ⟨data, hf, hf', hpayload, -, hrecorded⟩ := insertInto_recorded hd h
    exact ⟨data, hf, hf', hpayload, hrecorded⟩
  · intro lst lst' d d' data hd hf h
    exact insertAll_recorded lst hd hf h

/-- A durable message whose frame takes 32 bytes. -/
def greeting : Payload where
  properties := some { id := "m", deliveryMode := .durable }
  body := "hello, world"
  valid := "1"

theorem length_greeting : (protobuf.serialize greeting).length = 24 := by decide +kernel

theorem recorded_iff_first : ∃ msg' d', (files "data" "q").insert protobuf { payload := greeting } (written []) =
    (true, msg', d') ∧ Recorded protobuf 0 msg' := by
  obtain ⟨d', hinsert, -, -⟩ := insertInto_eq protobuf (written_calm []) (written_file []) { payload := greeting }
  refine ⟨_, d', hinsert, ?_⟩
  obtain ⟨data, hf, -, -, hrecorded⟩ := (recorded_iff protobuf (files "data" "q")).1 _ _ _ _ (written_calm []).reliable hinsert
  obtain rfl : [] = data := Option.some.inj ((written_file []).symm.trans hf)
  exact hrecorded.mpr (.of_valid (by decide) (by rw [length_greeting]; decide) rfl)

/-- Behind four gigabytes of records the body of the next one is taken for that of the first. -/
theorem insert_truncated : ∃ data msg' d', data = encode protobuf (List.replicate (2 ^ 27) greeting) ∧
    (files "data" "q").insert protobuf { payload := greeting } (written data) = (true, msg', d') ∧
    msg'.offset = 8 ∧ ¬Recorded protobuf data.length msg' := by
  obtain ⟨data, hdata⟩ : ∃ data, data = encode protobuf (List.replicate (2 ^ 27) greeting) := ⟨_, rfl⟩
  have hsize : data.length = 2 ^ 32 := by
    rw [hdata, length_encode_replicate, length_greeting]
    omega
  obtain ⟨d', hinsert, -, -⟩ := insertInto_eq protobuf (written_calm data) (written_file data) { payload := greeting }
  have hoffset : ((⟨greeting, 0, 0⟩ : Message).setPlace (data.length + 8) (protobuf.serialize greeting).length).offset = 8 := by
    have hplace : (data.length + 8) % 2 ^ 32 = 8 := by omega
    exact hplace
  refine ⟨data, _, d', hdata, hinsert, hoffset, fun h => ?_⟩
  have := hoffset.symm.trans h.offset
  omega

end MessageMapper
end HareMQ
