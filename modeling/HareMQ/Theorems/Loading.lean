import HareMQ.Codec
import HareMQ.Theorems.Mapper

/-! # What `__load` makes of any bytes

The loop follows the length fields and never looks at what `ParseFromString` returns: it keeps every frame that is not
flagged `"0"` as far as it was read. -/

namespace HareMQ
open Lib

/-- A weaker test that does not succeed more often succeeds for the same elements. -/
theorem holds_of_countP_le {α : Type} {p q : α → Bool} (hweak : ∀ a, q a = true → p a = true) : ∀ {l : List α},
    l.countP p ≤ l.countP q → ∀ a ∈ l, p a = true → q a = true := by
  intro l
  induction l with
  | nil => nofun
  | cons b l ih =>
    intro hle a ha hpa
    have hrest : l.countP q ≤ l.countP p := List.countP_mono_left fun a _ => hweak a
    rw [List.countP_cons, List.countP_cons] at hle
    have hb : p b = true → q b = true := by
      intro hpb
      by_contra hqb
      rw [if_pos hpb, if_neg hqb] at hle
      omega
    obtain rfl | ha := List.mem_cons.mp ha
    · exact hb hpa
    · refine ih ?_ a ha hpa
      by_cases hpb : p b = true
      · rw [if_pos hpb, if_pos (hb hpb)] at hle
        omega
      · rw [if_neg hpb, if_neg fun hqb => hpb (hweak b hqb)] at hle
        exact hle

namespace MessageMapper
variable (pb : PayloadCodec) {d : Disk} {m : MessageMapper} {data : Bytes}

/-- The message that the loop appends for a frame. -/
def keep (body : Bytes) : Option Message :=
  if (pb.parse body).2.valid = "0" then none else some { payload := (pb.parse body).2 }

/-- The message that a frame stands for: its bytes parse, and it is flagged `"1"`. -/
def genuine (body : Bytes) : Option Message :=
  if (pb.parse body).1 = true ∧ (pb.parse body).2.valid = "1" then some { payload := (pb.parse body).2 } else none

variable {pb}

variable (pb) in
/-- From any position on, the loop passes over the complete frames. -/
theorem loadLoop_cut {name : String} (hd : d.Calm) (hf : d.file? name = some data) :
    ∀ (fuel : Nat) (pre rest : Bytes) (lst : List Message), data = pre ++ rest → rest.length ≤ fuel →
      loadLoop pb name data.length fuel pre.length lst d =
        ((cut rest).2.isEmpty, lst ++ (cut rest).1.filterMap (keep pb), d) := by
  intro fuel
  induction fuel with
  | zero =>
    intro pre rest lst _ hfuel
    have hrest : rest = [] := List.length_eq_zero_iff.mp (Nat.le_zero.mp hfuel)
    rw [hrest, cut_of_not_complete (by simp [Complete])]
    simp [loadLoop]
  | succ fuel ih =>
    intro pre rest lst hdata hfuel
    have hlength : data.length = pre.length + rest.length := by rw [hdata, List.length_append]
    have hdrop : data.drop pre.length = rest := by rw [hdata, List.drop_left]
    by_cases hnil : rest = []
    · rw [hnil, cut_of_not_complete (by simp [Complete]), loadLoop_end (by rw [hlength, hnil]; exact Nat.le_refl _)]
      simp
    have hpos : 0 < rest.length := List.length_pos_of_ne_nil hnil
    rw [loadLoop, if_pos (by omega)]
    by_cases h8 : 8 ≤ rest.length
    · have hfield : slice data pre.length 8 = rest.take 8 := by rw [slice, hdrop]
      rw [FileHelper.read_of_le hd hf (by omega), hfield]
      dsimp only
      by_cases hbody : 8 + fromLe (rest.take 8) ≤ rest.length
      · have hcomplete : Complete rest := ⟨h8, hbody⟩
        have hslice : slice data (pre.length + 8) (fromLe (rest.take 8)) = (rest.drop 8).take (fromLe (rest.take 8)) := by
          rw [slice, ← List.drop_drop, hdrop]
        rw [FileHelper.read_of_le hd hf (by omega), hslice, cut_of_complete hcomplete]
        dsimp only
        have hnext : pre.length + 8 + fromLe (rest.take 8) =
            (pre ++ rest.take (8 + fromLe (rest.take 8))).length := by
          rw [List.length_append, List.length_take, Nat.min_eq_left hbody, Nat.add_assoc]
        have hsplit : data = (pre ++ rest.take (8 + fromLe (rest.take 8))) ++ rest.drop (8 + fromLe (rest.take 8)) := by
          rw [List.append_assoc, List.take_append_drop, hdata]
        rw [hnext, ih _ _ _ hsplit (by rw [List.length_drop]; omega), List.filterMap_cons]
        by_cases hflag : (pb.parse ((rest.drop 8).take (fromLe (rest.take 8)))).2.valid = "0"
        · simp [keep, hflag]
        · simp [keep, hflag]
      · rw [FileHelper.read_of_lt hd hf (by omega) (by omega), cut_of_not_complete (fun h => hbody h.2)]
        simp [hnil]
    · rw [FileHelper.read_of_lt hd hf (by omega) (by omega), cut_of_not_complete (fun h => h8 h.1)]
      simp [hnil]

variable (pb) in
theorem load_cut (m : MessageMapper) (hd : d.Calm) (hf : d.file? m.dataFile = some data) :
    load pb m d = ((cut data).2.isEmpty, (cut data).1.filterMap (keep pb), d) := by
  have h := loadLoop_cut pb hd hf data.length [] data [] rfl (Nat.le_refl _)
  rwa [List.nil_append, List.length_nil, ← FileHelper.size_eq hf] at h

/-- What may be expected of `__load` on any bytes: it ends, each of its messages is a frame of its own that parses and
    is flagged `"1"`, and it succeeds if the frames cover the file. -/
structure NoneInvented (pb : PayloadCodec) (m : MessageMapper) (d : Disk) (data : Bytes) : Prop where
  ends : ∀ fuel, data.length ≤ fuel → loadLoop pb m.dataFile data.length fuel 0 [] d = load pb m d
  genuine : (load pb m d).2.1.Sublist ((cut data).1.filterMap (genuine pb))
  covers : (load pb m d).1 = true ↔ (cut data).2 = []

theorem load_noneInvented_iff (hd : d.Calm) (hf : d.file? m.dataFile = some data) : NoneInvented pb m d data ↔
    ∀ body ∈ (cut data).1, (pb.parse body).2.valid = "0" ∨
      ((pb.parse body).1 = true ∧ (pb.parse body).2.valid = "1") := by
  have hload := load_cut pb m hd hf
  have hweak : ∀ body, (MessageMapper.genuine pb body).isSome = true → (keep pb body).isSome = true := by
    intro body h
    obtain ⟨-, hflag⟩ : (pb.parse body).1 = true ∧ (pb.parse body).2.valid = "1" := by
      simpa [MessageMapper.genuine] using h
    simp [keep, hflag]
  constructor
  · intro h body hbody
    have hle := h.genuine.length_le
    rw [hload, List.length_filterMap_eq_countP, List.length_filterMap_eq_countP] at hle
    have hgenuine := holds_of_countP_le hweak hle body hbody
    by_cases hflag : (pb.parse body).2.valid = "0"
    · exact Or.inl hflag
    · have hkept : (keep pb body).isSome = true := by simp [keep, hflag]
      exact Or.inr (by simpa [MessageMapper.genuine] using hgenuine hkept)
  · intro h
    have hsame : (cut data).1.filterMap (keep pb) = (cut data).1.filterMap (MessageMapper.genuine pb) := by
      apply List.filterMap_congr
      intro body hbody
      obtain hflag | ⟨hparse, hflag⟩ := h body hbody
      · simp [keep, MessageMapper.genuine, hflag]
      · simp [keep, MessageMapper.genuine, hparse, hflag]
    refine ⟨fun fuel hfuel => ?_, ?_, ?_⟩
    · have hloop := loadLoop_cut pb hd hf fuel [] data [] rfl hfuel
      rw [List.nil_append, List.length_nil] at hloop
      rw [hloop, hload]
    · rw [hload, hsame]
    · rw [hload]
      exact List.isEmpty_iff

/-- The data file of a queue with the given bytes, on a disk of its own. -/
def written (data : Bytes) : Disk :=
  .ofFiles (Function.update (fun _ => none) (resolve (files "data" "q").dataFile) (some data)) fun _ => false

theorem written_file (data : Bytes) : (written data).file? (files "data" "q").dataFile = some data := by
  simp [written, Disk.file?, Disk.ofFiles]

theorem written_calm (data : Bytes) : (written data).Calm := rfl

/-- A file that ends within its first length field. -/
theorem load_noneInvented_iff_torn : NoneInvented protobuf (files "data" "q") (written [2, 0, 0]) [2, 0, 0] := by
  refine (load_noneInvented_iff (written_calm _) (written_file [2, 0, 0])).mpr fun body hbody => ?_
  rw [cut_of_not_complete (by decide)] at hbody
  cases hbody

/-- Two frames, an empty one and one whose byte does not parse: two messages. -/
def emptyFrames : Bytes := [0, 0, 0, 0, 0, 0, 0, 0, 1, 0, 0, 0, 0, 0, 0, 0, 10]

theorem load_invented : (load protobuf (files "data" "q") (written emptyFrames)).2.1 = [{}, {}] ∧
    ¬NoneInvented protobuf (files "data" "q") (written emptyFrames) emptyFrames := by
  have hcut : cut emptyFrames = ([[], [10]], []) := by
    rw [cut_of_complete (by decide), cut_of_complete (by decide), cut_of_not_complete (by decide)]
    rfl
  have hload := load_cut protobuf (files "data" "q") (written_calm _) (written_file emptyFrames)
  have hkept : [[], [10]].filterMap (keep protobuf) = [{}, {}] := by decide +kernel
  have hgenuine : [[], [10]].filterMap (MessageMapper.genuine protobuf) = [] := by decide +kernel
  rw [hcut, hkept] at hload
  refine ⟨by rw [hload], fun h => ?_⟩
  have hsub := h.genuine
  rw [hload, hcut, hgenuine] at hsub
  cases hsub

end MessageMapper
end HareMQ
