import HareMQ.Theorems.Footprint
import HareMQ.Theorems.Mapper

/-! # Failing file operations

What the operations of `message_mapper` leave behind when the environment lets some of them fail, and what
`queue_message` makes of it: a compaction is harmless only when it is complete, and a failed invalidation is an
acknowledgement all the same. -/

namespace HareMQ
open Lib

variable (pb : PayloadCodec)

theorem serialize_injective : Function.Injective pb.serialize := by
  intro p p' h
  have := congrArg pb.parse h
  rw [pb.parse_serialize, pb.parse_serialize] at this
  exact congrArg Prod.snd this

/-- A data file holds one list of payloads only. -/
theorem encode_inj {ps ps' : List Payload} (hsize : (encode pb ps).length < 2 ^ 64) (h : encode pb ps = encode pb ps') :
    ps = ps' := List.map_injective_iff.mpr (serialize_injective pb) (frames_inj hsize h)

namespace FileHelper
variable {d : Disk} {name : String} {data : Bytes}

/-- A read inside the file succeeds when the environment lets it. -/
theorem read_faults (hf : d.file? name = some data) {offset len : Nat} (h : offset + len ≤ data.length) :
    read d name offset len = (if d.fate = .ok then some (slice data offset len) else none, d.skip 1) := by
  rw [← Disk.tick_eq_skip]
  cases hfate : d.fate with
  | ok => simp [read, hf, hfate, h]
  | fail written => simp [read, hf, hfate]
  | lost written => simp [read, hf, hfate]

theorem write_ok_eq (hf : d.file? name = some data) (hfate : d.fate = .ok) (offset : Nat) (body : Bytes) :
    write d name offset body = (true, (d.skip 1).put name (overwrite data offset body)) := by
  simp [write, hf, hfate, Disk.tick_eq_skip]

theorem write_fail_eq (hf : d.file? name = some data) {written : Nat} (hfate : d.fate = .fail written) (offset : Nat)
    (body : Bytes) : write d name offset body = (false, (d.skip 1).put name (overwrite data offset (body.take written))) := by
  simp [write, hf, hfate, Disk.tick_eq_skip]

theorem create_faults (d : Disk) (name : String) :
    create d name = if d.fate = .ok then (true, (d.skip 1).put name []) else (false, d.skip 1) := by
  rw [← Disk.tick_eq_skip]
  cases hfate : d.fate with
  | ok => simp [create, hfate]
  | fail written => simp [create, hfate]
  | lost written => simp [create, hfate]

theorem remove_faults (hf : d.file? name = some data) :
    remove d name = if d.fate = .ok then (true, (d.skip 1).drop name) else (false, d.skip 1) := by
  rw [← Disk.tick_eq_skip]
  cases hfate : d.fate with
  | ok => simp [remove, hf, hfate]
  | fail written => simp [remove, hf, hfate]
  | lost written => simp [remove, hf, hfate]

theorem rename_faults (hf : d.file? name = some data) (new : String) :
    rename d name new = if d.fate = .ok then (true, (d.skip 1).move name new data) else (false, d.skip 1) := by
  rw [← Disk.tick_eq_skip]
  cases hfate : d.fate with
  | ok => simp [rename, hf, hfate]
  | fail written => simp [rename, hf, hfate]
  | lost written => simp [rename, hf, hfate]

theorem rename_missing (hf : d.file? name = none) (new : String) : rename d name new = (false, d) := by
  simp [rename, hf]

/-- A write to a file that is there changes this file, and succeeds as far as it reports. -/
theorem write_passes (hf : (d.file? name).isSome) (offset : Nat) (body : Bytes) :
    ∃ data, write d name offset body = (d.fate.passes, (d.skip 1).put name data) := by
  obtain ⟨data, hf⟩ := Option.isSome_iff_exists.mp hf
  rw [← Disk.tick_eq_skip]
  cases hfate : d.fate with
  | ok => exact ⟨overwrite data offset body, by simp [write, hf, hfate, FileFate.passes]⟩
  | fail written => exact ⟨overwrite data offset (body.take written), by simp [write, hf, hfate, FileFate.passes]⟩
  | lost written => exact ⟨overwrite data offset (body.take written), by simp [write, hf, hfate, FileFate.passes]⟩

theorem write_missing (hf : d.file? name = none) (offset : Nat) (body : Bytes) : write d name offset body = (false, d) := by
  simp [write, hf]

end FileHelper

namespace MessageMapper
variable {pb} {d : Disk} {m : MessageMapper}

/-! ### `__load` -/

/-- The loop over well-formed records reads two times for each record, and ends at the first read that fails. -/
theorem loadLoop_faults {name : String} :
    ∀ (ps : List Payload) (pre : Bytes) (fuel : Nat) (lst : List Message) (d : Disk),
      d.file? name = some (pre ++ encode pb ps) → (pre ++ encode pb ps).length < 2 ^ 64 → ps.length ≤ fuel →
      (d.allows (2 * ps.length) = true ∧ loadLoop pb name (pre ++ encode pb ps).length fuel pre.length lst d =
        (true, lst ++ (live ps).map ({ payload := · }), d.skip (2 * ps.length))) ∨
      (d.allows (2 * ps.length) = false ∧ ∃ qs n, qs <+: live ps ∧
        loadLoop pb name (pre ++ encode pb ps).length fuel pre.length lst d =
          (false, lst ++ qs.map ({ payload := · }), d.skip n))
  | [], pre, fuel, lst, d, _, _, _ => by
    left
    refine ⟨by simp [Disk.allows], ?_⟩
    rw [loadLoop_end (by simp)]
    simp
  | p :: ps, pre, 0, lst, d, _, _, hfuel => by simp at hfuel
  | p :: ps, pre, fuel + 1, lst, d, hf, hsize, hfuel => by
    have hsplit : pre ++ encode pb (p :: ps) = (pre ++ frame (pb.serialize p)) ++ encode pb ps := by simp
    have hbody : (pb.serialize p).length < 2 ^ 64 := by
      rw [hsplit] at hsize
      simp only [List.length_append, length_frame] at hsize
      omega
    have hlen : pre.length + 8 + (pb.serialize p).length ≤ (pre ++ encode pb (p :: ps)).length := by
      rw [hsplit]
      simp only [List.length_append, length_frame]
      omega
    have hheader : pre.length + 8 ≤ (pre ++ encode pb (p :: ps)).length := by omega
    have hread₁ := FileHelper.read_faults hf hheader
    have hf₁ : (d.skip 1).file? name = some (pre ++ encode pb (p :: ps)) := hf
    have hread₂ := FileHelper.read_faults hf₁ hlen
    rw [encode_cons, slice_frame_length] at hread₁
    rw [encode_cons, slice_frame_body, Disk.skip_skip] at hread₂
    have hcount : 2 * (p :: ps).length = 1 + (1 + 2 * ps.length) := by
      rw [List.length_cons]
      omega
    rw [hcount, Disk.allows_add, Disk.allows_one, Disk.allows_add, Disk.allows_one, Disk.skip_skip, loadLoop,
      if_pos (by omega), hread₁]
    by_cases hfate₁ : d.fate = .ok
    · simp only [hfate₁, if_true, fromLe_le64 hbody, hread₂]
      by_cases hfate₂ : (d.skip 1).fate = .ok
      · -- Both reads succeed, and the loop goes on behind the record.
        simp only [hfate₂, if_true, pb.parse_serialize, decide_true, Bool.true_and]
        have hpos : pre.length + 8 + (pb.serialize p).length = (pre ++ frame (pb.serialize p)).length := by
          simp only [List.length_append, length_frame]
          omega
        have hlive : (if p.valid = "0" then lst else lst ++ [{ payload := p }]) ++ (live ps).map ({ payload := · }) =
            lst ++ (live (p :: ps)).map ({ payload := · }) := by
          by_cases hv : p.valid = "0"
          · rw [if_pos hv, live_cons_of_eq hv]
          · rw [if_neg hv, live_cons_of_ne hv, List.map_cons, List.append_assoc]
            rfl
        have hkept : ∀ qs, qs <+: live ps → ∃ qs', qs' <+: live (p :: ps) ∧
            (if p.valid = "0" then lst else lst ++ [{ payload := p }]) ++ qs.map ({ payload := · }) =
              lst ++ qs'.map ({ payload := · }) := by
          intro qs hqs
          by_cases hv : p.valid = "0"
          · exact ⟨qs, by rwa [live_cons_of_eq hv], by rw [if_pos hv]⟩
          · refine ⟨p :: qs, by rw [live_cons_of_ne hv]; exact List.cons_prefix_cons.mpr ⟨rfl, hqs⟩, ?_⟩
            rw [if_neg hv, List.map_cons, List.append_assoc]
            rfl
        rw [hpos, hsplit]
        rcases loadLoop_faults ps (pre ++ frame (pb.serialize p)) fuel
          (if p.valid = "0" then lst else lst ++ [{ payload := p }]) (d.skip (1 + 1)) (by rw [← hsplit]; exact hf)
          (by rw [← hsplit]; exact hsize) (by simpa using hfuel) with ⟨hall, hloop⟩ | ⟨hnot, qs, n, hqs, hloop⟩
        · left
          exact ⟨hall, by rw [hloop, hlive, Disk.skip_skip, Nat.add_assoc]⟩
        · right
          obtain ⟨qs', hqs', heq⟩ := hkept qs hqs
          exact ⟨hnot, qs', 1 + 1 + n, hqs', by rw [hloop, heq, Disk.skip_skip]⟩
      · right
        simp only [hfate₂, if_false, decide_false, Bool.false_and, Bool.and_false, true_and]
        exact ⟨[], 2, List.nil_prefix, by rw [List.map_nil, List.append_nil]⟩
    · right
      simp only [hfate₁, if_false, decide_false, Bool.false_and, true_and]
      exact ⟨[], 1, List.nil_prefix, by rw [List.map_nil, List.append_nil]⟩

/-- A well-formed data file loads completely when no read fails, and in part otherwise. -/
theorem load_faults {ps : List Payload} (hf : d.file? m.dataFile = some (encode pb ps))
    (hsize : (encode pb ps).length < 2 ^ 64) :
    (d.allows (2 * ps.length) = true ∧
      load pb m d = (true, (live ps).map ({ payload := · }), d.skip (2 * ps.length))) ∨
    (d.allows (2 * ps.length) = false ∧ ∃ qs n, qs <+: live ps ∧
      load pb m d = (false, qs.map ({ payload := · }), d.skip n)) := by
  have hcount : ps.length ≤ (encode pb ps).length := by
    have := length_le_frames (ps.map pb.serialize)
    rw [List.length_map] at this
    unfold encode
    omega
  rw [load, FileHelper.size_eq hf]
  exact loadLoop_faults ps [] (encode pb ps).length [] d hf hsize hcount

/-! ### `__insert` -/

variable (pb) in
/-- Both appends succeed. -/
theorem insertInto_allowed {name : String} {data : Bytes} (hf : d.file? name = some data) (hallows : d.allows 2 = true)
    (msg : Message) :
    ∃ d', insertInto pb name msg d = (true, msg.setPlace (data.length + 8) (pb.serialize msg.payload).length, d') ∧
      d'.file? name = some (data ++ frame (pb.serialize msg.payload)) ∧ d'.fates = d.fates.drop 2 := by
  rw [show 2 = 1 + 1 from rfl, Disk.allows_add, Disk.allows_one, Disk.allows_one, Bool.and_eq_true, decide_eq_true_eq,
    decide_eq_true_eq] at hallows
  obtain ⟨hfate₁, hfate₂⟩ := hallows
  have hwrite₁ := FileHelper.write_ok_eq hf hfate₁ data.length (le64 (pb.serialize msg.payload).length)
  rw [overwrite_end] at hwrite₁
  have hfate₂' : ((d.skip 1).put name (data ++ le64 (pb.serialize msg.payload).length)).fate = .ok := hfate₂
  have hwrite₂ := FileHelper.write_ok_eq (Disk.file?_put_self _) hfate₂' (data.length + 8) (pb.serialize msg.payload)
  have hend : overwrite (data ++ le64 (pb.serialize msg.payload).length) (data.length + 8) (pb.serialize msg.payload) =
      data ++ frame (pb.serialize msg.payload) := by
    have : data.length + 8 = (data ++ le64 (pb.serialize msg.payload).length).length := by simp
    rw [this, overwrite_end, frame, List.append_assoc]
  rw [hend] at hwrite₂
  refine ⟨(((d.skip 1).put name (data ++ le64 (pb.serialize msg.payload).length)).skip 1).put name
    (data ++ frame (pb.serialize msg.payload)), ?_, Disk.file?_put_self _, ?_⟩
  · simp only [insertInto, FileHelper.size_eq hf, hwrite₁, hwrite₂]
  · exact List.drop_drop

variable (pb) in
/-- What `__insert` reports is what its two appends report. -/
theorem insertInto_passes {name : String} (hf : (d.file? name).isSome) (msg : Message) :
    (insertInto pb name msg d).1 = d.passes 2 ∧
      (d.passes 2 = true → (insertInto pb name msg d).2.2.fates = d.fates.drop 2 ∧
        ((insertInto pb name msg d).2.2.file? name).isSome) := by
  obtain ⟨data₁, hwrite₁⟩ :=
    FileHelper.write_passes hf (FileHelper.size d name) (le64 (pb.serialize msg.payload).length)
  have hf₁ : (((d.skip 1).put name data₁).file? name).isSome := by rw [Disk.file?_put_self, Option.isSome_some]
  obtain ⟨data₂, hwrite₂⟩ := FileHelper.write_passes hf₁ (FileHelper.size d name + 8) (pb.serialize msg.payload)
  have hfate₂ : ((d.skip 1).put name data₁).fate = (d.skip 1).fate := rfl
  rw [hfate₂] at hwrite₂
  rw [Disk.passes_two]
  unfold insertInto
  dsimp only
  rw [hwrite₁]
  cases hpass₁ : d.fate.passes with
  | false => exact ⟨rfl, fun h => absurd h Bool.false_ne_true⟩
  | true =>
    dsimp only
    rw [hwrite₂]
    cases hpass₂ : (d.skip 1).fate.passes with
    | false => exact ⟨rfl, fun h => absurd h Bool.false_ne_true⟩
    | true =>
      refine ⟨rfl, fun _ => ⟨?_, ?_⟩⟩
      · exact List.drop_drop
      · dsimp only
        rw [Disk.file?_put_self, Option.isSome_some]

variable (pb) in
/-- One of the appends reports a failure. -/
theorem insertInto_failed {name : String} (h : ¬((d.file? name).isSome ∧ d.passes 2 = true)) (msg : Message) :
    (insertInto pb name msg d).1 = false := by
  cases hf : d.file? name with
  | none => simp only [insertInto, FileHelper.write_missing hf]
  | some data =>
    have hsome : (d.file? name).isSome := by rw [hf, Option.isSome_some]
    rw [(insertInto_passes pb hsome msg).1]
    exact Bool.eq_false_iff.mpr fun hpasses => h ⟨hsome, hpasses⟩

variable (pb) in
/-- One of the appends fails. -/
theorem insertInto_refused {name : String} (hd : d.Reliable) (h : ¬((d.file? name).isSome ∧ d.allows 2 = true))
    (msg : Message) : (insertInto pb name msg d).1 = false :=
  insertInto_failed pb (by rwa [hd.passes]) msg

variable (pb) in
/-- A record that is refused while its length is not lost leaves some first bytes of its frame behind, and none only when
    the first write fails at once. -/
theorem insertInto_torn {name : String} {data : Bytes} (hf : d.file? name = some data) {msg : Message}
    (hlength : ∀ written, d.fate ≠ .lost written) (hrefused : (insertInto pb name msg d).1 = false) :
    ∃ torn, (insertInto pb name msg d).2.2.file? name = some (data ++ torn) ∧ torn <+: frame (pb.serialize msg.payload) ∧
      (torn = [] ↔ d.fate = .fail 0) := by
  obtain ⟨body, hbody⟩ : ∃ body, pb.serialize msg.payload = body := ⟨_, rfl⟩
  simp only [insertInto, FileHelper.size_eq hf, hbody] at hrefused ⊢
  cases hfate₁ : d.fate with
  | fail written =>
    rw [FileHelper.write_fail_eq hf hfate₁, overwrite_end]
    refine ⟨_, Disk.file?_put_self _, (List.take_prefix _ _).trans (List.prefix_append _ _), ?_⟩
    rw [List.take_eq_nil_iff, FileFate.fail.injEq, or_iff_left (le64_ne_nil _)]
  | lost written => exact absurd hfate₁ (hlength written)
  | ok =>
    rw [FileHelper.write_ok_eq hf hfate₁, overwrite_end] at hrefused ⊢
    have hf₁ : ((d.skip 1).put name (data ++ le64 body.length)).file? name = some (data ++ le64 body.length) :=
      Disk.file?_put_self _
    have hpos : data.length + 8 = (data ++ le64 body.length).length := by simp
    cases hfate₂ : ((d.skip 1).put name (data ++ le64 body.length)).fate with
    | fail written =>
      dsimp only
      rw [FileHelper.write_fail_eq hf₁ hfate₂, hpos, overwrite_end, List.append_assoc]
      refine ⟨_, Disk.file?_put_self _, (List.prefix_append_right_inj _).mpr (List.take_prefix _ _), ?_⟩
      exact ⟨fun h => absurd (List.append_eq_nil_iff.mp h).1 (le64_ne_nil _), fun h => by cases h⟩
    | ok =>
      dsimp only at hrefused
      rw [FileHelper.write_ok_eq hf₁ hfate₂] at hrefused
      cases hrefused
    | lost written =>
      obtain ⟨data₂, hwrite⟩ := FileHelper.write_passes (by rw [hf₁, Option.isSome_some]) (data.length + 8) body
      dsimp only at hrefused
      rw [hwrite, hfate₂] at hrefused
      cases hrefused

variable (pb) in
theorem insertAll_faults {name : String} : ∀ (ps : List Payload) {d : Disk} {data : Bytes}, d.Reliable →
    d.file? name = some data →
    (d.allows (2 * ps.length) = true ∧ ∃ d', insertAll pb name (ps.map ({ payload := · })) d =
      (true, placedFrom pb data.length ps, d') ∧ d'.file? name = some (data ++ encode pb ps) ∧
      d'.fates = d.fates.drop (2 * ps.length)) ∨
    (d.allows (2 * ps.length) = false ∧ (insertAll pb name (ps.map ({ payload := · })) d).1 = false)
  | [], d, data, _, hf => Or.inl ⟨by simp [Disk.allows], d, rfl, by simpa using hf, rfl⟩
  | p :: ps, d, data, hd, hf => by
    have hcount : 2 * (p :: ps).length = 2 + 2 * ps.length := by
      rw [List.length_cons]
      omega
    rw [hcount, Disk.allows_add]
    cases hallows : d.allows 2 with
    | false =>
      right
      refine ⟨rfl, ?_⟩
      have hrefused : (insertInto pb name { payload := p } d).1 = false :=
        insertInto_refused pb hd (by simp [hallows]) _
      rw [List.map_cons, insertAll]
      split
      · rfl
      · next heq =>
        rw [heq] at hrefused
        cases hrefused
    | true =>
      obtain ⟨d₁, hinsert, hf₁, hfates₁⟩ := insertInto_allowed pb hf hallows { payload := p }
      have hskip : (d.skip 2).allows (2 * ps.length) = d₁.allows (2 * ps.length) := by
        unfold Disk.allows
        rw [hfates₁]
        rfl
      have hlen : (data ++ frame (pb.serialize p)).length = data.length + 8 + (pb.serialize p).length := by
        simp only [List.length_append, length_frame]
        omega
      rw [Bool.true_and, hskip]
      obtain ⟨hall, d', hrest, hf', hfates'⟩ | ⟨hnot, hrest⟩ := insertAll_faults ps (hd.of_fates hfates₁) hf₁
      · left
        refine ⟨hall, d', ?_, by simpa using hf', ?_⟩
        · simp only [List.map_cons, insertAll, hinsert, hrest, hlen, placedFrom]
        · rw [hfates', hfates₁, List.drop_drop]
      · right
        refine ⟨hnot, ?_⟩
        simp only [List.map_cons, insertAll, hinsert]
        exact hrest

variable (pb) in
theorem length_insertAll (name : String) : ∀ (lst : List Message) (d : Disk),
    (insertAll pb name lst d).2.1.length = lst.length
  | [], _ => rfl
  | msg :: lst, d => by
    rw [insertAll]
    split
    · rfl
    · next msg' d₁ hinsert => exact congrArg (· + 1) (length_insertAll name lst d₁)

/-! ### `gc` -/

/-- No file operation fails in a compaction that reads `total` records and keeps `valid` of them. An empty temporary
    file that is there already need not be created. -/
def completes (m : MessageMapper) (total valid : Nat) (d : Disk) : Bool :=
  d.allows (2 * total) && ((d.skip (2 * total)).fate = .ok || d.file? m.tmpFile = some []) &&
    (d.skip (2 * total + 1)).allows (2 * valid + 2)

/-- What stands under the name of the data file after a compaction that is not complete. -/
inductive Damaged (pb : PayloadCodec) (ps : List Payload) : Option Bytes → Prop
  | same : Damaged pb ps (some (encode pb ps))
  | gone : Damaged pb ps none
  /-- The temporary file of an earlier compaction was not replaced. -/
  | mixed (rest : Bytes) (hne : rest ≠ []) : Damaged pb ps (some (rest ++ encode pb (live ps)))

/-- The steps of a compaction behind `__load`. -/
theorem gc_of_load {lst : List Message} {d₁ : Disk} (hload : load pb m d = (true, lst, d₁)) :
    m.gc pb d =
      match insertAll pb m.tmpFile lst (FileHelper.create d₁ m.tmpFile).2 with
      | (false, lst, d) => (lst, d)
      | (true, lst, d) =>
        match FileHelper.remove d m.dataFile with
        | (false, d) => (lst, d)
        | (true, d) => (lst, (FileHelper.rename d m.tmpFile m.dataFile).2) := by
  rewrite [gc, hload]
  rfl

/-- When all records could be read, as many messages are returned as were loaded. -/
theorem length_gc_of_load {lst : List Message} {d₁ : Disk} (hload : load pb m d = (true, lst, d₁)) :
    (m.gc pb d).1.length = lst.length := by
  rw [gc_of_load hload]
  have hlen := length_insertAll pb m.tmpFile lst (FileHelper.create d₁ m.tmpFile).2
  split
  · next heq =>
    rw [heq] at hlen
    exact hlen
  · next heq =>
    rw [heq] at hlen
    split
    · exact hlen
    · exact hlen

/-- The disk after the creation of the temporary file, which is not looked at. -/
theorem create_tmpFile (hne : resolve m.tmpFile ≠ resolve m.dataFile) (d : Disk) :
    ∃ d', (FileHelper.create d m.tmpFile).2 = d' ∧ d'.fates = d.fates.drop 1 ∧
      d'.file? m.dataFile = d.file? m.dataFile ∧
      d'.file? m.tmpFile = if d.fate = .ok then some [] else d.file? m.tmpFile := by
  rw [FileHelper.create_faults]
  split
  · exact ⟨_, rfl, rfl, Disk.file?_put_ne hne.symm [], Disk.file?_put_self []⟩
  · exact ⟨_, rfl, rfl, rfl, rfl⟩

/-- The last two steps of a compaction install the temporary file, or the data file stays or is gone. -/
theorem install_faults (hne : resolve m.tmpFile ≠ resolve m.dataFile) {data : Bytes} (hf : d.file? m.dataFile = some data)
    (lst : List Message) :
    ∃ d', (match FileHelper.remove d m.dataFile with
        | (false, d) => (lst, d)
        | (true, d) => (lst, (FileHelper.rename d m.tmpFile m.dataFile).2)) = (lst, d') ∧
      ((d.allows 2 = true ∧ (d.file? m.tmpFile).isSome ∧ d'.file? m.dataFile = d.file? m.tmpFile) ∨
        ((d.allows 2 = false ∨ d.file? m.tmpFile = none) ∧
          (d'.file? m.dataFile = some data ∨ d'.file? m.dataFile = none))) := by
  rw [show 2 = 1 + 1 from rfl, Disk.allows_add, Disk.allows_one, Disk.allows_one, FileHelper.remove_faults hf]
  by_cases hfate₁ : d.fate = .ok
  · simp only [hfate₁, if_true, decide_true, Bool.true_and]
    have hdrop : ((d.skip 1).drop m.dataFile).file? m.tmpFile = d.file? m.tmpFile := Disk.file?_drop_ne hne
    cases htmp : d.file? m.tmpFile with
    | none =>
      rw [FileHelper.rename_missing (by rw [hdrop, htmp])]
      exact ⟨_, rfl, Or.inr ⟨Or.inr rfl, Or.inr Disk.file?_drop_self⟩⟩
    | some rest =>
      rw [FileHelper.rename_faults (by rw [hdrop, htmp])]
      by_cases hfate₂ : (d.skip 1).fate = .ok
      · rw [if_pos (show ((d.skip 1).drop m.dataFile).fate = .ok from hfate₂)]
        exact ⟨_, rfl, Or.inl ⟨decide_eq_true hfate₂, rfl, Disk.file?_move_self rest⟩⟩
      · rw [if_neg (show ((d.skip 1).drop m.dataFile).fate ≠ .ok from hfate₂)]
        exact ⟨_, rfl, Or.inr ⟨Or.inl (decide_eq_false hfate₂), Or.inr Disk.file?_drop_self⟩⟩
  · simp only [hfate₁, if_false, decide_false, Bool.false_and]
    exact ⟨_, rfl, Or.inr ⟨Or.inl trivial, Or.inl hf⟩⟩

theorem Damaged.of_kept {ps : List Payload} {data : Option Bytes} (h : data = some (encode pb ps) ∨ data = none) :
    Damaged pb ps data := by
  obtain rfl | rfl := h
  · exact .same
  · exact .gone

/-- A compaction is complete, or it damages the queue. -/
theorem gc_faults (hd : d.Reliable) (hne : resolve m.tmpFile ≠ resolve m.dataFile) {ps : List Payload}
    (hf : d.file? m.dataFile = some (encode pb ps)) (hsize : (encode pb ps).length < 2 ^ 64) :
    (m.completes ps.length (live ps).length d = true ∧ ∃ d', m.gc pb d = (placedFrom pb 0 (live ps), d') ∧
      d'.file? m.dataFile = some (encode pb (live ps))) ∨
    (m.completes ps.length (live ps).length d = false ∧ Damaged pb ps ((m.gc pb d).2.file? m.dataFile)) := by
  unfold completes
  obtain ⟨hall, hload⟩ | ⟨hnot, qs, n, -, hload⟩ := load_faults hf hsize
  swap
  · right
    rw [hnot, Bool.false_and, Bool.false_and]
    refine ⟨rfl, ?_⟩
    simp only [gc, hload]
    rw [Disk.file?_skip, hf]
    exact .same
  rw [hall, Bool.true_and, gc_of_load hload]
  obtain ⟨d₂, hd₂, hfates₂, hf₂, htmp₂⟩ := create_tmpFile hne (d.skip (2 * ps.length))
  have hreliable : d₂.Reliable := (hd.skip (2 * ps.length)).of_fates hfates₂
  rw [Disk.file?_skip, hf] at hf₂
  rw [Disk.file?_skip] at htmp₂
  have hallows : (d.skip (2 * ps.length + 1)).allows (2 * (live ps).length + 2) =
      d₂.allows (2 * (live ps).length + 2) := by
    rw [← Disk.skip_skip]
    unfold Disk.allows
    rw [hfates₂]
    rfl
  rw [hd₂, hallows, Disk.allows_add]
  have hf₃ := (insertAll_only pb m.tmpFile ((live ps).map ({ payload := · })) d₂).file?_eq (m.dataFile_notMem_tmpFile hne)
  rw [hf₂] at hf₃
  cases htmp : d₂.file? m.tmpFile with
  | none =>
    -- The temporary file is missing: nothing is written, and nothing can be renamed.
    have hmissing : (decide ((d.skip (2 * ps.length)).fate = .ok) || decide (d.file? m.tmpFile = some [])) = false := by
      rw [htmp] at htmp₂
      split at htmp₂
      · cases htmp₂
      · next hfate =>
        rw [decide_eq_false hfate, ← htmp₂]
        rfl
    rw [hmissing, Bool.false_and]
    refine Or.inr ⟨rfl, ?_⟩
    cases hlive : live ps with
    | nil =>
      obtain ⟨d', hinstall, ⟨-, hsome, -⟩ | ⟨-, hkept⟩⟩ := install_faults hne hf₂ []
      · rw [htmp] at hsome
        cases hsome
      · simp only [List.map_nil, insertAll]
        rw [hinstall]
        exact .of_kept hkept
    | cons p qs =>
      have hrefused : insertAll pb m.tmpFile ((p :: qs).map ({ payload := · })) d₂ =
          (false, (p :: qs).map ({ payload := · }), d₂) := by
        simp [insertAll, insertInto, FileHelper.write, htmp]
      simp only [hrefused, hf₂]
      exact .same
  | some rest =>
    have hempty : (decide ((d.skip (2 * ps.length)).fate = .ok) || decide (d.file? m.tmpFile = some [])) =
        decide (rest = []) := by
      rw [htmp] at htmp₂
      split at htmp₂
      · next hfate =>
        rw [Option.some.injEq] at htmp₂
        simp [hfate, htmp₂]
      · next hfate =>
        rw [← htmp₂]
        simp [hfate]
    rw [hempty]
    obtain ⟨hall₃, d₃, hinsert, htmp₃, hfates₃⟩ | ⟨hnot, hrefused⟩ := insertAll_faults pb (live ps) hreliable htmp
    swap
    · right
      rw [hnot, Bool.false_and, Bool.and_false]
      refine ⟨rfl, ?_⟩
      split
      · next heq =>
        rw [heq] at hf₃
        rw [hf₃]
        exact .same
      · next heq =>
        rw [heq] at hrefused
        cases hrefused
    rw [hinsert] at hf₃
    have hskip : (d₂.skip (2 * (live ps).length)).allows 2 = d₃.allows 2 := by
      unfold Disk.allows
      rw [hfates₃]
      rfl
    rw [hall₃, Bool.true_and, hskip]
    obtain ⟨d', hinstall, ⟨hlast, -, hdata⟩ | ⟨hnot, hkept⟩⟩ := install_faults hne hf₃ (placedFrom pb rest.length (live ps))
    · simp only [hinsert, hinstall, hlast, Bool.and_true]
      rw [htmp₃] at hdata
      by_cases hrest : rest = []
      · subst hrest
        exact Or.inl ⟨decide_eq_true rfl, d', rfl, hdata⟩
      · exact Or.inr ⟨decide_eq_false hrest, hdata ▸ .mixed rest hrest⟩
    · right
      simp only [hinsert, hinstall]
      rw [hnot.resolve_right (by rw [htmp₃]; exact Option.some_ne_none _), Bool.and_false]
      exact ⟨rfl, .of_kept hkept⟩

end MessageMapper
end HareMQ
