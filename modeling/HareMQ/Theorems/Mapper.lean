import HareMQ.Message

/-! # The data file

What the operations of `message_mapper` do on a disk where every operation succeeds. The data file is a
sequence of frames, one for each stored payload; a payload is live unless its flag is `"0"`. -/

namespace HareMQ
open Lib

namespace FileHelper
variable {d : Disk} {name : String} {data : Bytes}

theorem size_eq (hf : d.file? name = some data) : size d name = data.length := by
  simp [size, hf]

theorem read_eq (hd : d.Calm) (hf : d.file? name = some data) (offset len : Nat) :
    read d name offset len = (if len = 0 ∨ offset + len ≤ data.length then some (slice data offset len) else none, d) := by
  simp [read, hf, hd.fate, hd.tick]

theorem read_of_le (hd : d.Calm) (hf : d.file? name = some data) {offset len : Nat} (h : offset + len ≤ data.length) :
    read d name offset len = (some (slice data offset len), d) := by
  rw [read_eq hd hf, if_pos (Or.inr h)]

theorem read_of_lt (hd : d.Calm) (hf : d.file? name = some data) {offset len : Nat} (h0 : len ≠ 0)
    (h : data.length < offset + len) : read d name offset len = (none, d) := by
  rw [read_eq hd hf, if_neg (by omega)]

theorem write_eq (hd : d.Calm) (hf : d.file? name = some data) (offset : Nat) (body : Bytes) :
    write d name offset body = (true, d.put name (overwrite data offset body)) := by
  simp [write, hf, hd.fate, hd.tick]

theorem create_eq (hd : d.Calm) : create d name = (true, d.put name []) := by
  simp [create, hd.fate, hd.tick]

theorem remove_eq (hd : d.Calm) (hf : d.file? name = some data) : remove d name = (true, d.drop name) := by
  simp [remove, hf, hd.fate, hd.tick]

theorem rename_eq (hd : d.Calm) (hf : d.file? name = some data) (new : String) :
    rename d name new = (true, d.move name new data) := by
  simp [rename, hf, hd.fate, hd.tick]

end FileHelper

variable (pb : PayloadCodec)

/-- The data file that holds the given payloads. -/
def encode (ps : List Payload) : Bytes := frames (ps.map pb.serialize)

@[simp] theorem encode_nil : encode pb [] = [] := rfl

@[simp] theorem encode_cons (p : Payload) (ps : List Payload) :
    encode pb (p :: ps) = frame (pb.serialize p) ++ encode pb ps := by simp [encode]

@[simp] theorem encode_append (ps qs : List Payload) : encode pb (ps ++ qs) = encode pb ps ++ encode pb qs := by
  simp [encode]

theorem length_encode_filter_le (f : Payload → Bool) (ps : List Payload) :
    (encode pb (ps.filter f)).length ≤ (encode pb ps).length :=
  length_frames_le_of_sublist (List.filter_sublist.map _)

theorem length_encode_replicate (n : Nat) (p : Payload) :
    (encode pb (List.replicate n p)).length = n * (8 + (pb.serialize p).length) := by
  induction n with
  | zero => rw [List.replicate_zero, encode_nil, List.length_nil, Nat.zero_mul]
  | succ n ih => rw [List.replicate_succ, encode_cons, List.length_append, length_frame, ih, Nat.succ_mul, Nat.add_comm]

/-- The payloads that `__load` keeps. -/
def live (ps : List Payload) : List Payload := ps.filter fun p => p.valid ≠ "0"

@[simp] theorem live_nil : live [] = [] := rfl

theorem live_cons_of_ne {p : Payload} (h : p.valid ≠ "0") (ps : List Payload) : live (p :: ps) = p :: live ps := by
  simp [live, h]

theorem live_cons_of_eq {p : Payload} (h : p.valid = "0") (ps : List Payload) : live (p :: ps) = live ps := by
  simp [live, h]

@[simp] theorem live_append (ps qs : List Payload) : live (ps ++ qs) = live ps ++ live qs := by simp [live]

theorem live_live (ps : List Payload) : live (live ps) = live ps := by simp [live]

/-- The messages of consecutive records that start at `base`. -/
def placedFrom (base : Nat) : List Payload → List Message
  | [] => []
  | p :: ps =>
    ({ payload := p } : Message).setPlace (base + 8) (pb.serialize p).length ::
      placedFrom (base + 8 + (pb.serialize p).length) ps

@[simp] theorem length_placedFrom (base : Nat) (ps : List Payload) : (placedFrom pb base ps).length = ps.length := by
  induction ps generalizing base with
  | nil => rfl
  | cons p ps ih => simp [placedFrom, ih]

theorem map_payload_placedFrom (base : Nat) (ps : List Payload) : (placedFrom pb base ps).map (·.payload) = ps := by
  induction ps generalizing base with
  | nil => rfl
  | cons p ps ih => simp [placedFrom, ih]

namespace MessageMapper
variable {pb} {d : Disk} {m : MessageMapper}

/-! ### `__load` -/

/-- At the end of the file the loop stops, whatever fuel is left. -/
theorem loadLoop_end {name : String} {fsize offset : Nat} (h : fsize ≤ offset) (fuel : Nat) (lst : List Message) :
    loadLoop pb name fsize fuel offset lst d = (true, lst, d) := by
  cases fuel with
  | zero => rfl
  | succ fuel => simp [loadLoop, Nat.not_lt.mpr h]

/-- The loop passes over well-formed records one by one and keeps the live ones. -/
theorem loadLoop_encode {name : String} (hd : d.Calm) (rest : Bytes) :
    ∀ (ps : List Payload) (pre : Bytes) (fuel : Nat) (lst : List Message),
      d.file? name = some (pre ++ (encode pb ps ++ rest)) → (pre ++ (encode pb ps ++ rest)).length < 2 ^ 64 →
      ps.length ≤ fuel →
      loadLoop pb name (pre ++ (encode pb ps ++ rest)).length fuel pre.length lst d =
        loadLoop pb name (pre ++ (encode pb ps ++ rest)).length (fuel - ps.length) (pre ++ encode pb ps).length
          (lst ++ (live ps).map ({ payload := · })) d
  | [], pre, fuel, lst, _, _, _ => by simp
  | p :: ps, pre, 0, lst, _, _, hfuel => by simp at hfuel
  | p :: ps, pre, fuel + 1, lst, hf, hsize, hfuel => by
    -- The file seen from the next record: this record's frame joins what was already read.
    have hsplit : pre ++ (encode pb (p :: ps) ++ rest) = (pre ++ frame (pb.serialize p)) ++ (encode pb ps ++ rest) := by
      simp
    have hbody : (pb.serialize p).length < 2 ^ 64 := by
      rw [hsplit] at hsize
      simp only [List.length_append, length_frame] at hsize
      omega
    have hlen : pre.length + 8 + (pb.serialize p).length ≤ (pre ++ (encode pb (p :: ps) ++ rest)).length := by
      rw [hsplit]
      simp only [List.length_append, length_frame]
      omega
    have hread₁ : FileHelper.read d name pre.length 8 = (some (le64 (pb.serialize p).length), d) := by
      rw [FileHelper.read_of_le hd hf (by omega), encode_cons, List.append_assoc, slice_frame_length]
    have hread₂ : FileHelper.read d name (pre.length + 8) (pb.serialize p).length = (some (pb.serialize p), d) := by
      rw [FileHelper.read_of_le hd hf hlen, encode_cons, List.append_assoc, slice_frame_body]
    rw [loadLoop, if_pos (by omega), hread₁]
    simp only [fromLe_le64 hbody, hread₂, pb.parse_serialize]
    have hpos : pre.length + 8 + (pb.serialize p).length = (pre ++ frame (pb.serialize p)).length := by
      simp only [List.length_append, length_frame]
      omega
    rw [hpos, hsplit, loadLoop_encode hd rest ps _ fuel _ (hsplit ▸ hf) (hsplit ▸ hsize) (by simpa using hfuel)]
    have hfuel' : fuel + 1 - (p :: ps).length = fuel - ps.length := by simp
    by_cases hv : p.valid = "0"
    · simp [hv, live_cons_of_eq hv]
    · simp [hv, live_cons_of_ne hv]

/-- A well-formed data file loads completely. -/
theorem load_encode (hd : d.Calm) {ps : List Payload} (hf : d.file? m.dataFile = some (encode pb ps))
    (hsize : (encode pb ps).length < 2 ^ 64) :
    load pb m d = (true, (live ps).map ({ payload := · }), d) := by
  have hcount : ps.length ≤ (encode pb ps).length := by
    have := length_le_frames (ps.map pb.serialize)
    rw [List.length_map] at this
    unfold encode
    omega
  have h := loadLoop_encode hd [] ps [] (encode pb ps).length [] (by simpa using hf) (by simpa using hsize) hcount
  rw [load, FileHelper.size_eq hf]
  simp only [List.nil_append, List.append_nil, List.length_nil] at h
  rw [h, loadLoop_end (by simp)]

/-- A nonempty proper prefix of a frame ends the loop with an error. -/
theorem loadLoop_torn {name : String} (hd : d.Calm) {pre torn body : Bytes} (hf : d.file? name = some (pre ++ torn))
    (htorn : torn <+: frame body) (hne : torn ≠ []) (hproper : torn ≠ frame body) (hbody : body.length < 2 ^ 64)
    {fuel : Nat} (hfuel : 0 < fuel) (lst : List Message) :
    loadLoop pb name (pre ++ torn).length fuel pre.length lst d = (false, lst, d) := by
  obtain ⟨fuel, rfl⟩ : ∃ k, fuel = k + 1 := ⟨fuel - 1, by omega⟩
  have hpos : 0 < torn.length := List.length_pos_iff.mpr hne
  have hshort : torn.length < 8 + body.length := by
    have hle := htorn.length_le
    rw [length_frame] at hle
    have hne' : torn.length ≠ 8 + body.length := fun h => hproper (htorn.eq_of_length (by rw [h, length_frame]))
    omega
  rw [loadLoop, if_pos (by rw [List.length_append]; omega)]
  by_cases h8 : torn.length < 8
  · rw [FileHelper.read_of_lt hd hf (by omega) (by rw [List.length_append]; omega)]
  · -- The length field is complete, so the body is what is missing.
    have hlenfield : slice (pre ++ torn) pre.length 8 = le64 body.length := by
      obtain ⟨rest, hrest⟩ := htorn
      have htake : torn.take 8 = le64 body.length := by
        have := congrArg (List.take 8) hrest
        rw [List.take_append_of_le_length (by omega), frame, List.take_left' (by simp)] at this
        exact this
      rw [slice, List.drop_left, htake]
    rw [FileHelper.read_of_le hd hf (by rw [List.length_append]; omega), hlenfield]
    simp only [fromLe_le64 hbody]
    rw [FileHelper.read_of_lt hd hf (by omega) (by rw [List.length_append]; omega)]

/-- A torn record at the end: the complete records are loaded, and the result is an error. -/
theorem load_torn (hd : d.Calm) {ps : List Payload} {torn body : Bytes}
    (hf : d.file? m.dataFile = some (encode pb ps ++ torn)) (hsize : (encode pb ps ++ frame body).length < 2 ^ 64)
    (htorn : torn <+: frame body) (hne : torn ≠ []) (hproper : torn ≠ frame body) :
    load pb m d = (false, (live ps).map ({ payload := · }), d) := by
  have hle : (encode pb ps ++ torn).length ≤ (encode pb ps ++ frame body).length := by
    have := htorn.length_le
    simp only [List.length_append]
    omega
  have hpos : 0 < torn.length := List.length_pos_iff.mpr hne
  have hcount : ps.length < (encode pb ps ++ torn).length := by
    have := length_le_frames (ps.map pb.serialize)
    rw [List.length_map] at this
    rw [List.length_append]
    unfold encode
    omega
  have h := loadLoop_encode hd torn ps [] (encode pb ps ++ torn).length [] (by simpa using hf)
    (by simpa using lt_of_le_of_lt hle hsize) (by omega)
  rw [load, FileHelper.size_eq hf]
  simp only [List.nil_append, List.length_nil] at h
  rw [h]
  refine loadLoop_torn hd hf htorn hne hproper ?_ (by omega) _
  rw [List.length_append, length_frame] at hsize
  omega

/-! ### `__insert` -/

variable (pb) in
theorem insertInto_eq (hd : d.Calm) {name : String} {data : Bytes} (hf : d.file? name = some data) (msg : Message) :
    ∃ d', insertInto pb name msg d = (true, msg.setPlace (data.length + 8) (pb.serialize msg.payload).length, d') ∧
      d'.file? name = some (data ++ frame (pb.serialize msg.payload)) ∧ Disk.Writes name 2 d d' := by
  -- The disk between the two writes: the length stands alone at the end.
  have hd₁ : (d.put name (data ++ le64 (pb.serialize msg.payload).length)).Calm := hd.put _
  have hw₁ := FileHelper.write_eq hd hf data.length (le64 (pb.serialize msg.payload).length)
  have hw₂ := FileHelper.write_eq hd₁ (Disk.file?_put_self _) (data.length + 8) (pb.serialize msg.payload)
  have hend : overwrite (data ++ le64 (pb.serialize msg.payload).length) (data.length + 8) (pb.serialize msg.payload) =
      data ++ frame (pb.serialize msg.payload) := by
    have : data.length + 8 = (data ++ le64 (pb.serialize msg.payload).length).length := by simp
    rw [this, overwrite_end, frame, List.append_assoc]
  rw [overwrite_end] at hw₁
  rw [hend] at hw₂
  refine ⟨(d.put name (data ++ le64 (pb.serialize msg.payload).length)).put name
    (data ++ frame (pb.serialize msg.payload)), ?_, Disk.file?_put_self _,
    (Disk.Writes.put name d _).trans (Disk.Writes.put name _ _)⟩
  simp only [insertInto, FileHelper.size_eq hf, hw₁, hw₂]

variable (pb) in
theorem insertAll_eq {name : String} : ∀ (ps : List Payload) {d : Disk} {data : Bytes}, d.Calm → d.file? name = some data →
    ∃ d', insertAll pb name (ps.map ({ payload := · })) d = (true, placedFrom pb data.length ps, d') ∧
      d'.file? name = some (data ++ encode pb ps) ∧ Disk.Writes name (2 * ps.length) d d'
  | [], d, data, _, hf => ⟨d, rfl, by simpa using hf, Disk.Writes.refl name d⟩
  | p :: ps, d, data, hd, hf => by
    obtain ⟨d₁, h₁, hf₁, hw₁⟩ := insertInto_eq pb hd hf { payload := p }
    have hd₁ : d₁.Calm := hw₁.fates.trans hd
    obtain ⟨d₂, h₂, hf₂, hw₂⟩ := insertAll_eq ps hd₁ hf₁
    have hlen : (data ++ frame (pb.serialize p)).length = data.length + 8 + (pb.serialize p).length := by
      simp only [List.length_append, length_frame]
      omega
    refine ⟨d₂, ?_, by simpa using hf₂, ?_⟩
    · simp only [List.map_cons, insertAll, h₁, h₂, hlen, placedFrom]
    · have := hw₁.trans hw₂
      rwa [show 2 + 2 * ps.length = 2 * (p :: ps).length by simp; omega] at this

/-! ### `remove` -/

variable (pb) in
/-- A record of unchanged length is overwritten in place. -/
theorem remove_eq (hd : d.Calm) {pre post : Bytes} (msg : Message)
    (hlen : (pb.serialize (msg.payload.setValid "0")).length = (pb.serialize msg.payload).length)
    (hf : d.file? m.dataFile = some (pre ++ (frame (pb.serialize msg.payload) ++ post)))
    (hoffset : msg.offset = pre.length + 8) (hlength : msg.length = (pb.serialize msg.payload).length) :
    remove pb m msg d = (true, { msg with payload := msg.payload.setValid "0" },
      d.put m.dataFile (pre ++ (frame (pb.serialize (msg.payload.setValid "0")) ++ post))) := by
  unfold remove
  simp only [hlen, hlength, ne_eq, not_true_eq_false, if_false]
  rw [FileHelper.write_eq hd hf, hoffset, overwrite_frame_body hlen]

/-! ### `gc` -/

/-- The files that a complete compaction leaves. -/
structure Compacted (pb : PayloadCodec) (m : MessageMapper) (ps : List Payload) (d d' : Disk) : Prop where
  fates : d'.fates = d.fates
  dirs : d'.dirs = d.dirs
  data : d'.file? m.dataFile = some (encode pb (live ps))
  others : ∀ p, p ≠ resolve m.dataFile → p ≠ resolve m.tmpFile → d'.files p = d.files p

/-- The contents that a compaction passes through: while the temporary file grows the data file is
    untouched, then it is gone, and then it is the compacted file. -/
structure Images (pb : PayloadCodec) (m : MessageMapper) (ps : List Payload) (files : Files) (images : List Files) : Prop where
  growing : ∀ n < 2 * (live ps).length + 1, ∃ image, images[n]? = some image ∧
    image (resolve m.dataFile) = files (resolve m.dataFile)
  removed : ∃ image, images[2 * (live ps).length + 1]? = some image ∧ image (resolve m.dataFile) = none
  renamed : ∃ image, images[2 * (live ps).length + 2]? = some image ∧
    image (resolve m.dataFile) = some (encode pb (live ps))
  length : images.length = 2 * (live ps).length + 3

/-- The images of a compaction, from those of its writes to the temporary file. -/
theorem Images.of_growing {ps : List Payload} {files : Files} {images : List Files} (removed renamed : Files)
    (hlen : images.length = 2 * (live ps).length + 1)
    (hgrowing : ∀ image ∈ images, image (resolve m.dataFile) = files (resolve m.dataFile))
    (hremoved : removed (resolve m.dataFile) = none)
    (hrenamed : renamed (resolve m.dataFile) = some (encode pb (live ps))) :
    Images pb m ps files (images ++ [removed, renamed]) where
  growing n hn := by
    have hn' : n < images.length := by omega
    exact ⟨images[n], by rw [List.getElem?_append_left hn', List.getElem?_eq_getElem hn'],
      hgrowing _ (List.getElem_mem hn')⟩
  removed := ⟨removed, by rw [← hlen, List.getElem?_append_right (Nat.le_refl _), Nat.sub_self]; rfl, hremoved⟩
  renamed := by
    refine ⟨renamed, ?_, hrenamed⟩
    rw [List.getElem?_append_right (by omega), show 2 * (live ps).length + 2 - images.length = 1 by omega]
    rfl
  length := by
    simp only [List.length_append, hlen, List.length_cons, List.length_nil]

variable (pb) in
theorem gc_eq (hd : d.Calm) (hne : resolve m.tmpFile ≠ resolve m.dataFile) {ps : List Payload}
    (hf : d.file? m.dataFile = some (encode pb ps)) (hsize : (encode pb ps).length < 2 ^ 64) :
    ∃ d', m.gc pb d = (placedFrom pb 0 (live ps), d') ∧ Compacted pb m ps d d' ∧
      ∃ images, d'.trail = d.trail ++ images ∧ Images pb m ps d.files images := by
  have hd₀ : (d.put m.tmpFile []).Calm := hd.put _
  obtain ⟨d₁, h₁, hf₁, hw₁⟩ := insertAll_eq pb (live ps) hd₀ (Disk.file?_put_self [])
  have hd₁ : d₁.Calm := hw₁.fates.trans hd₀
  have hw : Disk.Writes m.tmpFile (1 + 2 * (live ps).length) d d₁ := (Disk.Writes.put m.tmpFile d []).trans hw₁
  have hdata₁ : d₁.file? m.dataFile = some (encode pb ps) := (hw.file?_ne hne.symm).trans hf
  have hremove := FileHelper.remove_eq hd₁ hdata₁
  have htmp₂ : (d₁.drop m.dataFile).file? m.tmpFile = some (encode pb (live ps)) := by
    rw [Disk.file?_drop_ne hne, hf₁, List.nil_append]
  have hcalm₂ : (d₁.drop m.dataFile).Calm := hd₁.drop
  have hrename := FileHelper.rename_eq hcalm₂ htmp₂ m.dataFile
  obtain ⟨images, htrail, hlen, himages⟩ := hw.trail
  refine ⟨(d₁.drop m.dataFile).move m.tmpFile m.dataFile (encode pb (live ps)), ?_, ?_, _, ?_,
    Images.of_growing (d₁.drop m.dataFile).files
      ((d₁.drop m.dataFile).move m.tmpFile m.dataFile (encode pb (live ps))).files
      (by omega) (fun image hi => himages image hi _ hne.symm) Disk.file?_drop_self (Disk.file?_move_self _)⟩
  · simp only [gc, load_encode hd hf hsize, FileHelper.create_eq hd, h₁, hremove, hrename, List.length_nil]
  · refine ⟨hw.fates, hw.dirs, Disk.file?_move_self _, fun p hp hpt => ?_⟩
    simp only [Disk.move, Disk.drop, Disk.store, Function.update_of_ne hp, Function.update_of_ne hpt]
    exact hw.others p hpt
  · rw [Disk.trail_move, Disk.trail_drop, htrail, List.append_assoc, List.append_assoc]
    rfl

/-- On a data file that ends in a torn record `gc` returns early: nothing is rewritten, and the loaded
    messages keep the places 0. -/
theorem gc_torn (hd : d.Calm) {ps : List Payload} {torn body : Bytes}
    (hf : d.file? m.dataFile = some (encode pb ps ++ torn)) (hsize : (encode pb ps ++ frame body).length < 2 ^ 64)
    (htorn : torn <+: frame body) (hne : torn ≠ []) (hproper : torn ≠ frame body) :
    m.gc pb d = ((live ps).map ({ payload := · }), d) := by
  simp only [gc, load_torn hd hf hsize htorn hne hproper]

end MessageMapper
end HareMQ
