import HareMQ.Lib.Bytes

/-! # Length-prefixed records

A record file is a sequence of frames. A frame is the length of its body as a 64-bit number followed
by the body. -/

namespace Lib

/-- The frame of one body. -/
def frame (body : Bytes) : Bytes := le64 body.length ++ body

/-- A file of frames, one for each body. -/
def frames (bodies : List Bytes) : Bytes := bodies.flatMap frame

@[simp] theorem length_frame (body : Bytes) : (frame body).length = 8 + body.length := by
  simp [frame]

@[simp] theorem frames_nil : frames [] = [] := rfl

@[simp] theorem frames_cons (body : Bytes) (bodies : List Bytes) :
    frames (body :: bodies) = frame body ++ frames bodies := rfl

@[simp] theorem frames_append (l₁ l₂ : List Bytes) : frames (l₁ ++ l₂) = frames l₁ ++ frames l₂ := by
  simp [frames]

/-- A file of frames is at least eight bytes long for each frame. -/
theorem length_le_frames (bodies : List Bytes) : 8 * bodies.length ≤ (frames bodies).length := by
  induction bodies with
  | nil => simp
  | cons body bodies ih =>
    simp only [frames_cons, List.length_append, length_frame, List.length_cons]
    omega

/-- Dropping frames does not make the file longer. -/
theorem length_frames_le_of_sublist {l₁ l₂ : List Bytes} (h : l₁.Sublist l₂) :
    (frames l₁).length ≤ (frames l₂).length := by
  induction h with
  | slnil => simp
  | cons a _ ih =>
    rw [frames_cons, List.length_append]
    omega
  | cons_cons a _ ih =>
    rw [frames_cons, frames_cons, List.length_append, List.length_append]
    omega

/-- A file of frames, which is smaller than a length field can count, is the file of these bodies only. -/
theorem frames_inj : ∀ {l₁ l₂ : List Bytes}, (frames l₁).length < 2 ^ 64 → frames l₁ = frames l₂ → l₁ = l₂
  | [], [], _, _ => rfl
  | [], body :: l₂, _, h => by
    have hlen := congrArg List.length h
    simp only [frames_nil, frames_cons, List.length_append, length_frame, List.length_nil] at hlen
    omega
  | body :: l₁, [], _, h => by
    have hlen := congrArg List.length h
    simp only [frames_nil, frames_cons, List.length_append, length_frame, List.length_nil] at hlen
    omega
  | b₁ :: l₁, b₂ :: l₂, hsize, h => by
    have hsize₂ : (frames (b₂ :: l₂)).length < 2 ^ 64 := h ▸ hsize
    simp only [frames_cons, List.length_append, length_frame] at hsize hsize₂
    simp only [frames_cons, frame, List.append_assoc] at h
    obtain ⟨hfield, hbodies⟩ := List.append_inj h rfl
    have hlen : b₁.length = b₂.length := by
      rw [← fromLe_le64 (n := b₁.length) (by omega), hfield, fromLe_le64 (by omega)]
    obtain ⟨rfl, hrest⟩ := List.append_inj hbodies hlen
    rw [frames_inj (by omega) hrest]

/-! ### Reading a frame at its position -/

theorem slice_frame_length (pre body post : Bytes) : slice (pre ++ (frame body ++ post)) pre.length 8 = le64 body.length := by
  unfold frame
  rw [List.append_assoc]
  exact slice_append_mid rfl (by simp)

theorem slice_frame_body (pre body post : Bytes) :
    slice (pre ++ (frame body ++ post)) (pre.length + 8) body.length = body := by
  unfold frame
  rw [List.append_assoc, ← List.append_assoc]
  exact slice_append_mid (by simp) rfl

/-- Overwriting the body of a frame with a body of the same length changes that frame only. -/
theorem overwrite_frame_body {pre body body' post : Bytes} (h : body'.length = body.length) :
    overwrite (pre ++ (frame body ++ post)) (pre.length + 8) body' = pre ++ (frame body' ++ post) := by
  unfold frame
  rw [List.append_assoc, ← List.append_assoc, overwrite_mid (by simp) h, h]
  simp [List.append_assoc]

/-! ### Arbitrary bytes -/

/-- The first eight bytes are a length, and as many bytes follow. -/
def Complete (data : Bytes) : Prop := 8 ≤ data.length ∧ 8 + fromLe (data.take 8) ≤ data.length

instance (data : Bytes) : Decidable (Complete data) :=
  inferInstanceAs (Decidable (8 ≤ data.length ∧ 8 + fromLe (data.take 8) ≤ data.length))

/-- The bodies of the complete frames that follow each other from the start, and the bytes that are left. -/
def cut (data : Bytes) : List Bytes × Bytes :=
  if Complete data then
    ((data.drop 8).take (fromLe (data.take 8)) :: (cut (data.drop (8 + fromLe (data.take 8)))).1,
      (cut (data.drop (8 + fromLe (data.take 8)))).2)
  else ([], data)
termination_by data.length
decreasing_by
  all_goals
    rw [List.length_drop]
    have hlength : 8 ≤ data.length := And.left (by assumption)
    omega

theorem cut_of_complete {data : Bytes} (h : Complete data) : cut data =
    ((data.drop 8).take (fromLe (data.take 8)) :: (cut (data.drop (8 + fromLe (data.take 8)))).1,
      (cut (data.drop (8 + fromLe (data.take 8)))).2) := by
  rw [cut, if_pos h]

theorem cut_of_not_complete {data : Bytes} (h : ¬Complete data) : cut data = ([], data) := by
  rw [cut, if_neg h]

end Lib
