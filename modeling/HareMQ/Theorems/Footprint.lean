import HareMQ.Message

/-! # What a file operation touches

The operations on the storage of a queue change its two files and no others, they remove no directory, and their results
depend on these files alone. -/

namespace HareMQ
open Lib

/-! ### Files that are changed -/

namespace FileHelper
variable (d : Disk) (fileName : String)

theorem read_only (offset len : Nat) (paths : List Path) : d.Only paths (read d fileName offset len).2 := by
  unfold read
  split
  · exact .refl paths d
  · split <;> exact ⟨rfl, fun _ _ => rfl⟩

theorem write_only (offset : Nat) (body : Bytes) : d.Only [resolve fileName] (write d fileName offset body).2 := by
  unfold write
  split
  · exact .refl _ d
  · rw [Disk.tick_eq_skip]
    split
    · exact (Disk.Only.skip _ d 1).trans (.put fileName _ _)
    · exact (Disk.Only.skip _ d 1).trans (.put fileName _ _)
    · exact (Disk.Only.skip _ d 1).trans (.put fileName _ _)

theorem create_only : d.Only [resolve fileName] (create d fileName).2 := by
  unfold create
  rw [Disk.tick_eq_skip]
  split
  · exact (Disk.Only.skip _ d 1).trans (.put fileName _ _)
  · exact .skip _ d 1

theorem remove_only : d.Only [resolve fileName] (remove d fileName).2 := by
  unfold remove
  split
  · exact .refl _ d
  · rw [Disk.tick_eq_skip]
    split
    · exact (Disk.Only.skip _ d 1).trans (.drop fileName _)
    · exact .skip _ d 1

theorem rename_only (name : String) : d.Only [resolve name, resolve fileName] (rename d fileName name).2 := by
  unfold rename
  split
  · exact .refl _ d
  · rw [Disk.tick_eq_skip]
    split
    · exact (Disk.Only.skip _ d 1).trans (.move fileName name _ _)
    · exact .skip _ d 1

end FileHelper

namespace MessageMapper
variable (pb : PayloadCodec) (m : MessageMapper)

/-- The files of a queue. -/
def paths : List Path := [resolve m.dataFile, resolve m.tmpFile]

theorem dataFile_mem : resolve m.dataFile ∈ m.paths := List.mem_cons_self

theorem tmpFile_mem : resolve m.tmpFile ∈ m.paths := List.mem_cons_of_mem _ List.mem_cons_self

theorem dataFile_subset : [resolve m.dataFile] ⊆ m.paths := List.cons_subset.mpr ⟨m.dataFile_mem, List.nil_subset _⟩

theorem tmpFile_subset : [resolve m.tmpFile] ⊆ m.paths := List.cons_subset.mpr ⟨m.tmpFile_mem, List.nil_subset _⟩

variable {m} in
theorem dataFile_notMem_tmpFile (hne : resolve m.tmpFile ≠ resolve m.dataFile) :
    resolve m.dataFile ∉ [resolve m.tmpFile] := fun h => hne (List.mem_singleton.mp h).symm

theorem insertInto_only (fileName : String) (msg : Message) (d : Disk) :
    d.Only [resolve fileName] (insertInto pb fileName msg d).2.2 := by
  have h₁ := FileHelper.write_only d fileName (FileHelper.size d fileName) (le64 (pb.serialize msg.payload).length)
  unfold insertInto
  dsimp only
  split
  · next heq => rwa [heq] at h₁
  · next d₁ heq =>
    rw [heq] at h₁
    have h₂ := FileHelper.write_only d₁ fileName (FileHelper.size d fileName + 8) (pb.serialize msg.payload)
    split
    · next heq =>
      rw [heq] at h₂
      exact h₁.trans h₂
    · next heq =>
      rw [heq] at h₂
      exact h₁.trans h₂

theorem loadLoop_only (fileName : String) (fsize : Nat) (paths : List Path) :
    ∀ (fuel offset : Nat) (lst : List Message) (d : Disk),
      d.Only paths (loadLoop pb fileName fsize fuel offset lst d).2.2
  | 0, _, _, d => .refl paths d
  | fuel + 1, offset, lst, d => by
    have h₁ := FileHelper.read_only d fileName offset 8 paths
    unfold loadLoop
    split
    · split
      · next heq => rwa [heq] at h₁
      · next msgSize d₁ heq =>
        rw [heq] at h₁
        have h₂ := FileHelper.read_only d₁ fileName (offset + 8) (fromLe msgSize) paths
        split
        · next heq =>
          rw [heq] at h₂
          exact h₁.trans h₂
        · next heq =>
          rw [heq] at h₂
          exact (h₁.trans h₂).trans (loadLoop_only fileName fsize paths fuel _ _ _)
    · exact .refl paths d

theorem insertAll_only (fileName : String) : ∀ (lst : List Message) (d : Disk),
    d.Only [resolve fileName] (insertAll pb fileName lst d).2.2
  | [], d => .refl _ d
  | msg :: rest, d => by
    have h₁ := insertInto_only pb fileName msg d
    unfold insertAll
    split
    · next heq => rwa [heq] at h₁
    · next heq =>
      rw [heq] at h₁
      exact h₁.trans (insertAll_only fileName rest _)

theorem gc_only (d : Disk) : d.Only m.paths (m.gc pb d).2 := by
  have h₁ : d.Only m.paths (m.load pb d).2.2 := loadLoop_only pb ..
  unfold gc
  split
  · next heq => rwa [heq] at h₁
  · next lst d₁ heq =>
    rw [heq] at h₁
    have h₂ := (FileHelper.create_only d₁ m.tmpFile).trans
      (insertAll_only pb m.tmpFile lst (FileHelper.create d₁ m.tmpFile).2)
    split
    · next heq =>
      rw [heq] at h₂
      exact h₁.trans (h₂.mono m.tmpFile_subset)
    · next d₂ heq =>
      rw [heq] at h₂
      have h₃ := FileHelper.remove_only d₂ m.dataFile
      have h₁₂ := h₁.trans (h₂.mono m.tmpFile_subset)
      split
      · next heq =>
        rw [heq] at h₃
        exact h₁₂.trans (h₃.mono m.dataFile_subset)
      · next d₃ heq =>
        rw [heq] at h₃
        exact (h₁₂.trans (h₃.mono m.dataFile_subset)).trans (FileHelper.rename_only d₃ m.tmpFile m.dataFile)

theorem createMsgFile_only (d : Disk) : d.Only m.paths (m.createMsgFile d).2 := by
  unfold createMsgFile
  split
  · exact .refl _ d
  · exact (FileHelper.create_only d m.dataFile).mono m.dataFile_subset

theorem removeMsgFile_only (d : Disk) : d.Only m.paths (m.removeMsgFile d) :=
  ((FileHelper.remove_only d m.dataFile).mono m.dataFile_subset).trans
    ((FileHelper.remove_only _ m.tmpFile).mono m.tmpFile_subset)

theorem remove_only (msg : Message) (d : Disk) : d.Only m.paths (m.remove pb msg d).2.2 := by
  unfold remove
  dsimp only
  split
  · exact .refl _ d
  · exact (FileHelper.write_only d m.dataFile _ _).mono m.dataFile_subset

theorem insert_only (msg : Message) (d : Disk) : d.Only m.paths (m.insert pb msg d).2.2 :=
  (insertInto_only pb m.dataFile msg d).mono m.dataFile_subset

end MessageMapper

namespace QueueMessage
variable (pb : PayloadCodec) (q : QueueMessage)

theorem insert_only (bp : Option BasicProperties) (uuid body : String) (queueDurable : Bool) (d : Disk) :
    d.Only q.mapper.paths (q.insert pb bp uuid body queueDurable d).2.2 := by
  unfold insert
  dsimp only
  split
  · have h := q.mapper.insert_only pb { makeMessage bp uuid body queueDurable with
      payload := (makeMessage bp uuid body queueDurable).payload.setValid "1" } d
    split
    · next heq => rwa [heq] at h
    · next heq => rwa [heq] at h
  · exact .refl _ d

theorem gc_only {d d' : Disk} {q' : QueueMessage} (h : q.gc pb d = some (q', d')) : d.Only q.mapper.paths d' := by
  unfold gc at h
  split at h
  · have hgc := q.mapper.gc_only pb d
    dsimp only at h
    split at h
    · cases h
      exact hgc
    · cases h
  · cases h
    exact .refl _ d

theorem invalidate_only (msgId : String) (r : Ref) (d : Disk) :
    (q.invalidate pb msgId r d).1.mapper = q.mapper ∧ d.Only q.mapper.paths (q.invalidate pb msgId r d).2 := by
  have h := q.mapper.remove_only pb (q.heap r) d
  obtain ⟨⟨ok, msg, d'⟩, hrem⟩ : ∃ x, q.mapper.remove pb (q.heap r) d = x := ⟨_, rfl⟩
  rw [hrem] at h
  simp only [invalidate, hrem]
  exact ⟨trivial, h⟩

theorem remove_only {msgId : String} {d d' : Disk} {q' : QueueMessage} (h : q.remove pb msgId d = some (q', d')) :
    d.Only q.mapper.paths d' := by
  unfold remove at h
  split at h
  · cases h
    exact .refl _ d
  · next r hr =>
    split at h
    · obtain ⟨hmapper, hinvalidate⟩ := q.invalidate_only pb msgId r d
      dsimp only at h
      split at h
      · cases h
      · next q₂ d₂ hgc =>
        cases h
        have hcompact := gc_only pb _ hgc
        rw [hmapper] at hcompact
        exact hinvalidate.trans hcompact
    · cases h
      exact .refl _ d

theorem relocate_mapper (msg : Message) : (q.relocate msg).mapper = q.mapper := by
  unfold relocate
  split
  · rfl
  · rfl

theorem foldl_relocate_mapper (lst : List Message) : (lst.foldl relocate q).mapper = q.mapper :=
  List.foldlRecOn (motive := fun q' => q'.mapper = q.mapper) lst relocate rfl fun q' h msg _ =>
    (q'.relocate_mapper msg).trans h

theorem insert_mapper (bp : Option BasicProperties) (uuid body : String) (queueDurable : Bool) (d : Disk) :
    (q.insert pb bp uuid body queueDurable d).2.1.mapper = q.mapper := by
  unfold insert
  dsimp only
  split
  · split
    · rfl
    · rfl
  · rfl

theorem gc_mapper {d d' : Disk} {q' : QueueMessage} (h : q.gc pb d = some (q', d')) : q'.mapper = q.mapper := by
  unfold gc at h
  split at h
  · dsimp only at h
    split at h
    · cases h
      exact q.foldl_relocate_mapper _
    · cases h
  · cases h
    rfl

theorem remove_mapper {msgId : String} {d d' : Disk} {q' : QueueMessage} (h : q.remove pb msgId d = some (q', d')) :
    q'.mapper = q.mapper := by
  unfold remove at h
  split at h
  · cases h
    rfl
  · next r hr =>
    split at h
    · have hmapper := (q.invalidate_only pb msgId r d).1
      dsimp only at h
      split at h
      · cases h
      · next q₂ d₂ hgc =>
        cases h
        exact (gc_mapper pb _ hgc).trans hmapper
    · cases h
      rfl

theorem recovery_only (d : Disk) : d.Only q.mapper.paths (q.recovery pb d).2 := q.mapper.gc_only pb d

theorem clear_only (d : Disk) : d.Only q.mapper.paths (q.clear d).2 := q.mapper.removeMsgFile_only d

end QueueMessage

/-! ### Files that are looked at

On disks that agree on the files of an operation the operation returns the same, and the disks agree afterwards. -/

namespace FileHelper
variable {paths : List Path} {d e : Disk} {fileName : String}

theorem exists?_agree (h : Disk.Agree paths d e) (hn : resolve fileName ∈ paths) : exists? d fileName = exists? e fileName := by
  rw [exists?, exists?, h.file? hn, h.isDir]

theorem size_agree (h : Disk.Agree paths d e) (hn : resolve fileName ∈ paths) : size d fileName = size e fileName := by
  rw [size, size, h.file? hn]

theorem read_agree (h : Disk.Agree paths d e) (hn : resolve fileName ∈ paths) (offset len : Nat) :
    ∃ r d' e', read d fileName offset len = (r, d') ∧ read e fileName offset len = (r, e') ∧ Disk.Agree paths d' e' := by
  unfold read
  rw [h.file? hn, h.fate]
  split
  · exact ⟨_, _, _, rfl, rfl, h⟩
  · split
    · exact ⟨_, _, _, rfl, rfl, h.tick⟩
    · exact ⟨_, _, _, rfl, rfl, h.tick⟩

theorem write_agree (h : Disk.Agree paths d e) (hn : resolve fileName ∈ paths) (offset : Nat) (body : Bytes) :
    ∃ ok d' e', write d fileName offset body = (ok, d') ∧ write e fileName offset body = (ok, e') ∧
      Disk.Agree paths d' e' := by
  unfold write
  rw [h.file? hn, h.fate]
  split
  · exact ⟨_, _, _, rfl, rfl, h⟩
  · split
    · exact ⟨_, _, _, rfl, rfl, h.tick.put _ _⟩
    · exact ⟨_, _, _, rfl, rfl, h.tick.put _ _⟩
    · exact ⟨_, _, _, rfl, rfl, h.tick.put _ _⟩

theorem create_agree (h : Disk.Agree paths d e) (fileName : String) :
    ∃ ok d' e', create d fileName = (ok, d') ∧ create e fileName = (ok, e') ∧ Disk.Agree paths d' e' := by
  unfold create
  rw [h.fate]
  split
  · exact ⟨_, _, _, rfl, rfl, h.tick.put _ _⟩
  · exact ⟨_, _, _, rfl, rfl, h.tick⟩

theorem remove_agree (h : Disk.Agree paths d e) (hn : resolve fileName ∈ paths) :
    ∃ ok d' e', remove d fileName = (ok, d') ∧ remove e fileName = (ok, e') ∧ Disk.Agree paths d' e' := by
  unfold remove
  rw [h.file? hn, h.fate]
  split
  · exact ⟨_, _, _, rfl, rfl, h⟩
  · split
    · exact ⟨_, _, _, rfl, rfl, h.tick.drop _⟩
    · exact ⟨_, _, _, rfl, rfl, h.tick⟩

theorem rename_agree (h : Disk.Agree paths d e) (hn : resolve fileName ∈ paths) (name : String) :
    ∃ ok d' e', rename d fileName name = (ok, d') ∧ rename e fileName name = (ok, e') ∧ Disk.Agree paths d' e' := by
  unfold rename
  rw [h.file? hn, h.fate]
  split
  · exact ⟨_, _, _, rfl, rfl, h⟩
  · split
    · exact ⟨_, _, _, rfl, rfl, h.tick.move _ _ _⟩
    · exact ⟨_, _, _, rfl, rfl, h.tick⟩

end FileHelper

namespace MessageMapper
variable {pb : PayloadCodec} {m : MessageMapper} {paths : List Path} {d e : Disk} {fileName : String}

theorem loadLoop_agree (hn : resolve fileName ∈ paths) (fsize : Nat) : ∀ (fuel offset : Nat) (lst : List Message)
    {d e : Disk}, Disk.Agree paths d e →
      ∃ ok lst' d' e', loadLoop pb fileName fsize fuel offset lst d = (ok, lst', d') ∧
        loadLoop pb fileName fsize fuel offset lst e = (ok, lst', e') ∧ Disk.Agree paths d' e'
  | 0, _, _, _, _, h => ⟨_, _, _, _, rfl, rfl, h⟩
  | fuel + 1, offset, lst, d, e, h => by
    unfold loadLoop
    split
    · obtain ⟨msgSize, d₁, e₁, hd₁, he₁, h₁⟩ := FileHelper.read_agree h hn offset 8
      rw [hd₁, he₁]
      cases msgSize with
      | none => exact ⟨_, _, _, _, rfl, rfl, h₁⟩
      | some msgSize =>
        obtain ⟨msgBody, d₂, e₂, hd₂, he₂, h₂⟩ := FileHelper.read_agree h₁ hn (offset + 8) (fromLe msgSize)
        dsimp only
        rw [hd₂, he₂]
        cases msgBody with
        | none => exact ⟨_, _, _, _, rfl, rfl, h₂⟩
        | some msgBody => exact loadLoop_agree hn fsize fuel _ _ h₂
    · exact ⟨_, _, _, _, rfl, rfl, h⟩

variable (pb) in
theorem load_agree (h : Disk.Agree paths d e) (hn : resolve m.dataFile ∈ paths) :
    ∃ ok lst d' e', m.load pb d = (ok, lst, d') ∧ m.load pb e = (ok, lst, e') ∧ Disk.Agree paths d' e' := by
  unfold load
  rw [FileHelper.size_agree h hn]
  exact loadLoop_agree hn _ _ _ _ h

variable (pb) in
theorem insertInto_agree (h : Disk.Agree paths d e) (hn : resolve fileName ∈ paths) (msg : Message) :
    ∃ ok msg' d' e', insertInto pb fileName msg d = (ok, msg', d') ∧ insertInto pb fileName msg e = (ok, msg', e') ∧
      Disk.Agree paths d' e' := by
  unfold insertInto
  dsimp only
  rw [FileHelper.size_agree h hn]
  obtain ⟨ok, d₁, e₁, hd₁, he₁, h₁⟩ :=
    FileHelper.write_agree h hn (FileHelper.size e fileName) (le64 (pb.serialize msg.payload).length)
  rw [hd₁, he₁]
  cases ok with
  | false => exact ⟨_, _, _, _, rfl, rfl, h₁⟩
  | true =>
    obtain ⟨ok, d₂, e₂, hd₂, he₂, h₂⟩ :=
      FileHelper.write_agree h₁ hn (FileHelper.size e fileName + 8) (pb.serialize msg.payload)
    dsimp only
    rw [hd₂, he₂]
    cases ok with
    | false => exact ⟨_, _, _, _, rfl, rfl, h₂⟩
    | true => exact ⟨_, _, _, _, rfl, rfl, h₂⟩

variable (pb) in
theorem insertAll_agree (hn : resolve fileName ∈ paths) : ∀ (lst : List Message) {d e : Disk}, Disk.Agree paths d e →
    ∃ ok lst' d' e', insertAll pb fileName lst d = (ok, lst', d') ∧ insertAll pb fileName lst e = (ok, lst', e') ∧
      Disk.Agree paths d' e'
  | [], _, _, h => ⟨_, _, _, _, rfl, rfl, h⟩
  | msg :: rest, d, e, h => by
    unfold insertAll
    obtain ⟨ok, msg', d₁, e₁, hd₁, he₁, h₁⟩ := insertInto_agree pb h hn msg
    rw [hd₁, he₁]
    cases ok with
    | false => exact ⟨_, _, _, _, rfl, rfl, h₁⟩
    | true =>
      obtain ⟨ok, rest', d₂, e₂, hd₂, he₂, h₂⟩ := insertAll_agree hn rest h₁
      dsimp only
      rw [hd₂, he₂]
      exact ⟨_, _, _, _, rfl, rfl, h₂⟩

variable (pb) in
theorem gc_agree (h : Disk.Agree paths d e) (hdata : resolve m.dataFile ∈ paths) (htmp : resolve m.tmpFile ∈ paths) :
    ∃ lst d' e', m.gc pb d = (lst, d') ∧ m.gc pb e = (lst, e') ∧ Disk.Agree paths d' e' := by
  unfold gc
  obtain ⟨ok, lst, d₁, e₁, hd₁, he₁, h₁⟩ := load_agree pb h hdata
  rw [hd₁, he₁]
  cases ok with
  | false => exact ⟨_, _, _, rfl, rfl, h₁⟩
  | true =>
    obtain ⟨_, d₂, e₂, hd₂, he₂, h₂⟩ := FileHelper.create_agree h₁ m.tmpFile
    obtain ⟨ok, lst, d₃, e₃, hd₃, he₃, h₃⟩ := insertAll_agree pb htmp lst h₂
    dsimp only
    rw [hd₂, he₂, hd₃, he₃]
    cases ok with
    | false => exact ⟨_, _, _, rfl, rfl, h₃⟩
    | true =>
      obtain ⟨ok, d₄, e₄, hd₄, he₄, h₄⟩ := FileHelper.remove_agree h₃ hdata
      dsimp only
      rw [hd₄, he₄]
      cases ok with
      | false => exact ⟨_, _, _, rfl, rfl, h₄⟩
      | true =>
        obtain ⟨_, d₅, e₅, hd₅, he₅, h₅⟩ := FileHelper.rename_agree h₄ htmp m.dataFile
        dsimp only
        rw [hd₅, he₅]
        exact ⟨_, _, _, rfl, rfl, h₅⟩

theorem createMsgFile_agree (h : Disk.Agree paths d e) (hdata : resolve m.dataFile ∈ paths) :
    Disk.Agree paths (m.createMsgFile d).2 (m.createMsgFile e).2 := by
  unfold createMsgFile
  rw [FileHelper.exists?_agree h hdata]
  split
  · exact h
  · obtain ⟨_, d', e', hd', he', h'⟩ := FileHelper.create_agree h m.dataFile
    rw [hd', he']
    exact h'

end MessageMapper

end HareMQ
