import HareMQ.Theorems.Footprint
import HareMQ.VirtualHost

/-! # Directories stay

No file operation of the broker removes a directory, so that the storage of a queue can always be set up in a base
directory that was there at the start. -/

namespace HareMQ
open Lib

namespace FileHelper

theorem mkdir_grows (d : Disk) (name : String) : d.Grows (mkdir d name).2 := by
  unfold mkdir
  dsimp only
  split
  · exact .of_dirs rfl
  split
  · exact .of_dirs rfl
  split
  · exact .of_dirs rfl
  split
  · intro p hp
    by_cases hpn : p = resolve name
    · simp [hpn]
    · simpa [Function.update_of_ne hpn] using hp
  · exact .of_dirs rfl

theorem createDirFrom_grows : ∀ (rest made : List Char) (d : Disk), d.Grows (createDirFrom mkdir made d rest).2
  | [], made, d => by
    have hmk := mkdir_grows d (String.ofList made)
    unfold createDirFrom
    split
    · exact .of_dirs rfl
    · split
      · next heq => rwa [heq] at hmk
      · next heq => rwa [heq] at hmk
  | c :: rest, made, d => by
    by_cases hc : c = '/'
    · subst hc
      have hmk := mkdir_grows d (String.ofList made)
      simp only [createDirFrom]
      split
      · next heq => rwa [heq] at hmk
      · next heq =>
        rw [heq] at hmk
        exact hmk.trans (createDirFrom_grows rest _ _)
    · simpa [createDirFrom, hc] using createDirFrom_grows rest (made ++ [c]) d

theorem createDir_grows (d : Disk) (path : String) : d.Grows (createDir d path).2 :=
  createDirFrom_grows path.toList [] d

end FileHelper

namespace MessageManager
variable {pb : PayloadCodec}

variable (pb) in
/-- In an existing directory the storage of a queue is always set up. -/
theorem initQueueMsg_of_isDir (m : MessageManager) (qname : String) {d : Disk}
    (hdir : d.isDir (MessageMapper.directory m.baseDir) = true) :
    ∃ m' d', m.initQueueMsg pb qname d = some (m', d') ∧ m'.baseDir = m.baseDir ∧ d.Grows d' := by
  unfold initQueueMsg
  split
  · exact ⟨m, d, rfl, rfl, fun p hp => hp⟩
  · have hex : FileHelper.exists? d (MessageMapper.directory m.baseDir) = true := by
      simp only [FileHelper.exists?, Disk.isDir, Bool.and_eq_true, Bool.or_eq_true] at hdir ⊢
      exact ⟨hdir.1, Or.inr hdir⟩
    simp only [MessageMapper.new, hex, if_true]
    exact ⟨_, _, rfl, rfl, .of_dirs ((MessageMapper.gc_only pb _ _).dirs.trans (MessageMapper.createMsgFile_only _ d).dirs)⟩

theorem dirs_destroyQueueMsg (m : MessageManager) (qname : String) (d : Disk) :
    (m.destroyQueueMsg qname d).2.dirs = d.dirs ∧ (m.destroyQueueMsg qname d).1.baseDir = m.baseDir := by
  unfold destroyQueueMsg
  split
  · exact ⟨rfl, rfl⟩
  · exact ⟨(MessageMapper.removeMsgFile_only ..).dirs, rfl⟩

end MessageManager

end HareMQ
