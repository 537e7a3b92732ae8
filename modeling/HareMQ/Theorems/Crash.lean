import HareMQ.Codec
import HareMQ.Crash
import HareMQ.Theorems.Recovery

/-! # Crashes during compactions

Between the removal of the data file and the renaming of the temporary file there is no data file. A process that
stops there loses the queue: the next constructor creates an empty data file. -/

namespace HareMQ
open Lib

/-- A directory with a well-formed data file. -/
structure Intact (pb : PayloadCodec) (baseDir qname : String) (ps : List Payload) (d : Disk) : Prop where
  calm : d.Calm
  dir : d.isDir (MessageMapper.directory baseDir) = true
  file : d.file? (MessageMapper.files baseDir qname).dataFile = some (encode pb ps)
  notDir : d.isDir (MessageMapper.files baseDir qname).dataFile = false
  small : (encode pb ps).length < 2 ^ 64

/-- The data file after a stop: it is as it was, it is missing, or it is compacted. -/
inductive Left (pb : PayloadCodec) (ps : List Payload) : Nat → Option Bytes → Prop
  | kept {n : Nat} (hn : n ≤ 2 * (live ps).length + 1) : Left pb ps n (some (encode pb ps))
  | missing : Left pb ps (2 * (live ps).length + 2) none
  | compacted {n : Nat} (hn : 2 * (live ps).length + 3 ≤ n) : Left pb ps n (some (encode pb (live ps)))

section
variable {pb : PayloadCodec} {baseDir qname : String} {ps : List Payload} {d : Disk}

theorem stopAfter_left {m : MessageMapper} (hd : d.Calm) (hne : resolve m.tmpFile ≠ resolve m.dataFile)
    (hf : d.file? m.dataFile = some (encode pb ps)) (hsize : (encode pb ps).length < 2 ^ 64) (n : Nat) :
    Left pb ps n ((m.stopAfter pb n d).file? m.dataFile) := by
  obtain ⟨d', hgc, hcomp, images, htrail, himages⟩ :=
    MessageMapper.gc_eq pb (d := { d with trail := [d.files] }) hd hne hf hsize
  have hlist : d'.trail = d.files :: images := htrail
  have hfile : (m.stopAfter pb n d).file? m.dataFile = (d'.trail.getD n d'.files) (resolve m.dataFile) := by
    rw [MessageMapper.stopAfter, hgc]
    rfl
  rw [hfile, hlist]
  rcases Nat.lt_trichotomy n (2 * (live ps).length + 2) with hn | rfl | hn
  · have hkept : (d.files :: images).getD n d'.files (resolve m.dataFile) = some (encode pb ps) := by
      cases n with
      | zero => exact hf
      | succ n =>
        obtain ⟨image, hi, heq⟩ := himages.growing n (by omega)
        rw [List.getD_cons_succ, List.getD_eq_getElem?_getD, hi]
        exact heq.trans hf
    rw [hkept]
    exact .kept (by omega)
  · obtain ⟨image, hi, heq⟩ := himages.removed
    rw [List.getD_cons_succ, List.getD_eq_getElem?_getD, hi, Option.getD_some, heq]
    exact .missing
  · have hcompacted : (d.files :: images).getD n d'.files (resolve m.dataFile) = some (encode pb (live ps)) := by
      by_cases hlast : n = 2 * (live ps).length + 3
      · obtain ⟨image, hi, heq⟩ := himages.renamed
        rw [hlast, List.getD_cons_succ, List.getD_eq_getElem?_getD, hi]
        exact heq
      · rw [List.getD_eq_getElem?_getD, List.getElem?_eq_none (by rw [List.length_cons, himages.length]; omega)]
        exact hcomp.data
    rw [hcompacted]
    exact .compacted (by omega)

/-- The constructor after a stop: an empty data file takes the place of a missing one. -/
theorem Intact.restart (h : Intact pb baseDir qname ps d) (n : Nat) : ∃ m d' ps',
    MessageMapper.new ((MessageMapper.files baseDir qname).stopAfter pb n d) baseDir qname = some (m, d') ∧
      Intact pb baseDir qname ps' d' ∧ live ps' = if n = 2 * (live ps).length + 2 then [] else live ps := by
  have hleft := stopAfter_left h.calm (MessageMapper.files_names baseDir qname) h.file h.small n
  have hdirs : ((MessageMapper.files baseDir qname).stopAfter pb n d).dirs = d.dirs := rfl
  have hcalm : ((MessageMapper.files baseDir qname).stopAfter pb n d).Calm := rfl
  have hdir : ((MessageMapper.files baseDir qname).stopAfter pb n d).isDir (MessageMapper.directory baseDir) = true := h.dir
  have hnot : ((MessageMapper.files baseDir qname).stopAfter pb n d).isDir (MessageMapper.files baseDir qname).dataFile =
    false := h.notDir
  generalize (MessageMapper.files baseDir qname).stopAfter pb n d = d₁ at *
  rw [MessageMapper.new_of_isDir hdir]
  have hname := MessageMapper.dataFile_ne baseDir qname
  generalize hfile : d₁.file? (MessageMapper.files baseDir qname).dataFile = file at hleft
  cases hleft with
  | kept hn =>
    refine ⟨_, d₁, ps, by rw [MessageMapper.createMsgFile_of_file hname hfile], ⟨hcalm, hdir, hfile, hnot, h.small⟩, ?_⟩
    rw [if_neg (by omega)]
  | missing =>
    have hex : FileHelper.exists? d₁ (MessageMapper.files baseDir qname).dataFile = false := by
      simp [FileHelper.exists?, hfile, hnot]
    refine ⟨_, _, [], by rw [MessageMapper.createMsgFile_of_not_exists hcalm hex], ⟨hcalm.put _, hdir, ?_, hnot, ?_⟩, ?_⟩
    · exact Disk.file?_put_self _
    · simp
    · rw [if_pos rfl]
      rfl
  | compacted hn =>
    refine ⟨_, d₁, live ps, by rw [MessageMapper.createMsgFile_of_file hname hfile],
      ⟨hcalm, hdir, hfile, hnot, Nat.lt_of_le_of_lt (length_encode_filter_le pb _ ps) h.small⟩, ?_⟩
    rw [if_neg (by omega), live_live]

/-- What a sequence of stops leaves. -/
def survivors (lives : List Payload) : List Nat → List Payload
  | [] => lives
  | n :: ns => survivors (if n = 2 * lives.length + 2 then [] else lives) ns

theorem survivors_nil : ∀ ns : List Nat, survivors [] ns = []
  | [] => rfl
  | n :: ns => by
    rw [survivors, ite_self]
    exact survivors_nil ns

theorem survivors_eq {lives : List Payload} (hne : lives ≠ []) : ∀ ns : List Nat,
    survivors lives ns = lives ↔ ∀ n ∈ ns, n ≠ 2 * lives.length + 2
  | [] => by simp [survivors]
  | n :: ns => by
    rw [survivors, List.forall_mem_cons]
    by_cases hn : n = 2 * lives.length + 2
    · rw [if_pos hn, survivors_nil]
      exact ⟨fun h => absurd h.symm hne, fun h => absurd hn h.1⟩
    · rw [if_neg hn, survivors_eq hne ns, and_iff_right hn]

theorem Intact.aftermath : ∀ (ns : List Nat) {ps : List Payload} {d : Disk}, Intact pb baseDir qname ps d →
    ∃ d' ps', HareMQ.aftermath pb baseDir qname d ns = some d' ∧ Intact pb baseDir qname ps' d' ∧
      live ps' = survivors (live ps) ns
  | [], ps, d, h => ⟨d, ps, rfl, h, rfl⟩
  | n :: ns, ps, d, h => by
    obtain ⟨m, d₁, ps₁, hnew, h₁, hlive₁⟩ := h.restart n
    obtain ⟨d₂, ps₂, hrest, h₂, hlive₂⟩ := Intact.aftermath ns h₁
    refine ⟨d₂, ps₂, by unfold HareMQ.aftermath; rw [hnew]; exact hrest, h₂, ?_⟩
    rw [hlive₂, hlive₁, survivors]

theorem Intact.recovered (h : Intact pb baseDir qname ps d) (ns : List Nat) :
    HareMQ.recovered pb baseDir qname d ns = some (survivors (live ps) ns) := by
  obtain ⟨d', ps', hafter, h', hlive⟩ := h.aftermath ns
  obtain ⟨d'', hgc, -, -⟩ := MessageMapper.gc_eq pb h'.calm (MessageMapper.files_names baseDir qname) h'.file h'.small
  have hpending := QueueMessage.pending_recovery pb { mapper := .files baseDir qname } d'
  rw [hgc] at hpending
  have hpayloads := congrArg (List.map Message.payload) hpending
  rw [map_payload_placedFrom, hlive, QueueMessage.pending, List.map_map] at hpayloads
  rw [HareMQ.recovered, hafter]
  exact congrArg some hpayloads

/-- A compaction is crash-safe exactly outside its window: the restart recovers the valid messages if and only if
    there are none or no process stopped between the removal and the renaming. -/
theorem recovered_iff (h : Intact pb baseDir qname ps d) (ns : List Nat) :
    recovered pb baseDir qname d ns = some (live ps) ↔ live ps = [] ∨ ∀ n ∈ ns, n ≠ 2 * (live ps).length + 2 := by
  rw [h.recovered ns, Option.some.injEq]
  by_cases hlive : live ps = []
  · rw [hlive, survivors_nil]
    simp
  · rw [survivors_eq hlive, or_iff_right hlive]

end

/-- A queue with one durable message. -/
def lone : Payload := { properties := some { id := "a", deliveryMode := .durable, routingKey := "" }, body := "x", valid := "1" }

/-- The directory of that queue. -/
def loneDisk : Disk :=
  .ofFiles (fun p => if p = resolve "data/q.mqd" then some (encode protobuf [lone]) else none) fun p => p = resolve "data"

theorem loneDisk_intact : Intact protobuf "data" "q" [lone] loneDisk :=
  ⟨by decide, by decide +kernel, by decide +kernel, by decide +kernel, by decide +kernel⟩

theorem recovered_iff_lone : recovered protobuf "data" "q" loneDisk [3, 5] = some [lone] := by
  have h := (recovered_iff loneDisk_intact [3, 5]).mpr (Or.inr (by decide +kernel))
  exact h

/-- A stop in the window loses the message. -/
theorem recovered_window : Intact protobuf "data" "q" [lone] loneDisk ∧
    recovered protobuf "data" "q" loneDisk [4] = some [] ∧ live [lone] = [lone] :=
  ⟨loneDisk_intact, by decide +kernel, by decide +kernel⟩

end HareMQ
