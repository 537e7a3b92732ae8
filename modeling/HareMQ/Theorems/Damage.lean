import HareMQ.Theorems.Faults
import HareMQ.Theorems.Store

/-! # Failures inside a compaction and an acknowledgement

A compaction that the environment interrupts leaves a queue whose counters or places disagree with its data file, if
the process survives it at all. A failed invalidation removes the message from the queue all the same. -/

namespace HareMQ
open Lib

variable (pb : PayloadCodec)

/-! ### The counters, the places and the data file -/

/-- The counters are those of the data file, and the durable map knows the place of each of its messages. -/
structure Agrees (q : QueueMessage) (d : Disk) (ps : List Payload) : Prop where
  file : d.file? q.mapper.dataFile = some (encode pb ps)
  total : q.totalCount = ps.length
  valid : q.validCount = (live ps).length
  places : ∀ id r, q.durableMsgs.lookup id = some r →
    ∃ pre p post, ps = pre ++ p :: post ∧ q.heap r = placedAt pb (encode pb pre).length p

/-- The invariant of a queue, whatever the environment does to the next operations. -/
def Sound (q : QueueMessage) (d : Disk) : Prop := ∃ lay, Core pb d.calmed q lay ∧ Synced q lay

/-- The process is still there after `gc`, and the queue agrees with its data file. -/
def Unharmed (q : QueueMessage) (d : Disk) : Prop := ∃ q' d' ps, q.gc pb d = some (q', d') ∧ Agrees pb q' d' ps

namespace QueueMessage

/-- No file operation of the compaction fails, but for the creation of a temporary file that is there and empty. -/
def completes (q : QueueMessage) (d : Disk) : Bool := q.mapper.completes q.totalCount q.validCount d

end QueueMessage

section
variable {pb} {d d' : Disk} {q q' : QueueMessage} {lay : List Slot} {ps : List Payload}

theorem length_live_payloads (h : Layout pb q lay) : (live (lay.map (·.payload))).length = (owners lay).length := by
  rw [live_map_payload h.flagged, List.length_map, length_kept]

theorem Core.agrees (h : Core pb d q lay) : Agrees pb q d (lay.map (·.payload)) where
  file := h.file
  total := by rw [h.total, List.length_map]
  valid := by rw [h.valid, length_live_payloads h.layout]
  places id r hr := by
    obtain ⟨l₁, p, l₂, rfl⟩ := exists_slot_of_mem_owners (h.layout.durable hr).1
    have hplace := h.layout.laid.at
    exact ⟨l₁.map Slot.payload, p, l₂.map Slot.payload, by rw [List.map_append]; rfl, hplace⟩

theorem Agrees.congr (h : Agrees pb q d ps) (hfile : d'.file? q.mapper.dataFile = d.file? q.mapper.dataFile) :
    Agrees pb q d' ps := ⟨hfile.trans h.file, h.total, h.valid, h.places⟩

theorem Sound.agrees (h : Sound pb q d) : ∃ ps, Agrees pb q d ps := by
  obtain ⟨lay, hcore, -⟩ := h
  exact ⟨_, hcore.agrees.congr rfl⟩

/-! ### Relocation -/

/-- What the loop of `gc` keeps, whatever messages were loaded. -/
structure Patched (q q' : QueueMessage) : Prop where
  mapper : q'.mapper = q.mapper
  next : q.next ≤ q'.next
  durable : ∀ id r, q.durableMsgs.lookup id = some r → q'.durableMsgs.lookup id = some r
  payload : ∀ r < q.next, (q'.heap r).payload = (q.heap r).payload

theorem Patched.trans {q'' : QueueMessage} (h₁ : Patched q q') (h₂ : Patched q' q'') : Patched q q'' where
  mapper := h₂.mapper.trans h₁.mapper
  next := Nat.le_trans h₁.next h₂.next
  durable id r hr := h₂.durable id r (h₁.durable id r hr)
  payload r hr := (h₂.payload r (Nat.lt_of_lt_of_le hr h₁.next)).trans (h₁.payload r hr)

theorem patched_relocate (q : QueueMessage) (msg : Message) : Patched q (q.relocate msg) := by
  unfold QueueMessage.relocate
  split
  · next hnone =>
    refine ⟨rfl, Nat.le_succ _, fun id r hr => ?_, fun r hr => ?_⟩
    · have hne : id ≠ msg.id := by
        rintro rfl
        rw [hnone] at hr
        cases hr
      exact (UMap.lookup_emplace_ne hne _).trans hr
    · exact congrArg Message.payload (Function.update_of_ne (Nat.ne_of_lt hr) _ _)
  · next r' hr' =>
    refine ⟨rfl, Nat.le_refl _, fun id r hr => hr, fun r hr => ?_⟩
    by_cases hrr : r = r'
    · subst hrr
      simp only [Function.update_self]
    · simp only [Function.update_of_ne hrr]

theorem patched_foldl_relocate (lst : List Message) (q : QueueMessage) : Patched q (lst.foldl QueueMessage.relocate q) :=
  List.foldlRecOn (motive := Patched q) lst QueueMessage.relocate
    ⟨rfl, Nat.le_refl _, fun _ _ hr => hr, fun _ _ => rfl⟩ fun _ h _ _ => h.trans (patched_relocate _ _)

/-! ### Compaction under faults -/

theorem length_encode_perm {ps' : List Payload} (h : ps.Perm ps') : (encode pb ps).length = (encode pb ps').length :=
  ((h.map pb.serialize).flatMap_right frame).length_eq

/-- A data file with as many records as there are owners, with a record for each of them, has the size of the compacted
    file. -/
theorem Core.length_of_records (h : Core pb d q lay) (hs : Synced q lay) (hpatched : Patched q q')
    (hagrees : Agrees pb q' d' ps) (hlen : ps.length = (owners lay).length) :
    (encode pb ps).length = (encode pb (live (lay.map (·.payload)))).length := by
  have hnodup : ((owners lay).map fun r => (q.heap r).payload).Nodup := by
    refine List.Nodup.map_on (fun r hr r' hr' heq => hs.inj hr hr' (congrArg Payload.id heq)) h.layout.nodup
  have hsub : (owners lay).map (fun r => (q.heap r).payload) ⊆ ps := by
    intro p hp
    obtain ⟨r, hr, rfl⟩ := List.mem_map.mp hp
    obtain ⟨pre, p, post, rfl, hplace⟩ := hagrees.places _ r (hpatched.durable _ r (hs r hr))
    rw [← hpatched.payload r (h.layout.lt_next r hr), hplace]
    exact List.mem_append_right _ List.mem_cons_self
  have hperm := (List.subperm_of_subset hnodup hsub).perm_of_length_le (by rw [hlen, List.length_map])
  rw [live_map_payload h.layout.flagged, h.layout.kept_payloads]
  exact (length_encode_perm hperm).symm

/-- **Failed compactions.** A compaction leaves a queue that agrees with its data file exactly when it is complete. -/
theorem Core.unharmed_iff (hd : d.Reliable) (h : Core pb d.calmed q lay) (hs : Synced q lay) :
    Unharmed pb q d ↔ (q.gcCheck = true → q.completes d = true) := by
  have hcounts : q.mapper.completes (lay.map (·.payload)).length (live (lay.map (·.payload))).length d = q.completes d := by
    rw [QueueMessage.completes, h.agrees.total, h.agrees.valid]
  by_cases hcheck : q.gcCheck = true
  swap
  · refine ⟨fun _ hc => absurd hc hcheck, fun _ => ⟨q, d, _, ?_, h.agrees.congr rfl⟩⟩
    rw [QueueMessage.gc, if_neg hcheck]
  obtain ⟨hcomplete, d', hgc, hdata⟩ | ⟨hnot, hdamaged⟩ := MessageMapper.gc_faults hd h.names h.file h.size (d := d)
  · rw [hcounts] at hcomplete
    refine ⟨fun _ _ => hcomplete, fun _ => ?_⟩
    -- The queue is the one that the same compaction leaves without faults.
    obtain ⟨q', dc, lay', hcalm, hcore, howners, hrel, -⟩ := h.gc fun _ => hs
    obtain ⟨dc', hgc', hcomp, -⟩ := MessageMapper.gc_eq pb h.calm h.names h.file h.size
    simp only [QueueMessage.gc, hcheck, if_true, hgc'] at hcalm
    split at hcalm
    · next hlen =>
      rw [Option.some.injEq, Prod.mk.injEq] at hcalm
      obtain ⟨hq', rfl⟩ := hcalm
      refine ⟨q', d', _, ?_, hcore.agrees.congr ?_⟩
      · simp only [QueueMessage.gc, hcheck, if_true, hgc, if_pos hlen, hq']
      · rw [hrel.mapper, hdata, hcomp.data]
    · cases hcalm
  · rw [hcounts] at hnot
    refine iff_of_false ?_ (fun hc => absurd (hc hcheck) (by rw [hnot]; exact Bool.false_ne_true))
    rintro ⟨q', d', ps', hgc, hagrees⟩
    simp only [QueueMessage.gc, hcheck, if_true] at hgc
    split at hgc
    swap
    · cases hgc
    next hlen =>
    rw [Option.some.injEq, Prod.mk.injEq] at hgc
    obtain ⟨rfl, rfl⟩ := hgc
    have hfold := patched_foldl_relocate (q.mapper.gc pb d).1 q
    have hpatched : Patched q { (q.mapper.gc pb d).1.foldl QueueMessage.relocate q with
        validCount := (q.mapper.gc pb d).1.length, totalCount := (q.mapper.gc pb d).1.length } :=
      ⟨hfold.mapper, hfold.next, hfold.durable, hfold.payload⟩
    have hcount : ps'.length = (owners lay).length := by
      rw [← hagrees.total, ← h.valid, ← hlen]
    have hfile := hagrees.file
    rw [hpatched.mapper] at hfile
    have hrecords := h.length_of_records hs hpatched hagrees hcount
    rw [hfile] at hdamaged
    generalize hdata : some (encode pb ps') = data at hdamaged
    cases hdamaged with
    | same =>
      -- The old file has more records than the new counter says.
      rw [Option.some.injEq] at hdata
      have heq := encode_inj pb h.size hdata.symm
      rw [← heq, List.length_map, ← h.total, ← h.valid] at hcount
      rw [QueueMessage.gcCheck, Bool.and_eq_true, decide_eq_true_eq, decide_eq_true_eq] at hcheck
      omega
    | gone => cases hdata
    | mixed rest hne =>
      rw [Option.some.injEq] at hdata
      rw [hdata, List.length_append] at hrecords
      exact hne (List.length_eq_zero_iff.mp (by omega))

/-- `gc` keeps the counters and the places right exactly when its compaction is complete. -/
theorem gc_unharmed_iff (hd : d.Reliable) (h : Sound pb q d) : Unharmed pb q d ↔ (q.gcCheck = true → q.completes d = true) := by
  obtain ⟨lay, hcore, hs⟩ := h
  exact hcore.unharmed_iff hd hs

/-! ### The states of a run -/

/-- The states of a run with distinct ids meet the invariant. -/
theorem Store.Good.sound {s : Store} {used : List String} (h : s.Good pb lay used) (fates : List FileFate) :
    Sound pb s.queue { s.disk with fates } := by
  refine ⟨lay, ?_, h.tight.synced⟩
  have hcalm := h.inv.core.calm.calmed
  have hdisk : Disk.calmed { s.disk with fates } = s.disk := hcalm
  rw [hdisk]
  exact h.inv.core

/-- So does the state in which an acknowledgement calls `gc`. -/
theorem Store.Good.sound_invalidate {s : Store} {used : List String} (h : s.Good pb lay used) {msgId : String} {r : Ref}
    (hwait : s.queue.waitAckMsgs.lookup msgId = some r) (hmode : (s.queue.heap r).isDurable = true) (fates : List FileFate) :
    Sound pb (s.queue.invalidate pb msgId r s.disk).1 { (s.queue.invalidate pb msgId r s.disk).2 with fates } := by
  obtain ⟨hid, -, -⟩ := h.inv.books.waits hwait
  have howner := h.inv.books.owned r (Or.inr ⟨msgId, hwait⟩) hmode
  obtain ⟨q', d', lay', hinv, hcore, howners, hq', -⟩ := h.inv.core.invalidate howner hid
  rw [hinv]
  refine ⟨lay', ?_, ?_⟩
  · have hdisk : Disk.calmed { d' with fates } = d' := hcore.calm.calmed
    rw [hdisk]
    exact hcore
  · refine h.tight.synced.erase h.inv.core.layout.nodup howner hid howners (fun r' hr' => ?_) (by rw [hq'])
    rw [hq']
    exact Function.update_of_ne hr' _ _

end

/-! ### A compaction of a large file -/

/-- The record of an acknowledged message. -/
def spent : Payload := { properties := some ⟨"b", .durable, "k"⟩, body := "y", valid := "0" }

/-- The record of a message that is not acknowledged. -/
def unspent : Payload := { properties := some ⟨"a", .durable, "k"⟩, body := "x", valid := "1" }

/-- 2000 acknowledged messages, and one that is not. -/
def crowd : List Slot := List.replicate 2000 ⟨spent, none⟩ ++ [⟨unspent, some 0⟩]

/-- The queue of these messages. -/
def crowded : QueueMessage where
  mapper := .files "data" "q"
  validCount := 1
  totalCount := 2001
  durableMsgs := AList.singleton "a" 0
  heap := fun _ => placedAt protobuf (span protobuf (List.replicate 2000 ⟨spent, none⟩)) unspent
  next := 1

def crowdedDisk (fates : List FileFate) : Disk where
  files := fun p => if p = resolve "data/q.mqd" then some (encode protobuf (crowd.map (·.payload))) else none
  dirs := fun p => p = resolve "data"
  fates := fates

theorem crowdedDisk_file (fates : List FileFate) :
    (crowdedDisk fates).file? crowded.mapper.dataFile = some (encode protobuf (crowd.map (·.payload))) := by
  have hname : resolve crowded.mapper.dataFile = resolve "data/q.mqd" := by decide +kernel
  rw [Disk.file?, hname]
  simp only [crowdedDisk, if_true]

theorem span_replicate (pb : PayloadCodec) (n : Nat) (s : Slot) :
    span pb (List.replicate n s) = n * (8 + (pb.serialize s.payload).length) := by
  induction n with
  | zero => simp
  | succ n ih =>
    rw [List.replicate_succ, span_cons, ih]
    ring

theorem laid_replicate_none (pb : PayloadCodec) (heap : Ref → Message) (p : Payload) :
    ∀ (n base : Nat), Laid pb heap base (List.replicate n ⟨p, none⟩)
  | 0, _ => trivial
  | n + 1, _ => ⟨nofun, laid_replicate_none pb heap p n _⟩

theorem owners_crowd : owners crowd = [0] := by
  have hnone : owners (List.replicate 2000 ⟨spent, none⟩) = [] := by
    rw [owners, List.filterMap_eq_nil_iff]
    intro s hs
    rw [List.eq_of_mem_replicate hs]
  rw [crowd, owners_append, hnone]
  rfl

theorem crowded_sound (fates : List FileFate) : Sound protobuf crowded (crowdedDisk fates) := by
  have hflagged : ∀ s ∈ crowd, s.Flagged := by
    intro s hs
    obtain hs | hs := List.mem_append.mp hs
    · rw [List.eq_of_mem_replicate hs]
      exact ⟨fun _ => rfl, nofun⟩
    · rw [List.mem_singleton.mp hs]
      exact ⟨nofun, fun _ _ => ⟨rfl, rfl⟩⟩
  have hlookup : ∀ {id r}, crowded.durableMsgs.lookup id = some r → id = "a" ∧ r = 0 := by
    intro id r hr
    have hmem : (⟨id, r⟩ : (_ : String) × Ref) ∈ [⟨"a", 0⟩] := UMap.mem_entries_iff.mpr hr
    cases List.mem_singleton.mp hmem
    exact ⟨rfl, rfl⟩
  refine ⟨crowd, ⟨rfl, MessageMapper.files_names "data" "q", ?_, ?_, ⟨?_, hflagged, ?_, ?_, ?_⟩, ?_, ?_⟩, ?_⟩
  · exact crowdedDisk_file fates
  · rw [crowd, span_append, span_replicate]
    decide +kernel
  · refine laid_append.mpr ⟨laid_replicate_none protobuf _ spent 2000 0, fun r hr => ?_, trivial⟩
    rw [Nat.zero_add]
    rfl
  · rw [owners_crowd]
    exact List.nodup_singleton 0
  · rw [owners_crowd]
    intro r hr
    rw [List.mem_singleton.mp hr]
    exact Nat.zero_lt_one
  · intro id r hr
    obtain ⟨rfl, rfl⟩ := hlookup hr
    rw [owners_crowd]
    exact ⟨List.mem_singleton_self 0, rfl⟩
  · rw [crowd, List.length_append, List.length_replicate]
    rfl
  · rw [owners_crowd]
    rfl
  · intro r hr
    rw [owners_crowd, List.mem_singleton] at hr
    subst hr
    rfl

theorem crowdedDisk_calm : (crowdedDisk []).Calm := rfl

theorem gc_unharmed_crowded : Unharmed protobuf crowded (crowdedDisk []) :=
  (gc_unharmed_iff crowdedDisk_calm.reliable (crowded_sound [])).mpr fun _ => by decide

/-- The first read fails, and the process aborts. -/
theorem gc_harmed : Sound protobuf crowded (crowdedDisk [.fail 0]) ∧ crowded.gc protobuf (crowdedDisk [.fail 0]) = none ∧
    ¬Unharmed protobuf crowded (crowdedDisk [.fail 0]) := by
  have hfile := crowdedDisk_file [.fail 0]
  obtain ⟨fuel, hfuel⟩ : ∃ fuel, FileHelper.size (crowdedDisk [.fail 0]) crowded.mapper.dataFile = fuel + 1 := by
    have := length_lay_le_span protobuf crowd
    rw [crowd, List.length_append, List.length_replicate, ← crowd, span, ← FileHelper.size_eq hfile] at this
    exact Nat.exists_eq_add_one.mpr (by omega)
  have hgc : crowded.gc protobuf (crowdedDisk [.fail 0]) = none := by
    have hcheck : crowded.gcCheck = true := by decide
    have hread : FileHelper.read (crowdedDisk [.fail 0]) crowded.mapper.dataFile 0 8 = (none, crowdedDisk []) := by
      rw [FileHelper.read, hfile]
      rfl
    rw [QueueMessage.gc, if_pos hcheck, MessageMapper.gc, MessageMapper.load, hfuel, MessageMapper.loadLoop,
      if_pos (Nat.succ_pos fuel), hread]
    rfl
  refine ⟨crowded_sound _, hgc, ?_⟩
  rintro ⟨q', d', ps, hsome, -⟩
  rw [hgc] at hsome
  cases hsome

/-! ### A failed invalidation -/

section
variable {pb : PayloadCodec} {d : Disk} {q : QueueMessage} {lay : List Slot} {msgId : String} {r : Ref}

/-- The counter of the valid messages is that of the data file. -/
def Counted (pb : PayloadCodec) (q : QueueMessage) (d : Disk) : Prop :=
  ∃ ps, d.file? q.mapper.dataFile = some (encode pb ps) ∧ q.validCount = (live ps).length

/-- The message is still unacknowledged and durable, and the valid messages are counted. -/
structure Retained (pb : PayloadCodec) (q : QueueMessage) (d : Disk) (msgId : String) (r : Ref) : Prop where
  unacked : q.waitAckMsgs.lookup msgId = some r
  durable : q.durableMsgs.lookup msgId = some r
  counted : Counted pb q d

/-- After an acknowledgement nothing waits for one under that id. -/
theorem lookup_remove {q' : QueueMessage} {d' : Disk} (h : q.remove pb msgId d = some (q', d')) :
    q'.waitAckMsgs.lookup msgId = none := by
  unfold QueueMessage.remove at h
  split at h
  · next hnone =>
    cases h
    exact hnone
  · split at h
    · dsimp only at h
      split at h
      · cases h
      · cases h
        exact AList.lookup_erase _ _
    · cases h
      exact AList.lookup_erase _ _

/-- A compaction does not correct a counter that is one too small: the process aborts, or the data file is as before. -/
theorem not_counted_gc (ps : List Payload) (hf : d.file? q.mapper.dataFile = some (encode pb ps))
    (hsize : (encode pb ps).length < 2 ^ 64) (hcount : q.validCount ≠ (live ps).length) {q' : QueueMessage} {d' : Disk}
    (h : q.gc pb d = some (q', d')) : ¬Counted pb q' d' := by
  -- What is left of the argument: the counter and the file are unchanged.
  suffices hsame : q'.validCount = q.validCount ∧ d'.file? q'.mapper.dataFile = some (encode pb ps) by
    rintro ⟨ps', hf', hcount'⟩
    rw [hsame.2, Option.some.injEq] at hf'
    rw [← encode_inj pb hsize hf', hsame.1] at hcount'
    exact hcount hcount'
  unfold QueueMessage.gc at h
  split at h
  · dsimp only at h
    split at h
    · next hlen =>
      cases h
      obtain ⟨-, hload⟩ | ⟨-, qs, n, -, hload⟩ := MessageMapper.load_faults hf hsize
      · rw [MessageMapper.length_gc_of_load hload, List.length_map] at hlen
        exact absurd hlen.symm hcount
      · have hmapper := (patched_foldl_relocate (q.mapper.gc pb d).1 q).mapper
        have hdisk : (q.mapper.gc pb d).2 = d.skip n := by simp only [MessageMapper.gc, hload]
        refine ⟨hlen, ?_⟩
        rw [hdisk, Disk.file?_skip]
        exact (congrArg (fun m : MessageMapper => d.file? m.dataFile) hmapper).trans hf
    · cases h
  · cases h
    exact ⟨rfl, hf⟩

/-- **Failed invalidations.** A message whose invalidation fails never stays unacknowledged. When nothing of the record was
    written, the valid messages are not counted any more either. -/
theorem remove_failed (hwait : q.waitAckMsgs.lookup msgId = some r) (hmode : (q.heap r).isDurable = true)
    (_hfail : (q.mapper.remove pb (q.heap r) d).1 = false) :
    (¬∃ q' d', q.remove pb msgId d = some (q', d') ∧ Retained pb q' d' msgId r) ∧
      (Inv pb d.calmed q lay →
        (q.mapper.remove pb (q.heap r) d).2.2.file? q.mapper.dataFile = d.file? q.mapper.dataFile →
        ¬∃ q' d', q.remove pb msgId d = some (q', d') ∧ Counted pb q' d') := by
  refine ⟨?_, fun hinv hsame => ?_⟩
  · rintro ⟨q', d', hrem, hretained⟩
    have hunacked := hretained.unacked
    rw [lookup_remove hrem] at hunacked
    cases hunacked
  · rintro ⟨q', d', hrem, hcounted⟩
    have howner := hinv.books.owned r (Or.inr ⟨msgId, hwait⟩) hmode
    have hlive := length_live_payloads hinv.core.layout
    have hpos : 0 < (owners lay).length := List.length_pos_of_mem howner
    have hbound : (owners lay).length < 2 ^ 64 := by
      have h₁ := length_owners_le lay
      have h₂ := length_lay_le_span pb lay
      have h₃ := hinv.core.small
      omega
    have hf := hsame.trans hinv.core.file
    simp only [QueueMessage.remove, hwait, hmode, if_true, QueueMessage.invalidate] at hrem
    split at hrem
    · cases hrem
    · next q₂ d₂ hgc =>
      cases hrem
      refine not_counted_gc (lay.map (·.payload)) ?_ hinv.core.size ?_ hgc hcounted
      · exact hf
      dsimp only
      rw [hlive, hinv.core.valid]
      omega

end

/-- The disk of a first start on which only the first write behind the delivery of a message fails. -/
def flaky : Disk := { Store.vacant with fates := List.replicate 6 .ok ++ [.fail 0] }

/-- The record of the message. -/
def sent : Payload := { properties := some ⟨"a", .durable, ""⟩, body := "x", valid := "1" }

theorem remove_failed_flaky : ∃ s₀ s obs r, Store.boot protobuf flaky "data" "q" = some s₀ ∧
    s₀.run protobuf [.insert none "a" "x" true, .front] = some (obs, s) ∧ s.queue.waitAckMsgs.lookup "a" = some r ∧
    ¬∃ q' d', s.queue.remove protobuf "a" s.disk = some (q', d') ∧ Retained protobuf q' d' "a" r := by
  have hall : (Store.boot protobuf flaky "data" "q").any (fun s₀ =>
      (s₀.run protobuf [.insert none "a" "x" true, .front]).any fun (_, s) =>
        (s.queue.waitAckMsgs.lookup "a").any fun r =>
          (s.queue.heap r).isDurable && !(s.queue.mapper.remove protobuf (s.queue.heap r) s.disk).1) = true := by
    decide +kernel
  obtain ⟨s₀, hs₀, hall⟩ := (Option.any_eq_true _ _).mp hall
  obtain ⟨⟨obs, s⟩, hs, hall⟩ := (Option.any_eq_true _ _).mp hall
  obtain ⟨r, hr, hall⟩ := (Option.any_eq_true _ _).mp hall
  rw [Bool.and_eq_true, Bool.not_eq_true'] at hall
  have hfailed : _ ∧ (Inv protobuf s.disk.calmed s.queue [] → _) := remove_failed hr hall.1 hall.2
  exact ⟨s₀, s, obs, r, hs₀, hs, hr, hfailed.1⟩

/-- The message counts as acknowledged, its record stays valid, and a restart delivers it again. -/
theorem remove_uncounted : ∃ s₀ s obs r s₁ s₂, Store.boot protobuf flaky "data" "q" = some s₀ ∧
    s₀.run protobuf [.insert none "a" "x" true, .front] = some (obs, s) ∧ s.queue.waitAckMsgs.lookup "a" = some r ∧
    (s.queue.heap r).isDurable = true ∧ (s.queue.mapper.remove protobuf (s.queue.heap r) s.disk).1 = false ∧
    s.step protobuf (.remove "a") = some (.done true, s₁) ∧ s₁.queue.waitAckMsgs.lookup "a" = none ∧
    s₁.disk.file? s₁.queue.mapper.dataFile = some (encode protobuf [sent]) ∧ s₁.queue.validCount = 0 ∧
    s₁.step protobuf .restart = some (.done true, s₂) ∧ s₂.queue.msgs.map (fun r => (s₂.queue.heap r).payload) = [sent] := by
  have hall : (Store.boot protobuf flaky "data" "q").any (fun s₀ =>
      (s₀.run protobuf [.insert none "a" "x" true, .front]).any fun (_, s) =>
        ((s.queue.waitAckMsgs.lookup "a").any fun r =>
          (s.queue.heap r).isDurable && !(s.queue.mapper.remove protobuf (s.queue.heap r) s.disk).1) &&
        (s.step protobuf (.remove "a")).any fun (reply, s₁) => reply = .done true &&
          s₁.queue.waitAckMsgs.lookup "a" = none &&
          s₁.disk.file? s₁.queue.mapper.dataFile = some (encode protobuf [sent]) && s₁.queue.validCount = 0 &&
          (s₁.step protobuf .restart).any fun (reply, s₂) => reply = .done true &&
            s₂.queue.msgs.map (fun r => (s₂.queue.heap r).payload) = [sent]) = true := by
    decide +kernel
  obtain ⟨s₀, hs₀, hall⟩ := (Option.any_eq_true _ _).mp hall
  obtain ⟨⟨obs, s⟩, hs, hall⟩ := (Option.any_eq_true _ _).mp hall
  rw [Bool.and_eq_true] at hall
  obtain ⟨hfail, hall⟩ := hall
  obtain ⟨r, hr, hfail⟩ := (Option.any_eq_true _ _).mp hfail
  obtain ⟨⟨reply₁, s₁⟩, hs₁, hall⟩ := (Option.any_eq_true _ _).mp hall
  simp only [Bool.and_eq_true, decide_eq_true_eq] at hall hfail
  obtain ⟨⟨⟨⟨rfl, hunacked⟩, hfile⟩, hvalid⟩, hall⟩ := hall
  obtain ⟨⟨reply₂, s₂⟩, hs₂, hall⟩ := (Option.any_eq_true _ _).mp hall
  simp only [Bool.and_eq_true, decide_eq_true_eq] at hall
  obtain ⟨rfl, hmsgs⟩ := hall
  exact ⟨s₀, s, obs, r, s₁, s₂, hs₀, hs, hr, hfail.1, by simpa using hfail.2, hs₁, hunacked, hfile, hvalid, hs₂, hmsgs⟩

end HareMQ
