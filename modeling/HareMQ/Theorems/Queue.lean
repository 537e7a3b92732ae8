import HareMQ.Theorems.Layout

/-! # The invariant of a queue

The data file of a queue, its counters and its three containers agree, whatever ids the messages carry.
Ids matter in one place only: a compaction finds the message objects by id (`Synced`). -/

namespace HareMQ
open Lib

/-- The data file, the counters and the durable map of a queue. -/
structure Core (pb : PayloadCodec) (d : Disk) (q : QueueMessage) (lay : List Slot) : Prop where
  calm : d.Calm
  names : resolve q.mapper.tmpFile ≠ resolve q.mapper.dataFile
  file : d.file? q.mapper.dataFile = some (encode pb (lay.map (·.payload)))
  small : span pb lay < 2 ^ 32
  layout : Layout pb q lay
  total : q.totalCount = lay.length
  valid : q.validCount = (owners lay).length

/-- The pending list and the unacknowledged map of a queue. -/
structure Books (q : QueueMessage) (lay : List Slot) : Prop where
  nodup : q.msgs.Nodup
  lt_next : ∀ r ∈ q.msgs, r < q.next
  waits : ∀ {id r}, q.waitAckMsgs.lookup id = some r → (q.heap r).id = id ∧ r < q.next ∧ r ∉ q.msgs
  owned : ∀ r, (r ∈ q.msgs ∨ ∃ id, q.waitAckMsgs.lookup id = some r) → (q.heap r).isDurable = true → r ∈ owners lay

/-- The invariant of a queue. -/
structure Inv (pb : PayloadCodec) (d : Disk) (q : QueueMessage) (lay : List Slot) : Prop where
  core : Core pb d q lay
  books : Books q lay

section
variable {pb : PayloadCodec} {d : Disk} {q : QueueMessage} {lay : List Slot}

theorem length_lay_le_span (pb : PayloadCodec) (lay : List Slot) : 8 * lay.length ≤ span pb lay := by
  have := length_le_frames ((lay.map (·.payload)).map pb.serialize)
  rwa [List.length_map, List.length_map] at this

theorem length_owners_le (lay : List Slot) : (owners lay).length ≤ lay.length := List.length_filterMap_le _ _

theorem span_kept_le (pb : PayloadCodec) (lay : List Slot) : span pb (kept lay) ≤ span pb lay :=
  length_frames_le_of_sublist ((List.filter_sublist.map _).map _)

theorem length_kept (lay : List Slot) : (kept lay).length = (owners lay).length := by
  induction lay with
  | nil => rfl
  | cons s lay ih =>
    obtain ⟨p, owner⟩ := s
    cases owner with
    | none => simpa [kept] using ih
    | some r => simpa [kept] using ih

/-- The payloads of the owned records are those of the owners, in order. -/
theorem Layout.kept_payloads (h : Layout pb q lay) :
    (kept lay).map (·.payload) = (owners lay).map fun r => (q.heap r).payload := by
  have hmem : ∀ s ∈ lay, ∀ r, s.owner = some r → (q.heap r).payload = s.payload := fun s hs r hr => h.laid.mem hs hr
  clear h
  induction lay with
  | nil => rfl
  | cons s lay ih =>
    have ih := ih fun t ht => hmem t (List.mem_cons_of_mem _ ht)
    have hs := hmem s List.mem_cons_self
    obtain ⟨p, owner⟩ := s
    cases owner with
    | none => simpa [kept] using ih
    | some r =>
      rw [owners_cons_some, List.map_cons, hs r rfl, ← ih]
      rfl

theorem Core.size (h : Core pb d q lay) : (encode pb (lay.map (·.payload))).length < 2 ^ 64 :=
  Nat.lt_trans h.small (by decide)

theorem Core.small_live (h : Core pb d q lay) : (encode pb (live (lay.map (·.payload)))).length < 2 ^ 32 :=
  Nat.lt_of_le_of_lt (length_encode_filter_le pb _ _) h.small

/-! ### Synchrony -/

/-- Owners with the same id are the same object when the durable map finds every owner. -/
theorem Synced.inj (hs : Synced q lay) {r r' : Ref} (hr : r ∈ owners lay) (hr' : r' ∈ owners lay)
    (hid : (q.heap r).id = (q.heap r').id) : r = r' := by
  have h := hs r hr
  rw [hid, hs r' hr', Option.some.injEq] at h
  exact h.symm

/-- The durable map has at most one entry for each owner, and finds every owner when it has as many. -/
theorem Layout.durable_size (h : Layout pb q lay) :
    q.durableMsgs.size ≤ (owners lay).length ∧ (Synced q lay ↔ q.durableMsgs.size = (owners lay).length) := by
  have hids : q.durableMsgs.entries.map (fun e => (q.heap e.2).id) = q.durableMsgs.keys := by
    refine List.map_congr_left fun e he => ?_
    exact (h.durable (UMap.mem_entries_iff.mp he)).2
  have hnodup : (q.durableMsgs.entries.map (·.2)).Nodup := by
    refine List.Nodup.of_map (fun r => (q.heap r).id) ?_
    rw [List.map_map]
    exact hids ▸ q.durableMsgs.keys_nodup
  have hsub : q.durableMsgs.entries.map (·.2) ⊆ owners lay := by
    intro r hr
    obtain ⟨e, he, rfl⟩ := List.mem_map.mp hr
    exact (h.durable (UMap.mem_entries_iff.mp he)).1
  have hperm := List.subperm_of_subset hnodup hsub
  have hlen : (q.durableMsgs.entries.map (·.2)).length = q.durableMsgs.size := List.length_map _
  refine ⟨hlen ▸ hperm.length_le, fun hs => ?_, fun heq r hr => ?_⟩
  · have hback : owners lay ⊆ q.durableMsgs.entries.map (·.2) := fun r hr =>
      List.mem_map.mpr ⟨⟨_, r⟩, UMap.mem_entries_iff.mpr (hs r hr), rfl⟩
    exact Nat.le_antisymm (hlen ▸ hperm.length_le) (hlen ▸ (List.subperm_of_subset h.nodup hback).length_le)
  · have hmem := (hperm.perm_of_length_le (by omega)).mem_iff.mpr hr
    obtain ⟨e, he, rfl⟩ := List.mem_map.mp hmem
    have hlookup := UMap.mem_entries_iff.mp he
    rw [(h.durable hlookup).2]
    exact hlookup

/-! ### Compaction -/

/-- What a compaction keeps of a queue. -/
structure Relocated (q q' : QueueMessage) : Prop where
  mapper : q'.mapper = q.mapper
  msgs : q'.msgs = q.msgs
  durable : q'.durableMsgs = q.durableMsgs
  waits : q'.waitAckMsgs = q.waitAckMsgs
  next : q'.next = q.next
  payload : ∀ r, (q'.heap r).payload = (q.heap r).payload

theorem Relocated.refl (q : QueueMessage) : Relocated q q := ⟨rfl, rfl, rfl, rfl, rfl, fun _ => rfl⟩

/-- Every message that a compaction loads is found in the durable map, and as many are loaded as counted. -/
theorem Core.loaded (h : Core pb d q lay) (hs : Synced q lay) :
    (q.mapper.gc pb d).1.length = q.validCount ∧
      ∀ m ∈ (q.mapper.gc pb d).1, ∃ r, q.durableMsgs.lookup m.id = some r := by
  obtain ⟨d', hgc, -, -⟩ := MessageMapper.gc_eq pb h.calm h.names h.file h.size
  rw [hgc, live_map_payload h.layout.flagged]
  refine ⟨by rw [length_placedFrom, List.length_map, length_kept, h.valid], fun m hm => ?_⟩
  have hpay : m.payload ∈ (kept lay).map (·.payload) := by
    rw [← map_payload_placedFrom pb 0 ((kept lay).map (·.payload))]
    exact List.mem_map_of_mem hm
  rw [h.layout.kept_payloads] at hpay
  obtain ⟨r, hr, hrm⟩ := List.mem_map.mp hpay
  refine ⟨r, ?_⟩
  rw [Message.id, ← hrm]
  exact hs r hr

/-- A compaction of a synchronised queue never aborts: the owners move to the compacted file. -/
theorem Core.gc (h : Core pb d q lay) (hs : q.gcCheck = true → Synced q lay) :
    ∃ q' d' lay', q.gc pb d = some (q', d') ∧ Core pb d' q' lay' ∧ owners lay' = owners lay ∧ Relocated q q' ∧
      d'.dirs = d.dirs := by
  by_cases hcheck : q.gcCheck = true
  · have hs := hs hcheck
    obtain ⟨hlen, -⟩ := h.loaded hs
    obtain ⟨d', hgc, hcomp, -⟩ := MessageMapper.gc_eq pb h.calm h.names h.file h.size
    rw [live_map_payload h.layout.flagged] at hgc
    rw [hgc] at hlen
    have hsmall : span pb (kept lay) < 2 ^ 32 := Nat.lt_of_le_of_lt (span_kept_le pb lay) h.small
    obtain ⟨heap, hfold, hlaid, hpayload, -⟩ := foldl_relocate pb (kept lay) 0 q (by omega)
      (by rw [owners_kept]; exact h.layout.nodup) fun s hs' => by
        obtain ⟨hmem, hsome⟩ := List.mem_filter.mp hs'
        obtain ⟨r, hr⟩ := Option.isSome_iff_exists.mp hsome
        have hpay := h.layout.laid.mem hmem hr
        refine ⟨r, hr, ?_, hpay⟩
        rw [← hpay]
        exact hs r (List.mem_filterMap.mpr ⟨s, hmem, hr⟩)
    refine ⟨{ q with heap := heap, validCount := (kept lay).length, totalCount := (kept lay).length }, d', kept lay, ?_,
      ?_, owners_kept lay, ⟨rfl, rfl, rfl, rfl, rfl, hpayload⟩, hcomp.dirs⟩
    · simp only [QueueMessage.gc, hcheck, if_true, hgc, hlen, hfold]
      rw [← hlen, length_placedFrom, List.length_map]
    · refine ⟨hcomp.fates.trans h.calm, h.names, ?_, hsmall, ?_, rfl, ?_⟩
      · rw [← live_map_payload h.layout.flagged]
        exact hcomp.data
      · refine ⟨hlaid, fun s hs' => h.layout.flagged s (List.mem_filter.mp hs').1, ?_, ?_, fun {id r} hr => ?_⟩
        · rw [owners_kept]
          exact h.layout.nodup
        · rw [owners_kept]
          exact h.layout.lt_next
        · rw [owners_kept]
          refine ⟨(h.layout.durable hr).1, ?_⟩
          rw [Message.id, hpayload]
          exact (h.layout.durable hr).2
      · rw [owners_kept, length_kept]
  · exact ⟨q, d, lay, by simp [QueueMessage.gc, hcheck], h, rfl, Relocated.refl q, rfl⟩

/-! ### Insert -/

/-- The message that `insert` stores: the durable ones are marked valid. -/
def stored (msg : Message) : Message := if msg.isDurable then { msg with payload := msg.payload.setValid "1" } else msg

variable {bp : Option BasicProperties} {uuid body : String} {queueDurable : Bool}

/-- An undurable message is only queued. -/
theorem insert_undurable (hmode : (QueueMessage.makeMessage bp uuid body queueDurable).isDurable = false) :
    q.insert pb bp uuid body queueDurable d =
      (true, { q with
        heap := Function.update q.heap q.next (QueueMessage.makeMessage bp uuid body queueDurable)
        next := q.next + 1
        msgs := q.msgs ++ [q.next] }, d) := by
  simp [QueueMessage.insert, hmode, QueueMessage.alloc]

/-- A durable message is appended to the data file and then adopted. -/
theorem Core.insert_durable (h : Core pb d q lay)
    (hmode : (QueueMessage.makeMessage bp uuid body queueDurable).isDurable = true) :
    ∃ d', q.insert pb bp uuid body queueDurable d = (true, { q.adopt
        ((stored (QueueMessage.makeMessage bp uuid body queueDurable)).setPlace (span pb lay + 8)
          (pb.serialize (stored (QueueMessage.makeMessage bp uuid body queueDurable)).payload).length) with
        validCount := (q.validCount + 1) % 2 ^ 64, totalCount := (q.totalCount + 1) % 2 ^ 64 }, d') ∧
      d'.Calm ∧ d'.dirs = d.dirs ∧
      d'.file? q.mapper.dataFile = some (encode pb (lay.map (·.payload) ++
        [(stored (QueueMessage.makeMessage bp uuid body queueDurable)).payload])) := by
  obtain ⟨d', hins, hf, hw⟩ := MessageMapper.insertInto_eq pb h.calm h.file
    (stored (QueueMessage.makeMessage bp uuid body queueDurable))
  refine ⟨d', ?_, hw.fates.trans h.calm, hw.dirs, by simpa using hf⟩
  rw [stored, if_pos hmode] at hins ⊢
  simp only [QueueMessage.insert, hmode, if_true, MessageMapper.insert, hins]
  rfl

theorem Books.insert (h : Books q lay) {q' : QueueMessage} {lay' : List Slot} {msg : Message}
    (hmsgs : q'.msgs = q.msgs ++ [q.next]) (hwaits : q'.waitAckMsgs = q.waitAckMsgs) (hnext : q'.next = q.next + 1)
    (hheap : q'.heap = Function.update q.heap q.next msg) (hsub : ∀ r ∈ owners lay, r ∈ owners lay')
    (howned : msg.isDurable = true → q.next ∈ owners lay') : Books q' lay' := by
  have hold : ∀ r < q.next, q'.heap r = q.heap r := fun r hr => by
    rw [hheap]
    exact Function.update_of_ne (Nat.ne_of_lt hr) _ _
  refine ⟨?_, fun r hr => ?_, fun {id r} hr => ?_, fun r hr hmode => ?_⟩
  · rw [hmsgs, List.nodup_append]
    refine ⟨h.nodup, by simp, fun r hr r' hr' heq => ?_⟩
    exact absurd (heq.trans (List.mem_singleton.mp hr')) (Nat.ne_of_lt (h.lt_next r hr))
  · rw [hmsgs, List.mem_append, List.mem_singleton] at hr
    rw [hnext]
    rcases hr with hr | rfl
    · exact Nat.lt_succ_of_lt (h.lt_next r hr)
    · exact Nat.lt_succ_self _
  · rw [hwaits] at hr
    obtain ⟨hid, hlt, hnot⟩ := h.waits hr
    rw [hold r hlt, hnext, hmsgs, List.mem_append, List.mem_singleton]
    exact ⟨hid, Nat.lt_succ_of_lt hlt, fun hmem => hmem.elim hnot (Nat.ne_of_lt hlt)⟩
  · rw [hwaits, hmsgs, List.mem_append, List.mem_singleton] at hr
    by_cases hrn : r = q.next
    · subst hrn
      rw [hheap, Function.update_self] at hmode
      exact howned hmode
    · have hr' : r ∈ q.msgs ∨ ∃ id, q.waitAckMsgs.lookup id = some r := by
        rcases hr with (hr | hr) | hr
        · exact Or.inl hr
        · exact absurd hr hrn
        · exact Or.inr hr
      have hlt : r < q.next := hr'.elim (h.lt_next r) fun ⟨_, hid⟩ => (h.waits hid).2.1
      rw [hold r hlt] at hmode
      exact hsub r (h.owned r hr' hmode)

/-- What an insert changes. -/
structure Inserted (q q' : QueueMessage) (lay lay' : List Slot) (msg : Message) : Prop where
  mapper : q'.mapper = q.mapper
  msgs : q'.msgs = q.msgs ++ [q.next]
  waits : q'.waitAckMsgs = q.waitAckMsgs
  next : q'.next = q.next + 1
  payload : (q'.heap q.next).payload = (stored msg).payload
  old : ∀ r ≠ q.next, q'.heap r = q.heap r
  owners : owners lay' = if msg.isDurable then owners lay ++ [q.next] else owners lay
  durable : q'.durableMsgs = if msg.isDurable then q.durableMsgs.emplace msg.id q.next else q.durableMsgs

/-- An insert always succeeds, and keeps the invariant if the data file stays below 4 GiB. -/
theorem Inv.insert (h : Inv pb d q lay) (bp : Option BasicProperties) (uuid body : String) (queueDurable : Bool) :
    ∃ q' d', q.insert pb bp uuid body queueDurable d = (true, q', d') ∧ d'.dirs = d.dirs ∧
      (FileHelper.size d' q'.mapper.dataFile < 2 ^ 32 → ∃ lay', Inv pb d' q' lay' ∧
        Inserted q q' lay lay' (QueueMessage.makeMessage bp uuid body queueDurable)) := by
  cases hmode : (QueueMessage.makeMessage bp uuid body queueDurable).isDurable with
  | false =>
    refine ⟨_, d, insert_undurable hmode, rfl, fun _ => ⟨lay, ⟨?_, ?_⟩, ?_⟩⟩
    · exact ⟨h.core.calm, h.core.names, h.core.file, h.core.small, h.core.layout.congr
        (fun r hr => Function.update_of_ne (Nat.ne_of_lt (h.core.layout.lt_next r hr)) _ _) (Nat.le_succ _) rfl,
        h.core.total, h.core.valid⟩
    · exact h.books.insert rfl rfl rfl rfl (fun _ hr => hr) fun hd => by rw [hmode] at hd; cases hd
    · refine ⟨rfl, rfl, rfl, rfl, ?_, fun r hr => Function.update_of_ne hr _ _, by simp [hmode], by simp [hmode]⟩
      rw [stored, if_neg (by simp [hmode])]
      exact congrArg Message.payload (Function.update_self ..)
  | true =>
    obtain ⟨d', hins, hcalm, hdirs, hfile⟩ := h.core.insert_durable hmode
    refine ⟨_, d', hins, hdirs, fun hsize => ?_⟩
    generalize hmsg : QueueMessage.makeMessage bp uuid body queueDurable = msg at *
    have hstored : stored msg = { msg with payload := msg.payload.setValid "1" } := if_pos hmode
    have hsize : FileHelper.size d' q.mapper.dataFile < 2 ^ 32 := hsize
    rw [FileHelper.size_eq hfile] at hsize
    have hspan : span pb lay + (8 + (pb.serialize (stored msg).payload).length) < 2 ^ 32 := by
      simpa [span] using hsize
    -- Below 4 GiB the 32-bit fields hold the true place.
    have hplace : (stored msg).setPlace (span pb lay + 8) (pb.serialize (stored msg).payload).length =
        placedAt pb (span pb lay) (stored msg).payload := by
      rw [Message.setPlace, Nat.mod_eq_of_lt (by omega), Nat.mod_eq_of_lt (by omega)]
      rfl
    rw [hplace]
    have hlayout := h.core.layout.adopt (placedAt pb (span pb lay) (stored msg).payload) rfl
      (by rw [hstored]; rfl) (by rw [hstored]; simpa [Message.isDurable, placedAt] using hmode)
    refine ⟨lay ++ [⟨(stored msg).payload, some q.next⟩], ⟨⟨hcalm, h.core.names, ?_, ?_, ?_, ?_, ?_⟩, ?_⟩, ?_⟩
    · rw [List.map_append]
      exact hfile
    · simpa using hspan
    · exact hlayout.congr (fun _ _ => rfl) (Nat.le_refl _) rfl
    · have := length_lay_le_span pb lay
      rw [List.length_append, List.length_singleton, ← h.core.total]
      exact Nat.mod_eq_of_lt (by rw [h.core.total]; omega)
    · have h₁ := length_lay_le_span pb lay
      have h₂ := length_owners_le lay
      rw [owners_append, List.length_append, ← h.core.valid]
      exact Nat.mod_eq_of_lt (by rw [h.core.valid]; omega)
    · exact h.books.insert rfl rfl rfl rfl (fun r hr => by rw [owners_append]; exact List.mem_append_left _ hr)
        fun _ => by simp
    · refine ⟨rfl, rfl, rfl, rfl, ?_, fun r hr => Function.update_of_ne hr _ _, by simp [hmode], ?_⟩
      · show (Function.update q.heap q.next (placedAt pb (span pb lay) (stored msg).payload) q.next).payload = _
        rw [Function.update_self]
        rfl
      · simp only [hmode, if_true]
        have hid : (placedAt pb (span pb lay) (stored msg).payload).id = msg.id := by
          rw [hstored]
          rfl
        exact congrArg (fun id => q.durableMsgs.emplace id q.next) hid

/-! ### Front -/

theorem QueueMessage.front_mapper (q : QueueMessage) : q.front.2.mapper = q.mapper := by
  unfold QueueMessage.front
  split <;> rfl

/-- Taking the front message keeps the invariant, whatever its id. -/
theorem Inv.front (h : Inv pb d q lay) : Inv pb d q.front.2 lay := by
  unfold QueueMessage.front
  cases hm : q.msgs with
  | nil => exact h
  | cons r rest =>
    have hnodup := h.books.nodup
    rw [hm, List.nodup_cons] at hnodup
    have hr : r < q.next := h.books.lt_next r (hm ▸ List.mem_cons_self)
    refine ⟨⟨h.core.calm, h.core.names, h.core.file, h.core.small, h.core.layout.congr (fun _ _ => rfl) (Nat.le_refl _) rfl,
      h.core.total, h.core.valid⟩, hnodup.2, fun r' hr' => h.books.lt_next r' (hm ▸ List.mem_cons_of_mem _ hr'), ?_, ?_⟩
    · intro id r' hr'
      rcases UMap.lookup_emplace_eq_some hr' with hr' | ⟨rfl, -, rfl⟩
      · obtain ⟨hid, hlt, hnot⟩ := h.books.waits hr'
        exact ⟨hid, hlt, fun hmem => hnot (hm ▸ List.mem_cons_of_mem _ hmem)⟩
      · exact ⟨rfl, hr, hnodup.1⟩
    · rintro r' (hr' | ⟨id, hr'⟩) hmode
      · exact h.books.owned r' (Or.inl (hm ▸ List.mem_cons_of_mem _ hr')) hmode
      · rcases UMap.lookup_emplace_eq_some hr' with hr' | ⟨-, -, rfl⟩
        · exact h.books.owned r' (Or.inr ⟨id, hr'⟩) hmode
        · exact h.books.owned r' (Or.inl (hm ▸ List.mem_cons_self)) hmode

/-! ### Remove -/

/-- The other owners keep their entries when an owner's id is erased. -/
theorem Synced.erase (hs : Synced q lay) (hnodup : (owners lay).Nodup) {q' : QueueMessage} {lay' : List Slot} {msgId : String}
    {r : Ref} (howner : r ∈ owners lay) (hid : (q.heap r).id = msgId) (howners : owners lay' = (owners lay).erase r)
    (hheap : ∀ r' ≠ r, q'.heap r' = q.heap r') (hdurable : q'.durableMsgs = q.durableMsgs.erase msgId) : Synced q' lay' := by
  intro r' hr'
  rw [howners, hnodup.mem_erase_iff] at hr'
  have hne : (q.heap r').id ≠ msgId := fun heq => hr'.1 (hs.inj hr'.2 howner (heq.trans hid.symm))
  rw [hheap r' hr'.1, hdurable, AList.lookup_erase_ne hne]
  exact hs r' hr'.2

/-- Acknowledging `msgId` starts a compaction. -/
def QueueMessage.collects (q : QueueMessage) (msgId : String) : Bool :=
  match q.waitAckMsgs.lookup msgId with
  | none => false
  | some r => (q.heap r).isDurable && 2000 < q.totalCount && 2 * (q.validCount - 1) < q.totalCount

/-- What an acknowledgement changes. -/
inductive Removed (q q' : QueueMessage) (lay lay' : List Slot) (msgId : String) : Prop
  | absent (hnone : q.waitAckMsgs.lookup msgId = none) (hq : q' = q) (hlay : lay' = lay)
  | plain (r : Ref) (hwait : q.waitAckMsgs.lookup msgId = some r) (hmode : (q.heap r).isDurable = false)
      (hq : q' = { q with waitAckMsgs := q.waitAckMsgs.erase msgId }) (hlay : lay' = lay)
  | durable (r : Ref) (hwait : q.waitAckMsgs.lookup msgId = some r) (howner : r ∈ owners lay)
      (howners : owners lay' = (owners lay).erase r) (hmapper : q'.mapper = q.mapper) (hmsgs : q'.msgs = q.msgs)
      (hwaits : q'.waitAckMsgs = q.waitAckMsgs.erase msgId) (hdurable : q'.durableMsgs = q.durableMsgs.erase msgId)
      (hnext : q'.next = q.next) (hpayload : ∀ r' ≠ r, (q'.heap r').payload = (q.heap r').payload)
      (hcontent : (q'.heap r).payload = (q.heap r).payload.setValid "0")

theorem Removed.mapper {q' : QueueMessage} {lay' : List Slot} {msgId : String} (h : Removed q q' lay lay' msgId) :
    q'.mapper = q.mapper := by
  cases h with
  | absent _ hq _ => rw [hq]
  | plain _ _ _ hq _ => rw [hq]
  | durable _ _ _ _ hmapper _ _ _ _ _ _ => exact hmapper

/-- The invalidation of an owner writes its record in place. -/
theorem Core.invalidate (h : Core pb d q lay) {msgId : String} {r : Ref} (howner : r ∈ owners lay)
    (hid : (q.heap r).id = msgId) :
    ∃ q' d' lay', q.invalidate pb msgId r d = (q', d') ∧ Core pb d' q' lay' ∧ owners lay' = (owners lay).erase r ∧
      q' = { q with
        heap := Function.update q.heap r { q.heap r with payload := (q.heap r).payload.setValid "0" }
        durableMsgs := q.durableMsgs.erase msgId
        validCount := q.validCount - 1 } ∧ d'.dirs = d.dirs := by
  obtain ⟨l₁, p, l₂, rfl⟩ := exists_slot_of_mem_owners howner
  have hplace := h.layout.laid.at
  have hvalid : p.valid = "1" := ((h.layout.flagged ⟨p, some r⟩ (by simp)).owned r rfl).1
  have hlen : (pb.serialize (p.setValid "0")).length = (pb.serialize p).length := by
    have hp : p.setValid "1" = p := by rw [Payload.setValid, ← hvalid]
    have := pb.length_serialize p
    rwa [hp] at this
  have hf : d.file? q.mapper.dataFile = some (encode pb (l₁.map (·.payload)) ++
      (frame (pb.serialize (q.heap r).payload) ++ encode pb (l₂.map (·.payload)))) := by
    rw [h.file, hplace]
    simp [placedAt]
  have hrem := MessageMapper.remove_eq pb (m := q.mapper) h.calm (q.heap r)
    (by rw [hplace]; exact hlen) hf (by rw [hplace]; rfl) (by rw [hplace]; rfl)
  have hnodup := h.layout.nodup
  rw [owners_append, owners_cons_some] at hnodup
  have hr₁ : r ∉ owners l₁ := fun hmem => (List.nodup_append.mp hnodup).2.2 r hmem r List.mem_cons_self rfl
  have herase : (owners (l₁ ++ ⟨p, some r⟩ :: l₂)).erase r = owners (l₁ ++ ⟨p.setValid "0", none⟩ :: l₂) := by
    rw [owners_append, owners_cons_some, List.erase_append_right _ hr₁, List.erase_cons_head, owners_append,
      owners_cons_none]
  have hcount : 0 < q.validCount := by
    rw [h.valid, owners_append, owners_cons_some, List.length_append, List.length_cons]
    omega
  have hbound : q.validCount < 2 ^ 64 := by
    have h₁ := length_owners_le (l₁ ++ ⟨p, some r⟩ :: l₂)
    have h₂ := length_lay_le_span pb (l₁ ++ ⟨p, some r⟩ :: l₂)
    have h₃ := h.small
    rw [h.valid]
    omega
  have hdec : (q.validCount + (2 ^ 64 - 1)) % 2 ^ 64 = q.validCount - 1 := by omega
  refine ⟨_, d.put q.mapper.dataFile (encode pb (l₁.map (·.payload)) ++
    (frame (pb.serialize ((q.heap r).payload.setValid "0")) ++ encode pb (l₂.map (·.payload)))),
    l₁ ++ ⟨p.setValid "0", none⟩ :: l₂, ?_, ?_, herase.symm, rfl, rfl⟩
  · simp only [QueueMessage.invalidate, hrem, hdec]
  · refine ⟨h.calm.put _, h.names, ?_, ?_, h.layout.invalidate rfl (by rw [← hid, hplace]; rfl) hlen, ?_, ?_⟩
    · rw [hplace]
      simp [placedAt]
    · have := h.small
      simp only [span_append, span_cons] at this ⊢
      rw [hlen]
      exact this
    · rw [h.total]
      simp
    · have hv := h.valid
      rw [← herase, List.length_erase_of_mem howner]
      show q.validCount - 1 = _
      rw [hv]

theorem Books.remove (h : Books q lay) {q' : QueueMessage} {lay' : List Slot} {msgId : String} {r : Ref}
    (hwait : q.waitAckMsgs.lookup msgId = some r) (hmsgs : q'.msgs = q.msgs)
    (hwaits : q'.waitAckMsgs = q.waitAckMsgs.erase msgId) (hnext : q'.next = q.next)
    (hpayload : ∀ r' ≠ r, (q'.heap r').payload = (q.heap r').payload)
    (howners : ∀ r' ≠ r, r' ∈ owners lay → r' ∈ owners lay') : Books q' lay' := by
  obtain ⟨hid, -, hr⟩ := h.waits hwait
  have hne : ∀ {id r'}, (q.waitAckMsgs.erase msgId).lookup id = some r' → r' ≠ r := by
    rintro id r' hr' rfl
    obtain ⟨hne, hr'⟩ := UMap.lookup_erase_eq_some hr'
    exact hne ((h.waits hr').1.symm.trans hid)
  refine ⟨hmsgs ▸ h.nodup, fun r' hr' => hnext ▸ h.lt_next r' (hmsgs ▸ hr'), fun {id r'} hr' => ?_, fun r' hr' hmode => ?_⟩
  · rw [hwaits] at hr'
    rw [Message.id, hpayload r' (hne hr'), hnext, hmsgs]
    exact h.waits (UMap.lookup_erase_eq_some hr').2
  · rw [hmsgs, hwaits] at hr'
    have hrr : r' ≠ r := by
      rcases hr' with hr' | ⟨id, hr'⟩
      · rintro rfl
        exact hr hr'
      · exact hne hr'
    rw [Message.isDurable, hpayload r' hrr] at hmode
    refine howners r' hrr (h.owned r' ?_ hmode)
    rcases hr' with hr' | ⟨id, hr'⟩
    · exact Or.inl hr'
    · exact Or.inr ⟨id, (UMap.lookup_erase_eq_some hr').2⟩

/-- An acknowledgement keeps the invariant, if a compaction that it starts finds the queue synchronised. -/
theorem Inv.remove (h : Inv pb d q lay) (msgId : String) (hs : q.collects msgId = true → Synced q lay) :
    ∃ q' d' lay', q.remove pb msgId d = some (q', d') ∧ Inv pb d' q' lay' ∧ Removed q q' lay lay' msgId ∧
      d'.dirs = d.dirs := by
  cases hwait : q.waitAckMsgs.lookup msgId with
  | none => exact ⟨q, d, lay, by simp [QueueMessage.remove, hwait], h, .absent hwait rfl rfl, rfl⟩
  | some r =>
    obtain ⟨hid, -, hnot⟩ := h.books.waits hwait
    cases hmode : (q.heap r).isDurable with
    | false =>
      refine ⟨_, d, lay, by simp [QueueMessage.remove, hwait, hmode], ⟨?_, ?_⟩, .plain r hwait hmode rfl rfl, rfl⟩
      · exact ⟨h.core.calm, h.core.names, h.core.file, h.core.small,
          h.core.layout.congr (fun _ _ => rfl) (Nat.le_refl _) rfl, h.core.total, h.core.valid⟩
      · exact h.books.remove hwait rfl rfl rfl (fun _ _ => rfl) fun _ _ hr' => hr'
    | true =>
      have howner := h.books.owned r (Or.inr ⟨msgId, hwait⟩) hmode
      obtain ⟨q₁, d₁, lay₁, hinv, hcore₁, howners₁, hq₁, hdirs₁⟩ := h.core.invalidate howner hid
      have hheap₁ : ∀ r' ≠ r, q₁.heap r' = q.heap r' := fun r' hr' => by
        rw [hq₁]
        exact Function.update_of_ne hr' _ _
      have hs₁ : q₁.gcCheck = true → Synced q₁ lay₁ := by
        intro hcheck
        have hsync : Synced q lay := hs (by
          rw [hq₁] at hcheck
          simpa [QueueMessage.collects, hwait, hmode, QueueMessage.gcCheck] using hcheck)
        exact hsync.erase h.core.layout.nodup howner hid howners₁ hheap₁ (by rw [hq₁])
      obtain ⟨q₂, d₂, lay₂, hgc, hcore₂, howners₂, hrel, hdirs₂⟩ := hcore₁.gc hs₁
      have hpayload : ∀ r', (q₂.heap r').payload = (q₁.heap r').payload := hrel.payload
      have hother : ∀ r' ≠ r, (q₂.heap r').payload = (q.heap r').payload := fun r' hr' => by
        rw [hpayload, hheap₁ r' hr']
      have howners : owners lay₂ = (owners lay).erase r := howners₂.trans howners₁
      refine ⟨{ q₂ with waitAckMsgs := q₂.waitAckMsgs.erase msgId }, d₂, lay₂, ?_, ⟨?_, ?_⟩,
        .durable r hwait howner howners ?_ ?_ ?_ ?_ ?_ hother ?_, hdirs₂.trans hdirs₁⟩
      · simp only [QueueMessage.remove, hwait, hmode, if_true, hinv, hgc]
      · exact ⟨hcore₂.calm, hcore₂.names, hcore₂.file, hcore₂.small,
          hcore₂.layout.congr (fun _ _ => rfl) (Nat.le_refl _) rfl, hcore₂.total, hcore₂.valid⟩
      · refine h.books.remove hwait (by rw [hrel.msgs, hq₁]) (by rw [hrel.waits, hq₁]) (by rw [hrel.next, hq₁]) hother ?_
        intro r' hr' hmem
        rw [howners]
        exact (List.mem_erase_of_ne hr').mpr hmem
      · rw [hrel.mapper, hq₁]
      · rw [hrel.msgs, hq₁]
      · rw [hrel.waits, hq₁]
      · rw [hrel.durable, hq₁]
      · rw [hrel.next, hq₁]
      · rw [hpayload, hq₁]
        simp only [Function.update_self]

end
end HareMQ
