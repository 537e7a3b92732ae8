import HareMQ.Theorems.Crash
import HareMQ.Theorems.Faults

/-! # A refused insertion

`__insert` appends twice and takes nothing back. After a failed insertion the queue in memory is as before, and the
data file ends in what was written of the record. -/

namespace HareMQ
open Lib

variable (pb : PayloadCodec)

/-! ### Insertions one after the other -/

/-- The arguments of `insert`. -/
structure Insertion where
  bp : Option BasicProperties
  uuid : String
  body : String
  queueDurable : Bool

namespace Insertion

def message (i : Insertion) : Message := QueueMessage.makeMessage i.bp i.uuid i.body i.queueDurable

/-- The payload that the data file receives. -/
def payload (i : Insertion) : Payload := (stored i.message).payload

def apply (i : Insertion) (q : QueueMessage) (d : Disk) : Bool × QueueMessage × Disk :=
  q.insert pb i.bp i.uuid i.body i.queueDurable d

/-- The payloads of the durable messages that are accepted, in order. -/
def applyAll (q : QueueMessage) (d : Disk) : List Insertion → List Payload × QueueMessage × Disk
  | [] => ([], q, d)
  | i :: is =>
    match i.apply pb q d with
    | (ok, q, d) =>
      match applyAll q d is with
      | (accepted, q, d) => (if ok && i.message.isDurable then i.payload :: accepted else accepted, q, d)

/-- The insertion needs no write, or both its writes are done. -/
def done (i : Insertion) (d : Disk) : Bool := !i.message.isDurable || d.allows 2

/-- Each insertion is done, or its first write fails at once. -/
def spares (q : QueueMessage) (d : Disk) : List Insertion → Bool
  | [] => true
  | i :: is => (i.done d || d.fate = .fail 0) && spares (i.apply pb q d).2.1 (i.apply pb q d).2.2 is

end Insertion

/-- A queue with a well-formed data file. -/
structure OnFile (baseDir qname : String) (q : QueueMessage) (d : Disk) (ps : List Payload) : Prop where
  mapper : q.mapper = .files baseDir qname
  dir : d.isDir (MessageMapper.directory baseDir) = true
  file : d.file? q.mapper.dataFile = some (encode pb ps)

/-- The store after a failed insertion: the queue is unchanged, the data file decodes as before, and a restart recovers
    the durable messages that are accepted later, if no other insertion tears the file. -/
structure Usable (baseDir qname : String) (q q' : QueueMessage) (d d' : Disk) : Prop where
  queue : q' = q
  flag : (q.mapper.load pb d'.calmed).1 = (q.mapper.load pb d.calmed).1
  decoded : (q.mapper.load pb d'.calmed).2.1 = (q.mapper.load pb d.calmed).2.1
  recovered : ∀ (later : List Insertion) (fates : List FileFate) (accepted : List Payload) (q'' : QueueMessage) (d'' : Disk),
    Insertion.spares pb q' { d' with fates } later = true →
    Insertion.applyAll pb q' { d' with fates } later = (accepted, q'', d'') →
    FileHelper.size d'' q''.mapper.dataFile < 2 ^ 64 →
    ∃ s, Store.boot pb d''.calmed baseDir qname = some s ∧
      s.queue.msgs.map (fun r => (s.queue.heap r).payload) = (q.mapper.load pb d.calmed).2.1.map (·.payload) ++ accepted

section
variable {pb} {baseDir qname : String} {q q' : QueueMessage} {d d' : Disk} {ps : List Payload} {i : Insertion} {data : Bytes}

/-! ### One insertion -/

theorem apply_undurable (pb : PayloadCodec) (q : QueueMessage) (d : Disk) (hmode : i.message.isDurable = false) :
    (i.apply pb q d).1 = true ∧ (i.apply pb q d).2.1.mapper = q.mapper ∧ (i.apply pb q d).2.2 = d := by
  rw [Insertion.apply, insert_undurable hmode]
  exact ⟨rfl, rfl, rfl⟩

theorem apply_durable (pb : PayloadCodec) (q : QueueMessage) (d : Disk) (hmode : i.message.isDurable = true) :
    (i.apply pb q d).1 = (MessageMapper.insertInto pb q.mapper.dataFile (stored i.message) d).1 ∧
      (i.apply pb q d).2.2 = (MessageMapper.insertInto pb q.mapper.dataFile (stored i.message) d).2.2 ∧
      (i.apply pb q d).2.1.mapper = q.mapper ∧
      ((i.apply pb q d).1 = false → (i.apply pb q d).2.1 = q) := by
  have hstored : stored i.message = { i.message with payload := i.message.payload.setValid "1" } := if_pos hmode
  have hmode' : (QueueMessage.makeMessage i.bp i.uuid i.body i.queueDurable).isDurable = true := hmode
  rw [hstored]
  simp only [Insertion.apply, QueueMessage.insert, hmode', if_true, MessageMapper.insert, Insertion.message]
  split
  · next heq =>
    rw [heq]
    exact ⟨rfl, rfl, rfl, fun _ => rfl⟩
  · next heq =>
    rw [heq]
    exact ⟨rfl, rfl, rfl, fun h => absurd h.symm Bool.false_ne_true⟩

theorem apply_keeps (pb : PayloadCodec) (i : Insertion) (q : QueueMessage) (d : Disk) :
    (i.apply pb q d).2.1.mapper = q.mapper ∧ (i.apply pb q d).2.2.dirs = d.dirs := by
  cases hmode : i.message.isDurable with
  | false =>
    obtain ⟨-, hmapper, hdisk⟩ := apply_undurable pb q d hmode
    exact ⟨hmapper, by rw [hdisk]⟩
  | true =>
    obtain ⟨-, hdisk, hmapper, -⟩ := apply_durable pb q d hmode
    exact ⟨hmapper, by rw [hdisk]; exact (MessageMapper.insertInto_only pb _ _ d).dirs⟩

/-- A refused insertion whose length is not lost tears the data file, unless its first write failed at once. -/
theorem apply_refused (hf : d.file? q.mapper.dataFile = some data) (hlength : ∀ written, d.fate ≠ .lost written)
    (hrefused : (i.apply pb q d).1 = false) :
    i.message.isDurable = true ∧ (i.apply pb q d).2.1 = q ∧
      ∃ torn, (i.apply pb q d).2.2.file? q.mapper.dataFile = some (data ++ torn) ∧
        torn <+: frame (pb.serialize i.payload) ∧ (torn = [] ↔ d.fate = .fail 0) := by
  cases hmode : i.message.isDurable with
  | false =>
    rw [(apply_undurable pb q d hmode).1] at hrefused
    cases hrefused
  | true =>
    obtain ⟨hok, hdisk, -, hqueue⟩ := apply_durable pb q d hmode
    refine ⟨rfl, hqueue hrefused, ?_⟩
    rw [hdisk]
    exact MessageMapper.insertInto_torn pb hf hlength (hok.symm.trans hrefused)

/-- A durable message has its record at the end of the data file when both writes are done. -/
theorem apply_done (hf : d.file? q.mapper.dataFile = some (encode pb ps)) (hdone : i.done d = true) :
    (i.apply pb q d).1 = true ∧ (i.apply pb q d).2.2.file? q.mapper.dataFile =
      some (encode pb (if i.message.isDurable then ps ++ [i.payload] else ps)) := by
  cases hmode : i.message.isDurable with
  | false =>
    obtain ⟨hok, -, hdisk⟩ := apply_undurable pb q d hmode
    rw [hdisk]
    exact ⟨hok, hf⟩
  | true =>
    obtain ⟨hok, hdisk, -, -⟩ := apply_durable pb q d hmode
    rw [Insertion.done, hmode, Bool.not_true, Bool.false_or] at hdone
    obtain ⟨d', hinsert, hf', -⟩ := MessageMapper.insertInto_allowed pb hf hdone (stored i.message)
    rw [hok, hdisk, hinsert, if_pos rfl, encode_append, encode_cons, encode_nil, List.append_nil]
    exact ⟨rfl, hf'⟩

theorem OnFile.apply (h : OnFile pb baseDir qname q d ps)
    (hspared : (i.done d || d.fate = .fail 0) = true) :
    OnFile pb baseDir qname (i.apply pb q d).2.1 (i.apply pb q d).2.2
      (if (i.apply pb q d).1 && i.message.isDurable then ps ++ [i.payload] else ps) := by
  obtain ⟨hmapper, hdirs⟩ := apply_keeps pb i q d
  refine ⟨hmapper.trans h.mapper, ?_, ?_⟩
  · rw [Disk.isDir_congr hdirs]
    exact h.dir
  · rw [hmapper]
    cases hdone : i.done d with
    | true =>
      obtain ⟨hok, hf⟩ := apply_done h.file hdone
      rw [hok, Bool.true_and]
      exact hf
    | false =>
      rw [hdone, Bool.false_or, decide_eq_true_eq] at hspared
      have hmode : i.message.isDurable = true := by
        rw [Insertion.done, Bool.or_eq_false_iff, Bool.not_eq_false'] at hdone
        exact hdone.1
      have hrefused : (i.apply pb q d).1 = false := by
        rw [(apply_durable pb q d hmode).1, (MessageMapper.insertInto_passes pb (by rw [h.file]; rfl) _).1,
          Disk.passes_two, hspared]
        rfl
      have hlength : ∀ written, d.fate ≠ .lost written := by
        rw [hspared]
        intro written hlost
        cases hlost
      obtain ⟨-, -, torn, hf, -, hnil⟩ := apply_refused h.file hlength hrefused
      rw [hrefused, hf, hnil.mpr hspared, List.append_nil]
      rfl

/-! ### Later insertions and a restart -/

theorem OnFile.applyAll : ∀ {later : List Insertion} {q q' : QueueMessage} {d d' : Disk} {ps accepted : List Payload},
    OnFile pb baseDir qname q d ps → Insertion.spares pb q d later = true →
    Insertion.applyAll pb q d later = (accepted, q', d') →
    OnFile pb baseDir qname q' d' (ps ++ accepted) ∧ ∀ p ∈ accepted, p.valid = "1"
  | [], q, q', d, d', ps, accepted, h, _, hall => by
    cases hall
    rw [List.append_nil]
    exact ⟨h, nofun⟩
  | i :: is, q, q', d, d', ps, accepted, h, hspares, hall => by
    rw [Insertion.spares, Bool.and_eq_true] at hspares
    obtain ⟨rest, hrest⟩ : ∃ rest, Insertion.applyAll pb (i.apply pb q d).2.1 (i.apply pb q d).2.2 is = rest := ⟨_, rfl⟩
    obtain ⟨accepted', q'', d''⟩ := rest
    obtain ⟨h', hvalid⟩ := OnFile.applyAll (h.apply hspares.1) hspares.2 hrest
    simp only [Insertion.applyAll, hrest, Prod.mk.injEq] at hall
    obtain ⟨rfl, rfl, rfl⟩ := hall
    split
    · next hkept =>
      rw [if_pos hkept, List.append_assoc, List.singleton_append] at h'
      refine ⟨h', fun p hp => ?_⟩
      obtain rfl | hp := List.mem_cons.mp hp
      · rw [Insertion.payload, stored, if_pos (Bool.and_eq_true_iff.mp hkept).2]
        rfl
      · exact hvalid p hp
    · next hkept =>
      rw [if_neg hkept] at h'
      exact ⟨h', hvalid⟩

/-- A start on a well-formed data file queues the valid records. -/
theorem Store.boot_encode (hd : d.Calm) (hdir : d.isDir (MessageMapper.directory baseDir) = true)
    (hf : d.file? (MessageMapper.files baseDir qname).dataFile = some (encode pb ps)) (hsize : (encode pb ps).length < 2 ^ 64) :
    ∃ s, Store.boot pb d baseDir qname = some s ∧ s.queue.msgs.map (fun r => (s.queue.heap r).payload) = live ps := by
  obtain ⟨d', hgc, -, -⟩ := MessageMapper.gc_eq pb hd (MessageMapper.files_names baseDir qname) hf hsize
  obtain ⟨r, hr⟩ : ∃ r, ({ mapper := .files baseDir qname } : QueueMessage).recovery pb d = r := ⟨_, rfl⟩
  refine ⟨{ baseDir, qname, disk := r.2, queue := r.1 }, ?_, ?_⟩
  · rw [Store.boot, MessageMapper.new_of_isDir hdir,
      MessageMapper.createMsgFile_of_file (MessageMapper.dataFile_ne baseDir qname) hf]
    simp only [hr]
  · have hpending := QueueMessage.pending_recovery pb ({ mapper := .files baseDir qname } : QueueMessage) d
    rw [hgc, hr] at hpending
    have hpayloads := congrArg (List.map (·.payload)) hpending
    rw [QueueMessage.pending, List.map_map, map_payload_placedFrom] at hpayloads
    exact hpayloads

/-! ### What a refused insertion leaves -/

theorem live_of_valid (h : ∀ p ∈ ps, p.valid = "1") : live ps = ps :=
  List.filter_eq_self.mpr fun p hp => by simp [h p hp]

/-- **Refused insertions.** When one of the two writes fails, the store stays usable exactly when it is the write of the
    length and it fails at once. -/
theorem refused_usable_iff (h : OnFile pb baseDir qname q d ps) (hlength : ∀ written, d.fate ≠ .lost written)
    (hroom : (encode pb ps ++ frame (pb.serialize i.payload)).length < 2 ^ 64) (hrefused : (i.apply pb q d).1 = false) :
    Usable pb baseDir qname q (i.apply pb q d).2.1 d (i.apply pb q d).2.2 ↔ d.fate = .fail 0 := by
  have hsize : (encode pb ps).length < 2 ^ 64 := by
    rw [List.length_append] at hroom
    omega
  have hbefore := MessageMapper.load_encode d.calm_calmed (m := q.mapper) h.file hsize
  obtain ⟨hmode, hqueue, torn, hf, hprefix, hnil⟩ := apply_refused h.file hlength hrefused
  rw [← hnil]
  constructor
  · intro husable
    by_contra hne
    have hflag := husable.flag
    have hdecoded := husable.decoded
    rw [hbefore] at hflag hdecoded
    by_cases hwhole : torn = frame (pb.serialize i.payload)
    · -- The whole record is there, so that one more message is loaded.
      have hf' : (i.apply pb q d).2.2.calmed.file? q.mapper.dataFile = some (encode pb (ps ++ [i.payload])) := by
        rw [Disk.file?_calmed, hf, hwhole]
        simp
      have hvalid : i.payload.valid ≠ "0" := by
        rw [Insertion.payload, stored, if_pos hmode]
        exact of_decide_eq_true rfl
      rw [MessageMapper.load_encode (Disk.calm_calmed _) hf' (by simpa using hroom), live_append,
        live_cons_of_ne hvalid] at hdecoded
      have := congrArg List.length hdecoded
      simp at this
    · rw [MessageMapper.load_torn (Disk.calm_calmed _) hf hroom hprefix hne hwhole] at hflag
      cases hflag
  · intro hempty
    rw [hempty, List.append_nil] at hf
    have hafter := MessageMapper.load_encode (Disk.calm_calmed (i.apply pb q d).2.2) (m := q.mapper) hf hsize
    refine ⟨hqueue, by rw [hafter, hbefore], by rw [hafter, hbefore], ?_⟩
    intro later fates accepted q'' d'' hspares hall hsmall
    have hstart : OnFile pb baseDir qname (i.apply pb q d).2.1 { (i.apply pb q d).2.2 with fates } ps := by
      have happly := h.apply (i := i) (by rw [hnil.mp hempty, decide_eq_true rfl, Bool.or_true])
      rw [hrefused, Bool.false_and] at happly
      exact ⟨happly.mapper, happly.dir, happly.file⟩
    obtain ⟨hend, hvalid⟩ := hstart.applyAll hspares hall
    rw [FileHelper.size_eq hend.file] at hsmall
    have hfile := hend.file
    rw [hend.mapper] at hfile
    obtain ⟨s, hboot, hmsgs⟩ := Store.boot_encode d''.calm_calmed hend.dir hfile hsmall
    refine ⟨s, hboot, ?_⟩
    rw [hmsgs, hbefore, live_append, live_of_valid hvalid, List.map_map]
    exact congrArg (· ++ accepted) (List.map_id _).symm

end

/-! ### A queue with one message -/

/-- One more durable message. -/
def another : Insertion := ⟨none, "b", "y", true⟩

theorem refused_usable_lone : ∃ s, Store.boot protobuf loneDisk "data" "q" = some s ∧
    Usable protobuf "data" "q" s.queue (another.apply protobuf s.queue { s.disk with fates := [.fail 0] }).2.1
      { s.disk with fates := [.fail 0] } (another.apply protobuf s.queue { s.disk with fates := [.fail 0] }).2.2 := by
  have hall : (Store.boot protobuf loneDisk "data" "q").any (fun s =>
      s.queue.mapper = .files "data" "q" && s.disk.isDir (MessageMapper.directory "data") &&
        s.disk.file? s.queue.mapper.dataFile = some (encode protobuf [lone]) &&
        !(another.apply protobuf s.queue { s.disk with fates := [.fail 0] }).1) = true := by
    decide +kernel
  obtain ⟨s, hs, hall⟩ := (Option.any_eq_true _ _).mp hall
  simp only [Bool.and_eq_true, decide_eq_true_eq, Bool.not_eq_true'] at hall
  obtain ⟨⟨⟨hmapper, hdir⟩, hfile⟩, hrefused⟩ := hall
  refine ⟨s, hs, (refused_usable_iff (i := another) (d := { s.disk with fates := [.fail 0] }) ⟨hmapper, hdir, hfile⟩ ?_
    ?_ hrefused).mpr rfl⟩
  · intro written hlost
    cases hlost
  · decide +kernel

/-- The length is written, and the file cannot be opened for the body: a message that is accepted afterwards is gone at the
    restart, and its first bytes are read as a message that nobody sent. -/
theorem refused_unusable : ∃ s s', Store.boot protobuf loneDisk "data" "q" = some s ∧
    (another.apply protobuf s.queue { s.disk with fates := [.ok, .fail 0] }).1 = false ∧
    ¬Usable protobuf "data" "q" s.queue (another.apply protobuf s.queue { s.disk with fates := [.ok, .fail 0] }).2.1
      { s.disk with fates := [.ok, .fail 0] } (another.apply protobuf s.queue { s.disk with fates := [.ok, .fail 0] }).2.2 ∧
    (Insertion.applyAll protobuf s.queue { s.disk with fates := [.ok, .fail 0] } [another, another]).1 = [another.payload] ∧
    Store.boot protobuf (Insertion.applyAll protobuf s.queue { s.disk with fates := [.ok, .fail 0] } [another, another]).2.2
      "data" "q" = some s' ∧
    s'.queue.msgs.map (fun r => (s'.queue.heap r).payload) = [lone, {}] := by
  have hall : (Store.boot protobuf loneDisk "data" "q").any (fun s =>
      !(another.apply protobuf s.queue { s.disk with fates := [.ok, .fail 0] }).1 &&
        (s.queue.mapper.load protobuf s.disk.calmed).1 &&
        !(s.queue.mapper.load protobuf (another.apply protobuf s.queue { s.disk with fates := [.ok, .fail 0] }).2.2.calmed).1 &&
        (Insertion.applyAll protobuf s.queue { s.disk with fates := [.ok, .fail 0] } [another, another]).1 = [another.payload] &&
        (Store.boot protobuf (Insertion.applyAll protobuf s.queue { s.disk with fates := [.ok, .fail 0] } [another, another]).2.2
          "data" "q").any fun s' => s'.queue.msgs.map (fun r => (s'.queue.heap r).payload) = [lone, {}]) = true := by
    decide +kernel
  obtain ⟨s, hs, hall⟩ := (Option.any_eq_true _ _).mp hall
  simp only [Bool.and_eq_true, decide_eq_true_eq, Bool.not_eq_true'] at hall
  obtain ⟨⟨⟨⟨hrefused, hbefore⟩, hafter⟩, haccepted⟩, hrestart⟩ := hall
  obtain ⟨s', hs', hmsgs⟩ := (Option.any_eq_true _ _).mp hrestart
  rw [decide_eq_true_eq] at hmsgs
  refine ⟨s, s', hs, hrefused, fun husable => ?_, haccepted, hs', hmsgs⟩
  have hflag := husable.flag
  rw [hafter] at hflag
  exact Bool.false_ne_true (hflag.trans hbefore)

end HareMQ
