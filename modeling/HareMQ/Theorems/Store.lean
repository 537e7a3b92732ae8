import HareMQ.Codec
import HareMQ.Lib.AckQueue
import HareMQ.Store
import HareMQ.Theorems.Tight

/-! # A queue with distinct ids is a queue with acknowledgements

Over runs of insertions, deliveries, acknowledgements and restarts, with distinct ids and a data file below
4 GiB, the store behaves as the abstract queue and its representation stays well-formed. -/

namespace HareMQ
open Lib

/-! ### The abstract queue -/

def Content.isDurable (c : Content) : Bool := c.mode = .durable

/-- The message that an insertion promises. -/
def promised (bp : Option BasicProperties) (uuid body : String) (queueDurable : Bool) : Content where
  id := (bp.map (·.id)).getD uuid
  body := body
  routingKey := (bp.map (·.routingKey)).getD ""
  mode := if queueDurable then (bp.map (·.deliveryMode)).getD .durable else .undurable

def abstractStep (a : AckQueue Content) : StoreOp → Reply × AckQueue Content
  | .insert bp uuid body queueDurable => (.done true, a.push (promised bp uuid body queueDurable))
  | .front => (.message a.pop.1, a.pop.2)
  | .remove msgId => (.done true, a.ack (·.id) msgId)
  | .restart => (.done true, a.restart Content.isDurable)

def abstractRun (a : AckQueue Content) : List StoreOp → List Obs
  | [] => []
  | op :: ops =>
    let (reply, a) := abstractStep a op
    ⟨reply, a.pending.length, a.unacked.length⟩ :: abstractRun a ops

/-- The containers of a queue hold what the abstract queue holds. -/
structure Models (q : QueueMessage) (lay : List Slot) (a : AckQueue Content) : Prop where
  pending : a.pending = q.msgs.map fun r => (q.heap r).payload.content
  unacked : (a.unacked.map (·.id)).Perm q.waitAckMsgs.keys
  durable : a.held.filter Content.isDurable = (owners lay).map fun r => (q.heap r).payload.content

/-- A store between two steps. -/
structure Store.Good (pb : PayloadCodec) (s : Store) (lay : List Slot) (used : List String) : Prop where
  mapper : s.queue.mapper = .files s.baseDir s.qname
  dir : s.disk.isDir (MessageMapper.directory s.baseDir) = true
  inv : Inv pb s.disk s.queue lay
  tight : Tight s.queue lay used

section
variable {q q' : QueueMessage} {lay lay' : List Slot} {a : AckQueue Content}

theorem Models.getable (h : Models q lay a) : q.getableCount = a.pending.length := by
  rw [h.pending, List.length_map]
  rfl

theorem Models.waitAck (h : Models q lay a) : q.waitAckCount = a.unacked.length := by
  rw [← List.length_map (fun c : Content => c.id), h.unacked.length_eq]
  exact (List.length_map _).symm

theorem makeMessage_content (bp : Option BasicProperties) (uuid body : String) (queueDurable : Bool) :
    (QueueMessage.makeMessage bp uuid body queueDurable).payload.content = promised bp uuid body queueDurable := by
  cases bp <;> rfl

theorem makeMessage_id {bp : Option BasicProperties} {uuid body : String} {queueDurable : Bool} {id : String}
    (h : (StoreOp.insert bp uuid body queueDurable).id? = some id) :
    (QueueMessage.makeMessage bp uuid body queueDurable).id = id := by
  cases bp <;> exact Option.some.inj h

theorem content_stored (msg : Message) : (stored msg).payload.content = msg.payload.content := by
  unfold stored
  split <;> rfl

/-! ### One step -/

section
variable {pb : PayloadCodec} {d : Disk} {used : List String}

theorem Models.insert (h : Models q lay a) (hinv : Inv pb d q lay) {msg : Message} (hins : Inserted q q' lay lay' msg) :
    Models q' lay' (a.push msg.payload.content) := by
  have hold : ∀ rs : List Ref, (∀ r ∈ rs, r < q.next) →
      (rs.map fun r => (q'.heap r).payload.content) = rs.map fun r => (q.heap r).payload.content := fun rs hrs =>
    List.map_congr_left fun r hr => by rw [hins.old r (Nat.ne_of_lt (hrs r hr))]
  have hnew : (q'.heap q.next).payload.content = msg.payload.content := by rw [hins.payload, content_stored]
  refine ⟨?_, ?_, ?_⟩
  · rw [hins.msgs, List.map_append, hold _ hinv.books.lt_next, List.map_singleton, hnew, ← h.pending]
    rfl
  · rw [hins.waits]
    exact h.unacked
  · rw [hins.owners]
    show (a.held ++ [msg.payload.content]).filter Content.isDurable = _
    rw [List.filter_append, h.durable]
    by_cases hmode : msg.isDurable = true
    · rw [if_pos hmode, List.map_append, hold _ hinv.core.layout.lt_next, List.map_singleton, hnew,
        List.filter_cons_of_pos (show Content.isDurable msg.payload.content = true from hmode), List.filter_nil]
    · rw [if_neg hmode, hold _ hinv.core.layout.lt_next,
        List.filter_cons_of_neg (show ¬Content.isDurable msg.payload.content = true from hmode), List.filter_nil,
        List.append_nil]

theorem Models.front (h : Models q lay a) (hinv : Inv pb d q lay) (htight : Tight q lay used) :
    Models q.front.2 lay a.pop.2 ∧ q.front.1.map (fun r => (q.front.2.heap r).payload.content) = a.pop.1 := by
  have hpending := h.pending
  cases hq : q.msgs with
  | nil =>
    rw [hq, List.map_nil] at hpending
    have hfront : q.front = (none, q) := by simp only [QueueMessage.front, hq]
    have hpop : a.pop = (none, a) := by simp only [AckQueue.pop, hpending]
    rw [hfront, hpop]
    exact ⟨h, rfl⟩
  | cons r rest =>
    rw [hq, List.map_cons] at hpending
    have hfree := htight.front_free hinv hq
    have hpop : a.pop = (some (q.heap r).payload.content,
        { a with pending := rest.map fun r => (q.heap r).payload.content, unacked := (q.heap r).payload.content :: a.unacked }) := by
      simp only [AckQueue.pop, hpending]
    rw [front_eq hq, hpop]
    refine ⟨⟨rfl, ?_, h.durable⟩, rfl⟩
    simp only [UMap.emplace_of_notMem hfree, AList.keys_insert]
    rw [List.erase_of_not_mem fun hmem => hfree (AList.mem_keys.mpr hmem)]
    exact h.unacked.cons _

theorem Models.mem_unacked (h : Models q lay a) {msgId : String} :
    msgId ∈ a.unacked.map (·.id) ↔ msgId ∈ q.waitAckMsgs := by
  rw [h.unacked.mem_iff, AList.mem_keys]

/-- The abstract acknowledgement, when the message is still unacknowledged. -/
theorem Models.erase (h : Models q lay a) {msgId : String} (hmem : msgId ∈ q.waitAckMsgs) (hmsgs : q'.msgs = q.msgs)
    (hwaits : q'.waitAckMsgs = q.waitAckMsgs.erase msgId)
    (hpending : ∀ r ∈ q.msgs, (q'.heap r).payload = (q.heap r).payload)
    (howners : (owners lay').map (fun r => (q'.heap r).payload.content) =
      ((owners lay).map fun r => (q.heap r).payload.content).filter (·.id ≠ msgId)) :
    Models q' lay' (a.ack (·.id) msgId) := by
  have hack := h.mem_unacked.mpr hmem
  refine ⟨?_, ?_, ?_⟩
  · rw [AckQueue.ack_of_mem hack, hmsgs]
    refine h.pending.trans (List.map_congr_left fun r hr => ?_)
    rw [hpending r hr]
  · rw [AckQueue.map_unacked_ack hack, hwaits, AList.keys_erase, q.waitAckMsgs.keys_nodup.erase_eq_filter]
    have hfilter : q.waitAckMsgs.keys.filter (· ≠ msgId) = q.waitAckMsgs.keys.filter (· != msgId) :=
      List.filter_congr fun x _ => by rw [Bool.eq_iff_iff, bne_iff_ne, decide_eq_true_iff]
    rw [← hfilter]
    exact h.unacked.filter _
  · rw [AckQueue.ack_of_mem hack, howners, ← h.durable, List.filter_comm]

theorem Models.remove (h : Models q lay a) (hinv : Inv pb d q lay) (htight : Tight q lay used) {msgId : String}
    (hrem : Removed q q' lay lay' msgId) : Models q' lay' (a.ack (·.id) msgId) := by
  cases hrem with
  | absent hnone hq hlay =>
    subst hq hlay
    rwa [AckQueue.ack_of_notMem fun hmem => ?_]
    rw [h.mem_unacked, ← AList.lookup_isSome, hnone] at hmem
    cases hmem
  | plain r hwait hmode hq hlay =>
    subst hq hlay
    obtain ⟨hid, -, -⟩ := hinv.books.waits hwait
    refine h.erase (UMap.mem_of_lookup hwait) rfl rfl (fun _ _ => rfl) (Eq.symm (List.filter_eq_self.mpr fun c hc => ?_))
    -- The acknowledged message is not durable, so that its id is no owner's.
    obtain ⟨r', hr', rfl⟩ := List.mem_map.mp hc
    refine decide_eq_true fun heq : (q.heap r').id = msgId => ?_
    obtain rfl := htight.unique r' r (htight.backed r' hr') (Or.inr ⟨_, hwait⟩) (heq.trans hid.symm)
    rw [hinv.core.layout.owner_isDurable hr'] at hmode
    cases hmode
  | durable r hwait howner howners hmapper hmsgs hwaits hdurable hnext hpayload hcontent =>
    obtain ⟨hid, -, hnot⟩ := hinv.books.waits hwait
    refine h.erase (UMap.mem_of_lookup hwait) hmsgs hwaits (fun r' hr' => hpayload r' fun heq => hnot (heq ▸ hr')) ?_
    rw [howners, hinv.core.layout.nodup.erase_eq_filter, List.filter_map]
    have hfilter : (owners lay).filter (· != r) =
        (owners lay).filter ((fun c : Content => decide (c.id ≠ msgId)) ∘ fun r => (q.heap r).payload.content) := by
      refine List.filter_congr fun r' hr' => ?_
      rw [Bool.eq_iff_iff, bne_iff_ne, Function.comp_apply, decide_eq_true_iff]
      refine not_congr ⟨fun heq => heq ▸ hid, fun heq : (q.heap r').id = msgId => ?_⟩
      exact htight.synced.inj hr' howner (heq.trans hid.symm)
    rw [← hfilter]
    refine List.map_congr_left fun r' hr' => ?_
    rw [hpayload r' (by simpa using (List.mem_filter.mp hr').2)]

theorem Models.restart (h : Models q lay a) (hlayout : Layout pb q lay) {m : MessageMapper}
    (hrec : Recovered pb m (lay.map (·.payload)) q' lay') : Models q' lay' (a.restart Content.isDurable) := by
  have hcontents : (owners lay').map (fun r => (q'.heap r).payload.content) = a.held.filter Content.isDurable := by
    have := congrArg (List.map Payload.content) hrec.payloads
    rw [live_map_payload hlayout.flagged, hlayout.kept_payloads, List.map_map, List.map_map] at this
    rw [h.durable]
    exact this
  refine ⟨?_, ?_, ?_⟩
  · rw [hrec.msgs, hcontents]
    rfl
  · rw [hrec.waits]
    exact List.Perm.refl _
  · rw [hcontents, AckQueue.restart, List.filter_filter]
    simp

end
end

/-! ### Runs -/

namespace Store
variable {pb : PayloadCodec} {s : Store} {lay : List Slot} {used : List String} {a : AckQueue Content}

/-- A first start gives the empty queue. -/
theorem boot_good {d : Disk} {baseDir qname : String} (hfresh : MessageMapper.Fresh d baseDir qname)
    (hboot : boot pb d baseDir qname = some s) : ∃ lay, s.Good pb lay [] ∧ Models s.queue lay {} := by
  obtain ⟨lay, h⟩ := boot_of_fresh hfresh hboot
  have howners : owners lay = [] := by simpa using h.recovered.payloads
  have hknown : ∀ r, ¬s.queue.Known r := by
    intro r
    rw [QueueMessage.Known, h.recovered.msgs, h.recovered.waits, howners]
    simp
  refine ⟨lay, ⟨h.mapper, h.dir, h.inv, fun r hr => ?_, fun r hr => ?_, fun r _ hr => absurd hr (hknown r),
    fun r hr => absurd hr (hknown r)⟩, ?_, ?_, ?_⟩
  · rw [howners] at hr
    cases hr
  · rw [howners] at hr
    cases hr
  · rw [h.recovered.msgs, howners]
    rfl
  · rw [h.recovered.waits]
    exact List.Perm.refl _
  · rw [howners]
    rfl

/-- A restart finds every message that was durable and not acknowledged. -/
theorem Good.restart (h : s.Good pb lay used) (hm : Models s.queue lay a) : ∃ s' lay',
    boot pb s.disk s.baseDir s.qname = some s' ∧ s'.Good pb lay' used ∧
      Models s'.queue lay' (a.restart Content.isDurable) := by
  have hfile := h.inv.core.file
  rw [h.mapper] at hfile
  obtain ⟨s', lay', hboot, h', -, -⟩ := boot_of_file h.inv.core.calm h.dir hfile h.inv.core.size
    h.inv.core.small_live h.inv.core.layout.stored
  exact ⟨s', lay', hboot, ⟨h'.mapper, h'.dir, h'.inv, h.tight.recovered h.inv.core.layout h'.inv h'.recovered⟩,
    hm.restart h.inv.core.layout h'.recovered⟩

theorem Good.isDir (h : s.Good pb lay used) {d' : Disk} (hd : d'.dirs = s.disk.dirs) :
    d'.isDir (MessageMapper.directory s.baseDir) = true := by
  rw [Disk.isDir_congr hd]
  exact h.dir

/-- An acknowledgement never aborts. -/
theorem Good.remove (h : s.Good pb lay used) (msgId : String) : ∃ s' lay',
    s.step pb (.remove msgId) = some (.done true, s') ∧ s'.Good pb lay' used ∧
      Removed s.queue s'.queue lay lay' msgId := by
  obtain ⟨q', d', lay', hrem, hinv', hr, hd⟩ := h.inv.remove msgId fun _ => h.tight.synced
  refine ⟨{ s with queue := q', disk := d' }, lay', by rw [step_remove, hrem]; rfl,
    ⟨hr.mapper.trans h.mapper, h.isDir hd, hinv', h.tight.remove h.inv hr⟩, hr⟩

/-- One step of the store is one step of the abstract queue. -/
theorem Good.step (h : s.Good pb lay used) (hm : Models s.queue lay a) (op : StoreOp)
    (hid : ∀ id, op.id? = some id → id ∉ used)
    (hsmall : ∀ reply s', s.step pb op = some (reply, s') → FileHelper.size s'.disk s'.queue.mapper.dataFile < 2 ^ 32) :
    ∃ s' lay', s.step pb op = some ((abstractStep a op).1, s') ∧ s'.Good pb lay' (op.id?.toList ++ used) ∧
      Models s'.queue lay' (abstractStep a op).2 := by
  cases op with
  | insert bp uuid body queueDurable =>
    obtain ⟨q', d', hins, hd, hrest⟩ := h.inv.insert bp uuid body queueDurable
    have hstep : s.step pb (.insert bp uuid body queueDurable) = some (.done true, { s with queue := q', disk := d' }) := by
      rw [step_insert, hins]
    obtain ⟨lay', hinv', hi⟩ := hrest (hsmall _ _ hstep)
    obtain ⟨id, hsome⟩ : ∃ id, (StoreOp.insert bp uuid body queueDurable).id? = some id := by
      cases bp <;> exact ⟨_, rfl⟩
    have hmid := makeMessage_id hsome
    refine ⟨_, lay', hstep, ⟨hi.mapper.trans h.mapper, h.isDir hd, hinv', ?_⟩, ?_⟩
    · rw [hsome, ← hmid]
      exact h.tight.insert h.inv hi (by rw [hmid]; exact hid id hsome)
    · have hmodels := hm.insert h.inv hi
      rwa [makeMessage_content] at hmodels
  | front =>
    obtain ⟨hmodels, hreply⟩ := hm.front h.inv h.tight
    refine ⟨{ s with queue := s.queue.front.2 }, lay, ?_, ⟨s.queue.front_mapper.trans h.mapper, h.dir, h.inv.front,
      h.tight.front h.inv⟩, hmodels⟩
    rw [step_front, abstractStep, ← hreply]
  | remove msgId =>
    obtain ⟨s', lay', hstep, hgood, hr⟩ := h.remove msgId
    exact ⟨s', lay', hstep, hgood, hm.remove h.inv h.tight hr⟩
  | restart =>
    obtain ⟨s', lay', hboot, hgood, hmodels⟩ := h.restart hm
    exact ⟨s', lay', by rw [step_restart, hboot]; rfl, hgood, hmodels⟩

/-- A run of the store is a run of the abstract queue, and keeps what each step from a good state keeps. -/
theorem Good.run_keeps {P : Store → Prop} (hP : ∀ {s : Store} {lay : List Slot} {used : List String} {op : StoreOp}
      {reply : Reply} {s' : Store}, s.Good pb lay used → P s → s.step pb op = some (reply, s') → P s') :
    ∀ (ops : List StoreOp) {s : Store} {lay : List Slot} {used : List String} {a : AckQueue Content},
    s.Good pb lay used → Models s.queue lay a → (ops.filterMap StoreOp.id?).Nodup →
    (∀ id ∈ ops.filterMap StoreOp.id?, id ∉ used) → s.below4GiB pb ops = true → P s →
    ∃ s' lay' used', s.run pb ops = some (abstractRun a ops, s') ∧ s'.Good pb lay' used' ∧ P s'
  | [], s, lay, used, a, h, hm, _, _, _, hs => ⟨s, lay, used, rfl, h, hs⟩
  | op :: ops, s, lay, used, a, h, hm, hnodup, hfresh, hsmall, hs => by
    have hids : (op :: ops).filterMap StoreOp.id? = op.id?.toList ++ ops.filterMap StoreOp.id? := by
      cases hop : op.id? <;> simp [hop]
    rw [hids, List.nodup_append] at hnodup
    rw [hids] at hfresh
    simp only [below4GiB, Bool.and_eq_true] at hsmall
    obtain ⟨s₁, lay₁, hstep, h₁, hm₁⟩ := h.step hm op
      (fun id hid => hfresh id (List.mem_append_left _ (by simp [hid]))) fun reply s' hs => by
        rw [hs] at hsmall
        exact below4GiB_head hsmall.2
    rw [hstep] at hsmall
    obtain ⟨s₂, lay₂, used₂, hrun, h₂, hs₂⟩ := Good.run_keeps hP ops h₁ hm₁ hnodup.2.1 (fun id hid hmem => by
      rcases List.mem_append.mp hmem with hmem | hmem
      · exact hnodup.2.2 id hmem id hid rfl
      · exact hfresh id (List.mem_append_right _ hid) hmem) hsmall.2 (hP h hs hstep)
    refine ⟨s₂, lay₂, used₂, ?_, h₂, hs₂⟩
    rw [Store.run, hstep, abstractRun]
    simp only [hrun, hm₁.getable, hm₁.waitAck]

theorem Good.run (ops : List StoreOp) (h : s.Good pb lay used) (hm : Models s.queue lay a)
    (hids : (ops.filterMap StoreOp.id?).Nodup) (hfresh : ∀ id ∈ ops.filterMap StoreOp.id?, id ∉ used)
    (hsmall : s.below4GiB pb ops = true) :
    ∃ s' lay' used', s.run pb ops = some (abstractRun a ops, s') ∧ s'.Good pb lay' used' := by
  obtain ⟨s', lay', used', hrun, h', -⟩ := h.run_keeps (P := fun _ => True) (fun _ _ _ => trivial) ops hm hids hfresh hsmall
    trivial
  exact ⟨s', lay', used', hrun, h'⟩

/-- **Refinement.** A run from a first start, with distinct ids, never aborts and replies as the abstract queue
    does, wherever an acknowledgement starts a compaction. -/
theorem run_refines {d : Disk} {baseDir qname : String} (hfresh : MessageMapper.Fresh d baseDir qname)
    (hboot : boot pb d baseDir qname = some s) {ops : List StoreOp} (hids : (ops.filterMap StoreOp.id?).Nodup)
    (hsmall : s.below4GiB pb ops = true) : ∃ s', s.run pb ops = some (abstractRun {} ops, s') := by
  obtain ⟨lay, hgood, hmodels⟩ := boot_good hfresh hboot
  obtain ⟨s', -, -, hrun, -⟩ := Good.run ops hgood hmodels hids (fun _ _ => List.not_mem_nil) hsmall
  exact ⟨s', hrun⟩

/-- A delivery and an acknowledgement between two messages, one of them not durable, and a restart. -/
def sample : List StoreOp :=
  [.insert none "a" "x" true, .insert (some ⟨"b", .undurable, "k"⟩) "" "y" true, .front, .remove "a", .restart]

theorem exists_boot_vacant : ∃ s, boot protobuf vacant "data" "q" = some s ∧ s.below4GiB protobuf sample = true := by
  have hboot : (boot protobuf vacant "data" "q").any (fun s => s.below4GiB protobuf sample) = true := by decide +kernel
  exact (Option.any_eq_true _ _).mp hboot

theorem run_refines_sample : ∃ s s', boot protobuf vacant "data" "q" = some s ∧
    s.run protobuf sample = some (abstractRun {} sample, s') := by
  obtain ⟨s, hs, hsmall⟩ := exists_boot_vacant
  obtain ⟨s', hrun⟩ := run_refines vacant_fresh hs (by decide) hsmall
  exact ⟨s, s', hs, hrun⟩

/-! ### The representation -/

/-- How the data file, the counters and the containers of a store agree. -/
structure Represented (pb : PayloadCodec) (s : Store) : Prop where
  /-- The data file is the concatenation of as many frames as counted. -/
  frames : ∃ ps : List Payload, ps.length = s.queue.totalCount ∧
    s.disk.file? s.queue.mapper.dataFile = some (encode pb ps) ∧
    s.queue.validCount = (ps.filter (·.valid = "1")).length
  durable : s.queue.validCount = s.queue.durableCount
  /-- The place of a durable message holds its payload, and the eight bytes before it the length. -/
  places : ∀ id r, s.queue.durableMsgs.lookup id = some r → ∃ data, s.disk.file? s.queue.mapper.dataFile = some data ∧
    slice data (s.queue.heap r).offset (s.queue.heap r).length = pb.serialize (s.queue.heap r).payload ∧
    8 ≤ (s.queue.heap r).offset ∧
    slice data ((s.queue.heap r).offset - 8) 8 = le64 (s.queue.heap r).length
  /-- The durable map holds the durable ones of the message objects that are pending or unacknowledged. -/
  known : ∀ r, (∃ id, s.queue.durableMsgs.lookup id = some r) ↔ (s.queue.heap r).isDurable = true ∧ s.queue.Known r

/-- When an acknowledgement starts a compaction, the assertion holds and no loaded message is missed. -/
def GcSafe (pb : PayloadCodec) (s : Store) : Prop :=
  ∀ msgId r, s.queue.waitAckMsgs.lookup msgId = some r → (s.queue.heap r).isDurable = true →
    let (q, d) := s.queue.invalidate pb msgId r s.disk
    q.gcCheck = true → (q.mapper.gc pb d).1.length = q.validCount ∧
      ∀ m ∈ (q.mapper.gc pb d).1, ∃ r', q.durableMsgs.lookup m.id = some r'

theorem Good.represented (h : s.Good pb lay used) : s.Represented pb where
  frames := by
    refine ⟨lay.map (·.payload), by rw [List.length_map, h.inv.core.total], h.inv.core.file, ?_⟩
    have hvalid : (lay.map (·.payload)).filter (·.valid = "1") = live (lay.map (·.payload)) := by
      refine List.filter_congr fun p hp => ?_
      obtain ⟨sl, hsl, rfl⟩ := List.mem_map.mp hp
      cases ho : sl.owner with
      | none => simp [(h.inv.core.layout.flagged sl hsl).free ho]
      | some r => simp [((h.inv.core.layout.flagged sl hsl).owned r ho).1]
    rw [hvalid, live_map_payload h.inv.core.layout.flagged, List.length_map, length_kept, h.inv.core.valid]
  durable := by
    rw [h.inv.core.valid]
    exact (h.inv.core.layout.durable_size.2.mp h.tight.synced).symm
  places id r hr := by
    obtain ⟨l₁, p, l₂, rfl⟩ := exists_slot_of_mem_owners (h.inv.core.layout.durable hr).1
    have hplace := h.inv.core.layout.laid.at
    refine ⟨_, h.inv.core.file, ?_, ?_, ?_⟩
    · rw [hplace, List.map_append, encode_append, List.map_cons, encode_cons]
      exact slice_frame_body _ _ _
    · rw [hplace]
      exact Nat.le_add_left 8 _
    · rw [hplace, List.map_append, encode_append, List.map_cons, encode_cons]
      show slice _ (span pb l₁ + 8 - 8) 8 = _
      rw [Nat.add_sub_cancel]
      exact slice_frame_length _ _ _
  known r := by
    constructor
    · rintro ⟨id, hr⟩
      have howner := (h.inv.core.layout.durable hr).1
      exact ⟨h.inv.core.layout.owner_isDurable howner, h.tight.backed r howner⟩
    · rintro ⟨hmode, hknown⟩
      exact ⟨_, h.tight.synced r (h.inv.books.owned r hknown hmode)⟩

theorem Good.gcSafe (h : s.Good pb lay used) : s.GcSafe pb := by
  intro msgId r hwait hmode
  obtain ⟨hid, -, -⟩ := h.inv.books.waits hwait
  have howner := h.inv.books.owned r (Or.inr ⟨msgId, hwait⟩) hmode
  obtain ⟨q', d', lay', hinv, hcore, howners, hq', -⟩ := h.inv.core.invalidate howner hid
  rw [hinv]
  intro _
  refine hcore.loaded (h.tight.synced.erase h.inv.core.layout.nodup howner hid howners (fun r' hr' => ?_) (by rw [hq']))
  rw [hq']
  exact Function.update_of_ne hr' _ _

/-- **Representation.** Every state that a run from a first start reaches, with distinct ids, is well represented;
    the run never aborts, and a compaction never fails its assertion or misses a message. -/
theorem run_represented {d : Disk} {baseDir qname : String} (hfresh : MessageMapper.Fresh d baseDir qname)
    (hboot : boot pb d baseDir qname = some s) {ops : List StoreOp} (hids : (ops.filterMap StoreOp.id?).Nodup)
    (hsmall : s.below4GiB pb ops = true) :
    ∃ obs s', s.run pb ops = some (obs, s') ∧ s'.Represented pb ∧ s'.GcSafe pb := by
  obtain ⟨lay, hgood, hmodels⟩ := boot_good hfresh hboot
  obtain ⟨s', lay', used', hrun, h'⟩ := Good.run ops hgood hmodels hids (fun _ _ => List.not_mem_nil) hsmall
  exact ⟨_, s', hrun, h'.represented, h'.gcSafe⟩

theorem run_represented_sample : ∃ s obs s', boot protobuf vacant "data" "q" = some s ∧
    s.run protobuf sample = some (obs, s') ∧ s'.Represented protobuf ∧ s'.GcSafe protobuf := by
  obtain ⟨s, hs, hsmall⟩ := exists_boot_vacant
  obtain ⟨obs, s', hrun, hrep, hsafe⟩ := run_represented vacant_fresh hs (by decide) hsmall
  exact ⟨s, obs, s', hs, hrun, hrep, hsafe⟩

end Store
end HareMQ
