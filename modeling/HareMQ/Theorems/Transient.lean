import HareMQ.Reset
import HareMQ.Theorems.Directories
import HareMQ.Theorems.Faults
import HareMQ.Theorems.Pending

/-! # Hosts without durable queues

As long as no queue is durable, what the methods of a host return depends neither on the disk nor on the database: the
host refines one that has its maps and messages in memory only. -/

namespace HareMQ
open Lib

/-! ### A queue in memory -/

/-- The messages of a queue without durable messages. -/
structure QueueView where
  pending : List Message := []
  waits : String → Option Message := fun _ => none

namespace QueueView

def push (v : QueueView) (msg : Message) : QueueView := { v with pending := v.pending ++ [msg] }

/-- A message that already waits under the id of the popped one stays there. -/
def pop (v : QueueView) : Option Message × QueueView :=
  match v.pending with
  | [] => (none, v)
  | msg :: rest =>
    (some msg, { pending := rest, waits := Function.update v.waits msg.id ((v.waits msg.id).or (some msg)) })

def ack (v : QueueView) (msgId : String) : QueueView := { v with waits := Function.update v.waits msgId none }

end QueueView

namespace QueueMessage
variable {pb : PayloadCodec} {d : Disk} {q : QueueMessage}

def view (q : QueueMessage) : QueueView where
  pending := q.pending
  waits msgId := (q.waitAckMsgs.lookup msgId).map q.heap

/-- No message that can still be acknowledged is durable. -/
structure Light (q : QueueMessage) : Prop where
  bounded : q.Bounded
  waits_lt : ∀ {msgId r}, q.waitAckMsgs.lookup msgId = some r → r < q.next
  pending : ∀ r ∈ q.msgs, (q.heap r).isDurable = false
  waits : ∀ {msgId r}, q.waitAckMsgs.lookup msgId = some r → (q.heap r).isDurable = false

theorem makeMessage_undurable (bp : Option BasicProperties) (uuid body : String) :
    (makeMessage bp uuid body false).isDurable = false := by
  cases bp with
  | none => rfl
  | some bp => rfl

/-- A transient queue keeps a message in memory only. -/
theorem Light.insert (h : q.Light) (pb : PayloadCodec) (d : Disk) (bp : Option BasicProperties) (uuid body : String) :
    ∃ q', q.insert pb bp uuid body false d = (true, q', d) ∧ q'.Light ∧
      q'.view = q.view.push (makeMessage bp uuid body false) := by
  have hmode := makeMessage_undurable bp uuid body
  generalize hmsg : makeMessage bp uuid body false = msg at hmode
  obtain ⟨q', hins, hmsgs, hwaits, hnext, hheap⟩ : ∃ q', q.insert pb bp uuid body false d = (true, q', d) ∧
      q'.msgs = q.msgs ++ [q.next] ∧ q'.waitAckMsgs = q.waitAckMsgs ∧ q'.next = q.next + 1 ∧
      q'.heap = Function.update q.heap q.next msg :=
    ⟨_, insert_undurable (hmsg ▸ hmode), rfl, rfl, rfl, hmsg ▸ rfl⟩
  have hold : ∀ r < q.next, q'.heap r = q.heap r := fun r hr => by
    rw [hheap, Function.update_of_ne (Nat.ne_of_lt hr)]
  have hnew : q'.heap q.next = msg := by rw [hheap, Function.update_self]
  refine ⟨q', hins, ⟨?_, fun hr => ?_, ?_, fun hr => ?_⟩, ?_⟩
  · intro r hr
    rw [hmsgs, List.mem_append, List.mem_singleton] at hr
    rw [hnext]
    exact hr.elim (fun hr => Nat.lt_succ_of_lt (h.bounded r hr)) fun hr => hr ▸ Nat.lt_succ_self _
  · rw [hnext]
    exact Nat.lt_succ_of_lt (h.waits_lt (hwaits ▸ hr))
  · intro r hr
    rw [hmsgs, List.mem_append, List.mem_singleton] at hr
    obtain hr | rfl := hr
    · rw [hold r (h.bounded r hr)]
      exact h.pending r hr
    · rw [hnew]
      exact hmode
  · rw [hwaits] at hr
    rw [hold _ (h.waits_lt hr)]
    exact h.waits hr
  · rw [view, view, QueueView.push, QueueView.mk.injEq]
    constructor
    · rw [QueueMessage.pending, hmsgs, List.map_append, List.map_singleton, hnew, QueueMessage.pending]
      congr 1
      exact List.map_congr_left fun r hr => hold r (h.bounded r hr)
    · funext msgId
      show (q'.waitAckMsgs.lookup msgId).map q'.heap = (q.waitAckMsgs.lookup msgId).map q.heap
      rw [hwaits]
      exact Option.map_congr fun r hr => hold r (h.waits_lt hr)

theorem Light.front (h : q.Light) : q.front.2.Light ∧ q.front.1.map q.front.2.heap = q.view.pop.1 ∧
    q.front.2.view = q.view.pop.2 := by
  obtain ⟨hnone, hfront⟩ | ⟨r, hr, hmsgs, hnext, hheap⟩ := q.front_cases
  · rw [hfront]
    have hpop : q.view.pop = (none, q.view) := by
      rw [QueueView.pop, view, QueueMessage.pending, hnone]
      rfl
    rw [hpop]
    exact ⟨h, rfl, rfl⟩
  · have hwaits : q.front.2.waitAckMsgs = q.waitAckMsgs.emplace (q.heap r).id r := by
      obtain ⟨rest, hrest⟩ : ∃ rest, q.msgs = r :: rest := ⟨_, hmsgs⟩
      rw [QueueMessage.front, hrest]
    have hmem : r ∈ q.msgs := hmsgs ▸ List.mem_cons_self
    have hsub : ∀ r' ∈ q.front.2.msgs, r' ∈ q.msgs := fun r' hr' => hmsgs ▸ List.mem_cons_of_mem r hr'
    have hpop : q.view.pop = (some (q.heap r), ⟨q.front.2.msgs.map q.heap,
        Function.update q.view.waits (q.heap r).id ((q.view.waits (q.heap r).id).or (some (q.heap r)))⟩) := by
      rw [QueueView.pop, view, QueueMessage.pending, hmsgs]
      rfl
    have hold : ∀ {msgId r'}, q.front.2.waitAckMsgs.lookup msgId = some r' →
        q.waitAckMsgs.lookup msgId = some r' ∨ r' = r := by
      intro msgId r' hr'
      rw [hwaits] at hr'
      exact (UMap.lookup_emplace_eq_some hr').imp_right And.right |>.imp_right And.right
    refine ⟨⟨h.bounded.front, fun hr' => ?_, fun r' hr' => ?_, fun hr' => ?_⟩, ?_, ?_⟩
    · rw [hnext]
      exact (hold hr').elim h.waits_lt fun heq => heq ▸ h.bounded r hmem
    · rw [hheap]
      exact h.pending r' (hsub r' hr')
    · rw [hheap]
      exact (hold hr').elim h.waits fun heq => heq ▸ h.pending r hmem
    · rw [hpop, hr, hheap]
      rfl
    · rw [hpop, view, QueueMessage.pending, hheap, hwaits, QueueView.mk.injEq]
      refine ⟨rfl, ?_⟩
      funext msgId
      rw [UMap.lookup_emplace]
      by_cases hid : msgId = (q.heap r).id
      · rw [hid, if_pos rfl, Function.update_self, Option.map_or]
        rfl
      · rw [if_neg hid, Option.or_none, Function.update_of_ne hid]
        rfl

/-- An acknowledgement does not come to the data file. -/
theorem Light.remove (h : q.Light) (pb : PayloadCodec) (d : Disk) (msgId : String) :
    ∃ q', q.remove pb msgId d = some (q', d) ∧ q'.Light ∧ q'.view = q.view.ack msgId := by
  unfold QueueMessage.remove
  split
  · next hnone =>
    refine ⟨q, rfl, h, ?_⟩
    have hwaits : q.view.waits msgId = none := congrArg (Option.map q.heap) hnone
    rw [QueueView.ack, Function.update_eq_self_iff.mpr hwaits.symm]
  · next r hr =>
    rw [h.waits hr]
    refine ⟨_, rfl, ⟨h.bounded, fun hr' => ?_, h.pending, fun hr' => ?_⟩, ?_⟩
    · exact h.waits_lt (UMap.lookup_erase_eq_some hr').2
    · exact h.waits (UMap.lookup_erase_eq_some hr').2
    · rw [view, QueueView.ack, view, QueueView.mk.injEq]
      refine ⟨rfl, ?_⟩
      funext id
      rw [UMap.lookup_erase]
      by_cases hid : id = msgId
      · rw [if_pos hid, hid, Function.update_self]
        rfl
      · rw [if_neg hid, Function.update_of_ne hid]

variable (pb) in
/-- After `recovery` nothing waits for an acknowledgement. -/
theorem recovery_waits (mapper : MessageMapper) (d : Disk) :
    (({ mapper } : QueueMessage).recovery pb d).1.waitAckMsgs = ∅ ∧ (({ mapper } : QueueMessage).recovery pb d).1.Bounded :=
  (foldl_adopt_keeps (mapper.gc pb d).1 { mapper } nofun).2

end QueueMessage

/-! ### Files -/

/-- Every file is empty. -/
def Bare (d : Disk) : Prop := ∀ p data, d.files p = some data → data = []

section
variable {d : Disk} {name : String}

theorem Bare.store {files : Files} (hfiles : ∀ p data, files p = some data → data = []) : Bare (d.store files) := hfiles

theorem Bare.put (h : Bare d) : Bare (d.put name []) := by
  refine .store fun p data hp => ?_
  rw [Function.update_apply] at hp
  split at hp
  · exact (Option.some.inj hp).symm
  · exact h p data hp

theorem Bare.drop (h : Bare d) : Bare (d.drop name) := by
  refine .store fun p data hp => ?_
  rw [Function.update_apply] at hp
  split at hp
  · cases hp
  · exact h p data hp

theorem Bare.create (h : Bare d) : Bare (FileHelper.create d name).2 := by
  unfold FileHelper.create
  split
  · exact Bare.put (d := d.tick) h
  · exact h

theorem Bare.remove (h : Bare d) : Bare (FileHelper.remove d name).2 := by
  unfold FileHelper.remove
  split
  · exact h
  · split
    · exact Bare.drop (d := d.tick) h
    · exact h

theorem Bare.rename (h : Bare d) (new : String) : Bare (FileHelper.rename d name new).2 := by
  unfold FileHelper.rename
  split
  · exact h
  · next data hdata =>
    split
    · refine .store fun p data' hp => ?_
      rw [Function.update_apply] at hp
      split at hp
      · obtain rfl := Option.some.inj hp
        exact h _ _ hdata
      · exact Bare.drop (d := d.tick) h p data' hp
    · exact h

theorem Bare.createMsgFile (h : Bare d) (m : MessageMapper) : Bare (m.createMsgFile d).2 := by
  unfold MessageMapper.createMsgFile
  split
  · exact h
  · exact h.create

theorem Bare.load (pb : PayloadCodec) (h : Bare d) (m : MessageMapper) : m.load pb d = (true, [], d) := by
  have hsize : FileHelper.size d m.dataFile = 0 := by
    unfold FileHelper.size
    cases hf : d.file? m.dataFile with
    | none => rfl
    | some data =>
      rw [h _ _ hf]
      rfl
  unfold MessageMapper.load
  rw [hsize]
  rfl

theorem Bare.gc (pb : PayloadCodec) (h : Bare d) (m : MessageMapper) : Bare (m.gc pb d).2 := by
  rw [MessageMapper.gc_of_load (h.load pb m), MessageMapper.insertAll]
  have hremove : Bare (FileHelper.remove (FileHelper.create d m.tmpFile).2 m.dataFile).2 := h.create.remove
  dsimp only
  split
  · next heq => rwa [heq] at hremove
  · next heq =>
    rw [heq] at hremove
    exact hremove.rename m.dataFile

end

/-- A compaction returns a message when it loads one. -/
theorem MessageMapper.gc_eq_nil_iff (pb : PayloadCodec) (m : MessageMapper) (d : Disk) :
    (m.gc pb d).1 = [] ↔ (m.load pb d).2.1 = [] := by
  obtain ⟨⟨ok, lst, d'⟩, hload⟩ : ∃ x, m.load pb d = x := ⟨_, rfl⟩
  cases ok with
  | false =>
    simp only [MessageMapper.gc, hload]
  | true => rw [← List.length_eq_zero_iff, MessageMapper.length_gc_of_load hload, List.length_eq_zero_iff, hload]

/-! ### The message manager -/

namespace MessageManager
variable {pb : PayloadCodec} {m : MessageManager} {qname : String} {d : Disk}

def view (m : MessageManager) (qname : String) : QueueView := ((m.queueMsgs.lookup qname).map QueueMessage.view).getD {}

def Light (m : MessageManager) : Prop := ∀ qname q, m.queueMsgs.lookup qname = some q → q.Light

variable (pb) in
/-- The messages that a start of the storage of `qname` finds in its data file. -/
def leftover (m : MessageManager) (qname : String) (d : Disk) : List Message :=
  let mapper := MessageMapper.files m.baseDir qname
  (mapper.load pb (mapper.createMsgFile d).2).2.1

theorem view_put (qname : String) (q : QueueMessage) : (m.put qname q).view = Function.update m.view qname q.view := by
  funext name
  unfold view
  rw [put, UMap.lookup_insert, Function.update_apply]
  split
  · rfl
  · rfl

theorem Light.put (h : m.Light) {q : QueueMessage} (hq : q.Light) : (m.put qname q).Light := by
  intro name q' hlookup
  rw [MessageManager.put, UMap.lookup_insert] at hlookup
  split at hlookup
  · cases hlookup
    exact hq
  · exact h name q' hlookup

theorem mem_put {q q' : QueueMessage} (hlookup : m.queueMsgs.lookup qname = some q) {name : String} :
    name ∈ (m.put qname q').queueMsgs ↔ name ∈ m.queueMsgs := by
  rw [put, AList.mem_insert]
  exact ⟨fun h => h.elim (fun heq => heq ▸ UMap.mem_of_lookup hlookup) id, Or.inr⟩

/-- What the start of the storage of a queue in an existing directory does. -/
structure Started (pb : PayloadCodec) (m m' : MessageManager) (qname : String) (d d' : Disk) : Prop where
  base : m'.baseDir = m.baseDir
  grows : d.Grows d'
  mem : ∀ name, name ∈ m'.queueMsgs ↔ name = qname ∨ name ∈ m.queueMsgs
  light : m.Light → qname ∈ m.queueMsgs ∨ m.leftover pb qname d = [] → m'.Light ∧ m'.view = m.view
  finds : qname ∉ m.queueMsgs → m.leftover pb qname d ≠ [] → (m'.view qname).pending ≠ []
  bare : Bare d → Bare d'

variable (pb) in
theorem initQueueMsg_started (hdir : d.isDir (MessageMapper.directory m.baseDir) = true) (qname : String) :
    ∃ m' d', m.initQueueMsg pb qname d = some (m', d') ∧ Started pb m m' qname d d' := by
  obtain ⟨m', d', hinit, hbase, hgrows⟩ := m.initQueueMsg_of_isDir pb qname hdir
  refine ⟨m', d', hinit, ?_⟩
  unfold initQueueMsg at hinit
  split at hinit
  · next q hlookup =>
    cases hinit
    have hmem := UMap.mem_of_lookup hlookup
    refine ⟨rfl, hgrows, fun name => ⟨Or.inr, ?_⟩, fun hl _ => ⟨hl, rfl⟩, fun hnot => absurd hmem hnot, id⟩
    rintro (rfl | h)
    · exact hmem
    · exact h
  · next hlookup =>
    have hnot : qname ∉ m.queueMsgs := AList.lookup_eq_none.mp hlookup
    rw [MessageMapper.new_of_isDir hdir] at hinit
    generalize hd₁ : ((MessageMapper.files m.baseDir qname).createMsgFile d).2 = d₁ at hinit
    have hpending := QueueMessage.pending_recovery pb { mapper := .files m.baseDir qname } d₁
    obtain ⟨hwaits, hbounded⟩ := QueueMessage.recovery_waits pb (.files m.baseDir qname) d₁
    have hbare : Bare d₁ → Bare (({ mapper := .files m.baseDir qname } : QueueMessage).recovery pb d₁).2 :=
      fun hb => hb.gc pb (.files m.baseDir qname)
    obtain ⟨⟨q, d₂⟩, hrec⟩ : ∃ x, ({ mapper := .files m.baseDir qname } : QueueMessage).recovery pb d₁ = x := ⟨_, rfl⟩
    rw [hrec] at hpending hwaits hbounded hbare
    simp only [hrec, Option.some.injEq, Prod.mk.injEq] at hinit
    obtain ⟨rfl, rfl⟩ := hinit
    have hnil : m.leftover pb qname d = [] ↔ q.pending = [] := by
      rw [hpending, MessageMapper.gc_eq_nil_iff, leftover, hd₁]
    have hlookup' : ∀ name, (m.queueMsgs.emplace qname q).lookup name =
        if name = qname then some q else m.queueMsgs.lookup name := fun name => by
      rw [UMap.emplace_of_notMem hnot, UMap.lookup_insert]
    refine ⟨rfl, hgrows, fun name => UMap.mem_emplace, fun hl hleft => ?_, fun _ hleft => ?_,
      fun hb => hbare (hd₁ ▸ hb.createMsgFile _)⟩
    · have hmsgs : q.msgs = [] := List.map_eq_nil_iff.mp (hnil.mp (hleft.resolve_left hnot))
      constructor
      · intro name q' hq'
        rw [hlookup'] at hq'
        split at hq'
        · cases hq'
          refine ⟨hbounded, fun hr => ?_, fun r hr => ?_, fun hr => ?_⟩
          · rw [hwaits] at hr
            cases hr
          · rw [hmsgs] at hr
            cases hr
          · rw [hwaits] at hr
            cases hr
        · exact hl name q' hq'
      · funext name
        unfold view
        rw [hlookup']
        split
        · next heq =>
          rw [heq, hlookup]
          show (⟨q.msgs.map q.heap, fun msgId => (q.waitAckMsgs.lookup msgId).map q.heap⟩ : QueueView) = {}
          rw [hmsgs, hwaits]
          rfl
        · rfl
    · unfold view
      rw [hlookup', if_pos rfl]
      exact fun h => hleft (hnil.mpr h)

/-- An operation on the messages of a queue keeps the queues. -/
structure Serves (m m' : MessageManager) : Prop where
  base : m'.baseDir = m.baseDir
  mem : ∀ name, name ∈ m'.queueMsgs ↔ name ∈ m.queueMsgs
  light : m'.Light

theorem Light.serves (h : m.Light) {q q' : QueueMessage} (hlookup : m.queueMsgs.lookup qname = some q) (hq : q'.Light) :
    Serves m (m.put qname q') := ⟨rfl, fun _ => mem_put hlookup, h.put hq⟩

theorem view_of_lookup {q : QueueMessage} (hlookup : m.queueMsgs.lookup qname = some q) : m.view qname = q.view := by
  rw [view, hlookup]
  rfl

theorem view_of_missing (hlookup : m.queueMsgs.lookup qname = none) : m.view qname = {} := by
  rw [view, hlookup]
  rfl

theorem Light.insert (h : m.Light) (pb : PayloadCodec) (d : Disk) (hmem : qname ∈ m.queueMsgs)
    (bp : Option BasicProperties) (uuid body : String) :
    ∃ m', m.insert pb qname bp uuid body false d = (true, m', d) ∧ Serves m m' ∧
      m'.view = Function.update m.view qname ((m.view qname).push (QueueMessage.makeMessage bp uuid body false)) := by
  obtain ⟨q, hlookup⟩ := Option.isSome_iff_exists.mp (AList.lookup_isSome.mpr hmem)
  obtain ⟨q', hins, hq', hview⟩ := (h qname q hlookup).insert pb d bp uuid body
  refine ⟨m.put qname q', ?_, h.serves hlookup hq', ?_⟩
  · simp only [MessageManager.insert, hlookup, hins]
  · rw [view_put, hview, view_of_lookup hlookup]

theorem Light.front (h : m.Light) (qname : String) : Serves m (m.front qname).2 ∧
    ((m.front qname).1.bind fun r => ((m.front qname).2.queueMsgs.lookup qname).map (·.heap r)) = (m.view qname).pop.1 ∧
    (m.front qname).2.view = Function.update m.view qname (m.view qname).pop.2 := by
  unfold MessageManager.front
  split
  · next hlookup =>
    rw [view_of_missing hlookup]
    refine ⟨⟨rfl, fun _ => Iff.rfl, h⟩, rfl, ?_⟩
    exact (Function.update_eq_self_iff.mpr (view_of_missing hlookup).symm).symm
  · next q hlookup =>
    obtain ⟨hq', hmsg, hview⟩ := (h qname q hlookup).front
    rw [view_of_lookup hlookup]
    refine ⟨h.serves hlookup hq', ?_, ?_⟩
    · rw [← hmsg]
      dsimp only
      rw [MessageManager.put, AList.lookup_insert]
      cases q.front.1 with
      | none => rfl
      | some r => rfl
    · rw [← hview]
      exact view_put qname q.front.2

theorem Light.ack (h : m.Light) (pb : PayloadCodec) (d : Disk) (qname msgId : String) : ∃ m', m.ack pb qname msgId d = some (m', d) ∧ Serves m m' ∧
    m'.view = Function.update m.view qname ((m.view qname).ack msgId) := by
  unfold MessageManager.ack
  split
  · next hlookup =>
    refine ⟨m, rfl, ⟨rfl, fun _ => Iff.rfl, h⟩, (Function.update_eq_self_iff.mpr ?_).symm⟩
    rw [view_of_missing hlookup, QueueView.ack, Function.update_eq_self_iff.mpr rfl]
  · next q hlookup =>
    obtain ⟨q', hrem, hq', hview⟩ := (h qname q hlookup).remove pb d msgId
    refine ⟨m.put qname q', by rw [hrem], h.serves hlookup hq', ?_⟩
    rw [view_put, hview, view_of_lookup hlookup]

theorem Light.destroyQueueMsg (h : m.Light) (qname : String) (d : Disk) : (m.destroyQueueMsg qname d).1.Light ∧
    (m.destroyQueueMsg qname d).1.view = Function.update m.view qname {} ∧
    (∀ name, name ∈ (m.destroyQueueMsg qname d).1.queueMsgs ↔ name ≠ qname ∧ name ∈ m.queueMsgs) ∧
    (Bare d → Bare (m.destroyQueueMsg qname d).2) := by
  unfold MessageManager.destroyQueueMsg
  split
  · next hlookup =>
    refine ⟨h, (Function.update_eq_self_iff.mpr (view_of_missing hlookup).symm).symm, fun name => ?_, id⟩
    refine ⟨fun hmem => ⟨?_, hmem⟩, And.right⟩
    rintro rfl
    exact AList.lookup_eq_none.mp hlookup hmem
  · next q hlookup =>
    refine ⟨fun name q' hq' => h name q' (UMap.lookup_erase_eq_some hq').2, ?_, fun name => AList.mem_erase, fun hb => ?_⟩
    · funext name
      rw [Function.update_apply]
      unfold view
      rw [UMap.lookup_erase]
      split
      · rfl
      · rfl
    · exact hb.remove.remove

end MessageManager

/-! ### The database -/

/-- The table of queues stays as it is. -/
structure Db.Keeps (db db' : Db) : Prop where
  queueTable : db'.queueTable = db.queueTable
  calm : db.Calm → db'.Calm

namespace Db
variable {db db' db'' : Db}

theorem Keeps.refl (db : Db) : db.Keeps db := ⟨rfl, id⟩

theorem Keeps.trans (h₁ : db.Keeps db') (h₂ : db'.Keeps db'') : db.Keeps db'' :=
  ⟨h₂.queueTable.trans h₁.queueTable, fun hc => h₂.calm (h₁.calm hc)⟩

theorem keeps_exec {statement : Db → Option Db}
    (hs : ∀ db db', statement db = some db' → db'.queueTable = db.queueTable ∧ db'.fates = db.fates) (db : Db) :
    db.Keeps (db.exec statement).2 := by
  have htick : db.Keeps db.tick := ⟨rfl, fun hc => congrArg List.tail hc⟩
  unfold exec
  split
  · exact htick
  · split
    · exact htick
    · next db' heq =>
      obtain ⟨htable, hfates⟩ := hs _ _ heq
      exact ⟨htable, fun hc => hfates.trans (htick.calm hc)⟩

theorem keeps_insertExchange (row : ExchangeRow) (db : Db) : db.Keeps (db.exec (insertExchange row)).2 := by
  refine keeps_exec (fun db db' h => ?_) db
  unfold insertExchange at h
  split at h
  · cases h
  · split at h
    · cases h
    · cases h
      exact ⟨rfl, rfl⟩

theorem keeps_deleteExchanges (name : String) (db : Db) : db.Keeps (db.exec (deleteExchanges name)).2 := by
  refine keeps_exec (fun db db' h => ?_) db
  obtain ⟨rows, -, rfl⟩ := Option.map_eq_some_iff.mp h
  exact ⟨rfl, rfl⟩

theorem keeps_deleteBindings (clause : BindingRow → Bool) (db : Db) : db.Keeps (db.exec (deleteBindings clause)).2 := by
  refine keeps_exec (fun db db' h => ?_) db
  obtain ⟨rows, -, rfl⟩ := Option.map_eq_some_iff.mp h
  exact ⟨rfl, rfl⟩

theorem removeTable_eq_some (drop : Db → Option Db) (hremove : removeTable drop db = some db') :
    drop db.tick = some db' := by
  unfold removeTable exec at hremove
  split at hremove
  · cases hremove
  · next heq =>
    cases hremove
    split at heq
    · cases heq
    · split at heq
      · cases heq
      · next hdrop =>
        cases heq
        exact hdrop

end Db

/-! ### The other managers

Without durable queues neither what they return nor their maps depend on the database. -/

namespace ExchangeManager
variable (m : ExchangeManager) (name : String) (db : Db)

theorem declareExchange_db (type : ExchangeType) (durable autoDelete : Bool) (args : UMap String String) (db' : Db) :
    ∃ ok m' db₁, m.declareExchange name type durable autoDelete args db = (ok, m', db₁) ∧ db.Keeps db₁ ∧
      ∃ db₂, m.declareExchange name type durable autoDelete args db' = (ok, m', db₂) := by
  unfold declareExchange
  cases m.exchanges.lookup name with
  | some e => exact ⟨_, _, _, rfl, .refl db, _, rfl⟩
  | none =>
    refine ⟨_, _, _, rfl, ?_, _, rfl⟩
    split
    · exact Db.keeps_insertExchange _ db
    · exact .refl db

theorem deleteExchange_db (db' : Db) : (m.deleteExchange name db).1 = (m.deleteExchange name db').1 ∧
    db.Keeps (m.deleteExchange name db).2 := by
  unfold deleteExchange
  cases m.exchanges.lookup name with
  | none => exact ⟨rfl, .refl db⟩
  | some exp =>
    refine ⟨rfl, ?_⟩
    dsimp only
    split
    · exact Db.keeps_deleteExchanges name db
    · exact .refl db

end ExchangeManager

namespace BindingManager
variable (m : BindingManager) (ename qname : String) (db : Db)

theorem unbind_db (db' : Db) : (m.unbind ename qname db).1 = (m.unbind ename qname db').1 ∧
    db.Keeps (m.unbind ename qname db).2 := by
  unfold unbind
  cases m.bindings.lookup ename with
  | none => exact ⟨rfl, .refl db⟩
  | some qbmap =>
    dsimp only
    split
    · exact ⟨rfl, Db.keeps_deleteBindings _ db⟩
    · exact ⟨rfl, .refl db⟩

theorem bind_db (key : String) (db' : Db) : ∃ ok m', m.bind ename qname key false db = (ok, m', db) ∧
    m.bind ename qname key false db' = (ok, m', db') := by
  unfold bind
  split
  · exact ⟨_, _, rfl, rfl⟩
  · exact ⟨_, _, rfl, rfl⟩

end BindingManager

namespace MsgQueueManager
variable {m : MsgQueueManager} {qname : String}

/-- No queue is durable. -/
def Transient (m : MsgQueueManager) : Prop := ∀ qname q, m.msgQueues.lookup qname = some q → q.durable = false

theorem Transient.declareQueue (h : m.Transient) {qdurable : Bool} (hcond : qname ∈ m.msgQueues ∨ qdurable = false)
    (qexclusive qautoDelete : Bool) (qargs : UMap String String) : ∃ m' : MsgQueueManager,
    (∀ db, m.declareQueue qname qdurable qexclusive qautoDelete qargs db = (true, m', db)) ∧
      m.declareQueue qname false qexclusive qautoDelete qargs {} = (true, m', {}) ∧ m'.Transient ∧
      ∀ name, name ∈ m'.msgQueues ↔ name = qname ∨ name ∈ m.msgQueues := by
  unfold MsgQueueManager.declareQueue
  cases hlookup : m.msgQueues.lookup qname with
  | some q =>
    refine ⟨m, fun _ => rfl, rfl, h, fun name => ⟨Or.inr, ?_⟩⟩
    rintro (rfl | hmem)
    · exact UMap.mem_of_lookup hlookup
    · exact hmem
  | none =>
    obtain rfl := hcond.resolve_left (AList.lookup_eq_none.mp hlookup)
    refine ⟨_, fun _ => rfl, rfl, fun name q hq => ?_, fun name => UMap.mem_emplace⟩
    obtain hq | ⟨-, -, rfl⟩ := UMap.lookup_emplace_eq_some hq
    · exact h name q hq
    · rfl

theorem Transient.deleteQueue (h : m.Transient) (qname : String) : ∃ m' : MsgQueueManager,
    (∀ db, m.deleteQueue qname db = (m', db)) ∧ m'.Transient ∧
      ∀ name ∈ m'.msgQueues, name ≠ qname ∧ name ∈ m.msgQueues := by
  unfold MsgQueueManager.deleteQueue
  cases hlookup : m.msgQueues.lookup qname with
  | none =>
    refine ⟨m, fun _ => rfl, h, fun name hmem => ⟨?_, hmem⟩⟩
    rintro rfl
    exact AList.lookup_eq_none.mp hlookup hmem
  | some q =>
    refine ⟨_, fun db => ?_, fun name q' hq' => ?_, fun name hmem => AList.mem_erase.mp hmem⟩
    · simp only [h qname q hlookup]
      rfl
    · exact h name q' (UMap.lookup_erase_eq_some hq').2

end MsgQueueManager

/-! ### A host in memory -/

/-- A host without a disk and a database. -/
structure HostView where
  emp : ExchangeManager := {}
  mqmp : MsgQueueManager := {}
  bmp : BindingManager := {}
  queues : String → QueueView := fun _ => {}

namespace HostView

/-- Every queue is declared transient. -/
def call (v : HostView) : HostMethod → HostResult × HostView
  | .declareExchange name type durable autoDelete args =>
    match v.emp.declareExchange name type durable autoDelete args {} with
    | (ok, emp, _) => (.flag ok, { v with emp })
  | .deleteExchange name =>
    (.done, { v with bmp := (v.bmp.unbindExchange name {}).1, emp := (v.emp.deleteExchange name {}).1 })
  | .declareQueue qname _ qexclusive qautoDelete qargs =>
    match v.mqmp.declareQueue qname false qexclusive qautoDelete qargs {} with
    | (ok, mqmp, _) => (.flag ok, { v with mqmp })
  | .deleteQueue name =>
    (.done, { v with
      bmp := (v.bmp.unbindQueue name {}).1
      mqmp := (v.mqmp.deleteQueue name {}).1
      queues := Function.update v.queues name {} })
  | .bind ename qname key =>
    if ename ∈ v.emp.exchanges ∧ qname ∈ v.mqmp.msgQueues then
      match v.bmp.bind ename qname key false {} with
      | (ok, bmp, _) => (.flag ok, { v with bmp })
    else (.flag false, v)
  | .unbind ename qname => (.done, { v with bmp := (v.bmp.unbind ename qname {}).1 })
  | .basicPublish qname bp uuid body =>
    if qname ∈ v.mqmp.msgQueues then
      let queue := (v.queues qname).push (QueueMessage.makeMessage bp uuid body false)
      (.flag true, { v with queues := Function.update v.queues qname queue })
    else (.flag false, v)
  | .basicConsume qname =>
    (.message (v.queues qname).pop.1, { v with queues := Function.update v.queues qname (v.queues qname).pop.2 })
  | .basicAck qname msgId =>
    (.done, { v with queues := Function.update v.queues qname ((v.queues qname).ack msgId) })
  | .existsExchange ename => (.flag (v.emp.exists? ename), v)
  | .existsQueue qname => (.flag (v.mqmp.exists? qname), v)
  | .existsBinding ename qname => (.flag (v.bmp.exists? ename qname), v)

end HostView

namespace VirtualHost
variable {pb : PayloadCodec} {h h' : VirtualHost}

def view (h : VirtualHost) : HostView := { emp := h.emp, mqmp := h.mqmp, bmp := h.bmp, queues := h.mmp.view }

variable (pb) in
/-- The queue is declared already, or it is declared transient and no message of it is found on the disk. -/
def renews (h : VirtualHost) : HostMethod → Bool
  | .declareQueue qname qdurable .. =>
    h.existsQueue qname || (!qdurable && (qname ∈ h.mmp.queueMsgs || (h.mmp.leftover pb qname h.disk).isEmpty))
  | _ => true

/-- A host without durable queues and durable messages. -/
structure Light (h : VirtualHost) : Prop where
  mmp : h.mmp.Light
  transient : h.mqmp.Transient
  known : ∀ qname ∈ h.mqmp.msgQueues, qname ∈ h.mmp.queueMsgs
  isDir : h.disk.isDir (MessageMapper.directory h.mmp.baseDir) = true

/-- A call brought the host to what it is in memory. -/
structure Invoked (h h' : VirtualHost) (v : HostView) : Prop where
  view : h'.view = v
  light : h'.Light
  keeps : h.db.Keeps h'.db
  bare : Bare h.disk → Bare h'.disk

theorem Light.declareQueue (hl : h.Light) {qname : String} {qdurable : Bool} (qexclusive qautoDelete : Bool)
    (qargs : UMap String String) (hcond : h.renews pb (.declareQueue qname qdurable qexclusive qautoDelete qargs) = true) :
    ∃ mqmp h', h.declareQueue pb qname qdurable qexclusive qautoDelete qargs = some (true, h') ∧
      h.mqmp.declareQueue qname false qexclusive qautoDelete qargs {} = (true, mqmp, {}) ∧
      Invoked h h' { h.view with mqmp } := by
  obtain ⟨mmp, disk, hinit, hstarted⟩ := MessageManager.initQueueMsg_started pb hl.isDir qname
  have hcond' : (qname ∈ h.mqmp.msgQueues ∨ qdurable = false) ∧
      (qname ∈ h.mmp.queueMsgs ∨ h.mmp.leftover pb qname h.disk = []) := by
    simp only [renews, existsQueue, MsgQueueManager.exists?, Bool.or_eq_true, decide_eq_true_eq, Bool.and_eq_true,
      Bool.not_eq_true', List.isEmpty_iff] at hcond
    obtain hmem | ⟨hdurable, hleft⟩ := hcond
    · exact ⟨Or.inl hmem, Or.inl (hl.known qname hmem)⟩
    · exact ⟨Or.inr hdurable, hleft⟩
  obtain ⟨mqmp, hdecl, hdecl', htransient, hmem⟩ := hl.transient.declareQueue hcond'.1 qexclusive qautoDelete qargs
  obtain ⟨hmmp, hview⟩ := hstarted.light hl.mmp hcond'.2
  refine ⟨mqmp, { h with mmp, disk, mqmp }, ?_, hdecl', ?_, ⟨hmmp, htransient, fun name hname => ?_, ?_⟩, .refl _, hstarted.bare⟩
  · rw [VirtualHost.declareQueue, hinit]
    simp only [hdecl]
  · rw [VirtualHost.view, VirtualHost.view, hview]
  · exact (hstarted.mem name).mpr (((hmem name).mp hname).imp_right (hl.known name))
  · rw [hstarted.base]
    exact hstarted.grows.isDir hl.isDir

theorem Light.deleteQueue (hl : h.Light) (name : String) :
    Invoked h (h.deleteQueue name) (h.view.call (.deleteQueue name)).2 := by
  obtain ⟨mqmp, hdel, htransient, hmem⟩ := hl.transient.deleteQueue name
  obtain ⟨hmmp, hview, hmem', hbare⟩ := hl.mmp.destroyQueueMsg name h.disk
  obtain ⟨hdirs, hbase⟩ := h.mmp.dirs_destroyQueueMsg name h.disk
  have hhost : h.deleteQueue name = { h with
      mmp := (h.mmp.destroyQueueMsg name h.disk).1
      disk := (h.mmp.destroyQueueMsg name h.disk).2
      bmp := (h.bmp.unbindQueue name h.db).1
      mqmp
      db := (h.bmp.unbindQueue name h.db).2 } := by
    simp only [VirtualHost.deleteQueue, hdel]
  rw [hhost]
  refine ⟨?_, ⟨hmmp, htransient, fun q hq => ?_, ?_⟩, Db.keeps_deleteBindings _ h.db, hbare⟩
  · simp only [VirtualHost.view, HostView.call, hview, hdel]
    rfl
  · obtain ⟨hne, hq⟩ := hmem q hq
    exact (hmem' q).mpr ⟨hne, hl.known q hq⟩
  · rw [hbase]
    exact (Disk.Grows.of_dirs hdirs).isDir hl.isDir

/-- The messages of a queue changed in memory, and nothing else. -/
theorem Light.serves (hl : h.Light) {mmp : MessageManager} (hs : h.mmp.Serves mmp) {qname : String} {queue : QueueView}
    (hview : mmp.view = Function.update h.mmp.view qname queue) :
    Invoked h { h with mmp } { h.view with queues := Function.update h.view.queues qname queue } := by
  refine ⟨?_, ⟨hs.light, hl.transient, fun name hname => (hs.mem name).mpr (hl.known name hname), ?_⟩, .refl _, id⟩
  · simp only [VirtualHost.view, hview]
  · rw [hs.base]
    exact hl.isDir

theorem Light.refl (hl : h.Light) : Invoked h h h.view := ⟨rfl, hl, .refl _, id⟩

/-- A call that finds no old message and declares no durable queue returns what it returns in memory. -/
theorem Light.invoke (hl : h.Light) {m : HostMethod} (hcond : h.renews pb m = true) :
    ∃ h', h.invoke pb m = some ((h.view.call m).1, h') ∧ Invoked h h' (h.view.call m).2 := by
  cases m with
  | declareExchange name type durable autoDelete args =>
    obtain ⟨ok, emp, db, hdecl, hkeeps, db', hdecl'⟩ := h.emp.declareExchange_db name h.db type durable autoDelete args {}
    refine ⟨{ h with emp, db }, ?_, ?_⟩
    · simp only [VirtualHost.invoke, VirtualHost.declareExchange, HostView.call, VirtualHost.view, hdecl, hdecl']
    · simp only [HostView.call, VirtualHost.view, hdecl']
      exact ⟨rfl, ⟨hl.mmp, hl.transient, hl.known, hl.isDir⟩, hkeeps, id⟩
  | deleteExchange name =>
    have hkeeps := Db.keeps_deleteBindings (fun row => row.exchangeName = name) h.db
    obtain ⟨hemp, hkeeps'⟩ := h.emp.deleteExchange_db name (h.bmp.unbindExchange name h.db).2 {}
    refine ⟨h.deleteExchange name, rfl, ?_, ⟨hl.mmp, hl.transient, hl.known, hl.isDir⟩, hkeeps.trans hkeeps', id⟩
    simp only [HostView.call, VirtualHost.view, VirtualHost.deleteExchange, hemp]
    rfl
  | declareQueue qname qdurable qexclusive qautoDelete qargs =>
    obtain ⟨mqmp, h', hdecl, hdecl', hinvoked⟩ := hl.declareQueue qexclusive qautoDelete qargs hcond
    refine ⟨h', ?_, ?_⟩
    · simp only [VirtualHost.invoke, HostView.call, VirtualHost.view, hdecl, hdecl']
    · simp only [HostView.call, VirtualHost.view, hdecl']
      exact hinvoked
  | deleteQueue name => exact ⟨_, rfl, hl.deleteQueue name⟩
  | bind ename qname key =>
    simp only [VirtualHost.invoke, VirtualHost.bind, ExchangeManager.selectExchange, MsgQueueManager.selectQueue]
    cases hex : h.emp.exchanges.lookup ename with
    | none =>
      have hcall : h.view.call (.bind ename qname key) = (.flag false, h.view) :=
        if_neg fun hmem => AList.lookup_eq_none.mp hex hmem.1
      rw [hcall]
      exact ⟨h, rfl, hl.refl⟩
    | some ep =>
      cases hq : h.mqmp.msgQueues.lookup qname with
      | none =>
        have hcall : h.view.call (.bind ename qname key) = (.flag false, h.view) :=
          if_neg fun hmem => AList.lookup_eq_none.mp hq hmem.2
        rw [hcall]
        exact ⟨h, rfl, hl.refl⟩
      | some mqp =>
        obtain ⟨ok, bmp, hbind, hbind'⟩ := h.bmp.bind_db ename qname h.db key {}
        have hcall : h.view.call (.bind ename qname key) = (.flag ok, { h.view with bmp }) := by
          have hmem : ename ∈ h.view.emp.exchanges ∧ qname ∈ h.view.mqmp.msgQueues :=
            ⟨UMap.mem_of_lookup hex, UMap.mem_of_lookup hq⟩
          have hbind₀ : h.view.bmp.bind ename qname key false {} = (ok, bmp, {}) := hbind'
          simp only [HostView.call, if_pos hmem, hbind₀]
        rw [hcall]
        simp only [hl.transient qname mqp hq, Bool.and_false, hbind]
        exact ⟨_, rfl, rfl, ⟨hl.mmp, hl.transient, hl.known, hl.isDir⟩, .refl _, id⟩
  | unbind ename qname =>
    obtain ⟨hbmp, hkeeps⟩ := h.bmp.unbind_db ename qname h.db {}
    refine ⟨h.unbind ename qname, rfl, ?_, ⟨hl.mmp, hl.transient, hl.known, hl.isDir⟩, hkeeps, id⟩
    simp only [HostView.call, VirtualHost.view, VirtualHost.unbind, hbmp]
  | basicPublish qname bp uuid body =>
    simp only [VirtualHost.invoke, VirtualHost.basicPublish, MsgQueueManager.selectQueue]
    cases hq : h.mqmp.msgQueues.lookup qname with
    | none =>
      have hcall : h.view.call (.basicPublish qname bp uuid body) = (.flag false, h.view) :=
        if_neg (AList.lookup_eq_none.mp hq)
      rw [hcall]
      exact ⟨h, rfl, hl.refl⟩
    | some mqp =>
      obtain ⟨mmp, hins, hserves, hview⟩ := hl.mmp.insert pb h.disk
        (hl.known qname (UMap.mem_of_lookup hq)) bp uuid body
      have hcall : h.view.call (.basicPublish qname bp uuid body) = (.flag true, { h.view with
          queues := Function.update h.view.queues qname
            ((h.view.queues qname).push (QueueMessage.makeMessage bp uuid body false)) }) :=
        if_pos (UMap.mem_of_lookup hq)
      rw [hcall]
      simp only [hl.transient qname mqp hq, hins]
      exact ⟨_, rfl, hl.serves hserves hview⟩
  | basicConsume qname =>
    obtain ⟨hserves, hmsg, hview⟩ := hl.mmp.front qname
    refine ⟨{ h with mmp := (h.mmp.front qname).2 }, ?_, hl.serves hserves hview⟩
    simp only [VirtualHost.invoke, VirtualHost.basicConsume, HostView.call]
    exact congrArg (fun msg => some (HostResult.message msg, _)) hmsg
  | basicAck qname msgId =>
    obtain ⟨mmp, hack, hserves, hview⟩ := hl.mmp.ack pb h.disk qname msgId
    refine ⟨{ h with mmp }, ?_, hl.serves hserves hview⟩
    simp only [VirtualHost.invoke, VirtualHost.basicAck, hack]
    rfl
  | existsExchange ename => exact ⟨h, rfl, hl.refl⟩
  | existsQueue qname => exact ⟨h, rfl, hl.refl⟩
  | existsBinding ename qname => exact ⟨h, rfl, hl.refl⟩

end VirtualHost
end HareMQ
