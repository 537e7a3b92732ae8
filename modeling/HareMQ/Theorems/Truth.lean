import HareMQ.Theorems.Accept
import HareMQ.Theorems.Keys
import HareMQ.Theorems.Subscriptions

/-! # What the responses say

The flag of a response against what the request did, for each handler of a channel and in every state of the server. -/

namespace HareMQ
open Lib

/-! ### Statements that may fail -/

namespace Db
variable {db : Db}

theorem exec_fail {n : Nat} (hfate : db.fate = .fail n) (statement : Db → Option Db) : db.exec statement = (false, db.tick) := by
  simp only [exec, hfate]

/-- The row can be inserted, or is there. -/
def writesExchange (db : Db) (row : ExchangeRow) : Bool :=
  (db.exchangeTable.getD []).contains row ||
    (db.fate = .ok && db.exchangeTable.isSome && !(db.exchangeTable.getD []).any (·.name = row.name))

theorem mem_insertExchange (db : Db) (row : ExchangeRow) :
    row ∈ (db.exec (insertExchange row)).2.exchangeTable.getD [] ↔ db.writesExchange row = true := by
  unfold writesExchange
  cases hfate : db.fate with
  | fail n =>
    rw [exec_fail hfate]
    simp [tick]
  | ok =>
    simp only [exec, hfate, insertExchange]
    cases htable : db.exchangeTable with
    | none => simp [tick, htable]
    | some rows =>
      by_cases hany : rows.any (·.name = row.name) = true
      · simp [tick, htable, hany]
      · simp [tick, htable, hany]

theorem exec_eq_true {statement : Db → Option Db} {db' : Db} (hexec : db.exec statement = (true, db')) :
    statement db.tick = some db' := by
  unfold exec at hexec
  split at hexec
  · cases hexec
  · split at hexec
    · cases hexec
    · next hs =>
      cases hexec
      exact hs

theorem mem_insertQueue {row : QueueRow} {db' : Db} (hexec : db.exec (insertQueue row) = (true, db')) :
    row ∈ db'.queueTable.getD [] := by
  have hinsert := exec_eq_true hexec
  unfold insertQueue at hinsert
  split at hinsert
  · cases hinsert
  · split at hinsert
    · cases hinsert
    · cases hinsert
      exact List.mem_append_right _ (List.mem_singleton.mpr rfl)

theorem mem_insertBinding {row : BindingRow} {db' : Db} (hexec : db.exec (insertBinding row) = (true, db')) :
    row ∈ db'.bindingTable.getD [] := by
  have hinsert := exec_eq_true hexec
  unfold insertBinding at hinsert
  split at hinsert
  · cases hinsert
  · cases hinsert
    exact List.mem_append_right _ (List.mem_singleton.mpr rfl)

/-- The rows after a deletion by name. -/
theorem not_mem_deleteExchanges (db : Db) (name : String) :
    (∀ row ∈ (db.exec (deleteExchanges name)).2.exchangeTable.getD [], row.name ≠ name) ↔
      ((db.exchangeTable.getD []).any (·.name = name) = false ∨ db.fate = .ok) := by
  cases hfate : db.fate with
  | fail n =>
    rw [exec_fail hfate]
    simp [tick]
  | ok =>
    simp only [exec, hfate, deleteExchanges]
    cases htable : db.exchangeTable with
    | none => simp [tick, htable]
    | some rows => simp [tick, htable]

theorem not_mem_deleteQueues (db : Db) (name : String) :
    (∀ row ∈ (db.exec (deleteQueues name)).2.queueTable.getD [], row.name ≠ name) ↔
      ((db.queueTable.getD []).any (·.name = name) = false ∨ db.fate = .ok) := by
  cases hfate : db.fate with
  | fail n =>
    rw [exec_fail hfate]
    simp [tick]
  | ok =>
    simp only [exec, hfate, deleteQueues]
    cases htable : db.queueTable with
    | none => simp [tick, htable]
    | some rows => simp [tick, htable]

theorem not_mem_deleteBindings (db : Db) (clause : BindingRow → Bool) :
    (∀ row ∈ (db.exec (deleteBindings clause)).2.bindingTable.getD [], clause row = false) ↔
      ((db.bindingTable.getD []).any clause = false ∨ db.fate = .ok) := by
  cases hfate : db.fate with
  | fail n =>
    rw [exec_fail hfate]
    simp [tick]
  | ok =>
    simp only [exec, hfate, deleteBindings]
    cases htable : db.bindingTable with
    | none => simp [tick, htable]
    | some rows => simp [tick, htable]

/-- A deletion of bindings leaves the other tables. -/
theorem exec_deleteBindings_tables (db : Db) (clause : BindingRow → Bool) :
    (db.exec (deleteBindings clause)).2.exchangeTable = db.exchangeTable ∧
      (db.exec (deleteBindings clause)).2.queueTable = db.queueTable ∧
      (db.exec (deleteBindings clause)).2.fates = db.fates.tail := by
  cases hfate : db.fate with
  | fail n =>
    rw [exec_fail hfate]
    exact ⟨rfl, rfl, rfl⟩
  | ok =>
    simp only [exec, hfate, deleteBindings]
    cases htable : db.bindingTable with
    | none => simp [tick, htable]
    | some rows => simp [tick, htable]

end Db

theorem QueueMessage.remove_gone {pb : PayloadCodec} {q q' : QueueMessage} {msgId : String} {d d' : Disk}
    (hremove : q.remove pb msgId d = some (q', d')) : msgId ∉ q'.waitAckMsgs := by
  unfold remove at hremove
  split at hremove
  · next hnone =>
    cases hremove
    exact AList.lookup_eq_none.mp hnone
  · split at hremove
    · split at hremove
      split at hremove
      · cases hremove
      · cases hremove
        exact fun h => (AList.mem_erase.mp h).1 rfl
    · cases hremove
      exact fun h => (AList.mem_erase.mp h).1 rfl

/-! ### Flags of the host -/

namespace VirtualHost
variable {pb : PayloadCodec} {h h' : VirtualHost}

/-- The result of a declaration says whether the queue is there now, with its row if it is a new durable one. -/
theorem declareQueue_flag {qname : String} {qdurable qexclusive qautoDelete ok : Bool} {qargs : UMap String String}
    (hdecl : h.declareQueue pb qname qdurable qexclusive qautoDelete qargs = some (ok, h')) :
    ok = true ↔ qname ∈ h'.mqmp.msgQueues ∧ (qname ∉ h.mqmp.msgQueues → qdurable = true →
      { name := qname, durable := qdurable, exclusive := qexclusive, autoDelete := qautoDelete, args := Args.get qargs } ∈
        h'.db.queueTable.getD []) := by
  unfold declareQueue MsgQueueManager.declareQueue at hdecl
  split at hdecl
  · cases hdecl
  · cases hlookup : h.mqmp.msgQueues.lookup qname with
    | some qptr =>
      simp only [hlookup] at hdecl
      cases hdecl
      have hmem := UMap.mem_of_lookup hlookup
      simp [hmem]
    | none =>
      have hmem := AList.lookup_eq_none.mp hlookup
      have hnew : ∀ qptr : MsgQueue, qname ∈ h.mqmp.msgQueues.emplace qname qptr :=
        fun qptr => UMap.mem_emplace.mpr (Or.inl rfl)
      simp only [hlookup] at hdecl
      cases qdurable with
      | false =>
        cases hdecl
        simp [hnew]
      | true =>
        simp only [if_true, MsgQueueMapper.insert, MsgQueue.getArgs] at hdecl
        split at hdecl
        · cases hdecl
          simp [hmem]
        · next hexec =>
          cases hdecl
          have hrow := Db.mem_insertQueue hexec
          simp [hnew, hrow]

/-- The same of `bind`, between an exchange and a queue that exist. -/
theorem bind_flag {ename qname : String} (key : String)
    (hends : ((h.emp.selectExchange ename).isSome && (h.mqmp.selectQueue qname).isSome) = true) :
    (h.bind ename qname key).1 = true ↔ ((h.bind ename qname key).2.bmp.getBinding ename qname).isSome ∧
      (h.bmp.getBinding ename qname = none → (h.emp.selectExchange ename).any (·.durable) = true →
        (h.mqmp.selectQueue qname).any (·.durable) = true →
        ⟨ename, qname, key⟩ ∈ (h.bind ename qname key).2.db.bindingTable.getD []) := by
  rw [Bool.and_eq_true, Option.isSome_iff_exists, Option.isSome_iff_exists] at hends
  rcases hends with ⟨⟨ep, hep⟩, ⟨mqp, hmqp⟩⟩
  simp only [bind, hep, hmqp, BindingManager.bind, Option.any_some]
  by_cases hex : h.bmp.exists? ename qname = true
  · have hsome : (h.bmp.getBinding ename qname).isSome = true := hex
    have hne : h.bmp.getBinding ename qname ≠ none := Option.isSome_iff_ne_none.mp hsome
    simp [hex, hsome, hne]
  · have hget : h.bmp.getBinding ename qname = none := Option.not_isSome_iff_eq_none.mp hex
    have hins : ({ bindings := h.bmp.bindings.insert ename (((h.bmp.bindings.lookup ename).getD ∅).emplace qname
        ⟨ename, qname, key⟩) } : BindingManager).getBinding ename qname = some ⟨ename, qname, key⟩ := by
      rw [getBinding_insert, if_pos ⟨rfl, rfl⟩]
      exact (congrArg (Option.or · _) hget).trans Option.none_or
    simp only [if_neg hex]
    cases hdurable : ep.durable && mqp.durable with
    | false =>
      simp only [Bool.false_eq_true, if_false, hins, Option.isSome_some, true_and, true_iff]
      intro _ hep hmqp
      rw [hep, hmqp] at hdurable
      cases hdurable
    | true =>
      simp only [if_true, BindingMapper.insert]
      split
      · simp [hget]
      · next hexec =>
        have hrow := Db.mem_insertBinding hexec
        simp [hins, hrow]

theorem bind_missing {ename qname : String} (key : String)
    (hends : ((h.emp.selectExchange ename).isSome && (h.mqmp.selectQueue qname).isSome) = false) :
    h.bind ename qname key = (false, h) := by
  unfold bind
  split
  · rfl
  · next hep =>
    split
    · rfl
    · next hmqp =>
      rw [hep, hmqp] at hends
      cases hends

theorem basicAck_gone {qname msgId : String} (hack : h.basicAck pb qname msgId = some h') {q : QueueMessage}
    (hq : h'.mmp.queueMsgs.lookup qname = some q) : msgId ∉ q.waitAckMsgs := by
  unfold basicAck MessageManager.ack at hack
  cases hqmp : h.mmp.queueMsgs.lookup qname with
  | none =>
    simp only [hqmp] at hack
    cases hack
    rw [hqmp] at hq
    cases hq
  | some qmp =>
    simp only [hqmp] at hack
    cases hremove : qmp.remove pb msgId h.disk with
    | none =>
      simp only [hremove] at hack
      cases hack
    | some result =>
      simp only [hremove] at hack
      cases hack
      rw [MessageManager.put, AList.lookup_insert, Option.some.injEq] at hq
      exact hq ▸ QueueMessage.remove_gone hremove

end VirtualHost

/-- After the first of them is removed there is still one. -/
theorem two_le_countP {α : Type} (p : α → Bool) (l : List α) : 2 ≤ l.countP p ↔ (l.eraseP p).any p = true := by
  induction l with
  | nil => simp
  | cons a l ih =>
    by_cases ha : p a = true
    · rw [List.countP_cons_of_pos ha, List.eraseP_cons_of_pos ha, List.any_eq_true, ← List.countP_pos_iff]
      exact Nat.succ_le_succ_iff
    · rw [List.countP_cons_of_neg ha, List.eraseP_cons_of_neg ha, ih, List.any_cons]
      simp [ha]

/-! ### Requests and their effects -/

namespace Broker

/-- The handlers of a channel that answer with a `basicCommonResponse`. `none`: it is another request, or the process
    aborts. -/
def serve (pb : PayloadCodec) (b : Broker) (self : ChannelRef) (uuid : String → String) : Request → Option Broker
  | .declareExchange req => some (b.declareExchange self req)
  | .deleteExchange req => some (b.deleteExchange self req)
  | .declareQueue req => b.declareQueue pb self req
  | .deleteQueue req => some (b.deleteQueue self req)
  | .bind req => some (b.bind self req)
  | .unbind req => some (b.unbind self req)
  | .basicPublish req => some (b.basicPublish pb self req uuid)
  | .basicAck req => b.basicAck pb self req
  | .basicConsume req => some (b.basicConsume self req)
  | .basicCancel req => some (b.basicCancel self req)
  | _ => none

def exchangeRow (req : DeclareExchangeRequest) : ExchangeRow :=
  { name := req.exchangeName, type := req.exchangeType, durable := req.durable, autoDelete := req.autoDelete,
    args := Args.get req.args }

def queueRow (req : DeclareQueueRequest) : QueueRow :=
  { name := req.queueName, durable := req.durable, exclusive := req.exclusive, autoDelete := req.autoDelete,
    args := Args.get req.args }

/-- What a request asks for. A declared object is in memory afterwards, and a new durable one in its table; a removed one
    is in neither. -/
def TookEffect (b b' : Broker) (self : ChannelRef) : Request → Prop
  | .declareExchange req => req.exchangeName ∈ b'.host.emp.exchanges ∧
    (req.exchangeName ∉ b.host.emp.exchanges → req.durable = true →
      exchangeRow req ∈ b'.host.db.exchangeTable.getD [])
  | .deleteExchange req => req.exchangeName ∉ b'.host.emp.exchanges ∧
    ∀ row ∈ b'.host.db.exchangeTable.getD [], row.name ≠ req.exchangeName
  | .declareQueue req => req.queueName ∈ b'.host.mqmp.msgQueues ∧
    (req.queueName ∉ b.host.mqmp.msgQueues → req.durable = true → queueRow req ∈ b'.host.db.queueTable.getD [])
  | .deleteQueue req => req.queueName ∉ b'.host.mqmp.msgQueues ∧
    ∀ row ∈ b'.host.db.queueTable.getD [], row.name ≠ req.queueName
  | .bind req => (b'.host.bmp.getBinding req.exchangeName req.queueName).isSome ∧
    (b.host.bmp.getBinding req.exchangeName req.queueName = none →
      (b.host.emp.selectExchange req.exchangeName).any (·.durable) = true →
      (b.host.mqmp.selectQueue req.queueName).any (·.durable) = true →
      ⟨req.exchangeName, req.queueName, req.bindingKey⟩ ∈ b'.host.db.bindingTable.getD [])
  | .unbind req => b'.host.bmp.getBinding req.exchangeName req.queueName = none ∧
    ∀ row ∈ b'.host.db.bindingTable.getD [], row.joins req.exchangeName req.queueName = false
  | .basicPublish req => ∃ ep, b.host.selectExchange req.exchangeName = some ep ∧
    ∀ qname, b.Routes ep req qname → b.Accepted b' req qname
  | .basicAck req => ∀ q, b'.host.mmp.queueMsgs.lookup req.queueName = some q → req.messageId ∉ q.waitAckMsgs
  | .basicConsume req => ∃ qcp qcp', b.consumers.queueConsumers.lookup req.queueName = some qcp ∧
    b'.consumers.queueConsumers.lookup req.queueName = some qcp' ∧
    qcp'.consumers = qcp.consumers ++ [⟨req.consumerTag, req.queueName, req.autoAck, self⟩]
  | .basicCancel req => ∀ qcp, b'.consumers.queueConsumers.lookup req.queueName = some qcp →
    ∀ c ∈ qcp.consumers, c.tag ≠ req.consumerTag
  | _ => False

/-- There is one new response, and it is positive exactly when the request took effect. -/
def Truthful (b b' : Broker) (self : ChannelRef) (req : Request) : Prop :=
  ∃ conn rid ok, b'.sent = b.sent ++ [(conn, .basicCommonResponse rid req.cid ok)] ∧
    (ok = true ↔ TookEffect b b' self req)

/-- The states in which the response to a request is right. -/
def honest (b : Broker) : Request → Bool
  -- The result of the insertion into the table is not looked at.
  | .declareExchange req =>
    decide (req.exchangeName ∈ b.host.emp.exchanges) || !req.durable || b.host.db.writesExchange (exchangeRow req)
  -- Nor that of the deletion from it, which is the second statement; a row without its exchange is not deleted.
  | .deleteExchange req =>
    !(b.host.db.exchangeTable.getD []).any (·.name = req.exchangeName) ||
      ((b.host.emp.selectExchange req.exchangeName).any (·.durable) && b.host.db.tick.fate = .ok)
  | .deleteQueue req =>
    !(b.host.db.queueTable.getD []).any (·.name = req.queueName) ||
      ((b.host.mqmp.selectQueue req.queueName).any (·.durable) && b.host.db.tick.fate = .ok)
  | .bind req =>
    ((b.host.emp.selectExchange req.exchangeName).isSome && (b.host.mqmp.selectQueue req.queueName).isSome) ||
      !b.host.bmp.exists? req.exchangeName req.queueName
  | .unbind req =>
    !(b.host.db.bindingTable.getD []).any (·.joins req.exchangeName req.queueName) ||
      (b.host.bmp.exists? req.exchangeName req.queueName && b.host.db.fate = .ok)
  | .basicPublish req =>
    match b.host.selectExchange req.exchangeName with
    | none => true
    | some ep => b.accepts req (b.targets ep req)
  -- A tag that is taken is answered like a new subscription.
  | .basicConsume req =>
    !b.host.existsQueue req.queueName ||
      (b.consumers.queueConsumers.lookup req.queueName).any fun qcp => !qcp.consumers.any (·.tag = req.consumerTag)
  -- The answer is negative, which is right only when a second consumer has the tag.
  | .basicCancel req =>
    (b.consumers.queueConsumers.lookup req.queueName).any fun qcp =>
      2 ≤ qcp.consumers.countP (·.tag = req.consumerTag)
  | _ => true

variable {pb : PayloadCodec} {b b' : Broker} {self : ChannelRef}

/-- A response with this flag. -/
theorem truthful_iff {req : Request} {rid : String} {ok : Bool}
    (hsent : b'.sent = b.sent ++ [((b.channels self).conn, .basicCommonResponse rid req.cid ok)]) :
    Truthful b b' self req ↔ (ok = true ↔ TookEffect b b' self req) := by
  constructor
  · rintro ⟨conn, rid', ok', hsent', h⟩
    rw [hsent, List.append_cancel_left_eq] at hsent'
    cases hsent'
    exact h
  · exact fun h => ⟨_, rid, ok, hsent, h⟩

theorem declareExchange_truthful (req : DeclareExchangeRequest) :
    Truthful b (b.declareExchange self req) self (.declareExchange req) ↔ b.honest (.declareExchange req) = true := by
  have hok : (b.host.declareExchange req.exchangeName req.exchangeType req.durable req.autoDelete req.args).1 = true := by
    unfold VirtualHost.declareExchange ExchangeManager.declareExchange
    dsimp only
    split <;> rfl
  have hsent : (b.declareExchange self req).sent =
      b.sent ++ [((b.channels self).conn, .basicCommonResponse req.rid req.cid true)] := by
    rw [← hok]
    rfl
  rw [truthful_iff hsent]
  simp only [true_iff, TookEffect, honest]
  unfold declareExchange VirtualHost.declareExchange ExchangeManager.declareExchange
  cases hlookup : b.host.emp.exchanges.lookup req.exchangeName with
  | some exp =>
    have hmem := UMap.mem_of_lookup hlookup
    simp [basicResponse, send, hmem]
  | none =>
    have hmem := AList.lookup_eq_none.mp hlookup
    have hnew : ∀ exp : Exchange, req.exchangeName ∈ b.host.emp.exchanges.emplace req.exchangeName exp :=
      fun exp => UMap.mem_emplace.mpr (Or.inl rfl)
    cases hdurable : req.durable with
    | false => simp [basicResponse, send, hnew]
    | true =>
      simp only [basicResponse, send, hnew, hmem, true_and, if_true, not_false_eq_true, forall_const, Bool.not_true,
        Bool.or_false, decide_false, Bool.false_or]
      exact hdurable ▸ Db.mem_insertExchange b.host.db (exchangeRow req)

theorem deleteExchange_truthful (req : DeleteExchangeRequest) :
    Truthful b (b.deleteExchange self req) self (.deleteExchange req) ↔ b.honest (.deleteExchange req) = true := by
  have hsent : (b.deleteExchange self req).sent =
      b.sent ++ [((b.channels self).conn, .basicCommonResponse req.rid req.cid true)] := rfl
  rw [truthful_iff hsent]
  have hunbound := Db.exec_deleteBindings_tables b.host.db fun row => row.exchangeName = req.exchangeName
  simp only [true_iff, TookEffect, honest, deleteExchange, basicResponse, send, VirtualHost.deleteExchange,
    ExchangeManager.deleteExchange, ExchangeManager.selectExchange, BindingManager.unbindExchange]
  cases hlookup : b.host.emp.exchanges.lookup req.exchangeName with
  | none =>
    have hmem := AList.lookup_eq_none.mp hlookup
    simp [hmem, BindingMapper.removeExchange, hunbound.1]
  | some exp =>
    have hfate : (b.host.db.exec (Db.deleteBindings fun row => row.exchangeName = req.exchangeName)).2.fate =
        b.host.db.tick.fate := by
      rw [Db.fate, hunbound.2.2]
      rfl
    have hmem : req.exchangeName ∉ b.host.emp.exchanges.erase req.exchangeName := by simp [AList.mem_erase]
    cases hdurable : exp.durable with
    | false => simp [hmem, hdurable, BindingMapper.removeExchange, hunbound.1]
    | true =>
      have hrows := Db.not_mem_deleteExchanges
        (b.host.db.exec (Db.deleteBindings fun row => row.exchangeName = req.exchangeName)).2 req.exchangeName
      rw [hunbound.1, hfate] at hrows
      simp [hmem, hdurable, BindingMapper.removeExchange, ExchangeMapper.remove, hrows]

theorem declareQueue_truthful (req : DeclareQueueRequest) (hserve : b.declareQueue pb self req = some b') :
    Truthful b b' self (.declareQueue req) ↔ b.honest (.declareQueue req) = true := by
  refine iff_of_true ?_ rfl
  unfold declareQueue at hserve
  cases hhost : b.host.declareQueue pb req.queueName req.durable req.exclusive req.autoDelete req.args with
  | none =>
    rw [hhost] at hserve
    cases hserve
  | some result =>
    rcases result with ⟨ok, host⟩
    have hflag := VirtualHost.declareQueue_flag hhost
    rw [hhost] at hserve
    cases ok with
    | false =>
      cases hserve
      exact (truthful_iff rfl).mpr hflag
    | true =>
      cases hserve
      exact (truthful_iff rfl).mpr hflag

theorem deleteQueue_truthful (req : DeleteQueueRequest) :
    Truthful b (b.deleteQueue self req) self (.deleteQueue req) ↔ b.honest (.deleteQueue req) = true := by
  have hsent : (b.deleteQueue self req).sent =
      b.sent ++ [((b.channels self).conn, .basicCommonResponse req.rid req.cid true)] := rfl
  rw [truthful_iff hsent]
  have hunbound := Db.exec_deleteBindings_tables b.host.db fun row => row.msgQueueName = req.queueName
  simp only [true_iff, TookEffect, honest, deleteQueue, basicResponse, send, VirtualHost.deleteQueue,
    MsgQueueManager.deleteQueue, MsgQueueManager.selectQueue, BindingManager.unbindQueue]
  cases hlookup : b.host.mqmp.msgQueues.lookup req.queueName with
  | none =>
    have hmem := AList.lookup_eq_none.mp hlookup
    simp [hmem, BindingMapper.removeQueue, hunbound.2.1]
  | some qptr =>
    have hfate : (b.host.db.exec (Db.deleteBindings fun row => row.msgQueueName = req.queueName)).2.fate =
        b.host.db.tick.fate := by
      rw [Db.fate, hunbound.2.2]
      rfl
    have hmem : req.queueName ∉ b.host.mqmp.msgQueues.erase req.queueName := by simp [AList.mem_erase]
    cases hdurable : qptr.durable with
    | false => simp [hmem, hdurable, BindingMapper.removeQueue, hunbound.2.1]
    | true =>
      have hrows := Db.not_mem_deleteQueues
        (b.host.db.exec (Db.deleteBindings fun row => row.msgQueueName = req.queueName)).2 req.queueName
      rw [hunbound.2.1, hfate] at hrows
      simp [hmem, hdurable, BindingMapper.removeQueue, MsgQueueMapper.remove, hrows]

theorem bind_truthful (req : BindRequest) :
    Truthful b (b.bind self req) self (.bind req) ↔ b.honest (.bind req) = true := by
  have hsent : (b.bind self req).sent = b.sent ++ [((b.channels self).conn,
      .basicCommonResponse req.rid req.cid (b.host.bind req.exchangeName req.queueName req.bindingKey).1)] := rfl
  rw [truthful_iff hsent]
  have hexists : b.host.bmp.exists? req.exchangeName req.queueName =
      (b.host.bmp.getBinding req.exchangeName req.queueName).isSome := rfl
  cases hends : (b.host.emp.selectExchange req.exchangeName).isSome &&
      (b.host.mqmp.selectQueue req.queueName).isSome with
  | true =>
    have hflag := VirtualHost.bind_flag req.bindingKey hends
    simp only [honest, hends, Bool.true_or, iff_true]
    exact hflag
  | false =>
    have hmissing := VirtualHost.bind_missing req.bindingKey hends
    simp only [bind, hmissing, TookEffect, honest, hends, hexists, Bool.false_or, basicResponse, send,
      Bool.false_eq_true, false_iff]
    cases b.host.bmp.getBinding req.exchangeName req.queueName <;> simp

theorem unbind_truthful (req : UnbindRequest) :
    Truthful b (b.unbind self req) self (.unbind req) ↔ b.honest (.unbind req) = true := by
  have hsent : (b.unbind self req).sent =
      b.sent ++ [((b.channels self).conn, .basicCommonResponse req.rid req.cid true)] := rfl
  rw [truthful_iff hsent]
  simp only [true_iff, TookEffect, honest, unbind, basicResponse, send, VirtualHost.unbind, BindingManager.unbind,
    BindingManager.exists?]
  cases hqbmap : b.host.bmp.bindings.lookup req.exchangeName with
  | none =>
    have hnone : b.host.bmp.getBinding req.exchangeName req.queueName = none := by
      rw [BindingManager.getBinding, hqbmap, Option.bind_none]
    simp [hnone]
  | some qbmap =>
    have hget : b.host.bmp.getBinding req.exchangeName req.queueName = qbmap.lookup req.queueName := by
      rw [BindingManager.getBinding, hqbmap, Option.bind_some]
    rw [hget]
    by_cases hmem : req.queueName ∈ qbmap
    · have hsome : (qbmap.lookup req.queueName).isSome = true := AList.lookup_isSome.mpr hmem
      have hrows := Db.not_mem_deleteBindings b.host.db fun row =>
        row.exchangeName = req.exchangeName && row.msgQueueName = req.queueName
      have hgone : ({ bindings := b.host.bmp.bindings.insert req.exchangeName (qbmap.erase req.queueName) } :
          BindingManager).getBinding req.exchangeName req.queueName = none := by
        rw [BindingManager.getBinding, AList.lookup_insert, Option.bind_some, AList.lookup_erase]
      simp only [hmem, if_true, hsome, Bool.true_and, Bool.or_eq_true, Bool.not_eq_true', decide_eq_true_eq]
      exact (and_iff_right hgone).trans hrows
    · have hnone := AList.lookup_eq_none.mpr hmem
      simp [hmem, hget, hnone]

theorem basicPublish_truthful (req : BasicPublishRequest) (uuid : String → String) :
    Truthful b (b.basicPublish pb self req uuid) self (.basicPublish req) ↔ b.honest (.basicPublish req) = true := by
  rw [truthful_iff (basicPublish_sent pb b self req uuid)]
  cases hep : b.host.selectExchange req.exchangeName with
  | none => simp [TookEffect, honest, hep]
  | some ep =>
    have hloop := (foldl_publishTo_accepts pb self uuid req (b.targets ep req) b (nodup_targets b ep req)).2
    simp only [TookEffect, honest, basicPublish, hep, Option.isSome_some, true_iff, Option.some.injEq, exists_eq_left']
    rw [← hloop]
    exact forall_congr' fun qname => by rw [mem_targets]; rfl

theorem basicAck_truthful (req : BasicAckRequest) (hserve : b.basicAck pb self req = some b') :
    Truthful b b' self (.basicAck req) ↔ b.honest (.basicAck req) = true := by
  refine iff_of_true ?_ rfl
  unfold basicAck at hserve
  cases hack : b.host.basicAck pb req.queueName req.messageId with
  | none =>
    rw [hack] at hserve
    cases hserve
  | some host =>
    rw [hack] at hserve
    cases hserve
    rw [truthful_iff rfl]
    simp only [true_iff, TookEffect, basicResponse, send]
    exact fun q hq => VirtualHost.basicAck_gone hack hq

theorem basicConsume_truthful (req : BasicConsumeRequest) :
    Truthful b (b.basicConsume self req) self (.basicConsume req) ↔ b.honest (.basicConsume req) = true := by
  have hsent : (b.basicConsume self req).sent =
      b.sent ++ [((b.channels self).conn, .basicCommonResponse req.rid req.cid (b.host.existsQueue req.queueName))] := by
    unfold basicConsume
    split
    · next hqueue =>
      rw [hqueue]
      simp [basicResponse, send]
    · next hqueue =>
      rw [Bool.not_eq_true] at hqueue
      rw [hqueue]
      rfl
  rw [truthful_iff hsent]
  cases hqueue : b.host.existsQueue req.queueName with
  | false =>
    simp only [honest, hqueue, Bool.not_false, Bool.true_or, iff_true, Bool.false_eq_true, if_false, false_iff, TookEffect,
      basicConsume, basicResponse, send]
    rintro ⟨qcp, qcp', hq, hq', hnew⟩
    rw [hq] at hq'
    cases hq'
    simp at hnew
  | true =>
    simp only [if_true, true_iff, TookEffect, basicConsume, basicResponse, send, honest, hqueue, Bool.not_true,
      Bool.false_or, ConsumerManager.create]
    cases hqcp : b.consumers.queueConsumers.lookup req.queueName with
    | none => simp
    | some qcp =>
      unfold QueueConsumer.create
      cases htag : qcp.consumers.any (·.tag = req.consumerTag) with
      | true => simp [AList.lookup_insert, htag]
      | false => simp [AList.lookup_insert, htag]

theorem basicCancel_truthful (req : BasicCancelRequest) :
    Truthful b (b.basicCancel self req) self (.basicCancel req) ↔ b.honest (.basicCancel req) = true := by
  have hsent : (b.basicCancel self req).sent =
      b.sent ++ [((b.channels self).conn, .basicCommonResponse req.rid req.cid false)] := rfl
  rw [truthful_iff hsent]
  simp only [Bool.false_eq_true, false_iff, TookEffect, basicCancel, basicResponse, send, honest, ConsumerManager.remove]
  cases hqcp : b.consumers.queueConsumers.lookup req.queueName with
  | none => simp [hqcp]
  | some qcp =>
    simp only [AList.lookup_insert, Option.some.injEq, forall_eq', Option.any_some, decide_eq_true_eq]
    rw [two_le_countP, List.any_eq_true]
    simp [QueueConsumer.remove]

/-- A response tells the truth exactly in the honest states. -/
theorem serve_truthful_iff {uuid : String → String} {req : Request} (hserve : b.serve pb self uuid req = some b') :
    Truthful b b' self req ↔ b.honest req = true := by
  cases req with
  | openChannel req => cases hserve
  | closeChannel req => cases hserve
  | basicQuery req => cases hserve
  | declareExchange req => cases hserve; exact declareExchange_truthful req
  | deleteExchange req => cases hserve; exact deleteExchange_truthful req
  | declareQueue req => exact declareQueue_truthful req hserve
  | deleteQueue req => cases hserve; exact deleteQueue_truthful req
  | bind req => cases hserve; exact bind_truthful req
  | unbind req => cases hserve; exact unbind_truthful req
  | basicPublish req => cases hserve; exact basicPublish_truthful req uuid
  | basicAck req => exact basicAck_truthful req hserve
  | basicConsume req => cases hserve; exact basicConsume_truthful req
  | basicCancel req => cases hserve; exact basicCancel_truthful req

end Broker

namespace Sys

/-- The first subscription under a tag. -/
theorem serve_truthful_iff_first : ∃ (s : Sys) (b' : Broker), s.Reachable protobuf ∧
    s.broker.serve protobuf 0 id (.basicConsume ⟨"3", "a", "t", "q", true⟩) = some b' ∧
    s.broker.Truthful b' 0 (.basicConsume ⟨"3", "a", "t", "q", true⟩) := by
  have hrun : (boot protobuf "data" Store.vacant {}).any (fun s₀ => (s₀.run protobuf opened).any fun s =>
      s.broker.honest (.basicConsume ⟨"3", "a", "t", "q", true⟩)) = true := by
    decide +kernel
  rcases (Option.any_eq_true _ _).mp hrun with ⟨s₀, hboot, hs₀⟩
  rcases (Option.any_eq_true _ _).mp hs₀ with ⟨s, hs, hhonest⟩
  have hserve : s.broker.serve protobuf 0 id (.basicConsume ⟨"3", "a", "t", "q", true⟩) =
      some (s.broker.basicConsume 0 ⟨"3", "a", "t", "q", true⟩) := rfl
  exact ⟨s, _, ⟨"data", Store.vacant, s₀, opened, hboot, hs⟩, hserve, (Broker.serve_truthful_iff hserve).mpr hhonest⟩

/-- After it, a second one under the tag is answered like the first, and the cancellation as if it had failed. -/
theorem serve_untruthful : ∃ (s : Sys) (b₁ b₂ : Broker), s.Reachable protobuf ∧
    s.broker.serve protobuf 0 id (.basicConsume ⟨"4", "a", "t", "q", false⟩) = some b₁ ∧
    b₁.sent = s.broker.sent ++ [(1, .basicCommonResponse "4" "a" true)] ∧ b₁.consumers.roster = s.broker.consumers.roster ∧
    ¬s.broker.Truthful b₁ 0 (.basicConsume ⟨"4", "a", "t", "q", false⟩) ∧
    s.broker.serve protobuf 0 id (.basicCancel ⟨"5", "a", "t", "q"⟩) = some b₂ ∧
    b₂.sent = s.broker.sent ++ [(1, .basicCommonResponse "5" "a" false)] ∧
    s.broker.consumers.roster = [⟨"t", "q", true, 0⟩] ∧ b₂.consumers.roster = [] ∧
    ¬s.broker.Truthful b₂ 0 (.basicCancel ⟨"5", "a", "t", "q"⟩) := by
  have hrun : (boot protobuf "data" Store.vacant {}).any (fun s₀ =>
      (s₀.run protobuf (opened ++ [.request 1 (.basicConsume ⟨"3", "a", "t", "q", true⟩)])).any fun s =>
        decide ((s.broker.basicConsume 0 ⟨"4", "a", "t", "q", false⟩).sent =
          s.broker.sent ++ [(1, .basicCommonResponse "4" "a" true)]) &&
        decide ((s.broker.basicConsume 0 ⟨"4", "a", "t", "q", false⟩).consumers.roster = s.broker.consumers.roster) &&
        decide ((s.broker.basicCancel 0 ⟨"5", "a", "t", "q"⟩).sent =
          s.broker.sent ++ [(1, .basicCommonResponse "5" "a" false)]) &&
        decide (s.broker.consumers.roster = [⟨"t", "q", true, 0⟩]) &&
        (s.broker.basicCancel 0 ⟨"5", "a", "t", "q"⟩).consumers.roster.isEmpty) = true := by
    decide +kernel
  rcases (Option.any_eq_true _ _).mp hrun with ⟨s₀, hboot, hs₀⟩
  rcases (Option.any_eq_true _ _).mp hs₀ with ⟨s, hs, hend⟩
  simp only [Bool.and_eq_true, decide_eq_true_eq, List.isEmpty_iff] at hend
  rcases hend with ⟨⟨⟨⟨hsent₁, hsame⟩, hsent₂⟩, hbefore⟩, hafter⟩
  refine ⟨s, _, _, ⟨"data", Store.vacant, s₀, _, hboot, hs⟩, rfl, hsent₁, hsame, ?_, rfl, hsent₂, hbefore, hafter, ?_⟩
  · rintro ⟨conn, rid, ok, hsent, htook⟩
    rw [hsent₁, List.append_cancel_left_eq] at hsent
    cases hsent
    rcases htook.mp rfl with ⟨qcp, qcp', hq, hq', hnew⟩
    -- A new consumer would be in the roster, which is unchanged.
    have hmem := ConsumerManager.mem_roster.mpr ⟨"q", qcp', hq', hnew ▸ List.mem_append_right _ (List.mem_singleton_self _)⟩
    rw [hsame, hbefore] at hmem
    cases List.mem_singleton.mp hmem
  · rintro ⟨conn, rid, ok, hsent, htook⟩
    rw [hsent₂, List.append_cancel_left_eq] at hsent
    cases hsent
    refine absurd (htook.mpr fun qcp hq c hc => ?_) (by decide)
    have hmem := ConsumerManager.mem_roster.mpr ⟨"q", qcp, hq, hc⟩
    rw [hafter] at hmem
    cases hmem

end Sys
end HareMQ
