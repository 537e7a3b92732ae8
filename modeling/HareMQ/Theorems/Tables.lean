import HareMQ.Lib.Catalog
import HareMQ.VirtualHost

/-! # Metadata as a catalog

The exchanges, queues and bindings of a virtual host are a catalog, and so are the rows of its tables. The statements
of the mappers are operations on the second. -/

namespace HareMQ
open Lib

/-! ### The two catalogs -/

inductive Name
  | exchange (name : String)
  | queue (name : String)
deriving DecidableEq

/-- An exchange or a queue with its flags. -/
inductive Info
  | exchange (name : String) (type : ExchangeType) (durable autoDelete : Bool)
  | queue (name : String) (durable exclusive autoDelete : Bool)
deriving DecidableEq

def Info.durable : Info → Bool
  | .exchange _ _ durable _ => durable
  | .queue _ durable _ _ => durable

abbrev Metadata := Catalog Name Info Binding

def Exchange.info (e : Exchange) : Info := .exchange e.name e.type e.durable e.autoDelete

def MsgQueue.info (q : MsgQueue) : Info := .queue q.name q.durable q.exclusive q.autoDelete

def ExchangeRow.info (row : ExchangeRow) : Info := .exchange row.name row.type row.durable row.autoDelete

def QueueRow.info (row : QueueRow) : Info := .queue row.name row.durable row.exclusive row.autoDelete

def BindingRow.binding (row : BindingRow) : Binding where
  exchangeName := row.exchangeName
  msgQueueName := row.msgQueueName
  bindingKey := row.bindingKey

/-- The row is about this exchange and this queue. -/
def BindingRow.joins (ename qname : String) (row : BindingRow) : Bool :=
  row.exchangeName = ename && row.msgQueueName = qname

def VirtualHost.catalog (h : VirtualHost) : Metadata where
  objects
    | .exchange name => (h.selectExchange name).map Exchange.info
    | .queue name => (h.mqmp.selectQueue name).map MsgQueue.info
  links
    | .exchange ename, .queue qname => h.bmp.getBinding ename qname
    | _, _ => none

def Db.catalog (db : Db) : Metadata where
  objects
    | .exchange name => ((db.exchangeTable.getD []).find? (·.name = name)).map ExchangeRow.info
    | .queue name => ((db.queueTable.getD []).find? (·.name = name)).map QueueRow.info
  links
    | .exchange ename, .queue qname => ((db.bindingTable.getD []).find? (·.joins ename qname)).map BindingRow.binding
    | _, _ => none

theorem metadata_ext {c c' : Metadata} (he : ∀ name, c.objects (.exchange name) = c'.objects (.exchange name))
    (hq : ∀ name, c.objects (.queue name) = c'.objects (.queue name)) (hl : ∀ i j, c.links i j = c'.links i j) :
    c = c' :=
  Catalog.ext (fun | .exchange name => he name | .queue name => hq name) hl

/-- An empty database holds what a restart keeps of nothing. -/
theorem vacant_catalog : ({} : Db).catalog = ({} : Metadata).restart Info.durable :=
  metadata_ext (fun _ => rfl) (fun _ => rfl) fun i j => by cases i <;> cases j <;> rfl

/-- What an operation does to the metadata. -/
def HostOp.effect (c : Metadata) : HostOp → Metadata
  | .declareExchange name type durable autoDelete _ => c.declare (.exchange name) (.exchange name type durable autoDelete)
  | .deleteExchange name => c.delete (.exchange name)
  | .declareQueue qname qdurable qexclusive qautoDelete _ =>
    c.declare (.queue qname) (.queue qname qdurable qexclusive qautoDelete)
  | .deleteQueue name => c.delete (.queue name)
  | .bind ename qname key =>
    c.link (.exchange ename) (.queue qname) { exchangeName := ename, msgQueueName := qname, bindingKey := key }
  | .unbind ename qname => c.unlink (.exchange ename) (.queue qname)
  | .restart => c.restart Info.durable

/-! ### Statements on tables -/

/-- A filter whose outcome is the same for all rows that a search accepts. -/
theorem find?_filter_of_const {α : Type} {p q : α → Bool} {b : Bool} (h : ∀ a, q a = true → p a = b) (xs : List α) :
    (xs.filter p).find? q = if b = true then xs.find? q else none := by
  rw [List.find?_filter]
  cases b with
  | false =>
    rw [if_neg (by decide), List.find?_eq_none]
    intro a _ ha
    rw [decide_eq_true_eq] at ha
    rw [h a ha.2] at ha
    cases ha.1
  | true =>
    rw [if_pos rfl]
    congr 1
    funext a
    cases hq : q a with
    | false => simp
    | true => simp [h a hq]

namespace Db
variable {db : Db}

theorem Calm.fate (h : db.Calm) : db.fate = .ok := by
  unfold Db.fate
  rw [h]
  rfl

theorem Calm.tick (h : db.Calm) : db.tick = db := by
  cases db
  cases h
  rfl

theorem Calm.exec_some (h : db.Calm) {statement : Db → Option Db} {db' : Db} (hs : statement db = some db') :
    db.exec statement = (true, db') := by
  simp only [Db.exec, h.fate, h.tick, hs]

theorem Calm.exec_none (h : db.Calm) {statement : Db → Option Db} (hs : statement db = none) :
    db.exec statement = (false, db) := by
  simp only [Db.exec, h.fate, h.tick, hs]

theorem Calm.query {ρ : Type} (h : db.Calm) (table : Db → Option (List ρ)) : db.query table = ((table db).getD [], db) := by
  rw [Db.query, h.fate, h.tick]

/-- Every statement succeeds, and the three tables exist. -/
structure Ready (db : Db) : Prop where
  calm : db.Calm
  exchanges : db.exchangeTable.isSome
  queues : db.queueTable.isSome
  bindings : db.bindingTable.isSome

/-- The name is free: one more row. It is taken: the statement fails. -/
theorem exec_insertExchange (h : db.Ready) (row : ExchangeRow) : ∃ ok db', db.exec (insertExchange row) = (ok, db') ∧
    db'.Ready ∧ db'.catalog = db.catalog.declare (.exchange row.name) row.info := by
  obtain ⟨rows, hrows⟩ := Option.isSome_iff_exists.mp h.exchanges
  by_cases hany : rows.any (·.name = row.name) = true
  · refine ⟨false, db, h.calm.exec_none (by simp only [insertExchange, hrows, hany, if_true]), h,
      (Catalog.declare_of_isSome ?_ _).symm⟩
    rw [List.any_eq_true] at hany
    simpa [catalog, hrows, List.find?_isSome] using hany
  · refine ⟨true, { db with exchangeTable := some (rows ++ [row]) },
      h.calm.exec_some (by simp only [insertExchange, hrows, hany, Bool.false_eq_true, if_false]),
      ⟨h.calm, rfl, h.queues, h.bindings⟩, ?_⟩
    refine metadata_ext (fun name => ?_) (fun name => ?_) fun i j => rfl
    · simp only [catalog, Catalog.declare, hrows, Option.getD_some, List.find?_append, List.find?_singleton,
        Function.update_apply, Name.exchange.injEq]
      by_cases hname : name = row.name
      · subst hname
        simp
      · simp [hname, Ne.symm hname]
    · rfl

theorem exec_insertQueue (h : db.Ready) (row : QueueRow) : ∃ ok db', db.exec (insertQueue row) = (ok, db') ∧
    db'.Ready ∧ db'.catalog = db.catalog.declare (.queue row.name) row.info ∧
    (db.catalog.objects (.queue row.name) = none → ok = true) := by
  obtain ⟨rows, hrows⟩ := Option.isSome_iff_exists.mp h.queues
  by_cases hany : rows.any (·.name = row.name) = true
  · have hsome : (db.catalog.objects (.queue row.name)).isSome := by
      rw [List.any_eq_true] at hany
      simpa [catalog, hrows, List.find?_isSome] using hany
    refine ⟨false, db, h.calm.exec_none (by simp only [insertQueue, hrows, hany, if_true]), h,
      (Catalog.declare_of_isSome hsome _).symm, fun hnone => ?_⟩
    rw [hnone] at hsome
    cases hsome
  · refine ⟨true, { db with queueTable := some (rows ++ [row]) },
      h.calm.exec_some (by simp only [insertQueue, hrows, hany, Bool.false_eq_true, if_false]),
      ⟨h.calm, h.exchanges, rfl, h.bindings⟩, ?_, fun _ => rfl⟩
    refine metadata_ext (fun name => ?_) (fun name => ?_) fun i j => rfl
    · rfl
    · simp only [catalog, Catalog.declare, hrows, Option.getD_some, List.find?_append, List.find?_singleton,
        Function.update_apply, Name.queue.injEq]
      by_cases hname : name = row.name
      · subst hname
        simp
      · simp [hname, Ne.symm hname]

theorem joins_iff {ename qname : String} {row : BindingRow} :
    row.joins ename qname = true ↔ row.exchangeName = ename ∧ row.msgQueueName = qname := by
  simp [BindingRow.joins]

theorem exec_insertBinding (h : db.Ready) (row : BindingRow)
    (he : (db.catalog.objects (.exchange row.exchangeName)).isSome)
    (hq : (db.catalog.objects (.queue row.msgQueueName)).isSome) : ∃ db', db.exec (insertBinding row) = (true, db') ∧
    db'.Ready ∧ db'.catalog = db.catalog.link (.exchange row.exchangeName) (.queue row.msgQueueName) row.binding := by
  obtain ⟨rows, hrows⟩ := Option.isSome_iff_exists.mp h.bindings
  refine ⟨{ db with bindingTable := some (rows ++ [row]) }, h.calm.exec_some (by simp only [insertBinding, hrows]),
    ⟨h.calm, h.exchanges, h.queues, rfl⟩, metadata_ext (fun name => rfl) (fun name => rfl) fun i j => ?_⟩
  simp only [Catalog.link, he, hq, and_self, and_true]
  cases i with
  | queue => simp [catalog]
  | exchange ename =>
    cases j with
    | exchange => simp [catalog]
    | queue qname =>
      simp only [catalog, hrows, Option.getD_some, List.find?_append, List.find?_singleton, joins_iff,
        Name.exchange.injEq, Name.queue.injEq]
      by_cases hij : ename = row.exchangeName ∧ qname = row.msgQueueName
      · rw [if_pos ⟨hij.1.symm, hij.2.symm⟩, if_pos hij, Option.map_or, Option.map_some]
      · rw [if_neg fun hr => hij ⟨hr.1.symm, hr.2.symm⟩, if_neg hij, Option.or_none]

/-- The rows of one name, found by another name or by this one. -/
theorem find?_filter_name {ρ : Type} (key : ρ → String) (name name' : String) (rows : List ρ) :
    (rows.filter (key · ≠ name)).find? (key · = name') = if name' = name then none else rows.find? (key · = name') := by
  rw [find?_filter_of_const (b := decide (name' ≠ name)) fun row hrow => by rw [of_decide_eq_true hrow]]
  by_cases hname : name' = name <;> simp [hname]

theorem exec_deleteExchanges (h : db.Ready) (name : String) : (db.exec (deleteExchanges name)).2.Ready ∧
    (db.exec (deleteExchanges name)).2.catalog.objects = Function.update db.catalog.objects (.exchange name) none ∧
    (db.exec (deleteExchanges name)).2.catalog.links = db.catalog.links := by
  obtain ⟨rows, hrows⟩ := Option.isSome_iff_exists.mp h.exchanges
  have hstatement : deleteExchanges name db = some { db with exchangeTable := some (rows.filter (·.name ≠ name)) } := by
    rw [deleteExchanges, hrows, Option.map_some]
  rw [h.calm.exec_some hstatement]
  refine ⟨⟨h.calm, rfl, h.queues, h.bindings⟩, funext fun i => ?_, rfl⟩
  cases i with
  | queue => simp [catalog]
  | exchange name' =>
    simp only [catalog, hrows, Option.getD_some, find?_filter_name, Function.update_apply, Name.exchange.injEq]
    split <;> rfl

theorem exec_deleteQueues (h : db.Ready) (name : String) : (db.exec (deleteQueues name)).2.Ready ∧
    (db.exec (deleteQueues name)).2.catalog.objects = Function.update db.catalog.objects (.queue name) none ∧
    (db.exec (deleteQueues name)).2.catalog.links = db.catalog.links := by
  obtain ⟨rows, hrows⟩ := Option.isSome_iff_exists.mp h.queues
  have hstatement : deleteQueues name db = some { db with queueTable := some (rows.filter (·.name ≠ name)) } := by
    rw [deleteQueues, hrows, Option.map_some]
  rw [h.calm.exec_some hstatement]
  refine ⟨⟨h.calm, h.exchanges, rfl, h.bindings⟩, funext fun i => ?_, rfl⟩
  cases i with
  | exchange => simp [catalog]
  | queue name' =>
    simp only [catalog, hrows, Option.getD_some, find?_filter_name, Function.update_apply, Name.queue.injEq]
    split <;> rfl

/-- The clause is decided by the exchange and the queue of a row. -/
theorem exec_deleteBindings (h : db.Ready) (clause : BindingRow → Bool) (hit : Name → Name → Prop) [DecidableRel hit]
    (hclause : ∀ row : BindingRow, clause row = true ↔ hit (.exchange row.exchangeName) (.queue row.msgQueueName)) :
    (db.exec (deleteBindings clause)).2.Ready ∧
      (db.exec (deleteBindings clause)).2.catalog.objects = db.catalog.objects ∧
      ∀ i j, (db.exec (deleteBindings clause)).2.catalog.links i j = if hit i j then none else db.catalog.links i j := by
  obtain ⟨rows, hrows⟩ := Option.isSome_iff_exists.mp h.bindings
  have hstatement : deleteBindings clause db = some { db with bindingTable := some (rows.filter fun row => !clause row) } := by
    rw [deleteBindings, hrows, Option.map_some]
  rw [h.calm.exec_some hstatement]
  refine ⟨⟨h.calm, h.exchanges, h.queues, rfl⟩, rfl, fun i j => ?_⟩
  cases i with
  | queue => simp [catalog]
  | exchange ename =>
    cases j with
    | exchange => simp [catalog]
    | queue qname =>
      simp only [catalog, hrows, Option.getD_some]
      rw [find?_filter_of_const (b := !decide (hit (.exchange ename) (.queue qname))) fun row hrow => by
        obtain ⟨rfl, rfl⟩ := joins_iff.mp hrow
        rw [← Bool.decide_coe (clause row), decide_eq_decide.mpr (hclause row)]]
      by_cases hh : hit (.exchange ename) (.queue qname) <;> simp [hh]

end Db

end HareMQ
