import HareMQ.Theorems.Integrity
import HareMQ.Theorems.Truth

/-! # Declarations when statements fail

`declare_exchange`, `declare_queue` and `bind` change memory, the tables and the files in several steps. What their
results say then, and what a restart finds after them. -/

namespace HareMQ
open Lib

/-! ### Rows -/

namespace Db
variable {db db' : Db} {gone : Name → Prop}

theorem exec_cases (db : Db) (statement : Db → Option Db) :
    db.exec statement = (false, db.tick) ∨ ∃ db', statement db.tick = some db' ∧ db.exec statement = (true, db') := by
  unfold exec
  split
  · exact Or.inl rfl
  · cases hs : statement db.tick with
    | none => exact Or.inl rfl
    | some db' => exact Or.inr ⟨db', rfl, rfl⟩

/-- An exchange or a queue of this name has a row. -/
def HasRow (db : Db) : Name → Prop
  | .exchange name => ∃ row ∈ db.exchangeTable.getD [], row.name = name
  | .queue name => ∃ row ∈ db.queueTable.getD [], row.name = name

/-- The rows of exchanges and queues are kept but for those of some names, and no binding row is new. -/
structure Trims (gone : Name → Prop) (db db' : Db) : Prop where
  kept : ∀ i, ¬gone i → db.HasRow i → db'.HasRow i
  rows : Shrinks db db'

theorem Trims.refl (gone : Name → Prop) (db : Db) : Trims gone db db := ⟨fun _ _ h => h, Shrinks.refl db⟩

theorem Trims.exec {statement : Db → Option Db} (hs : ∀ db db', statement db = some db' → Trims gone db db') :
    Trims gone db (db.exec statement).2 := by
  obtain h | ⟨db', hdb', h⟩ := db.exec_cases statement
  · rw [h]
    exact ⟨fun _ _ hrow => hrow, Shrinks.refl db⟩
  · rw [h]
    obtain ⟨hkept, hrows⟩ := hs db.tick db' hdb'
    exact ⟨hkept, hrows⟩

theorem trims_insertExchange (row : ExchangeRow) (h : insertExchange row db = some db') : Trims gone db db' := by
  refine ⟨fun i _ hi => ?_, shrinks_insertExchange row h⟩
  rw [insertExchange] at h
  split at h
  · cases h
  · next rows hrows =>
    split at h
    · cases h
    · cases h
      cases i with
      | exchange name =>
        obtain ⟨row', hmem, hname⟩ := hi
        rw [hrows] at hmem
        exact ⟨row', List.mem_append_left _ hmem, hname⟩
      | queue name => exact hi

theorem trims_insertQueue (row : QueueRow) (h : insertQueue row db = some db') : Trims gone db db' := by
  refine ⟨fun i _ hi => ?_, shrinks_insertQueue row h⟩
  rw [insertQueue] at h
  split at h
  · cases h
  · next rows hrows =>
    split at h
    · cases h
    · cases h
      cases i with
      | exchange name => exact hi
      | queue name =>
        obtain ⟨row', hmem, hname⟩ := hi
        rw [hrows] at hmem
        exact ⟨row', List.mem_append_left _ hmem, hname⟩

theorem trims_deleteExchanges (name : String) (h : deleteExchanges name db = some db') :
    Trims (· = .exchange name) db db' := by
  refine ⟨fun i hne hi => ?_, shrinks_deleteExchanges name h⟩
  obtain ⟨rows, hrows, rfl⟩ := Option.map_eq_some_iff.mp h
  cases i with
  | exchange name' =>
    obtain ⟨row, hmem, rfl⟩ := hi
    rw [hrows] at hmem
    refine ⟨row, List.mem_filter.mpr ⟨hmem, ?_⟩, rfl⟩
    simpa using hne
  | queue name' => exact hi

theorem trims_deleteQueues (name : String) (h : deleteQueues name db = some db') : Trims (· = .queue name) db db' := by
  refine ⟨fun i hne hi => ?_, shrinks_deleteQueues name h⟩
  obtain ⟨rows, hrows, rfl⟩ := Option.map_eq_some_iff.mp h
  cases i with
  | exchange name' => exact hi
  | queue name' =>
    obtain ⟨row, hmem, rfl⟩ := hi
    rw [hrows] at hmem
    refine ⟨row, List.mem_filter.mpr ⟨hmem, ?_⟩, rfl⟩
    simpa using hne

theorem trims_deleteBindings (clause : BindingRow → Bool) (h : deleteBindings clause db = some db') : Trims gone db db' := by
  refine ⟨fun i _ hi => ?_, shrinks_deleteBindings clause h⟩
  obtain ⟨rows, hrows, rfl⟩ := Option.map_eq_some_iff.mp h
  cases i with
  | exchange name => exact hi
  | queue name => exact hi

theorem Referenced.of_trims (h : db.Referenced) (ht : Trims gone db db')
    (hfree : ∀ row ∈ db'.rows, ¬gone (.exchange row.exchangeName) ∧ ¬gone (.queue row.msgQueueName)) : db'.Referenced := by
  intro row hrow
  obtain ⟨he, hq⟩ := h row (ht.rows row hrow)
  obtain ⟨hkeepE, hkeepQ⟩ := hfree row hrow
  exact ⟨ht.kept (.exchange row.exchangeName) hkeepE he, ht.kept (.queue row.msgQueueName) hkeepQ hq⟩

/-- The statement that inserts a queue of this name succeeds. -/
def insertsQueue (db : Db) (name : String) : Bool :=
  db.fate = .ok && db.queueTable.any fun rows => !rows.any (·.name = name)

theorem fst_exec_insertQueue (db : Db) (row : QueueRow) : (db.exec (insertQueue row)).1 = db.insertsQueue row.name := by
  unfold insertsQueue exec
  cases hfate : db.fate with
  | fail n => rfl
  | ok =>
    have htick : db.tick.queueTable = db.queueTable := rfl
    simp only [insertQueue, htick]
    cases db.queueTable with
    | none => rfl
    | some rows => by_cases hany : rows.any (·.name = row.name) = true <;> simp [hany]

end Db

/-! ### One declaration -/

inductive Declaration
  | exchange (name : String) (type : ExchangeType) (durable autoDelete : Bool) (args : UMap String String)
  | queue (qname : String) (qdurable qexclusive qautoDelete : Bool) (qargs : UMap String String)
  | binding (ename qname key : String)

namespace VirtualHost
variable {pb : PayloadCodec} {basedir dbfile : String} {h h' : VirtualHost}

/-- `none`: the process aborts. -/
def declare (pb : PayloadCodec) (h : VirtualHost) : Declaration → Option (Bool × VirtualHost)
  | .exchange name type durable autoDelete args => some (h.declareExchange name type durable autoDelete args)
  | .queue qname qdurable qexclusive qautoDelete qargs => h.declareQueue pb qname qdurable qexclusive qautoDelete qargs
  | .binding ename qname key => some (h.bind ename qname key)

/-- The object is in memory, and if it is durable and new, its row is in the table. -/
def Entered (h h' : VirtualHost) : Declaration → Prop
  | .exchange name type durable autoDelete args =>
    h'.emp.exchanges.lookup name = (h.emp.exchanges.lookup name).or (some ⟨name, type, durable, autoDelete, args⟩) ∧
      (name ∉ h.emp.exchanges → durable = true →
        ⟨name, type, durable, autoDelete, Args.get args⟩ ∈ h'.db.exchangeTable.getD [])
  | .queue qname qdurable qexclusive qautoDelete qargs =>
    h'.mqmp.msgQueues.lookup qname =
        (h.mqmp.msgQueues.lookup qname).or (some ⟨qname, qdurable, qexclusive, qautoDelete, qargs⟩) ∧
      (qname ∉ h.mqmp.msgQueues → qdurable = true →
        ⟨qname, qdurable, qexclusive, qautoDelete, Args.get qargs⟩ ∈ h'.db.queueTable.getD [])
  | .binding ename qname key =>
    h'.bmp.getBinding ename qname = (h.bmp.getBinding ename qname).or (some ⟨ename, qname, key⟩) ∧
      ∀ ep mqp, h.emp.selectExchange ename = some ep → h.mqmp.selectQueue qname = some mqp →
        h.bmp.getBinding ename qname = none → (ep.durable && mqp.durable) = true →
        ⟨ename, qname, key⟩ ∈ h'.db.bindingTable.getD []

/-- Only outcomes of statements and of file operations were used up. -/
structure Unchanged (h h' : VirtualHost) : Prop where
  exchanges : h'.emp = h.emp
  queues : h'.mqmp = h.mqmp
  bindings : h'.bmp = h.bmp
  messages : h'.mmp = h.mmp
  exchangeTable : h'.db.exchangeTable = h.db.exchangeTable
  queueTable : h'.db.queueTable = h.db.queueTable
  bindingTable : h'.db.bindingTable = h.db.bindingTable
  files : h'.disk.files = h.disk.files

def AllOrNothing (h : VirtualHost) (decl : Declaration) (ok : Bool) (h' : VirtualHost) : Prop :=
  if ok = true then Entered h h' decl else Unchanged h h'

/-- A new durable exchange gets its row, or has it already. A new durable queue gets its row, or `message_manager` knows
it already. -/
def completes (h : VirtualHost) : Declaration → Bool
  | .exchange name type durable autoDelete args =>
    name ∈ h.emp.exchanges || !durable || h.db.writesExchange ⟨name, type, durable, autoDelete, Args.get args⟩
  | .queue qname qdurable _ _ _ =>
    qname ∈ h.mqmp.msgQueues || !qdurable || h.db.insertsQueue qname || qname ∈ h.mmp.queueMsgs
  | .binding _ _ _ => true

theorem declareExchange_complete (name : String) (type : ExchangeType) (durable autoDelete : Bool)
    (args : UMap String String) : Entered h (h.declareExchange name type durable autoDelete args).2
      (.exchange name type durable autoDelete args) ↔ h.completes (.exchange name type durable autoDelete args) = true := by
  unfold declareExchange ExchangeManager.declareExchange
  cases hname : h.emp.exchanges.lookup name with
  | some exp =>
    have hmem := UMap.mem_of_lookup hname
    simp [Entered, completes, hname, hmem]
  | none =>
    have hmem := AList.lookup_eq_none.mp hname
    have hnew := UMap.lookup_emplace_self hmem ⟨name, type, durable, autoDelete, args⟩
    cases durable with
    | false => simp [Entered, completes, hname, hnew]
    | true =>
      have hrow := Db.mem_insertExchange h.db ⟨name, type, true, autoDelete, Args.get args⟩
      simp only [Entered, completes, hname, hnew, hmem, ExchangeMapper.insert, Exchange.getArgs, if_true, Option.none_or,
        not_false_eq_true, true_and, forall_const, hrow, decide_false, Bool.not_true, Bool.or_self, Bool.false_or]

/-- A queue that is not declared stays known to `message_manager`, with its files. -/
theorem declareQueue_complete {qname : String} {qdurable qexclusive qautoDelete ok : Bool} {qargs : UMap String String}
    (hdecl : h.declareQueue pb qname qdurable qexclusive qautoDelete qargs = some (ok, h')) :
    AllOrNothing h (.queue qname qdurable qexclusive qautoDelete qargs) ok h' ↔
      h.completes (.queue qname qdurable qexclusive qautoDelete qargs) = true := by
  unfold declareQueue at hdecl
  split at hdecl
  · cases hdecl
  · next mmp disk hinit =>
    have hknown : qname ∈ h.mmp.queueMsgs → mmp = h.mmp ∧ disk = h.disk := by
      intro hmem
      obtain ⟨qmp, hqmp⟩ := Option.isSome_iff_exists.mp (AList.lookup_isSome.mpr hmem)
      simp only [MessageManager.initQueueMsg, hqmp, Option.some.injEq, Prod.mk.injEq] at hinit
      exact ⟨hinit.1.symm, hinit.2.symm⟩
    have hnow : qname ∈ mmp.queueMsgs := by
      unfold MessageManager.initQueueMsg at hinit
      split at hinit
      · next hqmp =>
        cases hinit
        exact UMap.mem_of_lookup hqmp
      · split at hinit
        · cases hinit
        · cases hinit
          exact UMap.mem_emplace.mpr (Or.inl rfl)
    unfold MsgQueueManager.declareQueue at hdecl
    cases hlookup : h.mqmp.msgQueues.lookup qname with
    | some qptr =>
      simp only [hlookup, Option.some.injEq, Prod.mk.injEq] at hdecl
      obtain ⟨rfl, rfl⟩ := hdecl
      have hmem := UMap.mem_of_lookup hlookup
      simp [AllOrNothing, Entered, completes, hlookup, hmem]
    | none =>
      have hmem := AList.lookup_eq_none.mp hlookup
      have hnew := UMap.lookup_emplace_self hmem ⟨qname, qdurable, qexclusive, qautoDelete, qargs⟩
      cases qdurable with
      | false =>
        simp only [hlookup, Bool.false_eq_true, if_false, Option.some.injEq, Prod.mk.injEq] at hdecl
        obtain ⟨rfl, rfl⟩ := hdecl
        simp [AllOrNothing, Entered, completes, hlookup, hnew]
      | true =>
        simp only [hlookup, if_true, MsgQueueMapper.insert, MsgQueue.getArgs] at hdecl
        have hinserts := Db.fst_exec_insertQueue h.db ⟨qname, true, qexclusive, qautoDelete, Args.get qargs⟩
        split at hdecl
        · next db hexec =>
          simp only [Option.some.injEq, Prod.mk.injEq] at hdecl
          obtain ⟨rfl, rfl⟩ := hdecl
          have hfails : h.db.insertsQueue qname = false := by rw [← hinserts, hexec]
          simp only [AllOrNothing, completes, hmem, hfails, Bool.false_eq_true, if_false, decide_false, Bool.not_true,
            Bool.or_self, Bool.false_or, decide_eq_true_eq]
          constructor
          · intro hunchanged
            exact hunchanged.messages ▸ hnow
          · intro hmem
            obtain ⟨rfl, rfl⟩ := hknown hmem
            obtain htick | ⟨db', -, hok⟩ := h.db.exec_cases
              (Db.insertQueue ⟨qname, true, qexclusive, qautoDelete, Args.get qargs⟩)
            · obtain rfl : h.db.tick = db := congrArg Prod.snd (htick.symm.trans hexec)
              exact ⟨rfl, rfl, rfl, rfl, rfl, rfl, rfl, rfl⟩
            · rw [hok] at hexec
              cases hexec
        · next db hexec =>
          simp only [Option.some.injEq, Prod.mk.injEq] at hdecl
          obtain ⟨rfl, rfl⟩ := hdecl
          have hsucceeds : h.db.insertsQueue qname = true := by rw [← hinserts, hexec]
          have hrow := Db.mem_insertQueue hexec
          simp [AllOrNothing, Entered, completes, hlookup, hnew, hsucceeds, hrow]

/-- `bind` enters the binding when everything else is done. -/
theorem bind_complete (ename qname key : String) :
    AllOrNothing h (.binding ename qname key) (h.bind ename qname key).1 (h.bind ename qname key).2 := by
  unfold bind
  cases hep : h.emp.selectExchange ename with
  | none => exact ⟨rfl, rfl, rfl, rfl, rfl, rfl, rfl, rfl⟩
  | some ep =>
    cases hmqp : h.mqmp.selectQueue qname with
    | none => exact ⟨rfl, rfl, rfl, rfl, rfl, rfl, rfl, rfl⟩
    | some mqp =>
      dsimp only
      unfold BindingManager.bind
      by_cases hex : h.bmp.exists? ename qname = true
      · obtain ⟨bp, hbp⟩ := Option.isSome_iff_exists.mp hex
        simp [AllOrNothing, Entered, hex, hbp]
      · have hfree : h.bmp.getBinding ename qname = none := by simpa [BindingManager.exists?] using hex
        have hget := getBinding_insert h.bmp.bindings ⟨ename, qname, key⟩ ename qname ename qname
        rw [if_pos ⟨rfl, rfl⟩] at hget
        simp only [hex, Bool.false_eq_true, if_false]
        cases hdurable : ep.durable && mqp.durable with
        | false =>
          simp only [Bool.false_eq_true, if_false]
          refine ⟨hget, fun ep' mqp' hep' hmqp' _ hd => ?_⟩
          rw [hep] at hep'
          rw [hmqp] at hmqp'
          cases hep'
          cases hmqp'
          rw [hdurable] at hd
          cases hd
        | true =>
          simp only [if_true, BindingMapper.insert]
          obtain hexec | ⟨db', -, hexec⟩ := h.db.exec_cases (Db.insertBinding ⟨ename, qname, key⟩)
          · rw [hexec]
            exact ⟨rfl, rfl, rfl, rfl, rfl, rfl, rfl, rfl⟩
          · have hrow := Db.mem_insertBinding hexec
            rw [hexec]
            exact ⟨hget, fun _ _ _ _ _ _ => hrow⟩

variable (pb) in
theorem declare_exchange (name : String) (type : ExchangeType) (durable autoDelete : Bool) (args : UMap String String) :
    h.declare pb (.exchange name type durable autoDelete args) =
      some (true, (h.declareExchange name type durable autoDelete args).2) := by
  have htrue : (h.declareExchange name type durable autoDelete args).1 = true := by
    unfold declareExchange ExchangeManager.declareExchange
    cases h.emp.exchanges.lookup name <;> rfl
  exact congrArg some (Prod.ext htrue rfl)

theorem declare_iff {decl : Declaration} {ok : Bool} (hdecl : h.declare pb decl = some (ok, h')) :
    AllOrNothing h decl ok h' ↔ h.completes decl = true := by
  cases decl with
  | exchange name type durable autoDelete args =>
    rw [declare_exchange pb, Option.some.injEq, Prod.mk.injEq] at hdecl
    obtain ⟨rfl, rfl⟩ := hdecl
    exact declareExchange_complete name type durable autoDelete args
  | queue qname qdurable qexclusive qautoDelete qargs => exact declareQueue_complete hdecl
  | binding ename qname key =>
    obtain ⟨rfl, rfl⟩ := Prod.mk.inj (Option.some.inj hdecl)
    exact iff_of_true (bind_complete ename qname key) rfl

/-! ### Restarts -/

/-- Every binding row has the rows of its ends, and so has every durable object in memory. -/
structure Backed (h : VirtualHost) : Prop where
  referenced : h.db.Referenced
  rows : ∀ i, h.catalog.lasting Info.durable i = true → h.db.HasRow i

/-- No binding names an exchange or a queue that is missing. -/
def Attached (h : VirtualHost) : Prop := h.catalog.Linked

/-- The statements that other statements rely on: a declaration writes its row, a deletion removes the rows of its
bindings, and a start reads all rows of exchanges and queues. -/
def relies (h : VirtualHost) : HostOp → Bool
  | .declareExchange name type durable autoDelete args => h.completes (.exchange name type durable autoDelete args)
  | .declareQueue qname qdurable qexclusive qautoDelete qargs =>
    h.completes (.queue qname qdurable qexclusive qautoDelete qargs)
  | .deleteExchange name => h.db.fate = .ok || !h.db.rows.any (·.exchangeName = name)
  | .deleteQueue name => h.db.fate = .ok || !h.db.rows.any (·.msgQueueName = name)
  | .restart => h.db.fates.getD 2 .ok = .ok && h.db.fates.getD 5 .ok = .ok
  | _ => true

/-- Durable objects that were there before have their rows still. -/
theorem Backed.of_lasting (hb : h.Backed) {gone : Name → Prop} (ht : Db.Trims gone h.db h'.db)
    (hfree : ∀ row ∈ h'.db.rows, ¬gone (.exchange row.exchangeName) ∧ ¬gone (.queue row.msgQueueName))
    (hlasting : ∀ i, h'.catalog.lasting Info.durable i = true →
      ¬gone i ∧ h.catalog.lasting Info.durable i = true ∨ h'.db.HasRow i) : h'.Backed where
  referenced := hb.referenced.of_trims ht hfree
  rows i hi := by
    obtain ⟨hkeep, hi⟩ | hi := hlasting i hi
    · exact ht.kept i hkeep (hb.rows i hi)
    · exact hi

theorem Backed.declareExchange (hb : h.Backed) {name : String} {type : ExchangeType} {durable autoDelete : Bool}
    {args : UMap String String} (hrelies : h.completes (.exchange name type durable autoDelete args) = true) :
    (h.declareExchange name type durable autoDelete args).2.Backed := by
  have hentered := (declareExchange_complete name type durable autoDelete args).mpr hrelies
  have ht : Db.Trims (fun _ => False) h.db (h.declareExchange name type durable autoDelete args).2.db := by
    unfold VirtualHost.declareExchange ExchangeManager.declareExchange
    cases h.emp.exchanges.lookup name with
    | some exp => exact Db.Trims.refl _ _
    | none =>
      dsimp only
      split
      · exact Db.Trims.exec fun _ _ => Db.trims_insertExchange _
      · exact Db.Trims.refl _ _
  refine hb.of_lasting ht (fun _ _ => ⟨id, id⟩) fun i hi => ?_
  rw [catalog_declareExchange] at hi
  by_cases hname : i = .exchange name
  · subst hname
    cases hold : h.emp.exchanges.lookup name with
    | some exp =>
      refine Or.inl ⟨id, ?_⟩
      rwa [Catalog.declare_of_isSome] at hi
      simp [catalog, selectExchange, ExchangeManager.selectExchange, hold]
    | none =>
      have hdurable : durable = true := by
        simpa [Catalog.lasting, Catalog.declare, catalog, selectExchange, ExchangeManager.selectExchange, hold,
          Info.durable] using hi
      exact Or.inr ⟨_, hentered.2 (AList.lookup_eq_none.mp hold) hdurable, rfl⟩
  · rw [Catalog.lasting_declare_ne hname] at hi
    exact Or.inl ⟨id, hi⟩

theorem Backed.declareQueue (hb : h.Backed) {qname : String} {qdurable qexclusive qautoDelete ok : Bool}
    {qargs : UMap String String}
    (hdecl : h.declareQueue pb qname qdurable qexclusive qautoDelete qargs = some (ok, h')) : h'.Backed := by
  unfold VirtualHost.declareQueue MsgQueueManager.declareQueue at hdecl
  split at hdecl
  · cases hdecl
  · next mmp disk hinit =>
    cases hlookup : h.mqmp.msgQueues.lookup qname with
    | some qptr =>
      simp only [hlookup, Option.some.injEq, Prod.mk.injEq] at hdecl
      obtain ⟨-, rfl⟩ := hdecl
      exact ⟨hb.referenced, fun i hi => hb.rows i hi⟩
    | none =>
      -- The object after its row, if it needs one.
      have hentered : ∀ db : Db, Db.Trims (fun _ => False) h.db db → (qdurable = true → db.HasRow (.queue qname)) →
          ({ emp := h.emp, mqmp := ⟨h.mqmp.msgQueues.emplace qname ⟨qname, qdurable, qexclusive, qautoDelete, qargs⟩⟩,
             bmp := h.bmp, mmp, disk, db } : VirtualHost).Backed := by
        intro db ht hrow
        refine hb.of_lasting ht (fun _ _ => ⟨id, id⟩) fun i hi => ?_
        rw [h.catalog_emplaceQueue mmp disk (q := ⟨qname, qdurable, qexclusive, qautoDelete, qargs⟩) hlookup db] at hi
        by_cases hname : i = .queue qname
        · subst hname
          have hdurable : qdurable = true := by
            simpa [Catalog.lasting, Catalog.declare, catalog, MsgQueueManager.selectQueue, hlookup, MsgQueue.info,
              Info.durable] using hi
          exact Or.inr (hrow hdurable)
        · rw [Catalog.lasting_declare_ne hname] at hi
          exact Or.inl ⟨id, hi⟩
      cases qdurable with
      | false =>
        simp only [hlookup, Bool.false_eq_true, if_false, Option.some.injEq, Prod.mk.injEq] at hdecl
        obtain ⟨-, rfl⟩ := hdecl
        exact hentered h.db (Db.Trims.refl _ _) fun hd => by cases hd
      | true =>
        simp only [hlookup, if_true, MsgQueueMapper.insert, MsgQueue.getArgs] at hdecl
        have ht : Db.Trims (fun _ => False) h.db
            (h.db.exec (Db.insertQueue ⟨qname, true, qexclusive, qautoDelete, Args.get qargs⟩)).2 :=
          Db.Trims.exec fun _ _ => Db.trims_insertQueue _
        split at hdecl
        · next db hexec =>
          simp only [Option.some.injEq, Prod.mk.injEq] at hdecl
          obtain ⟨-, rfl⟩ := hdecl
          rw [hexec] at ht
          exact hb.of_lasting ht (fun _ _ => ⟨id, id⟩) fun i hi => Or.inl ⟨id, hi⟩
        · next db hexec =>
          simp only [Option.some.injEq, Prod.mk.injEq] at hdecl
          obtain ⟨-, rfl⟩ := hdecl
          rw [hexec] at ht
          exact hentered db ht fun _ => ⟨_, Db.mem_insertQueue hexec, rfl⟩

theorem Backed.bind (hb : h.Backed) (ename qname key : String) : (h.bind ename qname key).2.Backed := by
  unfold VirtualHost.bind
  cases hep : h.emp.selectExchange ename with
  | none => exact hb
  | some ep =>
    cases hmqp : h.mqmp.selectQueue qname with
    | none => exact hb
    | some mqp =>
      dsimp only
      unfold BindingManager.bind
      split
      · exact hb
      · cases hdurable : ep.durable && mqp.durable with
        | false => exact ⟨hb.referenced, fun i hi => hb.rows i hi⟩
        | true =>
          rw [Bool.and_eq_true] at hdurable
          have hends : h.db.HasRow (.exchange ename) ∧ h.db.HasRow (.queue qname) := by
            refine ⟨hb.rows _ ?_, hb.rows _ ?_⟩
            · simp [Catalog.lasting, catalog, selectExchange, hep, Exchange.info, Info.durable, hdurable.1]
            · simp [Catalog.lasting, catalog, hmqp, MsgQueue.info, Info.durable, hdurable.2]
          simp only [if_true, BindingMapper.insert]
          obtain hexec | ⟨db', hins, hexec⟩ := h.db.exec_cases (Db.insertBinding ⟨ename, qname, key⟩)
          · rw [hexec]
            exact ⟨hb.referenced, fun i hi => hb.rows i hi⟩
          · rw [hexec]
            unfold Db.insertBinding at hins
            split at hins
            · cases hins
            · next rows hrows =>
              cases hins
              have hbefore : h.db.bindingTable = some rows := hrows
              refine ⟨fun row hrow => ?_, fun i hi => ?_⟩
              · obtain hrow | hrow := List.mem_append.mp hrow
                · exact hb.referenced row (by rwa [hbefore])
                · obtain rfl := List.mem_singleton.mp hrow
                  exact hends
              · have hi : h.db.HasRow i := hb.rows i hi
                cases i with
                | exchange name => exact hi
                | queue name => exact hi

theorem Backed.unbind (hb : h.Backed) (ename qname : String) : (h.unbind ename qname).Backed := by
  have ht : Db.Trims (fun _ => False) h.db (h.unbind ename qname).db := by
    unfold VirtualHost.unbind BindingManager.unbind
    dsimp only
    split
    · exact Db.Trims.refl _ _
    · split
      · exact Db.Trims.exec fun _ _ => Db.trims_deleteBindings _
      · exact Db.Trims.refl _ _
  exact hb.of_lasting ht (fun _ _ => ⟨id, id⟩) fun i hi => Or.inl ⟨id, hi⟩

/-- The bindings of an object go before it, rows and all. -/
theorem Backed.delete (hb : h.Backed) {i : Name} {db : Db} (hcat : h'.catalog = h.catalog.delete i)
    (hunbind : Db.Trims (fun _ => False) h.db db) (hdelete : Db.Trims (· = i) db h'.db)
    (hfree : ∀ row ∈ db.rows, Name.exchange row.exchangeName ≠ i ∧ Name.queue row.msgQueueName ≠ i) : h'.Backed := by
  have ht : Db.Trims (· = i) h.db h'.db :=
    ⟨fun j hne hj => hdelete.kept j hne (hunbind.kept j id hj), hunbind.rows.trans hdelete.rows⟩
  refine hb.of_lasting ht (fun row hrow => hfree row (hdelete.rows row hrow)) fun j hj => ?_
  rw [hcat] at hj
  by_cases hname : j = i
  · subst hname
    rw [Catalog.lasting, Catalog.objects_delete_self] at hj
    cases hj
  · rw [Catalog.lasting, Catalog.objects_delete_ne hname] at hj
    exact Or.inl ⟨hname, hj⟩

theorem Backed.deleteExchange (hb : h.Backed) {name : String}
    (hrelies : h.db.fate = .ok ∨ h.db.rows.any (·.exchangeName = name) = false) : (h.deleteExchange name).Backed := by
  have hunbound := (Db.not_mem_deleteBindings h.db fun row => row.exchangeName = name).mpr hrelies.symm
  have hunbind : Db.Trims (fun _ => False) h.db (h.bmp.unbindExchange name h.db).2 :=
    Db.Trims.exec fun _ _ => Db.trims_deleteBindings _
  refine hb.delete (h.catalog_deleteExchange name) hunbind ?_ fun row hrow => ⟨?_, nofun⟩
  · unfold VirtualHost.deleteExchange ExchangeManager.deleteExchange
    cases h.emp.exchanges.lookup name with
    | none => exact Db.Trims.refl _ _
    | some exp =>
      dsimp only
      split
      · exact Db.Trims.exec fun _ _ => Db.trims_deleteExchanges name
      · exact Db.Trims.refl _ _
  · rintro heq
    cases heq
    exact of_decide_eq_false (hunbound row hrow) rfl

theorem Backed.deleteQueue (hb : h.Backed) {name : String}
    (hrelies : h.db.fate = .ok ∨ h.db.rows.any (·.msgQueueName = name) = false) : (h.deleteQueue name).Backed := by
  have hunbound := (Db.not_mem_deleteBindings h.db fun row => row.msgQueueName = name).mpr hrelies.symm
  have hunbind : Db.Trims (fun _ => False) h.db (h.bmp.unbindQueue name h.db).2 :=
    Db.Trims.exec fun _ _ => Db.trims_deleteBindings _
  refine hb.delete (h.catalog_deleteQueue name) hunbind ?_ fun row hrow => ⟨nofun, ?_⟩
  · unfold VirtualHost.deleteQueue MsgQueueManager.deleteQueue
    cases h.mqmp.msgQueues.lookup name with
    | none => exact Db.Trims.refl _ _
    | some qptr =>
      dsimp only
      split
      · exact Db.Trims.exec fun _ _ => Db.trims_deleteQueues name
      · exact Db.Trims.refl _ _
  · rintro heq
    cases heq
    exact of_decide_eq_false (hunbound row hrow) rfl

/-! ### Starts -/

/-- A start creates the tables that are missing, and reads rows of each. -/
structure Reads (db db' : Db) : Prop where
  exchangeTable : db'.exchangeTable.getD [] = db.exchangeTable.getD []
  queueTable : db'.queueTable.getD [] = db.queueTable.getD []
  bindingTable : db'.bindingTable.getD [] = db.bindingTable.getD []
  fates : db'.fates = db.fates.drop 3

theorem openTable_reads {create : Db → Option Db} {d d' : Disk} {db db' : Db}
    (hcreate : ∀ db db', create db = some db' → db'.exchangeTable.getD [] = db.exchangeTable.getD [] ∧
      db'.queueTable.getD [] = db.queueTable.getD [] ∧ db'.bindingTable.getD [] = db.bindingTable.getD [] ∧
      db'.fates = db.fates)
    (hopen : Db.openTable create dbfile d db = some (d', db')) : Reads db db'.tick ∧ db'.fate = db.fates.getD 2 .ok := by
  unfold Db.openTable at hopen
  dsimp only at hopen
  split at hopen
  · cases hopen
  · next db₁ hfile =>
    split at hopen
    · cases hopen
    · next db₂ hexec =>
      cases hopen
      cases Db.exec_eq_true hfile
      obtain ⟨he, hq, hb, hf⟩ := hcreate _ _ (Db.exec_eq_true hexec)
      refine ⟨⟨he, hq, hb, ?_⟩, ?_⟩
      · simp [Db.tick, hf, ← List.drop_one]
      · simp [Db.fate, Db.tick, hf, List.getD_eq_getElem?_getD, List.headD_eq_head?_getD]

/-- The rows that a query delivers. -/
theorem query_rows {ρ : Type} (db : Db) (table : Db → Option (List ρ)) :
    (∀ row ∈ (db.query table).1, row ∈ (table db).getD []) ∧ (db.query table).2 = db.tick ∧
      (db.fate = .ok → (db.query table).1 = (table db).getD []) := by
  unfold Db.query
  split
  · next hfate => exact ⟨fun row hrow => List.mem_of_mem_take hrow, rfl, fun hok => by rw [hfate] at hok; cases hok⟩
  · exact ⟨fun row hrow => hrow, rfl, fun _ => rfl⟩

/-- What a start has in memory: some rows of exchanges and of queues, all of them if nothing fails, and some bindings. -/
structure Loaded (db : Db) (h : VirtualHost) : Prop where
  reads : h.db.exchangeTable.getD [] = db.exchangeTable.getD [] ∧ h.db.queueTable.getD [] = db.queueTable.getD [] ∧
    h.db.bindingTable.getD [] = db.bindingTable.getD []
  objects : ∀ i, (h.catalog.objects i).isSome → db.HasRow i
  links : ∀ i j, (h.catalog.links i j).isSome → ∃ row ∈ db.rows, i = .exchange row.exchangeName ∧ j = .queue row.msgQueueName
  complete : db.fates.getD 2 .ok = .ok → db.fates.getD 5 .ok = .ok → ∀ i, db.HasRow i → (h.catalog.objects i).isSome

theorem loaded_of_new {d : Disk} {db : Db} (hnew : new pb basedir dbfile d db = some h) : Loaded db h := by
  obtain ⟨d₁, db₁, d₂, db₂, d₃, db₃, hopen₁, hopen₂, hopen₃, hemp, hmqmp, hbmp, hdb, -⟩ := new_stages hnew
  obtain ⟨hread₁, hquery₁, hall₁⟩ := query_rows db₁ (·.exchangeTable)
  obtain ⟨hread₂, hquery₂, hall₂⟩ := query_rows db₂ (·.queueTable)
  obtain ⟨hread₃, hquery₃, -⟩ := query_rows db₃ (·.bindingTable)
  rw [hquery₁] at hopen₂
  rw [hquery₂] at hopen₃
  obtain ⟨⟨he₁, hq₁, hb₁, hf₁⟩, hfate₁⟩ := openTable_reads (fun _ _ h => by cases h; exact ⟨rfl, rfl, rfl, rfl⟩) hopen₁
  obtain ⟨⟨he₂, hq₂, hb₂, hf₂⟩, hfate₂⟩ := openTable_reads (fun _ _ h => by cases h; exact ⟨rfl, rfl, rfl, rfl⟩) hopen₂
  obtain ⟨⟨he₃, hq₃, hb₃, -⟩, -⟩ := openTable_reads (fun _ _ h => by cases h; exact ⟨rfl, rfl, rfl, rfl⟩) hopen₃
  have hexchange : ∀ name, h.catalog.objects (.exchange name) =
      ((db₁.query (·.exchangeTable)).1.find? (·.name = name)).map ExchangeRow.info := fun name => by
    simp only [catalog, selectExchange, ExchangeManager.selectExchange, hemp]
    refine (congrArg _ (UMap.lookup_foldl_emplace _ _ name _ ∅)).trans ?_
    simp only [AList.lookup_empty, Option.none_or, Option.map_map]
    rfl
  have hqueue : ∀ name, h.catalog.objects (.queue name) =
      ((db₂.query (·.queueTable)).1.find? (·.name = name)).map QueueRow.info := fun name => by
    simp only [catalog, MsgQueueManager.selectQueue, hmqmp]
    refine (congrArg _ (UMap.lookup_foldl_emplace _ _ name _ ∅)).trans ?_
    simp only [AList.lookup_empty, Option.none_or, Option.map_map]
    rfl
  have hobjects₂ : db₂.queueTable.getD [] = db.queueTable.getD [] := hq₂.trans hq₁
  refine ⟨?_, fun i hi => ?_, fun i j hij => ?_, fun hok₁ hok₂ i hi => ?_⟩
  · rw [hdb, hquery₃]
    exact ⟨he₃.trans (he₂.trans he₁), hq₃.trans (hq₂.trans hq₁), hb₃.trans (hb₂.trans hb₁)⟩
  · cases i with
    | exchange name =>
      rw [hexchange, Option.isSome_map, List.find?_isSome] at hi
      obtain ⟨row, hrow, hname⟩ := hi
      exact ⟨row, he₁ ▸ hread₁ row hrow, of_decide_eq_true hname⟩
    | queue name =>
      rw [hqueue, Option.isSome_map, List.find?_isSome] at hi
      obtain ⟨row, hrow, hname⟩ := hi
      exact ⟨row, hobjects₂ ▸ hread₂ row hrow, of_decide_eq_true hname⟩
  · cases i with
    | queue q => cases hij
    | exchange e =>
      cases j with
      | exchange e' => cases hij
      | queue q =>
        have hget := getBinding_foldl_select e q (db₃.query (·.bindingTable)).1 ∅
        rw [show ({ bindings := ∅ } : BindingManager).getBinding e q = none from rfl, Option.none_or] at hget
        change (h.bmp.getBinding e q).isSome = true at hij
        rw [hbmp, hget, Option.isSome_map, List.find?_isSome] at hij
        obtain ⟨row, hrow, hjoins⟩ := hij
        obtain ⟨rfl, rfl⟩ := Db.joins_iff.mp hjoins
        have hmem := hread₃ row hrow
        have htable : db₃.bindingTable.getD [] = db.bindingTable.getD [] := hb₃.trans (hb₂.trans hb₁)
        rw [htable] at hmem
        exact ⟨row, hmem, rfl, rfl⟩
  · cases i with
    | exchange name =>
      rw [hexchange, hall₁ (hfate₁.trans hok₁), Option.isSome_map, List.find?_isSome]
      obtain ⟨row, hrow, hname⟩ := hi
      exact ⟨row, he₁ ▸ hrow, decide_eq_true hname⟩
    | queue name =>
      have hok : db₂.fate = .ok := by
        rw [hfate₂, hf₁]
        simpa [List.getD_eq_getElem?_getD] using hok₂
      rw [hqueue, hall₂ hok, Option.isSome_map, List.find?_isSome]
      obtain ⟨row, hrow, hname⟩ := hi
      exact ⟨row, hobjects₂ ▸ hrow, decide_eq_true hname⟩

theorem Loaded.backed {db : Db} (hl : Loaded db h) (hdb : db.Referenced) : h.Backed where
  referenced row hrow := by
    rw [hl.reads.2.2] at hrow
    rw [hl.reads.1, hl.reads.2.1]
    exact hdb row hrow
  rows i hi := by
    have hsome : (h.catalog.objects i).isSome := by
      obtain ⟨info, hinfo, -⟩ := (Option.any_eq_true _ _).mp hi
      exact Option.isSome_iff_exists.mpr ⟨info, hinfo⟩
    have hrow := hl.objects i hsome
    cases i with
    | exchange name =>
      rw [Db.HasRow, hl.reads.1]
      exact hrow
    | queue name =>
      rw [Db.HasRow, hl.reads.2.1]
      exact hrow

theorem Loaded.attached {db : Db} (hl : Loaded db h) (hdb : db.Referenced) (hok₁ : db.fates.getD 2 .ok = .ok)
    (hok₂ : db.fates.getD 5 .ok = .ok) : h.Attached := by
  intro i j bp hbp
  obtain ⟨row, hrow, rfl, rfl⟩ := hl.links i j (Option.isSome_iff_exists.mpr ⟨bp, hbp⟩)
  obtain ⟨he, hq⟩ := hdb row hrow
  exact ⟨hl.complete hok₁ hok₂ (.exchange row.exchangeName) he, hl.complete hok₁ hok₂ (.queue row.msgQueueName) hq⟩

theorem step_backed {op : HostOp} (hb : h.Backed) (hstep : h.step pb basedir dbfile op = some h')
    (hrelies : h.relies op = true) : h'.Backed := by
  cases op with
  | declareExchange name type durable autoDelete args =>
    cases hstep
    exact hb.declareExchange hrelies
  | deleteExchange name =>
    cases hstep
    simp only [relies, Bool.or_eq_true, decide_eq_true_eq, Bool.not_eq_true'] at hrelies
    exact hb.deleteExchange hrelies
  | declareQueue qname qdurable qexclusive qautoDelete qargs =>
    obtain ⟨⟨ok, h''⟩, hdecl, rfl⟩ := Option.map_eq_some_iff.mp hstep
    exact hb.declareQueue hdecl
  | deleteQueue name =>
    cases hstep
    simp only [relies, Bool.or_eq_true, decide_eq_true_eq, Bool.not_eq_true'] at hrelies
    exact hb.deleteQueue hrelies
  | bind ename qname key =>
    cases hstep
    exact hb.bind ename qname key
  | unbind ename qname =>
    cases hstep
    exact hb.unbind ename qname
  | restart => exact (loaded_of_new hstep).backed hb.referenced

/-- A declaration is all or nothing exactly when its condition holds; and if all steps of a run meet theirs, no restart
finds a binding without its ends. -/
theorem declarations_complete (pb : PayloadCodec) :
    (∀ (h h' : VirtualHost) (decl : Declaration) (ok : Bool), h.declare pb decl = some (ok, h') →
      (AllOrNothing h decl ok h' ↔ h.completes decl = true)) ∧
    ∀ (basedir dbfile : String) (d : Disk) (db : Db) (h₀ : VirtualHost) (ops : List HostOp), db.Referenced →
      new pb basedir dbfile d db = some h₀ → always (step pb basedir dbfile) relies h₀ ops = true →
      ∀ pre h h', pre ++ [.restart] <+: ops → Lib.run (step pb basedir dbfile) h₀ pre = some h →
        h.step pb basedir dbfile .restart = some h' → h'.Attached := by
  refine ⟨fun h h' decl ok => declare_iff, ?_⟩
  intro basedir dbfile d db h₀ ops hdb hnew hall pre h h' hpre hrun hstep
  have hpre' : pre <+: ops := (List.prefix_append pre [.restart]).trans hpre
  have hinv := run_induct_of_always (fun h op h' (hb : h.Backed) hstep hrelies => step_backed hb hstep hrelies)
    ((loaded_of_new hnew).backed hdb) hall
  have hrelies : h.relies .restart = true := cond_of_always hall hpre hrun
  simp only [relies, Bool.and_eq_true, decide_eq_true_eq] at hrelies
  exact (loaded_of_new hstep).attached (hinv pre h hpre' hrun).referenced hrelies.1 hrelies.2

/-- The last statement of a run fails: a queue that was deleted is not declared again. -/
def declaredAgain : List HostOp :=
  [.declareExchange "e" .topic true false ∅, .declareQueue "q" true false false ∅, .bind "e" "q" "a.#", .deleteQueue "q",
    .declareQueue "q" false false false ∅]

theorem declarations_complete_again : ∃ h₀ h h' : VirtualHost,
    new protobuf "data" "data/meta.db" Store.vacant {} = some h₀ ∧
    h₀.declare protobuf (.exchange "e" .topic true false ∅) = some (true, h) ∧
    Entered h₀ h (.exchange "e" .topic true false ∅) ∧
    (∃ h, Lib.run (step protobuf "data" "data/meta.db") h₀ declaredAgain = some h ∧
      h.step protobuf "data" "data/meta.db" .restart = some h') ∧ h'.Attached := by
  have hall : (new protobuf "data" "data/meta.db" Store.vacant {}).any (fun h₀ =>
      h₀.completes (.exchange "e" .topic true false ∅) &&
        always (step protobuf "data" "data/meta.db") relies h₀ (declaredAgain ++ [.restart]) &&
        (Lib.run (step protobuf "data" "data/meta.db") h₀ declaredAgain).any fun h =>
          (h.step protobuf "data" "data/meta.db" .restart).isSome) = true := by
    decide +kernel
  obtain ⟨h₀, hnew, hh₀⟩ := (Option.any_eq_true _ _).mp hall
  rw [Bool.and_eq_true, Bool.and_eq_true] at hh₀
  obtain ⟨⟨hcompletes, hrelies⟩, hh⟩ := hh₀
  obtain ⟨h, hrun, hh⟩ := (Option.any_eq_true _ _).mp hh
  obtain ⟨h', hstep⟩ := Option.isSome_iff_exists.mp hh
  obtain ⟨hone, hruns⟩ := declarations_complete protobuf
  refine ⟨h₀, _, h', hnew, declare_exchange protobuf .., ?_, ⟨h, hrun, hstep⟩, ?_⟩
  · exact (hone h₀ _ (.exchange "e" .topic true false ∅) true (declare_exchange protobuf ..)).mpr hcompletes
  · exact hruns "data" "data/meta.db" Store.vacant {} h₀ (declaredAgain ++ [.restart]) (fun _ hrow => by cases hrow) hnew
      hrelies declaredAgain h h' (List.prefix_refl _) hrun hstep

/-- The row of the exchange is not written, and nobody notices before the restart. -/
theorem declarations_incomplete : ∃ h₀ h₁ h₂ h h' : VirtualHost,
    new protobuf "data" "data/meta.db" Store.vacant { fates := List.replicate 9 .ok ++ [.fail 0] } = some h₀ ∧
    h₀.declare protobuf (.exchange "e" .topic true false ∅) = some (true, h₁) ∧
    ¬AllOrNothing h₀ (.exchange "e" .topic true false ∅) true h₁ ∧
    h₀.declare protobuf (.queue "q" true false false ∅) = some (false, h₂) ∧
    ¬AllOrNothing h₀ (.queue "q" true false false ∅) false h₂ ∧
    Lib.run (step protobuf "data" "data/meta.db") h₁ [.declareQueue "q" true false false ∅, .bind "e" "q" "a.#"] = some h ∧
    h.step protobuf "data" "data/meta.db" .restart = some h' ∧ ¬h'.Attached := by
  have hall : (new protobuf "data" "data/meta.db" Store.vacant { fates := List.replicate 9 .ok ++ [.fail 0] }).any
      (fun h₀ => !h₀.completes (.exchange "e" .topic true false ∅) && !h₀.completes (.queue "q" true false false ∅) &&
        ((h₀.declareQueue protobuf "q" true false false ∅).any fun r => !r.1) &&
        (Lib.run (step protobuf "data" "data/meta.db") (h₀.declareExchange "e" .topic true false ∅).2
          [.declareQueue "q" true false false ∅, .bind "e" "q" "a.#"]).any fun h =>
            (h.step protobuf "data" "data/meta.db" .restart).any fun h' =>
              (h'.catalog.links (.exchange "e") (.queue "q")).isSome && (h'.catalog.objects (.exchange "e")).isNone) = true := by
    decide +kernel
  obtain ⟨h₀, hnew, hh₀⟩ := (Option.any_eq_true _ _).mp hall
  simp only [Bool.and_eq_true] at hh₀
  obtain ⟨⟨⟨hexchange, hqueue⟩, hanswer⟩, hrun⟩ := hh₀
  obtain ⟨⟨ok, h₂⟩, hdecl, hok⟩ := (Option.any_eq_true _ _).mp hanswer
  obtain rfl : ok = false := by simpa using hok
  obtain ⟨h, hh, hrestart⟩ := (Option.any_eq_true _ _).mp hrun
  obtain ⟨h', hh', hlost⟩ := (Option.any_eq_true _ _).mp hrestart
  simp only [Bool.and_eq_true, Option.isNone_iff_eq_none] at hlost
  refine ⟨h₀, _, h₂, h, h', hnew, declare_exchange protobuf .., ?_, hdecl, ?_, hh, hh', ?_⟩
  · rw [declare_iff (declare_exchange protobuf ..)]
    simpa using hexchange
  · have hdecl' : declare protobuf _ (.queue "q" true false false ∅) = some (false, h₂) := hdecl
    rw [declare_iff hdecl']
    simpa using hqueue
  · intro hattached
    obtain ⟨bp, hbp⟩ := Option.isSome_iff_exists.mp hlost.1
    have hexchange := (hattached hbp).1
    rw [hlost.2] at hexchange
    cases hexchange

end VirtualHost
end HareMQ
