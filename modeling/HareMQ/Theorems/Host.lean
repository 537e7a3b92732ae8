import HareMQ.Codec
import HareMQ.Theorems.Directories
import HareMQ.Theorems.Recovery
import HareMQ.Theorems.Tables

/-! # Metadata over restarts

In every state of a run the tables hold what a restart keeps of the maps. -/

namespace HareMQ
open Lib

/-! ### Maps -/

/-- A binding is added unless there is one between the two. -/
theorem getBinding_insert (bindings : BindingMap) (bp : Binding) (ename qname e q : String) :
    ({ bindings := bindings.insert ename (((bindings.lookup ename).getD ∅).emplace qname bp) : BindingManager }).getBinding
      e q = (({ bindings } : BindingManager).getBinding e q).or (if e = ename ∧ q = qname then some bp else none) := by
  simp only [BindingManager.getBinding, UMap.lookup_insert]
  by_cases he : e = ename
  · subst he
    simp only [if_true, Option.bind_some, UMap.lookup_emplace, true_and]
    cases bindings.lookup e <;> rfl
  · simp only [he, if_false, false_and, Option.or_none]

/-- The mapper of the bindings reads the first row of each pair. -/
theorem getBinding_foldl_select (e q : String) : ∀ (rows : List BindingRow) (bindings : BindingMap),
    ({ bindings := rows.foldl BindingMapper.select bindings : BindingManager }).getBinding e q =
      (({ bindings } : BindingManager).getBinding e q).or ((rows.find? (·.joins e q)).map BindingRow.binding)
  | [], bindings => by rw [List.foldl_nil, List.find?_nil, Option.map_none, Option.or_none]
  | row :: rows, bindings => by
    have hrow : ({ bindings := BindingMapper.select bindings row } : BindingManager).getBinding e q = _ :=
      getBinding_insert bindings row.binding row.exchangeName row.msgQueueName e q
    rw [List.foldl_cons, getBinding_foldl_select e q rows, hrow, Option.or_assoc, List.find?_cons]
    by_cases hj : row.joins e q = true
    · obtain ⟨rfl, rfl⟩ := Db.joins_iff.mp hj
      simp [hj]
    · rw [if_neg fun hr => hj (Db.joins_iff.mpr ⟨hr.1.symm, hr.2.symm⟩), Option.none_or,
        (Bool.not_eq_true _).mp hj]

namespace VirtualHost
variable {h : VirtualHost}

theorem catalog_declareExchange (h : VirtualHost) (name : String) (type : ExchangeType) (durable autoDelete : Bool)
    (args : UMap String String) : (h.declareExchange name type durable autoDelete args).2.catalog =
      h.catalog.declare (.exchange name) (.exchange name type durable autoDelete) := by
  unfold declareExchange ExchangeManager.declareExchange
  cases hname : h.emp.exchanges.lookup name with
  | some exp =>
    refine (Catalog.declare_of_isSome ?_ _).symm
    simp [catalog, selectExchange, ExchangeManager.selectExchange, hname]
  | none =>
    refine metadata_ext (fun n => ?_) (fun n => rfl) fun i j => rfl
    simp only [catalog, selectExchange, ExchangeManager.selectExchange, Catalog.declare, UMap.lookup_emplace, hname,
      Function.update_apply, Name.exchange.injEq]
    by_cases hn : n = name
    · subst hn
      simp [hname, Exchange.info]
    · simp [hn]

theorem getBinding_erase (bindings : BindingMap) (ename e q : String) :
    ({ bindings := bindings.erase ename } : BindingManager).getBinding e q =
      if e = ename then none else ({ bindings } : BindingManager).getBinding e q := by
  simp only [BindingManager.getBinding, UMap.lookup_erase]
  split <;> rfl

theorem getBinding_mapValues_erase (bindings : BindingMap) (qname e q : String) :
    ({ bindings := bindings.mapValues (·.erase qname) } : BindingManager).getBinding e q =
      if q = qname then none else ({ bindings } : BindingManager).getBinding e q := by
  simp only [BindingManager.getBinding, UMap.lookup_mapValues]
  cases bindings.lookup e with
  | none => exact (ite_self none).symm
  | some qbmap => exact UMap.lookup_erase qbmap qname q

/-- A queue enters the map under its own name. The storage and the database do not show in the catalog. -/
theorem catalog_emplaceQueue (h : VirtualHost) (mmp : MessageManager) (disk : Disk) {q : MsgQueue}
    (hname : h.mqmp.msgQueues.lookup q.name = none) (db : Db) :
    ({ emp := h.emp, mqmp := { msgQueues := h.mqmp.msgQueues.emplace q.name q }, bmp := h.bmp, mmp, disk, db } :
      VirtualHost).catalog = h.catalog.declare (.queue q.name) q.info := by
  refine metadata_ext (fun n => rfl) (fun n => ?_) fun i j => rfl
  simp only [catalog, MsgQueueManager.selectQueue, Catalog.declare, UMap.lookup_emplace, Function.update_apply,
    Name.queue.injEq]
  by_cases hn : n = q.name
  · rw [if_pos hn, if_pos hn, hn, hname]
    rfl
  · rw [if_neg hn, if_neg hn, Option.or_none]

/-- A binding enters the map under the names of its exchange and its queue, which exist. -/
theorem catalog_insertBinding (h : VirtualHost) (bp : Binding)
    (he : (h.catalog.objects (.exchange bp.exchangeName)).isSome) (hq : (h.catalog.objects (.queue bp.msgQueueName)).isSome)
    (db : Db) :
    let qbmap := (h.bmp.bindings.lookup bp.exchangeName).getD ∅
    let bmp : BindingManager := ⟨h.bmp.bindings.insert bp.exchangeName (qbmap.emplace bp.msgQueueName bp)⟩
    ({ h with bmp, db } : VirtualHost).catalog =
      h.catalog.link (.exchange bp.exchangeName) (.queue bp.msgQueueName) bp := by
  refine metadata_ext (fun n => rfl) (fun n => rfl) ?_
  simp only [Catalog.link, he, hq, and_self, and_true]
  rintro (e | q) (e' | q')
  case exchange.queue =>
    refine (getBinding_insert h.bmp.bindings bp bp.exchangeName bp.msgQueueName e q').trans ?_
    simp only [Name.exchange.injEq, Name.queue.injEq]
    split
    · rfl
    · exact Option.or_none
  all_goals simp [catalog]

theorem catalog_deleteExchange (h : VirtualHost) (name : String) :
    (h.deleteExchange name).catalog = h.catalog.delete (.exchange name) := by
  have hlinks : ∀ i j, (h.deleteExchange name).catalog.links i j = (h.catalog.delete (.exchange name)).links i j := by
    rintro (ename | qname) (ename' | qname')
    case exchange.queue =>
      simp only [Catalog.delete, Name.exchange.injEq, reduceCtorEq, or_false]
      exact getBinding_erase h.bmp.bindings name ename qname'
    all_goals simp [catalog, Catalog.delete]
  have hobjects : ∀ n, (h.deleteExchange name).selectExchange n = if n = name then none else h.selectExchange n := by
    intro n
    unfold deleteExchange ExchangeManager.deleteExchange
    cases hname : h.emp.exchanges.lookup name with
    | some exp => exact UMap.lookup_erase h.emp.exchanges name n
    | none =>
      change h.emp.exchanges.lookup n = if n = name then none else h.emp.exchanges.lookup n
      split
      · next hn => rw [hn, hname]
      · rfl
  refine metadata_ext (fun n => ?_) (fun n => ?_) hlinks
  · change ((h.deleteExchange name).selectExchange n).map Exchange.info = _
    rw [hobjects]
    simp only [Catalog.delete, Function.update_apply, Name.exchange.injEq]
    split <;> rfl
  · unfold deleteExchange ExchangeManager.deleteExchange
    cases h.emp.exchanges.lookup name <;> simp [catalog, Catalog.delete]

theorem catalog_deleteQueue (h : VirtualHost) (name : String) :
    (h.deleteQueue name).catalog = h.catalog.delete (.queue name) := by
  have hlinks : ∀ i j, (h.deleteQueue name).catalog.links i j = (h.catalog.delete (.queue name)).links i j := by
    rintro (ename | qname) (ename' | qname')
    case exchange.queue =>
      simp only [Catalog.delete, Name.queue.injEq, reduceCtorEq, false_or]
      exact getBinding_mapValues_erase h.bmp.bindings name ename qname'
    all_goals simp [catalog, Catalog.delete]
  have hobjects : ∀ n, (h.deleteQueue name).mqmp.selectQueue n = if n = name then none else h.mqmp.selectQueue n := by
    intro n
    unfold deleteQueue MsgQueueManager.deleteQueue
    cases hname : h.mqmp.msgQueues.lookup name with
    | some qptr => exact UMap.lookup_erase h.mqmp.msgQueues name n
    | none =>
      change h.mqmp.msgQueues.lookup n = if n = name then none else h.mqmp.msgQueues.lookup n
      split
      · next hn => rw [hn, hname]
      · rfl
  refine metadata_ext (fun n => ?_) (fun n => ?_) hlinks
  · unfold deleteQueue MsgQueueManager.deleteQueue
    cases h.mqmp.msgQueues.lookup name <;> simp [catalog, Catalog.delete, selectExchange]
  · change ((h.deleteQueue name).mqmp.selectQueue n).map MsgQueue.info = _
    rw [hobjects]
    simp only [Catalog.delete, Function.update_apply, Name.queue.injEq]
    split <;> rfl

theorem catalog_unbind (h : VirtualHost) (ename qname : String) :
    (h.unbind ename qname).catalog = h.catalog.unlink (.exchange ename) (.queue qname) := by
  have hlinks : ∀ e q, (h.unbind ename qname).bmp.getBinding e q =
      if e = ename ∧ q = qname then none else h.bmp.getBinding e q := by
    intro e q
    unfold unbind BindingManager.unbind
    cases hqbmap : h.bmp.bindings.lookup ename with
    | none =>
      change h.bmp.getBinding e q = _
      split
      · next heq => rw [heq.1, BindingManager.getBinding, hqbmap, Option.bind_none]
      · rfl
    | some qbmap =>
      by_cases hq : qname ∈ qbmap
      · simp only [hq, if_true, BindingManager.getBinding, UMap.lookup_insert]
        by_cases he : e = ename
        · subst he
          simp only [if_true, Option.bind_some, UMap.lookup_erase, hqbmap, true_and]
        · simp only [he, if_false, false_and]
      · simp only [hq, if_false]
        split
        · next heq => rw [heq.1, heq.2, BindingManager.getBinding, hqbmap, Option.bind_some, AList.lookup_eq_none.mpr hq]
        · rfl
  refine metadata_ext (fun n => rfl) (fun n => rfl) ?_
  rintro (e | q) (e' | q')
  case exchange.queue =>
    simp only [Catalog.unlink, Name.exchange.injEq, Name.queue.injEq]
    exact hlinks e q'
  all_goals simp [catalog, Catalog.unlink]

/-! ### The tables hold what a restart keeps -/

structure Mirrored (h : VirtualHost) : Prop where
  ready : h.db.Ready
  linked : h.catalog.Linked
  mirror : h.db.catalog = h.catalog.restart Info.durable

/-- A durable object of the maps has its row, and no other object has one. -/
theorem Mirrored.objects (hm : h.Mirrored) (i : Name) : h.db.catalog.objects i = (h.catalog.objects i).filter Info.durable := by
  rw [hm.mirror]
  rfl

theorem Mirrored.objects_none (hm : h.Mirrored) {i : Name} (hi : h.catalog.objects i = none) :
    h.db.catalog.objects i = none := by
  rw [hm.objects, hi]
  rfl

theorem Mirrored.declareExchange (hm : h.Mirrored) (name : String) (type : ExchangeType) (durable autoDelete : Bool)
    (args : UMap String String) : (h.declareExchange name type durable autoDelete args).2.Mirrored := by
  have hcat := catalog_declareExchange h name type durable autoDelete args
  have hlinked := hcat ▸ hm.linked.declare (.exchange name) (.exchange name type durable autoDelete)
  suffices hdb : (h.declareExchange name type durable autoDelete args).2.db.Ready ∧
      (h.declareExchange name type durable autoDelete args).2.db.catalog =
        (h.catalog.declare (.exchange name) (.exchange name type durable autoDelete)).restart Info.durable from
    ⟨hdb.1, hlinked, by rw [hdb.2, hcat]⟩
  unfold VirtualHost.declareExchange ExchangeManager.declareExchange
  cases hname : h.emp.exchanges.lookup name with
  | some exp =>
    rw [Catalog.declare_of_isSome (by simp [catalog, selectExchange, ExchangeManager.selectExchange, hname])]
    exact ⟨hm.ready, hm.mirror⟩
  | none =>
    have hnone : h.catalog.objects (.exchange name) = none := by
      simp [catalog, selectExchange, ExchangeManager.selectExchange, hname]
    cases durable with
    | true =>
      obtain ⟨ok, db', hexec, hready, hdb'⟩ := Db.exec_insertExchange hm.ready
        { name, type, durable := true, autoDelete, args := Args.get args }
      simp only [if_true, ExchangeMapper.insert, Exchange.getArgs, hexec]
      exact ⟨hready, by rw [hdb', hm.mirror, Catalog.restart_declare_durable hm.linked hnone rfl]; rfl⟩
    | false => exact ⟨hm.ready, by rw [Catalog.restart_declare_transient hm.linked hnone rfl]; exact hm.mirror⟩

/-- The bindings of an object are dropped first; its row is deleted when it is durable, and is not there when it is
    not. -/
theorem Mirrored.delete (hm : h.Mirrored) {h' : VirtualHost} {i : Name} {dropped : Db} {statement : Db → Option Db}
    (hcat : h'.catalog = h.catalog.delete i)
    (hdb : h'.db = if h.catalog.lasting Info.durable i then (dropped.exec statement).2 else dropped)
    (hdropped : dropped.Ready ∧ dropped.catalog.objects = h.db.catalog.objects ∧
      ∀ a b, dropped.catalog.links a b = if a = i ∨ b = i then none else h.db.catalog.links a b)
    (hdeleted : (dropped.exec statement).2.Ready ∧
      (dropped.exec statement).2.catalog.objects = Function.update dropped.catalog.objects i none ∧
      (dropped.exec statement).2.catalog.links = dropped.catalog.links) : h'.Mirrored where
  ready := by
    rw [hdb]
    split
    · exact hdeleted.1
    · exact hdropped.1
  linked := hcat ▸ hm.linked.delete i
  mirror := by
    rw [hcat, Catalog.restart_delete, ← hm.mirror, hdb]
    split
    · refine Catalog.ext (fun a => ?_) fun a b => ?_
      · rw [hdeleted.2.1, hdropped.2.1]
        rfl
      · rw [hdeleted.2.2]
        exact hdropped.2.2 a b
    · next hlasting =>
      have hnone : h.db.catalog.objects i = none := by
        rw [hm.objects, Option.filter_eq_none_iff]
        intro v hv hd
        exact hlasting (by rw [Catalog.lasting, hv]; exact hd)
      refine Catalog.ext (fun a => ?_) hdropped.2.2
      rw [hdropped.2.1, Catalog.delete, ← hnone, Function.update_eq_self]

theorem Mirrored.deleteExchange (hm : h.Mirrored) (name : String) : (h.deleteExchange name).Mirrored := by
  have hdropped := Db.exec_deleteBindings hm.ready (fun row => row.exchangeName = name)
    (fun i j => i = .exchange name ∨ j = .exchange name) fun row => by simp
  refine hm.delete (catalog_deleteExchange h name) ?_ hdropped (Db.exec_deleteExchanges hdropped.1 name)
  have hlasting : h.catalog.lasting Info.durable (.exchange name) = (h.emp.exchanges.lookup name).any (·.durable) :=
    Option.any_map ..
  rw [hlasting]
  unfold VirtualHost.deleteExchange ExchangeManager.deleteExchange
  cases h.emp.exchanges.lookup name with
  | none => rfl
  | some exp => rfl

theorem Mirrored.deleteQueue (hm : h.Mirrored) (name : String) : (h.deleteQueue name).Mirrored := by
  have hdropped := Db.exec_deleteBindings hm.ready (fun row => row.msgQueueName = name)
    (fun i j => i = .queue name ∨ j = .queue name) fun row => by simp
  refine hm.delete (catalog_deleteQueue h name) ?_ hdropped (Db.exec_deleteQueues hdropped.1 name)
  have hlasting : h.catalog.lasting Info.durable (.queue name) = (h.mqmp.msgQueues.lookup name).any (·.durable) :=
    Option.any_map ..
  rw [hlasting]
  unfold VirtualHost.deleteQueue MsgQueueManager.deleteQueue
  cases h.mqmp.msgQueues.lookup name with
  | none => rfl
  | some qptr => rfl

theorem Mirrored.unbind (hm : h.Mirrored) (ename qname : String) : (h.unbind ename qname).Mirrored := by
  have hcat := catalog_unbind h ename qname
  suffices hdb : (h.unbind ename qname).db.Ready ∧ (h.unbind ename qname).db.catalog =
      h.db.catalog.unlink (.exchange ename) (.queue qname) from
    ⟨hdb.1, hcat ▸ hm.linked.unlink _ _, by rw [hdb.2, hcat, hm.mirror, Catalog.restart_unlink]⟩
  have hunlink : h.catalog.links (.exchange ename) (.queue qname) = none →
      h.db.catalog = h.db.catalog.unlink (.exchange ename) (.queue qname) := fun hnone => by
    refine Catalog.ext (fun i => rfl) fun i j => ?_
    simp only [Catalog.unlink]
    split
    · next hij => simp only [hij.1, hij.2, hm.mirror, Catalog.restart, hnone, ite_self]
    · rfl
  unfold VirtualHost.unbind BindingManager.unbind
  cases hqbmap : h.bmp.bindings.lookup ename with
  | none => exact ⟨hm.ready, hunlink (by simp [catalog, BindingManager.getBinding, hqbmap])⟩
  | some qbmap =>
    by_cases hq : qname ∈ qbmap
    · obtain ⟨hready, hobjects, hlinks⟩ := Db.exec_deleteBindings hm.ready
        (fun row => row.exchangeName = ename && row.msgQueueName = qname)
        (fun i j => i = .exchange ename ∧ j = .queue qname) fun row => by simp
      simp only [hq, if_true]
      exact ⟨hready, Catalog.ext (fun i => congrFun hobjects i) hlinks⟩
    · simp only [hq, if_false]
      refine ⟨hm.ready, hunlink ?_⟩
      simp [catalog, BindingManager.getBinding, hqbmap, AList.lookup_eq_none.mpr hq]

/-- A queue that is not declared yet is free in its table too, so that the insertion succeeds. -/
theorem Mirrored.declareQueue {pb : PayloadCodec} (hm : h.Mirrored) {qname : String}
    {qdurable qexclusive qautoDelete : Bool} {qargs : UMap String String} {ok : Bool} {h' : VirtualHost}
    (hdecl : h.declareQueue pb qname qdurable qexclusive qautoDelete qargs = some (ok, h')) :
    h'.catalog = h.catalog.declare (.queue qname) (.queue qname qdurable qexclusive qautoDelete) ∧ h'.Mirrored := by
  unfold VirtualHost.declareQueue at hdecl
  cases hinit : h.mmp.initQueueMsg pb qname h.disk with
  | none =>
    rw [hinit] at hdecl
    cases hdecl
  | some md =>
    obtain ⟨mmp, disk⟩ := md
    rw [hinit] at hdecl
    unfold MsgQueueManager.declareQueue at hdecl
    cases hname : h.mqmp.msgQueues.lookup qname with
    | some qptr =>
      simp only [hname, Option.some.injEq, Prod.mk.injEq] at hdecl
      obtain ⟨-, rfl⟩ := hdecl
      have hsome : (h.catalog.objects (.queue qname)).isSome := by
        simp [catalog, MsgQueueManager.selectQueue, hname]
      exact ⟨(Catalog.declare_of_isSome hsome _).symm, hm.ready, hm.linked, hm.mirror⟩
    | none =>
      have hnone : h.catalog.objects (.queue qname) = none := by
        simp [catalog, MsgQueueManager.selectQueue, hname]
      have hcat := h.catalog_emplaceQueue mmp disk (q := ⟨qname, qdurable, qexclusive, qautoDelete, qargs⟩) hname
      have hlinked := hm.linked.declare (.queue qname) (.queue qname qdurable qexclusive qautoDelete)
      cases qdurable with
      | true =>
        obtain ⟨ok', db', hexec, hready, hdb', hok⟩ := Db.exec_insertQueue hm.ready
          { name := qname, durable := true, exclusive := qexclusive, autoDelete := qautoDelete, args := Args.get qargs }
        obtain rfl := hok (hm.objects_none hnone)
        simp only [hname, if_true, MsgQueueMapper.insert, MsgQueue.getArgs, hexec, Option.some.injEq,
          Prod.mk.injEq] at hdecl
        obtain ⟨-, rfl⟩ := hdecl
        refine ⟨hcat db', hready, hcat db' ▸ hlinked, ?_⟩
        rw [hcat, hdb', hm.mirror, Catalog.restart_declare_durable hm.linked hnone rfl]
        rfl
      | false =>
        simp only [hname, Bool.false_eq_true, if_false, Option.some.injEq, Prod.mk.injEq] at hdecl
        obtain ⟨-, rfl⟩ := hdecl
        refine ⟨hcat h.db, hm.ready, hcat h.db ▸ hlinked, ?_⟩
        rw [hcat, Catalog.restart_declare_transient hm.linked hnone rfl]
        exact hm.mirror

theorem Mirrored.bind (hm : h.Mirrored) (ename qname key : String) :
    (h.bind ename qname key).2.catalog = h.catalog.link (.exchange ename) (.queue qname) ⟨ename, qname, key⟩ ∧
      (h.bind ename qname key).2.Mirrored := by
  unfold VirtualHost.bind
  cases hep : h.emp.selectExchange ename with
  | none =>
    refine ⟨(Catalog.link_of_missing (fun hij => ?_) _).symm, hm⟩
    simp [catalog, selectExchange, hep] at hij
  | some ep =>
    cases hmqp : h.mqmp.selectQueue qname with
    | none =>
      refine ⟨(Catalog.link_of_missing (fun hij => ?_) _).symm, hm⟩
      simp [catalog, hmqp] at hij
    | some mqp =>
      unfold BindingManager.bind
      by_cases hex : h.bmp.exists? ename qname = true
      · simp only [hex, if_true]
        exact ⟨(Catalog.link_of_isSome (c := h.catalog) (i := .exchange ename) (j := .queue qname) hex _).symm, hm.ready, hm.linked, hm.mirror⟩
      · have hobj : h.catalog.objects (.exchange ename) = some ep.info := congrArg (Option.map Exchange.info) hep
        have hobj' : h.catalog.objects (.queue qname) = some mqp.info := congrArg (Option.map MsgQueue.info) hmqp
        have hcat := h.catalog_insertBinding ⟨ename, qname, key⟩ (by rw [hobj]; rfl) (by rw [hobj']; rfl)
        have hlinked := hm.linked.link (.exchange ename) (.queue qname) ⟨ename, qname, key⟩
        have hlasting : (h.catalog.lasting Info.durable (.exchange ename) &&
            h.catalog.lasting Info.durable (.queue qname)) = (ep.durable && mqp.durable) := by
          rw [Catalog.lasting, Catalog.lasting, hobj, hobj']
          rfl
        simp only [hex, Bool.false_eq_true, if_false]
        cases hd : ep.durable && mqp.durable with
        | true =>
          rw [hd, Bool.and_eq_true] at hlasting
          have exist : ∀ i, h.catalog.lasting Info.durable i = true → (h.db.catalog.objects i).isSome := fun i hi => by
            obtain ⟨v, hv, hdv⟩ := (Option.any_eq_true _ _).mp hi
            rw [hm.objects, hv, Option.filter_some, if_pos hdv]
            rfl
          obtain ⟨db', hexec, hready, hdb'⟩ := Db.exec_insertBinding hm.ready ⟨ename, qname, key⟩
            (exist _ hlasting.1) (exist _ hlasting.2)
          simp only [if_true, BindingMapper.insert, hexec]
          refine ⟨hcat db', hready, hcat db' ▸ hlinked, ?_⟩
          rw [hcat, hdb', hm.mirror, Catalog.restart_link_durable hlasting.1 hlasting.2]
          rfl
        | false =>
          rw [hd] at hlasting
          simp only [Bool.false_eq_true, if_false]
          refine ⟨hcat h.db, hm.ready, hcat h.db ▸ hlinked, ?_⟩
          rw [hcat, Catalog.restart_link_transient hlasting]
          exact hm.mirror

/-! ### Restart -/

theorem openTable_calm {db db' : Db} (hcalm : db.Calm) (create : Db → Option Db) (hcreate : create db = some db')
    (dbfile : String) (d : Disk) :
    Db.openTable create dbfile d db = some ((FileHelper.createDir d (FileHelper.parentDir dbfile)).2, db') := by
  have hopen : db.openFile = (true, db) := hcalm.exec_some rfl
  simp only [Db.openTable, hopen, hcalm.exec_some hcreate]

/-- The host that the constructor builds from the tables. -/
def loaded (db : Db) (md : MessageManager × Disk) : VirtualHost where
  emp := { exchanges := (db.exchangeTable.getD []).foldl ExchangeMapper.select ∅ }
  mqmp := { msgQueues := (db.queueTable.getD []).foldl MsgQueueMapper.select ∅ }
  bmp := { bindings := (db.bindingTable.getD []).foldl BindingMapper.select ∅ }
  mmp := md.1
  disk := md.2
  db := { db with
    exchangeTable := some (db.exchangeTable.getD [])
    queueTable := some (db.queueTable.getD [])
    bindingTable := some (db.bindingTable.getD []) }

theorem new_eq (pb : PayloadCodec) (basedir dbfile : String) (d : Disk) {db : Db} (hcalm : db.Calm) :
    ∃ d', d.Grows d' ∧ new pb basedir dbfile d db =
      (initAll pb { baseDir := basedir } d' (loaded db ({ baseDir := basedir }, d)).mqmp.msgQueues.keys).map (loaded db) := by
  let dir : Disk → Disk := fun d => (FileHelper.createDir d (FileHelper.parentDir dbfile)).2
  have hdir : ∀ d, Disk.Grows d (dir d) := fun d => FileHelper.createDir_grows d _
  refine ⟨dir (dir (dir d)), (hdir d).trans ((hdir _).trans (hdir _)), ?_⟩
  let db₁ : Db := { db with exchangeTable := some (db.exchangeTable.getD []) }
  let db₂ : Db := { db₁ with queueTable := some (db.queueTable.getD []) }
  let db₃ : Db := { db₂ with bindingTable := some (db.bindingTable.getD []) }
  have hcalm₁ : db₁.Calm := hcalm
  have hcalm₂ : db₂.Calm := hcalm
  have hcalm₃ : db₃.Calm := hcalm
  have hopen₁ : Db.openTable Db.createExchangeTable dbfile d db = some (dir d, db₁) := openTable_calm hcalm Db.createExchangeTable rfl dbfile d
  have hopen₂ : Db.openTable Db.createQueueTable dbfile (dir d) db₁ = some (dir (dir d), db₂) :=
    openTable_calm hcalm₁ Db.createQueueTable rfl dbfile (dir d)
  have hopen₃ : Db.openTable Db.createBindingTable dbfile (dir (dir d)) db₂ = some (dir (dir (dir d)), db₃) :=
    openTable_calm hcalm₂ Db.createBindingTable rfl dbfile (dir (dir d))
  have hemp : ExchangeManager.new dbfile d db = some ((loaded db ({ baseDir := basedir }, d)).emp, dir d, db₁) := by
    simp only [ExchangeManager.new, ExchangeMapper.new, hopen₁, ExchangeMapper.all, hcalm₁.query]
    rfl
  have hmqmp : MsgQueueManager.new dbfile (dir d) db₁ =
      some ((loaded db ({ baseDir := basedir }, d)).mqmp, dir (dir d), db₂) := by
    simp only [MsgQueueManager.new, MsgQueueMapper.new, hopen₂, MsgQueueMapper.all, hcalm₂.query]
    rfl
  have hbmp : BindingManager.new dbfile (dir (dir d)) db₂ =
      some ((loaded db ({ baseDir := basedir }, d)).bmp, dir (dir (dir d)), db₃) := by
    simp only [BindingManager.new, BindingMapper.new, hopen₃, BindingMapper.all, hcalm₃.query]
    rfl
  simp only [new, hemp, hmqmp, hbmp]
  split
  · next hnone => rw [hnone, Option.map_none]
  · next hsome => rw [hsome, Option.map_some]; rfl

theorem catalog_loaded (db : Db) (md : MessageManager × Disk) : (loaded db md).catalog = db.catalog := by
  refine metadata_ext (fun n => ?_) (fun n => ?_) ?_
  · simp only [catalog, Db.catalog, selectExchange, ExchangeManager.selectExchange, loaded]
    refine (congrArg _ (UMap.lookup_foldl_emplace _ _ n _ ∅)).trans ?_
    simp only [AList.lookup_empty, Option.none_or, Option.map_map]
    rfl
  · simp only [catalog, Db.catalog, MsgQueueManager.selectQueue, loaded]
    refine (congrArg _ (UMap.lookup_foldl_emplace _ _ n _ ∅)).trans ?_
    simp only [AList.lookup_empty, Option.none_or, Option.map_map]
    rfl
  · rintro (e | q) (e' | q')
    case exchange.queue => exact getBinding_foldl_select e q' _ ∅
    all_goals rfl

/-- The three managers read their tables one after the other; the files do not matter to them. -/
theorem new_mirrored {pb : PayloadCodec} {basedir dbfile : String} {d : Disk} {db : Db} (hcalm : db.Calm) {c : Metadata}
    (hdb : db.catalog = c.restart Info.durable) (hnew : new pb basedir dbfile d db = some h) :
    h.catalog = c.restart Info.durable ∧ h.Mirrored := by
  obtain ⟨d', -, heq⟩ := new_eq pb basedir dbfile d hcalm
  rw [heq, Option.map_eq_some_iff] at hnew
  obtain ⟨md, -, rfl⟩ := hnew
  have hcat : (loaded db md).catalog = c.restart Info.durable := (catalog_loaded db md).trans hdb
  refine ⟨hcat, ⟨hcalm, rfl, rfl, rfl⟩, hcat ▸ Catalog.linked_restart Info.durable c, ?_⟩
  rw [hcat, Catalog.restart_restart]
  exact hdb

/-- An existing base directory is all that a start needs. -/
theorem initAll_of_isDir (pb : PayloadCodec) : ∀ (qnames : List String) (mmp : MessageManager) {d : Disk},
    d.isDir (MessageMapper.directory mmp.baseDir) = true → ∃ mmp' d', initAll pb mmp d qnames = some (mmp', d') ∧
      mmp'.baseDir = mmp.baseDir ∧ d.Grows d'
  | [], mmp, d, _ => ⟨mmp, d, rfl, rfl, .of_dirs rfl⟩
  | qname :: qnames, mmp, d, hdir => by
    obtain ⟨mmp₁, d₁, hinit, hbase₁, hgrows₁⟩ := mmp.initQueueMsg_of_isDir pb qname hdir
    obtain ⟨mmp₂, d₂, hrest, hbase₂, hgrows₂⟩ := initAll_of_isDir pb qnames mmp₁ (hbase₁ ▸ hgrows₁.isDir hdir)
    refine ⟨mmp₂, d₂, ?_, hbase₂.trans hbase₁, hgrows₁.trans hgrows₂⟩
    rw [initAll, hinit]
    exact hrest

/-- The host runs in its base directory, which exists. -/
structure Housed (basedir : String) (h : VirtualHost) : Prop where
  baseDir : h.mmp.baseDir = basedir
  isDir : h.disk.isDir (MessageMapper.directory basedir) = true

theorem new_of_isDir (pb : PayloadCodec) {basedir : String} (dbfile : String) {d : Disk} {db : Db} (hcalm : db.Calm)
    (hdir : d.isDir (MessageMapper.directory basedir) = true) :
    ∃ h, new pb basedir dbfile d db = some h ∧ h.Housed basedir := by
  obtain ⟨d₁, hgrows, heq⟩ := new_eq pb basedir dbfile d hcalm
  obtain ⟨mmp, d₂, hinit, hbase, hgrows₂⟩ := initAll_of_isDir pb _ { baseDir := basedir } (hgrows.isDir hdir)
  rw [heq, hinit]
  exact ⟨_, rfl, hbase, hgrows₂.isDir (hgrows.isDir hdir)⟩

/-! ### Runs -/

section
variable {pb : PayloadCodec} {basedir dbfile : String} {h' : VirtualHost} {op : HostOp}

/-- One operation changes the metadata as intended, and the tables follow. -/
theorem step_mirrored (hm : h.Mirrored) (hstep : h.step pb basedir dbfile op = some h') :
    h'.catalog = op.effect h.catalog ∧ h'.Mirrored := by
  cases op with
  | declareExchange name type durable autoDelete args =>
    obtain rfl := Option.some.inj hstep
    exact ⟨catalog_declareExchange .., hm.declareExchange ..⟩
  | deleteExchange name =>
    obtain rfl := Option.some.inj hstep
    exact ⟨catalog_deleteExchange .., hm.deleteExchange name⟩
  | declareQueue qname qdurable qexclusive qautoDelete qargs =>
    obtain ⟨⟨ok, h₁⟩, hdecl, rfl⟩ := Option.map_eq_some_iff.mp hstep
    exact hm.declareQueue hdecl
  | deleteQueue name =>
    obtain rfl := Option.some.inj hstep
    exact ⟨catalog_deleteQueue .., hm.deleteQueue name⟩
  | bind ename qname key =>
    obtain rfl := Option.some.inj hstep
    exact hm.bind ename qname key
  | unbind ename qname =>
    obtain rfl := Option.some.inj hstep
    exact ⟨catalog_unbind .., hm.unbind ename qname⟩
  | restart => exact new_mirrored hm.ready.calm hm.mirror hstep

theorem run_mirrored : ∀ {ops : List HostOp} {h : VirtualHost}, h.Mirrored → h.run pb basedir dbfile ops = some h' →
    h'.catalog = ops.foldl HostOp.effect h.catalog ∧ h'.Mirrored
  | [], h, hm, hrun => Option.some.inj hrun ▸ ⟨rfl, hm⟩
  | op :: ops, h, hm, hrun => by
    rw [run] at hrun
    cases hstep : h.step pb basedir dbfile op with
    | none =>
      rw [hstep] at hrun
      cases hrun
    | some h₁ =>
      rw [hstep] at hrun
      obtain ⟨hcat, hm₁⟩ := step_mirrored hm hstep
      rw [List.foldl_cons, ← hcat]
      exact run_mirrored hm₁ hrun

variable (pb) (dbfile) in
/-- No operation aborts in an existing directory. -/
theorem step_of_housed (hm : h.Mirrored) (hh : h.Housed basedir) (op : HostOp) :
    ∃ h', h.step pb basedir dbfile op = some h' ∧ h'.Housed basedir := by
  cases op with
  | declareExchange name type durable autoDelete args => exact ⟨_, rfl, hh.baseDir, hh.isDir⟩
  | deleteExchange name => exact ⟨_, rfl, hh.baseDir, hh.isDir⟩
  | declareQueue qname qdurable qexclusive qautoDelete qargs =>
    obtain ⟨mmp, d, hinit, hbase, hgrows⟩ := h.mmp.initQueueMsg_of_isDir pb qname (hh.baseDir.symm ▸ hh.isDir)
    rw [step, VirtualHost.declareQueue, hinit]
    exact ⟨_, rfl, hbase.trans hh.baseDir, hgrows.isDir hh.isDir⟩
  | deleteQueue name =>
    obtain ⟨hdirs, hbase⟩ := h.mmp.dirs_destroyQueueMsg name h.disk
    exact ⟨_, rfl, hbase.trans hh.baseDir, (Disk.Grows.of_dirs hdirs).isDir hh.isDir⟩
  | bind ename qname key =>
    have hkeep : (h.bind ename qname key).2.mmp = h.mmp ∧ (h.bind ename qname key).2.disk = h.disk := by
      unfold VirtualHost.bind
      split
      · exact ⟨rfl, rfl⟩
      · split
        · exact ⟨rfl, rfl⟩
        · exact ⟨rfl, rfl⟩
    exact ⟨_, rfl, by rw [hkeep.1]; exact hh.baseDir, by rw [hkeep.2]; exact hh.isDir⟩
  | unbind ename qname => exact ⟨_, rfl, hh.baseDir, hh.isDir⟩
  | restart => exact new_of_isDir pb dbfile hm.ready.calm hh.isDir

variable (dbfile) in
theorem run_of_housed : ∀ (ops : List HostOp) {h : VirtualHost}, h.Mirrored → h.Housed basedir →
    ∃ h', h.run pb basedir dbfile ops = some h' ∧ h'.Housed basedir
  | [], h, _, hh => ⟨h, rfl, hh⟩
  | op :: ops, h, hm, hh => by
    obtain ⟨h₁, hstep, hh₁⟩ := step_of_housed pb dbfile hm hh op
    obtain ⟨h₂, hrun, hh₂⟩ := run_of_housed ops (step_mirrored hm hstep).2 hh₁
    exact ⟨h₂, by rw [run, hstep]; exact hrun, hh₂⟩

/-- What the host `h'` after a restart has of the host `h` before it. -/
structure Survives (h h' : VirtualHost) : Prop where
  exchange : ∀ name, (h'.selectExchange name).map Exchange.info =
    ((h.selectExchange name).filter (·.durable)).map Exchange.info
  queue : ∀ name, (h'.mqmp.selectQueue name).map MsgQueue.info =
    ((h.mqmp.selectQueue name).filter (·.durable)).map MsgQueue.info
  binding : ∀ ename qname, h'.bmp.getBinding ename qname =
    if (h.selectExchange ename).any (·.durable) && (h.mqmp.selectQueue qname).any (·.durable) then
      h.bmp.getBinding ename qname
    else none

theorem survives_of_catalog (hcat : h'.catalog = h.catalog.restart Info.durable) : Survives h h' where
  exchange name := (congrArg (·.objects (.exchange name)) hcat).trans (Option.filter_map ..)
  queue name := (congrArg (·.objects (.queue name)) hcat).trans (Option.filter_map ..)
  binding ename qname := by
    have hlinks := congrArg (·.links (.exchange ename) (.queue qname)) hcat
    have hexchange : h.catalog.lasting Info.durable (.exchange ename) = (h.selectExchange ename).any (·.durable) :=
      Option.any_map ..
    have hqueue : h.catalog.lasting Info.durable (.queue qname) = (h.mqmp.selectQueue qname).any (·.durable) :=
      Option.any_map ..
    rw [← hexchange, ← hqueue]
    exact hlinks

theorem Survives.links (hs : Survives h h') {c : Metadata} (hcat : h.catalog = c) (ename qname : String) :
    h'.bmp.getBinding ename qname = (c.restart Info.durable).links (.exchange ename) (.queue qname) := by
  obtain rfl := hcat
  refine (hs.binding ename qname).trans ?_
  simp only [Catalog.restart, Catalog.lasting, catalog, Option.any_map]
  rfl

end

/-- From an empty database on, the maps hold what was declared and bound, and a restart at any point keeps of it the
    durable exchanges, the durable queues and the bindings between these. In an existing base directory the run and the
    restart go through. -/
theorem restart_survives (pb : PayloadCodec) (basedir dbfile : String) (d : Disk) (ops : List HostOp) :
    (∀ h₀ h, new pb basedir dbfile d {} = some h₀ → h₀.run pb basedir dbfile ops = some h →
      h.catalog = ops.foldl HostOp.effect {} ∧
        ∀ h', h.step pb basedir dbfile .restart = some h' → Survives h h') ∧
    (d.isDir (MessageMapper.directory basedir) = true → ∃ h₀ h h', new pb basedir dbfile d {} = some h₀ ∧
      h₀.run pb basedir dbfile ops = some h ∧ h.step pb basedir dbfile .restart = some h') := by
  have hcalm : ({} : Db).Calm := rfl
  refine ⟨fun h₀ h hnew hrun => ?_, fun hdir => ?_⟩
  · obtain ⟨hcat₀, hm₀⟩ := new_mirrored hcalm vacant_catalog hnew
    obtain ⟨hcat, hm⟩ := run_mirrored hm₀ hrun
    refine ⟨?_, fun h' hstep => survives_of_catalog (step_mirrored hm hstep).1⟩
    rw [hcat, hcat₀]
    congr 1
  · obtain ⟨h₀, hnew, hh₀⟩ := new_of_isDir pb dbfile hcalm hdir
    have hm₀ := (new_mirrored hcalm vacant_catalog hnew).2
    obtain ⟨h, hrun, hh⟩ := run_of_housed dbfile ops hm₀ hh₀
    obtain ⟨h', hstep, -⟩ := step_of_housed pb dbfile (run_mirrored hm₀ hrun).2 hh .restart
    exact ⟨h₀, h, h', hnew, hrun, hstep⟩

/-- Queue `r` is deleted and declared again without durability: neither it nor its binding comes back. -/
def redeclared : List HostOp :=
  [.declareExchange "e" .topic true false ∅, .declareQueue "q" true false false ∅, .bind "e" "q" "a.#",
    .declareQueue "r" true false true ∅, .bind "e" "r" "b", .restart, .deleteQueue "r",
    .declareQueue "r" false false true ∅, .bind "e" "r" "b"]

theorem restart_survives_redeclared : ∃ h₀ h h', new protobuf "data" "data/meta.db" Store.vacant {} = some h₀ ∧
    h₀.run protobuf "data" "data/meta.db" redeclared = some h ∧
    h.step protobuf "data" "data/meta.db" .restart = some h' ∧
    h.bmp.getBinding "e" "r" = some ⟨"e", "r", "b"⟩ ∧ h'.bmp.getBinding "e" "q" = some ⟨"e", "q", "a.#"⟩ ∧
    h'.bmp.getBinding "e" "r" = none := by
  obtain ⟨hmeta, hruns⟩ := restart_survives protobuf "data" "data/meta.db" Store.vacant redeclared
  obtain ⟨h₀, h, h', hnew, hrun, hstep⟩ := hruns (by decide +kernel)
  obtain ⟨hcat, hsurvives⟩ := hmeta h₀ h hnew hrun
  have hlinks := (hsurvives h' hstep).links hcat
  refine ⟨h₀, h, h', hnew, hrun, hstep, ?_, ?_, ?_⟩
  · have hlink : (redeclared.foldl HostOp.effect {}).links (.exchange "e") (.queue "r") = some ⟨"e", "r", "b"⟩ := by
      decide +kernel
    exact (congrArg (·.links (.exchange "e") (.queue "r")) hcat).trans hlink
  · exact (hlinks "e" "q").trans (by decide +kernel)
  · exact (hlinks "e" "r").trans (by decide +kernel)

end VirtualHost
end HareMQ
