import HareMQ.Codec
import HareMQ.Theorems.Declarations
import HareMQ.Theorems.Transient

/-! # A host after `clear`

A cleared host and a new one over an empty directory and an empty database, call by call. -/

namespace HareMQ
open Lib

/-! ### `clear` -/

/-- What `clear` leaves of a queue. -/
def QueueMessage.Cleared (q : QueueMessage) : Prop := q.msgs = [] ∧ q.waitAckMsgs = ∅

theorem QueueMessage.Cleared.light {q : QueueMessage} (h : q.Cleared) : q.Light where
  bounded r hr := by
    rw [h.1] at hr
    cases hr
  waits_lt hr := by
    rw [h.2] at hr
    cases hr
  pending r hr := by
    rw [h.1] at hr
    cases hr
  waits hr := by
    rw [h.2] at hr
    cases hr

theorem QueueMessage.Cleared.view {q : QueueMessage} (h : q.Cleared) : q.view = {} := by
  rw [QueueMessage.view, QueueMessage.pending, h.1, h.2]
  rfl

namespace MessageManager

theorem foldl_clear : ∀ (entries : List (Sigma fun _ : String => QueueMessage)) (m : MessageManager) (d : Disk) (m' : MessageManager)
    (d' : Disk), entries.foldl (fun (m, d) e => match e.2.clear d with | (qmp, d) => (m.put e.1 qmp, d)) (m, d) = (m', d') →
    m'.baseDir = m.baseDir ∧ d.Grows d' ∧ ∀ name q, m'.queueMsgs.lookup name = some q →
      q.Cleared ∨ (m.queueMsgs.lookup name = some q ∧ name ∉ entries.map (·.1))
  | [], m, d, m', d', hfold => by
    cases hfold
    exact ⟨rfl, .of_dirs rfl, fun name q hq => Or.inr ⟨hq, nofun⟩⟩
  | e :: entries, m, d, m', d', hfold => by
    obtain ⟨hbase, hgrows, hq⟩ := foldl_clear entries (m.put e.1 (e.2.clear d).1) (e.2.clear d).2 m' d' hfold
    refine ⟨hbase, (Disk.Grows.of_dirs (e.2.clear_only d).dirs).trans hgrows, fun name q hlookup => ?_⟩
    obtain hcleared | ⟨hput, hnot⟩ := hq name q hlookup
    · exact Or.inl hcleared
    · rw [put, UMap.lookup_insert] at hput
      split at hput
      · cases hput
        exact Or.inl ⟨rfl, rfl⟩
      · next hne =>
        refine Or.inr ⟨hput, fun hmem => ?_⟩
        exact (List.mem_cons.mp hmem).elim hne hnot

theorem clear_cleared {m m' : MessageManager} {d d' : Disk} (hclear : m.clear d = (m', d')) : m'.baseDir = m.baseDir ∧
    d.Grows d' ∧ ∀ name q, m'.queueMsgs.lookup name = some q → q.Cleared := by
  obtain ⟨hbase, hgrows, hq⟩ := foldl_clear _ m d m' d' hclear
  refine ⟨hbase, hgrows, fun name q hlookup => (hq name q hlookup).resolve_right fun ⟨hm, hnot⟩ => hnot ?_⟩
  exact AList.mem_keys.mp (UMap.mem_of_lookup hm)

end MessageManager

namespace VirtualHost
variable {pb : PayloadCodec} {h h' : VirtualHost}

/-- `clear` empties the maps and drops the table of queues. -/
theorem clear_renewed (hdir : h.disk.isDir (MessageMapper.directory h.mmp.baseDir) = true) (hclear : h.clear = some h') :
    h'.Light ∧ h'.view = {} ∧ h'.db.queueTable = none ∧ h'.mmp.baseDir = h.mmp.baseDir := by
  unfold clear ExchangeManager.clearExchange MsgQueueManager.clearQueues BindingManager.clearBindings at hclear
  cases hdrop₁ : ExchangeMapper.removeTable h.db with
  | none => simp [hdrop₁] at hclear
  | some db₁ =>
    cases hdrop₂ : MsgQueueMapper.removeTable db₁ with
    | none => simp [hdrop₁, hdrop₂] at hclear
    | some db₂ =>
      cases hdrop₃ : BindingMapper.removeTable db₂ with
      | none => simp [hdrop₁, hdrop₂, hdrop₃] at hclear
      | some db₃ =>
        obtain ⟨⟨mmp, disk⟩, hmmp⟩ : ∃ x, h.mmp.clear h.disk = x := ⟨_, rfl⟩
        simp only [hdrop₁, hdrop₂, hdrop₃, hmmp, Option.some.injEq] at hclear
        obtain rfl := hclear
        obtain ⟨hbase, hgrows, hcleared⟩ := MessageManager.clear_cleared hmmp
        have htable₂ : db₂.queueTable = none := by
          obtain rfl := Option.some.inj (Db.removeTable_eq_some Db.dropQueueTable hdrop₂)
          rfl
        have htable₃ : db₃.queueTable = db₂.queueTable := by
          obtain rfl := Option.some.inj (Db.removeTable_eq_some Db.dropBindingTable hdrop₃)
          rfl
        refine ⟨⟨fun name q hq => (hcleared name q hq).light, nofun, nofun, ?_⟩, ?_, htable₃.trans htable₂, hbase⟩
        · rw [hbase]
          exact hgrows.isDir hdir
        · have hview : mmp.view = fun _ => {} := by
            funext name
            cases hlookup : mmp.queueMsgs.lookup name with
            | none => exact MessageManager.view_of_missing hlookup
            | some q => exact (MessageManager.view_of_lookup hlookup).trans (hcleared name q hlookup).view
          rw [VirtualHost.view, hview]

/-! ### The base directory stays -/

theorem openTable_disk {create : Db → Option Db} {dbfile : String} {d d' : Disk} {db db' : Db}
    (hopen : Db.openTable create dbfile d db = some (d', db')) : d.Grows d' ∧ d'.files = d.files := by
  have hgrows := FileHelper.createDir_grows d (FileHelper.parentDir dbfile)
  obtain ⟨ok, d₁, hcreate, hmk, -⟩ := FileHelper.createDirFrom_spec (FileHelper.parentDir dbfile).toList [] d nofun
  have hcreate' : FileHelper.createDir d (FileHelper.parentDir dbfile) = (ok, d₁) := hcreate
  unfold Db.openTable at hopen
  rw [hcreate'] at hopen hgrows
  dsimp only at hopen
  split at hopen
  · cases hopen
  · split at hopen
    · cases hopen
    · cases hopen
      exact ⟨hgrows, hmk.files⟩

/-- A start leaves the directory and the files alone up to the start of the queues. -/
theorem new_disk {basedir dbfile : String} {d : Disk} {db : Db} (hnew : new pb basedir dbfile d db = some h) :
    ∃ d₃, d.Grows d₃ ∧ d₃.files = d.files ∧
      initAll pb { baseDir := basedir } d₃ h.mqmp.msgQueues.keys = some (h.mmp, h.disk) := by
  obtain ⟨d₁, db₁, d₂, db₂, d₃, db₃, hopen₁, hopen₂, hopen₃, -, -, -, -, hinit⟩ := new_stages hnew
  obtain ⟨hgrows₁, hfiles₁⟩ := openTable_disk hopen₁
  obtain ⟨hgrows₂, hfiles₂⟩ := openTable_disk hopen₂
  obtain ⟨hgrows₃, hfiles₃⟩ := openTable_disk hopen₃
  exact ⟨d₃, (hgrows₁.trans hgrows₂).trans hgrows₃, hfiles₃.trans (hfiles₂.trans hfiles₁), hinit⟩

theorem new_housed {basedir dbfile : String} {d : Disk} {db : Db} (hdir : d.isDir (MessageMapper.directory basedir) = true)
    (hnew : new pb basedir dbfile d db = some h) : h.Housed basedir := by
  obtain ⟨d₃, hgrows, -, hinit⟩ := new_disk hnew
  obtain ⟨mmp, d', hinit', hbase, hgrows'⟩ :=
    initAll_of_isDir pb h.mqmp.msgQueues.keys { baseDir := basedir } (hgrows.isDir hdir)
  rw [hinit, Option.some.injEq, Prod.mk.injEq] at hinit'
  obtain ⟨rfl, rfl⟩ := hinit'
  exact ⟨hbase, hgrows'.isDir (hgrows.isDir hdir)⟩

/-- A new host over an empty directory and an empty database. -/
theorem new_renewed {basedir dbfile : String} {e : Disk} (hdir : e.isDir (MessageMapper.directory basedir) = true)
    (hfiles : ∀ p, e.files p = none) (hnew : new pb basedir dbfile e {} = some h) :
    h.Light ∧ h.view = {} ∧ h.db.queueTable = some [] ∧ h.db.Calm ∧ Bare h.disk := by
  have hcalm : ({} : Db).Calm := rfl
  obtain ⟨hbase, hisDir⟩ := new_housed hdir hnew
  obtain ⟨d₃, -, hfiles₃, hinit⟩ := new_disk hnew
  obtain ⟨d', -, heq⟩ := new_eq pb basedir dbfile e hcalm
  obtain ⟨md, hmd, rfl⟩ := Option.map_eq_some_iff.mp (heq.symm.trans hnew)
  obtain ⟨hmmp, hdisk⟩ : { baseDir := basedir } = md.1 ∧ d₃ = md.2 := Prod.mk.inj (Option.some.inj hinit)
  have hview : md.1.view = fun _ => {} := by
    rw [← hmmp]
    rfl
  refine ⟨⟨?_, nofun, nofun, hbase ▸ hisDir⟩, ?_, rfl, rfl, ?_⟩
  · show md.1.Light
    rw [← hmmp]
    exact nofun
  · show (⟨{}, {}, {}, md.1.view⟩ : HostView) = {}
    rw [hview]
  · intro p data hp
    have hnone : md.2.files p = none := by rw [← hdisk, hfiles₃, hfiles]
    exact absurd (hnone.symm.trans hp) nofun

theorem Housed.of_grows {basedir : String} (hh : h.Housed basedir) (hbase : h'.mmp.baseDir = h.mmp.baseDir)
    (hgrows : h.disk.Grows h'.disk) : h'.Housed basedir := ⟨hbase.trans hh.baseDir, hgrows.isDir hh.isDir⟩

variable (pb) in
theorem basicPublish_grows (h : VirtualHost) (qname : String) (bp : Option BasicProperties) (uuid body : String) :
    (h.basicPublish pb qname bp uuid body).2.mmp.baseDir = h.mmp.baseDir ∧
      h.disk.Grows (h.basicPublish pb qname bp uuid body).2.disk := by
  unfold basicPublish MessageManager.insert
  cases h.mqmp.selectQueue qname with
  | none => exact ⟨rfl, .of_dirs rfl⟩
  | some mqp =>
    cases h.mmp.queueMsgs.lookup qname with
    | none => exact ⟨rfl, .of_dirs rfl⟩
    | some q => exact ⟨rfl, .of_dirs (q.insert_only pb bp uuid body mqp.durable h.disk).dirs⟩

theorem basicAck_grows {qname msgId : String} (hack : h.basicAck pb qname msgId = some h') :
    h'.mmp.baseDir = h.mmp.baseDir ∧ h.disk.Grows h'.disk := by
  unfold basicAck MessageManager.ack at hack
  cases hlookup : h.mmp.queueMsgs.lookup qname with
  | none =>
    simp only [hlookup, Option.some.injEq] at hack
    obtain rfl := hack
    exact ⟨rfl, .of_dirs rfl⟩
  | some q =>
    cases hrem : q.remove pb msgId h.disk with
    | none => simp [hlookup, hrem] at hack
    | some qd =>
      obtain ⟨q', d'⟩ := qd
      simp only [hlookup, hrem, Option.some.injEq] at hack
      obtain rfl := hack
      exact ⟨rfl, .of_dirs (q.remove_only pb hrem).dirs⟩

/-- The base directory outlasts every call. -/
theorem Housed.next {basedir : String} (hh : h.Housed basedir) {event : HostEvent} (hnext : h.next pb event = some h') :
    h'.Housed basedir := by
  cases event with
  | clear =>
    have hdir : h.disk.isDir (MessageMapper.directory h.mmp.baseDir) = true := hh.baseDir.symm ▸ hh.isDir
    obtain ⟨hlight, -, -, hbase⟩ := clear_renewed hdir hnext
    exact ⟨hbase.trans hh.baseDir, hh.baseDir ▸ hbase ▸ hlight.isDir⟩
  | call m =>
    obtain ⟨⟨r, h₁⟩, hinvoke, rfl⟩ := Option.map_eq_some_iff.mp hnext
    cases m with
    | declareQueue qname qdurable qexclusive qautoDelete qargs =>
      obtain ⟨mmp, d, hinit, hbase, hgrows⟩ := h.mmp.initQueueMsg_of_isDir pb qname (hh.baseDir.symm ▸ hh.isDir)
      simp only [invoke, VirtualHost.declareQueue, hinit, Option.some.injEq, Prod.mk.injEq] at hinvoke
      obtain ⟨-, rfl⟩ := hinvoke
      exact hh.of_grows hbase hgrows
    | deleteQueue name =>
      obtain ⟨-, rfl⟩ := Prod.mk.inj (Option.some.inj hinvoke)
      obtain ⟨hdirs, hbase⟩ := h.mmp.dirs_destroyQueueMsg name h.disk
      exact hh.of_grows hbase (.of_dirs hdirs)
    | bind ename qname key =>
      obtain ⟨-, rfl⟩ := Prod.mk.inj (Option.some.inj hinvoke)
      have hkeep : (h.bind ename qname key).2.mmp = h.mmp ∧ (h.bind ename qname key).2.disk = h.disk := by
        unfold VirtualHost.bind
        cases h.emp.selectExchange ename with
        | none => exact ⟨rfl, rfl⟩
        | some ep =>
          cases h.mqmp.selectQueue qname with
          | none => exact ⟨rfl, rfl⟩
          | some mqp => exact ⟨rfl, rfl⟩
      exact hh.of_grows (congrArg MessageManager.baseDir hkeep.1) (.of_dirs (congrArg Disk.dirs hkeep.2))
    | basicPublish qname bp uuid body =>
      obtain ⟨-, rfl⟩ := Prod.mk.inj (Option.some.inj hinvoke)
      obtain ⟨hbase, hgrows⟩ := basicPublish_grows pb h qname bp uuid body
      exact hh.of_grows hbase hgrows
    | basicConsume qname =>
      obtain ⟨-, rfl⟩ := Prod.mk.inj (Option.some.inj hinvoke)
      refine hh.of_grows ?_ (.of_dirs rfl)
      show (h.mmp.front qname).2.baseDir = h.mmp.baseDir
      unfold MessageManager.front
      cases h.mmp.queueMsgs.lookup qname with
      | none => rfl
      | some q => rfl
    | basicAck qname msgId =>
      simp only [invoke] at hinvoke
      split at hinvoke
      · cases hinvoke
      · next hack =>
        obtain ⟨-, rfl⟩ := Prod.mk.inj (Option.some.inj hinvoke)
        obtain ⟨hbase, hgrows⟩ := basicAck_grows hack
        exact hh.of_grows hbase hgrows
    | _ =>
      obtain ⟨-, rfl⟩ := Prod.mk.inj (Option.some.inj hinvoke)
      exact hh.of_grows rfl (.of_dirs rfl)

/-! ### A cleared host and a new one -/

/-- The hosts have the same maps and messages in memory. The cleared host `c` has lost the table of queues, and the new
    one `f` has an empty one. -/
structure Renewed (c f : VirtualHost) : Prop where
  cleared : c.Light
  fresh : f.Light
  view : c.view = f.view
  gone : c.db.queueTable = none
  empty : f.db.queueTable = some []
  calm : f.db.Calm
  bare : Bare f.disk

variable {c f : VirtualHost} {m : HostMethod}

theorem Renewed.mem_queues (hr : Renewed c f) (qname : String) : qname ∈ c.mqmp.msgQueues ↔ qname ∈ f.mqmp.msgQueues :=
  iff_of_eq (congrArg (fun v : HostView => qname ∈ v.mqmp.msgQueues) hr.view)

theorem leftover_of_bare (hb : Bare f.disk) (qname : String) : f.mmp.leftover pb qname f.disk = [] := by
  rw [MessageManager.leftover, (hb.createMsgFile _).load pb]

/-- A call after which the hosts are still alike has the same result on both. -/
theorem Renewed.invoke (hr : Renewed c f) (hcond : c.renews pb m = true) : ∃ r c' f', c.invoke pb m = some (r, c') ∧
    f.invoke pb m = some (r, f') ∧ Renewed c' f' := by
  have hcond' : f.renews pb m = true := by
    cases m with
    | declareQueue qname qdurable qexclusive qautoDelete qargs =>
      have hexists : c.existsQueue qname = f.existsQueue qname :=
        congrArg (fun v : HostView => v.mqmp.exists? qname) hr.view
      rw [renews, leftover_of_bare hr.bare, ← hexists, List.isEmpty_nil, Bool.or_true, Bool.and_true]
      rw [renews, Bool.or_eq_true, Bool.and_eq_true] at hcond
      exact Bool.or_eq_true_iff.mpr (hcond.imp_right And.left)
    | _ => rfl
  obtain ⟨c', hc, hc'⟩ := hr.cleared.invoke hcond
  obtain ⟨f', hf, hf'⟩ := hr.fresh.invoke hcond'
  rw [← hr.view] at hf hf'
  refine ⟨_, c', f', hc, hf, hc'.light, hf'.light, hc'.view.trans hf'.view.symm, ?_, ?_, hf'.keeps.calm hr.calm,
    hf'.bare hr.bare⟩
  · rw [hc'.keeps.queueTable, hr.gone]
  · rw [hf'.keeps.queueTable, hr.empty]

/-- A consumption has the same result on both. -/
theorem Renewed.results_basicConsume (hr : Renewed c f) (pb : PayloadCodec) (qname : String) :
    c.results pb [.basicConsume qname] = f.results pb [.basicConsume qname] := by
  have hcond : c.renews pb (.basicConsume qname) = true := rfl
  obtain ⟨r, c', f', hc, hf, -⟩ := hr.invoke hcond
  rw [results, results, hc, hf]
  rfl

theorem results_cons {h' : VirtualHost} {r : HostResult} (hinvoke : h.invoke pb m = some (r, h')) (ms : List HostMethod) :
    h.results pb (m :: ms) = some r :: h'.results pb ms := by
  rw [results, hinvoke]

/-- A pending message is consumed. -/
theorem basicConsume_finds {qname : String} (hpending : (h.mmp.view qname).pending ≠ []) (ms : List HostMethod) :
    ∃ msg rest, h.results pb (.basicConsume qname :: ms) = some (.message (some msg)) :: rest := by
  cases hlookup : h.mmp.queueMsgs.lookup qname with
  | none =>
    rw [MessageManager.view_of_missing hlookup] at hpending
    exact absurd rfl hpending
  | some q =>
    rw [MessageManager.view_of_lookup hlookup] at hpending
    obtain ⟨r, rest, hmsgs⟩ := List.exists_cons_of_ne_nil fun hnil => hpending (congrArg (List.map q.heap) hnil)
    have hfront : h.mmp.front qname = (some r, h.mmp.put qname q.front.2) := by
      simp only [MessageManager.front, hlookup, QueueMessage.front, hmsgs]
    have hheap : q.front.2.heap = q.heap := by
      simp only [QueueMessage.front, hmsgs]
    have hinvoke : h.invoke pb (.basicConsume qname) =
        some (.message (some (q.heap r)), { h with mmp := h.mmp.put qname q.front.2 }) := by
      simp only [invoke, basicConsume, hfront, messageAt, MessageManager.put, AList.lookup_insert, Option.map_some,
        Option.bind_some, hheap]
    exact ⟨q.heap r, _, results_cons hinvoke ms⟩

theorem declareQueue_new {mqmp : MsgQueueManager} {qname : String} (hnot : qname ∉ mqmp.msgQueues)
    (qexclusive qautoDelete : Bool) (qargs : UMap String String) (db : Db) :
    (mqmp.declareQueue qname true qexclusive qautoDelete qargs db).1 = db.insertsQueue qname := by
  unfold MsgQueueManager.declareQueue MsgQueueMapper.insert
  rw [AList.lookup_eq_none.mpr hnot]
  dsimp only
  rw [if_pos rfl, ← Db.fst_exec_insertQueue db ⟨qname, true, qexclusive, qautoDelete, Args.get qargs⟩]
  split
  · next heq => exact (congrArg Prod.fst heq).symm
  · next heq => exact (congrArg Prod.fst heq).symm

/-- Otherwise the call or a consumption after it tells the two apart. -/
theorem Renewed.differ (hr : Renewed c f) (hcond : c.renews pb m = false) :
    ∃ qname, c.results pb [m, .basicConsume qname] ≠ f.results pb [m, .basicConsume qname] := by
  cases m with
  | declareQueue qname qdurable qexclusive qautoDelete qargs =>
    obtain ⟨hnot, hcond⟩ : qname ∉ c.mqmp.msgQueues ∧ (qdurable = false →
        qname ∉ c.mmp.queueMsgs ∧ c.mmp.leftover pb qname c.disk ≠ []) := by
      simp only [renews, existsQueue, MsgQueueManager.exists?, Bool.or_eq_false_iff, decide_eq_false_iff_not,
        Bool.and_eq_false_iff, Bool.not_eq_false', List.isEmpty_eq_false_iff] at hcond
      exact ⟨hcond.1, fun hq => hcond.2.resolve_left (by rw [hq]; exact Bool.false_ne_true)⟩
    have hnot' : qname ∉ f.mqmp.msgQueues := fun hmem => hnot ((hr.mem_queues qname).mpr hmem)
    obtain ⟨mmp, disk, hinit, hstarted⟩ := MessageManager.initQueueMsg_started pb hr.cleared.isDir qname
    refine ⟨qname, fun heq => ?_⟩
    cases qdurable with
    | true =>
      obtain ⟨mmp', disk', hinit', -⟩ := MessageManager.initQueueMsg_started pb hr.fresh.isDir qname
      have hfail := declareQueue_new hnot qexclusive qautoDelete qargs c.db
      have hsucceed := declareQueue_new hnot' qexclusive qautoDelete qargs f.db
      have hfate : f.db.fate = .ok := by rw [Db.fate, hr.calm]; rfl
      obtain ⟨⟨ok, mqmp, db⟩, hdecl⟩ : ∃ x, c.mqmp.declareQueue qname true qexclusive qautoDelete qargs c.db = x := ⟨_, rfl⟩
      obtain ⟨⟨ok', mqmp', db'⟩, hdecl'⟩ : ∃ x, f.mqmp.declareQueue qname true qexclusive qautoDelete qargs f.db = x := ⟨_, rfl⟩
      rw [hdecl, Db.insertsQueue, hr.gone, Option.any_none, Bool.and_false] at hfail
      rw [hdecl', Db.insertsQueue, hr.empty, hfate] at hsucceed
      have hc : c.invoke pb (.declareQueue qname true qexclusive qautoDelete qargs) =
          some (.flag ok, { c with mmp, disk, mqmp, db }) := by
        simp only [VirtualHost.invoke, VirtualHost.declareQueue, hinit, hdecl]
      have hf : f.invoke pb (.declareQueue qname true qexclusive qautoDelete qargs) =
          some (.flag ok', { f with mmp := mmp', disk := disk', mqmp := mqmp', db := db' }) := by
        simp only [VirtualHost.invoke, VirtualHost.declareQueue, hinit', hdecl']
      rw [results_cons hc, results_cons hf] at heq
      have hflag : ok = ok' := HostResult.flag.inj (Option.some.inj (List.cons.inj heq).1)
      rw [show ok = false from hfail, show ok' = true from hsucceed] at hflag
      cases hflag
    | false =>
      obtain ⟨hunknown, hleft⟩ := hcond rfl
      have hcond' : f.renews pb (.declareQueue qname false qexclusive qautoDelete qargs) = true := by
        rw [renews, leftover_of_bare hr.bare, List.isEmpty_nil, Bool.or_true, Bool.not_false, Bool.and_true, Bool.or_true]
      obtain ⟨mqmp, f₁, hdecl, -, hinvoked⟩ := hr.fresh.declareQueue qexclusive qautoDelete qargs hcond'
      have hfree : qname ∈ c.mqmp.msgQueues ∨ false = false := Or.inr rfl
      obtain ⟨m', hdecl₀, -⟩ := hr.cleared.transient.declareQueue hfree qexclusive qautoDelete qargs
      have hc : c.invoke pb (.declareQueue qname false qexclusive qautoDelete qargs) =
          some (.flag true, { c with mmp, disk, mqmp := m' }) := by
        simp only [VirtualHost.invoke, VirtualHost.declareQueue, hinit, hdecl₀]
      have hf : f.invoke pb (.declareQueue qname false qexclusive qautoDelete qargs) = some (.flag true, f₁) := by
        simp only [VirtualHost.invoke, hdecl]
      obtain ⟨msg, rest, hfound⟩ : ∃ msg rest, ({ c with mmp, disk, mqmp := m' } : VirtualHost).results pb
          [.basicConsume qname] = some (.message (some msg)) :: rest :=
        basicConsume_finds (hstarted.finds hunknown hleft) []
      have hnone : f₁.view.queues qname = {} := by
        have hempty : c.mmp.view qname = {} := MessageManager.view_of_missing (AList.lookup_eq_none.mpr hunknown)
        rw [hinvoked.view]
        exact (congrArg (fun v : HostView => v.queues qname) hr.view).symm.trans hempty
      have hcondc : f₁.renews pb (.basicConsume qname) = true := rfl
      obtain ⟨f₂, hf₂, -⟩ := hinvoked.light.invoke hcondc
      have hmsg : (f₁.view.call (.basicConsume qname)).1 = .message none := by
        rw [HostView.call, hnone]
        rfl
      rw [results_cons hc, results_cons hf, hfound, results_cons hf₂, hmsg] at heq
      cases heq
  | _ => cases hcond

variable (pb) in
/-- Every result of the calls `ms`, and of a `basic_consume` after any of them, is the same on both hosts. -/
def SameResults (c f : VirtualHost) (ms : List HostMethod) : Prop :=
  ∀ pre qname, pre <+: ms → c.results pb (pre ++ [.basicConsume qname]) = f.results pb (pre ++ [.basicConsume qname])

theorem Renewed.sameResults_iff : ∀ {ms : List HostMethod} {c f : VirtualHost}, Renewed c f →
    (SameResults pb c f ms ↔ Lib.always (fun h m => h.next pb (.call m)) (renews pb) c ms = true)
  | [], c, f, hr => by
    refine ⟨fun _ => rfl, fun _ pre qname hpre => ?_⟩
    rw [List.prefix_nil.mp hpre]
    exact hr.results_basicConsume pb qname
  | m :: ms, c, f, hr => by
    cases hcond : c.renews pb m with
    | false =>
      obtain ⟨qname, hdiffer⟩ := hr.differ hcond
      rw [Lib.always, hcond, Bool.false_and]
      exact ⟨fun hsame => absurd (hsame [m] qname (List.prefix_append [m] ms)) hdiffer, fun h => absurd h Bool.false_ne_true⟩
    | true =>
      obtain ⟨r, c', f', hc, hf, hr'⟩ := hr.invoke hcond
      have hnext : c.next pb (.call m) = some c' := by rw [next, hc, Option.map_some]
      rw [Lib.always, hcond, Bool.true_and, hnext, Option.all_some, ← hr'.sameResults_iff]
      constructor
      · intro hsame pre qname hpre
        have := hsame (m :: pre) qname (List.cons_prefix_cons.mpr ⟨rfl, hpre⟩)
        rw [List.cons_append, results_cons hc, results_cons hf] at this
        exact (List.cons.inj this).2
      · intro hsame pre qname hpre
        cases pre with
        | nil => exact hr.results_basicConsume pb qname
        | cons m' pre =>
          obtain ⟨rfl, hrest⟩ := List.cons_prefix_cons.mp hpre
          rw [List.cons_append, results_cons hc, results_cons hf, hsame pre qname hrest]

/-- After `clear` a host returns what a new host over an empty directory and an empty database returns, exactly as long
    as no queue is declared durable, or found with old messages in its data file, before it is declared. The file
    operations and the statements on the way to the `clear` and after it may fail. -/
theorem clear_renews_iff {basedir dbfile : String} {d e : Disk} {db : Db} {h₀ h c f : VirtualHost}
    {events : List HostEvent} (hdir : d.isDir (MessageMapper.directory basedir) = true)
    (hnew : new pb basedir dbfile d db = some h₀) (hrun : Lib.run (next pb) h₀ events = some h) (hclear : h.clear = some c)
    (hempty : e.isDir (MessageMapper.directory basedir) = true) (hfiles : ∀ p, e.files p = none)
    (hfresh : new pb basedir dbfile e {} = some f) (ms : List HostMethod) :
    SameResults pb c f ms ↔ Lib.always (fun h m => h.next pb (.call m)) (renews pb) c ms = true := by
  have hhoused : h.Housed basedir :=
    run_induct (fun _ _ _ hh hnext => Housed.next hh hnext) (new_housed hdir hnew) hrun
  obtain ⟨hlight, hview, hgone, -⟩ := clear_renewed (hhoused.baseDir.symm ▸ hhoused.isDir) hclear
  obtain ⟨hlight', hview', htable, hcalm, hbare⟩ := new_renewed hempty hfiles hfresh
  exact Renewed.sameResults_iff ⟨hlight, hlight', hview.trans hview'.symm, hgone, htable, hcalm, hbare⟩

/-- A durable queue with a message that waits for its acknowledgement. -/
def beforeClear : List HostEvent :=
  [.call (.declareExchange "e" .direct true false ∅), .call (.declareQueue "q" true false false ∅),
    .call (.basicPublish "q" (some { id := "m", deliveryMode := .durable, routingKey := "q" }) "" "old"),
    .call (.basicConsume "q")]

def afterClear : List HostMethod :=
  [.existsQueue "q", .declareExchange "e" .direct true false ∅, .declareQueue "q" false false false ∅, .bind "e" "q" "k",
    .basicPublish "q" none "u" "new", .basicAck "q" "m", .basicConsume "q", .deleteQueue "q",
    .declareQueue "q" false false false ∅, .existsBinding "e" "q"]

theorem clear_renews_iff_afterClear : ∃ h₀ h c f : VirtualHost,
    new protobuf "data" "data/meta.db" Store.vacant {} = some h₀ ∧ Lib.run (next protobuf) h₀ beforeClear = some h ∧
    h.clear = some c ∧ new protobuf "data" "data/meta.db" Store.vacant {} = some f ∧ SameResults protobuf c f afterClear := by
  have hall : (new protobuf "data" "data/meta.db" Store.vacant {}).any fun h₀ =>
      (Lib.run (next protobuf) h₀ beforeClear).any fun h => h.clear.any fun c =>
        Lib.always (fun h m => h.next protobuf (.call m)) (renews protobuf) c afterClear := by decide +kernel
  obtain ⟨h₀, hnew, hall⟩ := (Option.any_eq_true _ _).mp hall
  obtain ⟨h, hrun, hall⟩ := (Option.any_eq_true _ _).mp hall
  obtain ⟨c, hclear, hall⟩ := (Option.any_eq_true _ _).mp hall
  have hdir : Store.vacant.isDir (MessageMapper.directory "data") = true := by decide +kernel
  exact ⟨h₀, h, c, h₀, hnew, hrun, hclear, hnew,
    (clear_renews_iff hdir hnew hrun hclear hdir (fun _ => rfl) hnew afterClear).mpr hall⟩

/-- The durable queue cannot be declared again after the `clear`: its table is gone. -/
theorem clear_not_renewed : ∃ h₀ h c f : VirtualHost,
    new protobuf "data" "data/meta.db" Store.vacant {} = some h₀ ∧ Lib.run (next protobuf) h₀ beforeClear = some h ∧
    h.clear = some c ∧ new protobuf "data" "data/meta.db" Store.vacant {} = some f ∧
    c.results protobuf [.declareQueue "q" true false false ∅] = [some (.flag false)] ∧
    f.results protobuf [.declareQueue "q" true false false ∅] = [some (.flag true)] := by
  have hall : (new protobuf "data" "data/meta.db" Store.vacant {}).any fun h₀ =>
      (Lib.run (next protobuf) h₀ beforeClear).any fun h => h.clear.any fun c =>
        decide (c.results protobuf [.declareQueue "q" true false false ∅] = [some (.flag false)] ∧
          h₀.results protobuf [.declareQueue "q" true false false ∅] = [some (.flag true)]) := by decide +kernel
  obtain ⟨h₀, hnew, hall⟩ := (Option.any_eq_true _ _).mp hall
  obtain ⟨h, hrun, hall⟩ := (Option.any_eq_true _ _).mp hall
  obtain ⟨c, hclear, hall⟩ := (Option.any_eq_true _ _).mp hall
  obtain ⟨hfalse, htrue⟩ := of_decide_eq_true hall
  exact ⟨h₀, h, c, h₀, hnew, hrun, hclear, hnew, hfalse, htrue⟩

end VirtualHost
end HareMQ
