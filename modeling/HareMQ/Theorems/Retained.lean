import HareMQ.Theorems.Backlog
import HareMQ.Theorems.Keys
import HareMQ.Theorems.Rendering
import HareMQ.Theorems.Reset
import HareMQ.Theorems.Stocked

/-! # What the server keeps

The virtual host as a warehouse, over all its operations and over restarts. A durable message in a durable queue stays
until it is acknowledged or its queue is deleted, and every restart makes it pending again. -/

namespace HareMQ
open Lib Conveyor

/-! ### What the operations do to the warehouse -/

/-- The statements that an operation may give to the database. -/
def HostOp.statements : HostOp → List Statement
  | .declareExchange name type durable autoDelete args =>
    let exp : Exchange := { name, type, durable, autoDelete, args }
    if durable then [.insertExchange { name, type, durable, autoDelete, args := exp.getArgs }] else []
  | .deleteExchange name => [.deleteExchange name, .deleteBindingExchange name]
  | .declareQueue name durable exclusive autoDelete args =>
    let q : MsgQueue := { name, durable, exclusive, autoDelete, args }
    if durable then [.insertQueue { name, durable, exclusive, autoDelete, args := q.getArgs }] else []
  | .deleteQueue name => [.deleteQueue name, .deleteBindingQueue name]
  | .bind exchangeName msgQueueName bindingKey => [.insertBinding { exchangeName, msgQueueName, bindingKey }]
  | .unbind ename qname => [.deleteBinding ename qname]
  | .restart => []

namespace HostAct

def statements : HostAct → List Statement
  | .op act => act.statements
  | _ => []

def stocks (w : Warehouse String Content) : HostAct → Warehouse String Content
  | .op (.declareQueue qname qdurable _ _ _) => w.declare qname qdurable
  | .op (.deleteQueue name) => w.delete name
  | .op .restart => w.restart Content.isDurable
  | .publish qname bp uuid body => w.push qname fun durable => promised bp uuid body durable
  | .consume qname => w.pop qname
  | .ack qname msgId => w.ack Content.id qname msgId
  | _ => w

def published : HostAct → Option (String × Option BasicProperties × String × String)
  | .publish qname bp uuid body => some (qname, bp, uuid, body)
  | _ => none

theorem of_published {act : HostAct} {qname uuid body : String} {bp : Option BasicProperties}
    (h : act.published = some (qname, bp, uuid, body)) : act = .publish qname bp uuid body := by
  cases act with
  | publish => cases h; rfl
  | _ => cases h

/-- The queue and the id of a published message. -/
def posts (act : HostAct) : Option (String × String) :=
  act.published.map fun p => (p.1, (promised p.2.1 p.2.2.1 p.2.2.2 true).id)

def declares : HostAct → Option String
  | .op (.declareQueue qname _ _ _ _) => some qname
  | _ => none

/-- The operation neither acknowledges the message nor deletes its queue. -/
def spares (qname msgId : String) : HostAct → Bool
  | .op (.deleteQueue name) => name ≠ qname
  | .ack name i => name ≠ qname ∨ i ≠ msgId
  | _ => true

theorem retains {w : Warehouse String Content} {qname : String} {c : Content} {act : HostAct} (h : w.Retains qname c)
    (hc : c.isDurable = true) (hact : act.spares qname c.id = true) : (act.stocks w).Retains qname c := by
  cases act with
  | publish name bp uuid body => exact h.push name _
  | consume name => exact h.pop name
  | ack name msgId =>
    rcases of_decide_eq_true hact with hname | hid
    · exact h.ack (Or.inl fun heq => hname heq.symm)
    · exact h.ack (Or.inr fun heq => hid heq.symm)
  | op op =>
    cases op with
    | declareQueue name durable => exact h.declare name durable
    | deleteQueue name => exact h.delete fun heq => of_decide_eq_true hact heq.symm
    | restart => exact h.restart hc
    | _ => exact h
  | _ => exact h

theorem foldl_retains {w : Warehouse String Content} {qname : String} {c : Content} {acts : List HostAct}
    (h : w.Retains qname c) (hc : c.isDurable = true) (hacts : ∀ act ∈ acts, act.spares qname c.id = true) :
    (acts.foldl stocks w).Retains qname c := by
  induction acts generalizing w with
  | nil => exact h
  | cons act acts ih =>
    exact ih (retains h hc (hacts act List.mem_cons_self)) fun a ha => hacts a (List.mem_cons_of_mem _ ha)

end HostAct

/-- No process has been here, as far as the queues of these names are concerned. -/
structure Blank (basedir : String) (names : List String) (d : Disk) : Prop where
  calm : d.Calm
  top : d.file? (MessageMapper.directory basedir) = none
  free : ∀ q ∈ names, FileHelper.exists? d (MessageMapper.files basedir q).dataFile = false

namespace VirtualHost

/-- The maps and the messages of the host are those of the warehouse. -/
structure Shows (pb : PayloadCodec) (h : VirtualHost) (w : Warehouse String Content) : Prop where
  declared : ∀ q, (h.mqmp.selectQueue q).map (·.durable) = (w.stock q).map (·.durable)
  pending : ∀ q, h.mmp.contents q = ((w.stock q).map (·.queue.pending)).getD []
  waiting : ∀ q qmp s, h.mmp.queueMsgs.lookup q = some qmp → w.stock q = some s →
    (s.queue.unacked.map (·.id)).Perm qmp.waitAckMsgs.keys
  accepts : ∀ q bp uuid body, (h.basicPublish pb q bp uuid body).1 = (w.stock q).isSome

/-- Every data file is below 4 GiB. -/
def small (h : VirtualHost) : Bool :=
  h.mmp.queueMsgs.entries.all fun e => FileHelper.size h.disk e.2.mapper.dataFile < 2 ^ 32

/-- The operation leaves every data file below 4 GiB. -/
def staysSmall (pb : PayloadCodec) (basedir dbfile : String) (h : VirtualHost) (act : HostAct) : Bool :=
  (h.act pb basedir dbfile act).all small

/-! ### The invariant -/

structure Stocks (pb : PayloadCodec) (basedir : String) (names : List String) (posted : List (String × String))
    (h : VirtualHost) (w : Warehouse String Content) : Prop where
  mirrored : h.Mirrored
  sound : w.Sound Content.isDurable
  durable : ∀ q, (h.catalog.objects (.queue q)).map Info.durable = (w.stock q).map (·.durable)
  stocked : Stocked pb basedir names posted (fun _ => []) h.mmp h.disk w

variable {pb : PayloadCodec} {basedir : String} {names : List String} {posted : List (String × String)} {h h' : VirtualHost}
  {w : Warehouse String Content} {d d' : Disk} {db db' : Db}

theorem durable_catalog (h : VirtualHost) (q : String) :
    (h.catalog.objects (.queue q)).map Info.durable = (h.mqmp.selectQueue q).map (·.durable) := by
  simp only [catalog, Option.map_map]
  rfl

theorem Stocks.shows (hs : h.Stocks pb basedir names posted w) : h.Shows pb w where
  declared q := (h.durable_catalog q).symm.trans (hs.durable q)
  pending q := by
    cases hlookup : h.mmp.queueMsgs.lookup q with
    | none =>
      rw [(hs.stocked.shut q hlookup).1, MessageManager.contents_of_notMem (AList.lookup_eq_none.mp hlookup)]
      rfl
    | some qmp =>
      rcases hs.stocked.opened q qmp hlookup with ⟨s, hstock, lay, -, hmodels⟩
      rw [hstock, MessageManager.contents_of_lookup hlookup]
      exact hmodels.pending.symm
  waiting q qmp s hlookup hstock := by
    rcases hs.stocked.opened q qmp hlookup with ⟨s', hstock', lay, -, hmodels⟩
    rw [hstock, Option.some.injEq] at hstock'
    subst hstock'
    exact hmodels.unacked
  accepts q bp uuid body := by
    have hdurable := (h.durable_catalog q).symm.trans (hs.durable q)
    unfold basicPublish
    cases hselect : h.mqmp.selectQueue q with
    | none =>
      rw [hselect, Option.map_none, eq_comm, Option.map_eq_none_iff] at hdurable
      rw [hdurable]
      rfl
    | some mqp =>
      rw [hselect, Option.map_some, eq_comm, Option.map_eq_some_iff] at hdurable
      rcases hdurable with ⟨s, hstock, -⟩
      rcases hs.stocked.lookup_of_stock hstock with ⟨qmp, hlookup, lay, hgood, -⟩
      rcases hgood.inv.insert bp uuid body mqp.durable with ⟨q', d', hins, -⟩
      dsimp only at hins ⊢
      simp only [MessageManager.insert, hlookup, hins, hstock]
      rfl

/-- The message is pending in the queue, or it waits for its acknowledgement. -/
def Keeps (h : VirtualHost) (qname : String) (c : Content) : Prop :=
  c ∈ h.mmp.contents qname ∨ ∃ qmp, h.mmp.queueMsgs.lookup qname = some qmp ∧ c.id ∈ qmp.waitAckMsgs.keys

theorem Stocks.pending_mem (hs : h.Stocks pb basedir names posted w) {qname : String} {s : Stock Content} {c : Content}
    (hstock : w.stock qname = some s) (hc : c ∈ s.queue.pending) : c ∈ h.mmp.contents qname := by
  rw [hs.shows.pending, hstock]
  exact hc

theorem Stocks.keeps (hs : h.Stocks pb basedir names posted w) {qname : String} {c : Content} (hc : w.Retains qname c) :
    h.Keeps qname c := by
  rcases hc with ⟨s, hstock, -, hheld⟩
  rcases hs.sound.placed qname s hstock c hheld with hpending | hunacked
  · exact Or.inl (hs.pending_mem hstock hpending)
  · rcases hs.stocked.lookup_of_stock hstock with ⟨qmp, hlookup, -⟩
    have hperm := hs.shows.waiting qname qmp s hlookup hstock
    exact Or.inr ⟨qmp, hlookup, hperm.mem_iff.mp (List.mem_map_of_mem hunacked)⟩

/-! ### A new process -/

theorem parentDir_append (basedir : String) : FileHelper.parentDir (basedir ++ "/meta.db") = basedir := by
  have hsuffix : "/meta.db".toList = ['/', 'm', 'e', 't', 'a', '.', 'd', 'b'] := by decide
  have hmem : (basedir ++ "/meta.db").toList.contains '/' = true := by
    simp [String.toList_append, hsuffix]
  rw [FileHelper.parentDir, if_pos hmem, String.toList_append, hsuffix, List.reverse_append]
  simp

/-- The constructor of a table may make the base directory. -/
theorem openTable_apart {create : Db → Option Db} (hopen : Db.openTable create (basedir ++ "/meta.db") d db = some (d', db')) :
    Apart basedir [] d d' ∧ (d.Calm → d'.Calm) := by
  have hgrows := FileHelper.createDir_grows d (FileHelper.parentDir (basedir ++ "/meta.db"))
  rcases FileHelper.createDir_spec d (FileHelper.parentDir (basedir ++ "/meta.db")) with ⟨ok, d₁, hcreate, hdirs⟩
  rw [parentDir_append] at hdirs
  unfold Db.openTable at hopen
  rw [hcreate] at hopen hgrows
  dsimp only at hopen
  split at hopen
  · cases hopen
  · split at hopen
    · cases hopen
    · cases hopen
      refine ⟨⟨fun p _ => congrFun hdirs.files p, hgrows, fun p hp => (hdirs.dirs p hp).imp_right fun hle => ?_⟩, hdirs.calm⟩
      refine Nat.le_trans hle ?_
      unfold MessageMapper.directory
      split
      · exact Nat.le_refl _
      · exact length_parts_le basedir "/"

theorem new_apart (hnew : new pb basedir (basedir ++ "/meta.db") d db = some h) :
    ∃ d₁, Apart basedir [] d d₁ ∧ (d.Calm → d₁.Calm) ∧
      initAll pb { baseDir := basedir } d₁ h.mqmp.msgQueues.keys = some (h.mmp, h.disk) := by
  rcases new_stages hnew with ⟨d₁, db₁, d₂, db₂, d₃, db₃, hopen₁, hopen₂, hopen₃, -, -, -, -, hinit⟩
  rcases openTable_apart hopen₁ with ⟨hd₁, hcalm₁⟩
  rcases openTable_apart hopen₂ with ⟨hd₂, hcalm₂⟩
  rcases openTable_apart hopen₃ with ⟨hd₃, hcalm₃⟩
  exact ⟨d₃, (hd₁.trans hd₂).trans hd₃, fun hd => hcalm₃ (hcalm₂ (hcalm₁ hd)), hinit⟩

/-- The first start. -/
theorem new_stocks (hblank : Blank basedir names d) (hnew : new pb basedir (basedir ++ "/meta.db") d {} = some h) :
    h.Stocks pb basedir names [] {} := by
  have hcalm : ({} : Db).Calm := rfl
  rcases new_mirrored hcalm vacant_catalog hnew with ⟨hcatalog, hmirrored⟩
  rcases new_apart hnew with ⟨d₁, hapart, hcalm₁, hinit⟩
  have hkeys : h.mqmp.msgQueues.keys = [] := by
    refine List.eq_nil_iff_forall_not_mem.mpr fun q hq => ?_
    have hobject : (h.catalog.objects (.queue q)).isSome := by
      simp only [catalog, Option.isSome_map, MsgQueueManager.selectQueue]
      exact AList.lookup_isSome.mpr hq
    rw [hcatalog] at hobject
    cases hobject
  rw [hkeys, initAll, Option.some.injEq, Prod.mk.injEq] at hinit
  rcases hinit with ⟨hmmp, hdisk⟩
  have hnone : ∀ q, h.mmp.queueMsgs.lookup q = none := by
    intro q
    rw [← hmmp]
    exact AList.lookup_empty q
  have hfree : ∀ q ∈ names, d.isDir (MessageMapper.files basedir q).dataFile = false := by
    intro q hq
    have hfree := hblank.free q hq
    rw [FileHelper.exists?, Bool.and_eq_false_iff, Bool.or_eq_false_iff] at hfree
    rcases hfree with hempty | ⟨-, hdir⟩
    · exact absurd (of_decide_eq_false hempty) (not_not.mpr (MessageMapper.dataFile_ne basedir q))
    · exact hdir
  refine ⟨hmirrored, Warehouse.sound_empty _, fun q => ?_, by rw [← hmmp], ?_, ?_, fun q hq => ?_, fun q hq => ?_,
    fun q qmp hq => ?_, fun q _ => ⟨rfl, fun hq => Or.inl ⟨?_, rfl⟩⟩⟩
  · rw [hcatalog]
    rfl
  · exact hdisk ▸ hcalm₁ hblank.calm
  · rw [← hdisk, hapart.file?_eq List.not_mem_nil]
    exact hblank.top
  · rw [← hdisk]
    exact hapart.isDir_eq (hfree q hq)
  · rw [← AList.lookup_isSome, hnone q] at hq
    cases hq
  · rw [hnone q] at hq
    cases hq
  · have hfree' := hblank.free q hq
    rw [← hdisk]
    rw [FileHelper.exists?, hfree q hq] at hfree'
    rw [FileHelper.exists?, hapart.file?_eq List.not_mem_nil, hapart.isDir_eq (hfree q hq)]
    exact hfree'

/-! ### One operation -/

theorem size_of_small (hsmall : h.small = true) {q : String} {qmp : QueueMessage} (hlookup : h.mmp.queueMsgs.lookup q = some qmp) :
    FileHelper.size h.disk qmp.mapper.dataFile < 2 ^ 32 := by
  have hmem := List.all_eq_true.mp hsmall ⟨q, qmp⟩ (UMap.mem_entries_iff.mpr hlookup)
  exact of_decide_eq_true hmem

/-- The metadata changed, and the queues did not. -/
theorem Stocks.same (hs : h.Stocks pb basedir names posted w) (hmirrored : h'.Mirrored) (hmmp : h'.mmp = h.mmp)
    (hdisk : h'.disk = h.disk) (hobjects : ∀ q, h'.catalog.objects (.queue q) = h.catalog.objects (.queue q)) :
    h'.Stocks pb basedir names posted w := by
  refine ⟨hmirrored, hs.sound, fun q => ?_, ?_⟩
  · rw [hobjects]
    exact hs.durable q
  · rw [hmmp, hdisk]
    exact hs.stocked

theorem Stocks.declareQueue (hs : h.Stocks pb basedir names posted w) (hnames : Separate basedir names) {qname : String}
    (hname : qname ∈ names) {qdurable qexclusive qautoDelete ok : Bool} {qargs : UMap String String}
    (hdecl : h.declareQueue pb qname qdurable qexclusive qautoDelete qargs = some (ok, h')) :
    h'.Stocks pb basedir names posted (w.declare qname qdurable) := by
  rcases hs.mirrored.declareQueue hdecl with ⟨hcatalog, hmirrored⟩
  have hinit : h.mmp.initQueueMsg pb qname h.disk = some (h'.mmp, h'.disk) := by
    unfold VirtualHost.declareQueue at hdecl
    split at hdecl
    · cases hdecl
    · next hinit =>
      cases hdecl
      exact hinit
  have hself : ∀ v, (h.catalog.declare (.queue qname) v).objects (.queue qname) = (h.catalog.objects (.queue qname)).or (some v) :=
    fun _ => Function.update_self ..
  have hdurable : ∀ q, (h'.catalog.objects (.queue q)).map Info.durable = ((w.declare qname qdurable).stock q).map (·.durable) := by
    intro q
    rw [hcatalog]
    by_cases hq : q = qname
    · subst hq
      have hold := hs.durable q
      rw [Warehouse.stock_declare_self, hself]
      cases hobject : h.catalog.objects (.queue q) with
      | none =>
        rw [hobject, Option.map_none, eq_comm, Option.map_eq_none_iff] at hold
        rw [hold]
        rfl
      | some info =>
        rw [hobject, Option.map_some, eq_comm, Option.map_eq_some_iff] at hold
        rcases hold with ⟨s, hs, hsame⟩
        rw [hs, Option.some_or, Option.some_or, Option.map_some, Option.map_some, hsame]
    · rw [Warehouse.stock_declare_ne hq, Catalog.objects_declare_ne fun heq => hq (Name.queue.inj heq)]
      exact hs.durable q
  cases hstock : w.stock qname with
  | some s =>
    rcases hs.stocked.lookup_of_stock hstock with ⟨qmp, hlookup, -⟩
    simp only [MessageManager.initQueueMsg, hlookup, Option.some.injEq, Prod.mk.injEq] at hinit
    refine ⟨hmirrored, hs.sound.declare .., hdurable, ?_⟩
    rw [Warehouse.declare_of_some hstock, ← hinit.1, ← hinit.2]
    exact hs.stocked
  | none =>
    have hstocked := hs.stocked.init hnames hname hstock qdurable hinit
    refine ⟨hmirrored, hs.sound.declare .., hdurable, ?_⟩
    rw [Warehouse.declare, hstock, Option.none_or]
    have hclosed : Function.update (fun _ => []) qname [] = fun _ : String => ([] : List Content) := Function.update_eq_self ..
    rw [hclosed] at hstocked
    exact hstocked

theorem Stocks.deleteQueue (hs : h.Stocks pb basedir names posted w) (hnames : Separate basedir names) (qname : String) :
    (h.deleteQueue qname).Stocks pb basedir names posted (w.delete qname) := by
  have hstocked := hs.stocked.destroy hnames qname rfl
  refine ⟨hs.mirrored.deleteQueue qname, hs.sound.delete qname, fun q => ?_, hstocked⟩
  rw [catalog_deleteQueue]
  by_cases hq : q = qname
  · subst hq
    rw [Catalog.objects_delete_self, Warehouse.stock_delete_self]
    rfl
  · rw [Catalog.objects_delete_ne fun heq => hq (Name.queue.inj heq), Warehouse.stock_delete_ne hq]
    exact hs.durable q

theorem isSome_filter {α β : Type} {p : α → Bool} {p' : β → Bool} {o : Option α} {o' : Option β} (h : o.map p = o'.map p') :
    (o.filter p).isSome = (o'.filter p').isSome ∧ (o.filter p).map p = (o'.filter p').map p' := by
  have heq : ∀ {γ : Type} (r : γ → Bool) (x : Option γ), (x.filter r).isSome = (x.map r).any id ∧
      (x.filter r).map r = (x.map r).filter id := by
    intro γ r x
    cases x with
    | none => exact ⟨rfl, rfl⟩
    | some a => cases hr : r a <;> simp [Option.filter_some, hr]
  exact ⟨(heq p o).1.trans ((congrArg (Option.any id) h).trans (heq p' o').1.symm),
    (heq p o).2.trans ((congrArg (Option.filter id) h).trans (heq p' o').2.symm)⟩

theorem Stocks.restart (hs : h.Stocks pb basedir names posted w) (hnames : Separate basedir names)
    (hnew : new pb basedir (basedir ++ "/meta.db") h.disk h.db = some h') :
    h'.Stocks pb basedir names posted (w.restart Content.isDurable) := by
  rcases new_mirrored hs.mirrored.ready.calm hs.mirrored.mirror hnew with ⟨hcatalog, hmirrored⟩
  rcases new_apart hnew with ⟨d₁, hapart, hcalm, hinit⟩
  have hobjects : ∀ q, h'.catalog.objects (.queue q) = (h.catalog.objects (.queue q)).filter Info.durable := by
    intro q
    rw [hcatalog]
    rfl
  have hkeys : ∀ q, q ∈ h'.mqmp.msgQueues.keys ↔ ((w.stock q).filter (·.durable)).isSome := by
    intro q
    rw [← (isSome_filter (hs.durable q)).1, ← hobjects q]
    simp only [catalog, Option.isSome_map, MsgQueueManager.selectQueue]
    exact AList.lookup_isSome.symm
  have hstocked := hs.stocked.restart hnames hs.sound hapart (hcalm hs.stocked.calm) h'.mqmp.msgQueues.keys_nodup hkeys hinit
  refine ⟨hmirrored, Warehouse.sound_restart _ w, fun q => ?_, hstocked⟩
  rw [hobjects, (isSome_filter (hs.durable q)).2, Warehouse.stock_restart, Option.map_map]
  rfl

/-- The messages changed, and the metadata did not. -/
theorem Stocks.messages (hs : h.Stocks pb basedir names posted w) {mmp : MessageManager} {disk : Disk}
    {posted' : List (String × String)} {w' : Warehouse String Content} (hsound : w'.Sound Content.isDurable)
    (hdurable : ∀ q, (w'.stock q).map (·.durable) = (w.stock q).map (·.durable))
    (hstocked : Stocked pb basedir names posted' (fun _ => []) mmp disk w') :
    ({ h with mmp, disk } : VirtualHost).Stocks pb basedir names posted' w' :=
  ⟨⟨hs.mirrored.ready, hs.mirrored.linked, hs.mirrored.mirror⟩, hsound, fun q => (hs.durable q).trans (hdurable q).symm, hstocked⟩

theorem Stocks.publish (hs : h.Stocks pb basedir names posted w) (hnames : Separate basedir names) (qname : String)
    (bp : Option BasicProperties) (uuid body : String) (hposted : (qname, (promised bp uuid body true).id) ∉ posted)
    (hsmall : (h.basicPublish pb qname bp uuid body).2.small = true) :
    (h.basicPublish pb qname bp uuid body).2.Stocks pb basedir names (posted ++ [(qname, (promised bp uuid body true).id)])
      (w.push qname fun durable => promised bp uuid body durable) := by
  have hdurable := (h.durable_catalog qname).symm.trans (hs.durable qname)
  unfold basicPublish at hsmall ⊢
  cases hselect : h.mqmp.selectQueue qname with
  | none =>
    rw [hselect, Option.map_none, eq_comm, Option.map_eq_none_iff] at hdurable
    rw [Warehouse.push, Warehouse.modify_of_none hdurable]
    refine ⟨hs.mirrored, hs.sound, hs.durable, hs.stocked.mono fun q => ?_⟩
    rw [of_append]
    exact List.subset_append_left _ _
  | some mqp =>
    rw [hselect, Option.map_some] at hdurable
    rcases hins : h.mmp.insert pb qname bp uuid body mqp.durable h.disk with ⟨ok, mmp, disk⟩
    simp only [hselect, hins] at hsmall ⊢
    have hstocked := hs.stocked.insert hnames hdurable.symm hposted hins fun q => size_of_small hsmall
    exact hs.messages (hs.sound.push qname rfl) (Warehouse.durable_modify w qname _) hstocked

/-- What an operation does to the host it does to the warehouse. -/
theorem step_stocks (hs : h.Stocks pb basedir names posted w) (hnames : Separate basedir names) {act : HostAct}
    (hdeclares : ∀ q, act.declares = some q → q ∈ names) (hposts : ∀ x, act.posts = some x → x ∉ posted)
    (hstep : h.act pb basedir (basedir ++ "/meta.db") act = some h') (hsmall : h'.small = true) :
    h'.Stocks pb basedir names (posted ++ act.posts.toList) (act.stocks w) := by
  cases act with
  | publish qname bp uuid body =>
    cases hstep
    exact hs.publish hnames qname bp uuid body (hposts _ rfl) hsmall
  | idle =>
    cases hstep
    rw [show HostAct.idle.posts.toList = [] from rfl, List.append_nil]
    exact hs
  | consume qname =>
    cases hstep
    rw [show (HostAct.consume qname).posts.toList = [] from rfl, List.append_nil]
    have hstocked := hs.stocked.front hnames qname
    exact hs.messages (hs.sound.pop qname) (Warehouse.durable_modify w qname _) hstocked
  | ack qname msgId =>
    rw [show (HostAct.ack qname msgId).posts.toList = [] from rfl, List.append_nil]
    rcases hs.stocked.ack hnames qname msgId with ⟨mmp, disk, hack, hstocked⟩
    simp only [act, basicAck, hack, Option.some.injEq] at hstep
    subst hstep
    exact hs.messages (hs.sound.ack qname msgId) (Warehouse.durable_modify w qname _) hstocked
  | touch qname r =>
    cases hstep
    rw [show (HostAct.touch qname r).posts.toList = [] from rfl, List.append_nil]
    exact hs.messages hs.sound (fun _ => rfl) (hs.stocked.touch hnames qname r)
  | op op =>
    rw [show (HostAct.op op).posts.toList = [] from rfl, List.append_nil]
    have hstep : h.step pb basedir (basedir ++ "/meta.db") op = some h' := hstep
    rcases step_mirrored hs.mirrored hstep with ⟨hcatalog, hmirrored⟩
    cases op with
    | declareExchange name type durable autoDelete args =>
      cases hstep
      refine hs.same hmirrored rfl rfl fun q => ?_
      have hne : Name.queue q ≠ Name.exchange name := fun h => Name.noConfusion h
      rw [hcatalog]
      exact Catalog.objects_declare_ne hne _
    | deleteExchange name =>
      cases hstep
      refine hs.same hmirrored rfl rfl fun q => ?_
      have hne : Name.queue q ≠ Name.exchange name := fun h => Name.noConfusion h
      rw [hcatalog]
      exact Catalog.objects_delete_ne hne
    | declareQueue qname qdurable qexclusive qautoDelete qargs =>
      rcases Option.map_eq_some_iff.mp hstep with ⟨⟨ok, h₁⟩, hdecl, rfl⟩
      exact hs.declareQueue hnames (hdeclares qname rfl) hdecl
    | deleteQueue name =>
      cases hstep
      exact hs.deleteQueue hnames name
    | bind ename qname key =>
      cases hstep
      have hkeep : (h.bind ename qname key).2.mmp = h.mmp ∧ (h.bind ename qname key).2.disk = h.disk := by
        unfold bind
        split
        · exact ⟨rfl, rfl⟩
        · split <;> exact ⟨rfl, rfl⟩
      exact hs.same hmirrored hkeep.1 hkeep.2 fun q => congrFun (congrArg Catalog.objects hcatalog) (.queue q)
    | unbind ename qname =>
      cases hstep
      exact hs.same hmirrored rfl rfl fun q => congrFun (congrArg Catalog.objects hcatalog) (.queue q)
    | restart => exact hs.restart hnames hstep

/-! ### Runs -/

/-- What a run relies on: the queues that it declares have these names, the strings in its statements are free of quotes
    and null bytes and the statements fit their buffers, no two messages of a queue have the same id, and the data files
    stay below 4 GiB. -/
structure Fits (pb : PayloadCodec) (basedir : String) (names : List String) (posted : List (String × String))
    (h : VirtualHost) (acts : List HostAct) : Prop where
  declares : ∀ q ∈ acts.filterMap HostAct.declares, q ∈ names
  clean : ∀ a ∈ acts, ∀ st ∈ a.statements, st.Clean
  posts : (posted ++ acts.filterMap HostAct.posts).Nodup
  small : Lib.always (act pb basedir (basedir ++ "/meta.db")) (staysSmall pb basedir (basedir ++ "/meta.db")) h acts = true

variable {a : HostAct} {acts : List HostAct}

theorem filterMap_cons {α β : Type} (f : α → Option β) (a : α) (as : List α) :
    (a :: as).filterMap f = (f a).toList ++ as.filterMap f := by
  cases ha : f a with
  | none => rw [List.filterMap_cons_none ha]; rfl
  | some x => rw [List.filterMap_cons_some ha]; rfl

/-- The first step of a run. -/
theorem Fits.next (hf : h.Fits pb basedir names posted (a :: acts)) (hnames : Separate basedir names)
    (hs : h.Stocks pb basedir names posted w) (hstep : h.act pb basedir (basedir ++ "/meta.db") a = some h') :
    h'.Stocks pb basedir names (posted ++ a.posts.toList) (a.stocks w) ∧
      h'.Fits pb basedir names (posted ++ a.posts.toList) acts := by
  have hposts := hf.posts
  rw [filterMap_cons, ← List.append_assoc] at hposts
  have hsmall := hf.small
  rw [Lib.always, Bool.and_eq_true, staysSmall, hstep, Option.all_some, Option.all_some] at hsmall
  have hfresh : ∀ x, a.posts = some x → x ∉ posted := by
    intro x hx hmem
    rw [hx, List.append_assoc, List.nodup_append] at hposts
    exact hposts.2.2 x hmem x (List.mem_append_left _ (List.mem_singleton_self x)) rfl
  have hdeclares := hf.declares
  rw [filterMap_cons, List.forall_mem_append] at hdeclares
  exact ⟨step_stocks hs hnames (fun q hq => hdeclares.1 q (Option.mem_toList.mpr hq)) hfresh hstep hsmall.1,
    hdeclares.2, fun act hact => hf.clean act (List.mem_cons_of_mem _ hact), hposts, hsmall.2⟩

/-- After a part of a run, and what the rest of it relies on. -/
theorem run_part {acts' : List HostAct} (hnames : Separate basedir names) (hf : h.Fits pb basedir names posted (acts ++ acts'))
    (hs : h.Stocks pb basedir names posted w) (hrun : Lib.run (act pb basedir (basedir ++ "/meta.db")) h acts = some h') :
    h'.Stocks pb basedir names (posted ++ acts.filterMap HostAct.posts) (acts.foldl HostAct.stocks w) ∧
      h'.Fits pb basedir names (posted ++ acts.filterMap HostAct.posts) acts' := by
  induction acts generalizing h w posted with
  | nil =>
    cases hrun
    rw [List.filterMap_nil, List.append_nil]
    exact ⟨hs, hf⟩
  | cons a acts ih =>
    rcases Lib.run_cons_eq_some hrun with ⟨h₁, hstep, hrun⟩
    rcases hf.next hnames hs hstep with ⟨hs₁, hf₁⟩
    rw [filterMap_cons, ← List.append_assoc]
    exact ih hf₁ hs₁ hrun

theorem run_stocks (hnames : Separate basedir names) (hf : h.Fits pb basedir names posted acts)
    (hs : h.Stocks pb basedir names posted w) (hrun : Lib.run (act pb basedir (basedir ++ "/meta.db")) h acts = some h') :
    h'.Stocks pb basedir names (posted ++ acts.filterMap HostAct.posts) (acts.foldl HostAct.stocks w) := by
  rw [← List.append_nil acts] at hf
  exact (run_part hnames hf hs hrun).1

/-- No operation aborts in an existing base directory. -/
theorem act_housed (hnames : Separate basedir names) (hs : h.Stocks pb basedir names posted w) (hh : h.Housed basedir)
    (a : HostAct) : ∃ h', h.act pb basedir (basedir ++ "/meta.db") a = some h' ∧ h'.Housed basedir := by
  cases a with
  | idle => exact ⟨h, rfl, hh⟩
  | op op => exact step_of_housed pb (basedir ++ "/meta.db") hs.mirrored hh op
  | publish qname bp uuid body =>
    have hgrows := basicPublish_grows pb h qname bp uuid body
    exact ⟨_, rfl, hh.of_grows hgrows.1 hgrows.2⟩
  | consume qname => exact ⟨_, rfl, (hs.stocked.front hnames qname).base, hh.isDir⟩
  | ack qname msgId =>
    rcases hs.stocked.ack hnames qname msgId with ⟨mmp, disk, hack, -⟩
    have hact : h.basicAck pb qname msgId = some { h with mmp, disk } := by
      simp only [basicAck, hack]
    have hgrows := basicAck_grows hact
    exact ⟨_, hact, hh.of_grows hgrows.1 hgrows.2⟩
  | touch qname r => exact ⟨_, rfl, (hs.stocked.touch hnames qname r).base, hh.isDir⟩

theorem run_housed (hnames : Separate basedir names) (hf : h.Fits pb basedir names posted acts)
    (hs : h.Stocks pb basedir names posted w) (hh : h.Housed basedir) :
    ∃ h', Lib.run (act pb basedir (basedir ++ "/meta.db")) h acts = some h' := by
  induction acts generalizing h w posted with
  | nil => exact ⟨h, rfl⟩
  | cons a acts ih =>
    rcases act_housed hnames hs hh a with ⟨h₁, hstep, hh₁⟩
    rcases hf.next hnames hs hstep with ⟨hs₁, hf₁⟩
    rcases ih hf₁ hs₁ hh₁ with ⟨h', hrun⟩
    exact ⟨h', (Lib.run_cons hstep).trans hrun⟩

/-- From an empty directory and an empty database on, the host is the warehouse of its operations, over any number of
    queues with plain names and restarts, as long as the ids in each queue are distinct, its statements are clean and its
    files stay below 4 GiB. In an existing base directory no operation aborts. -/
theorem run_shows (hblank : Blank basedir names d) (hnames : Separate basedir names)
    (hnew : new pb basedir (basedir ++ "/meta.db") d {} = some h) (hf : h.Fits pb basedir names [] acts) :
    (∀ h', Lib.run (act pb basedir (basedir ++ "/meta.db")) h acts = some h' → h'.Shows pb (acts.foldl HostAct.stocks {})) ∧
      (d.isDir (MessageMapper.directory basedir) = true →
        ∃ h', Lib.run (act pb basedir (basedir ++ "/meta.db")) h acts = some h') := by
  have hs := new_stocks hblank hnew
  exact ⟨fun h' hrun => (run_stocks hnames hf hs hrun).shows, fun hdir => run_housed hnames hf hs (new_housed hdir hnew)⟩

/-- A durable message is taken and the process ends before it is acknowledged. -/
def stored : List HostAct :=
  [.op (.declareQueue "q" true false false ∅), .op (.declareQueue "r" false false false ∅),
    .publish "q" (some ⟨"m", .durable, "k"⟩) "" "x", .publish "r" none "u" "y", .consume "q", .op .restart, .consume "q",
    .publish "q" none "v" "z", .ack "q" "m"]

theorem vacant_blank : Blank "data" ["q", "r"] Store.vacant := ⟨by decide, by decide +kernel, by decide +kernel⟩

theorem separate_data : Separate "data" ["q", "r"] := by
  unfold Separate
  decide +kernel

theorem run_shows_stored : ∃ h h', new protobuf "data" ("data" ++ "/meta.db") Store.vacant {} = some h ∧
    Lib.run (act protobuf "data" ("data" ++ "/meta.db")) h stored = some h' ∧
    h'.Shows protobuf (stored.foldl HostAct.stocks {}) := by
  have hall : (new protobuf "data" ("data" ++ "/meta.db") Store.vacant {}).any (fun h =>
      Lib.always (act protobuf "data" ("data" ++ "/meta.db")) (staysSmall protobuf "data" ("data" ++ "/meta.db")) h stored) = true := by
    decide +kernel
  rcases (Option.any_eq_true _ _).mp hall with ⟨h, hnew, hsmall⟩
  have hf : h.Fits protobuf "data" ["q", "r"] [] stored := ⟨by decide +kernel, by decide +kernel, by decide +kernel, hsmall⟩
  have hshows := run_shows vacant_blank separate_data hnew hf
  rcases hshows.2 (by decide +kernel) with ⟨h', hrun⟩
  exact ⟨h, h', hnew, hrun, hshows.1 h' hrun⟩

end VirtualHost

/-! ### The server -/

namespace Sys
variable (pb : PayloadCodec)

/-- What a run of the server does to the host. -/
def hostActs (s : Sys) : List Act → List HostAct
  | [] => []
  | act :: acts =>
    s.hostAct act ::
      match s.step pb act with
      | none => []
      | some s => s.hostActs acts

variable {pb} {s s' : Sys} {act : Act} {acts acts' : List Act} {basedir : String} {names : List String}

theorem hostActs_cons (hstep : s.step pb act = some s') :
    s.hostActs pb (act :: acts) = s.hostAct act :: s'.hostActs pb acts := by
  rw [hostActs, hstep]

theorem hostActs_append (hrun : Lib.run (step pb) s acts = some s') :
    s.hostActs pb (acts ++ acts') = s.hostActs pb acts ++ s'.hostActs pb acts' := by
  induction acts generalizing s with
  | nil =>
    cases hrun
    rfl
  | cons act acts ih =>
    rcases Lib.run_cons_eq_some hrun with ⟨s₁, hstep, hrun⟩
    rw [List.cons_append, hostActs_cons hstep, hostActs_cons hstep, ih hrun, List.cons_append]

theorem onChannel_basedir {self : ChannelRef} {req : Request} (hstep : s.onChannel pb self req = some s') :
    s'.basedir = s.basedir := by
  cases req with
  | declareQueue req =>
    rcases Option.map_eq_some_iff.mp hstep with ⟨broker, -, rfl⟩
    unfold noteDeclared
    split <;> rfl
  | deleteQueue req =>
    cases hstep
    unfold noteDeleted
    split <;> rfl
  | basicPublish req =>
    cases hstep
    unfold startPublish
    split <;> rfl
  | basicAck req =>
    rcases Option.map_eq_some_iff.mp hstep with ⟨broker, -, rfl⟩
    rfl
  | basicQuery req =>
    rcases Option.map_eq_some_iff.mp hstep with ⟨broker, -, rfl⟩
    rfl
  | _ =>
    cases hstep
    rfl

theorem boot_basedir {d : Disk} {db : Db} (hboot : boot pb basedir d db = some s) : s.basedir = basedir := by
  unfold boot at hboot
  split at hboot
  · cases hboot
  · cases hboot
    rfl

/-- The base directory stays the same. -/
theorem step_basedir (hstep : s.step pb act = some s') : s'.basedir = s.basedir := by
  cases act with
  | connect conn =>
    simp only [step, Option.ite_none_left_eq_some, Option.some.injEq] at hstep
    rw [← hstep.2]
    rfl
  | disconnect conn =>
    simp only [step, Option.ite_none_left_eq_some, Option.some.injEq] at hstep
    rw [← hstep.2]
    rfl
  | request conn req =>
    simp only [step, Option.ite_none_left_eq_some] at hstep
    cases requested hstep.2 with
    | unknown | opens | closes | unserved => rfl
    | served _ _ _ _ hstep => exact onChannel_basedir hstep
  | publish uuid =>
    rcases Option.map_eq_some_iff.mp hstep with ⟨p, -, rfl⟩
    unfold publishStep
    split
    · rfl
    · split <;> rfl
  | work =>
    cases worked hstep with
    | consume hworker =>
      unfold consume
      split <;> rfl
    | choose hworker =>
      unfold choose
      split <;> rfl
    | _ => rfl
  | restart => exact boot_basedir hstep

/-- A run of the server is a run of its host. -/
theorem host_run (hbase : s.basedir = basedir) (hrun : Lib.run (step pb) s acts = some s') :
    s'.basedir = basedir ∧
      Lib.run (VirtualHost.act pb basedir (basedir ++ "/meta.db")) s.broker.host (s.hostActs pb acts) = some s'.broker.host := by
  induction acts generalizing s with
  | nil =>
    cases hrun
    exact ⟨hbase, rfl⟩
  | cons act acts ih =>
    rcases Lib.run_cons_eq_some hrun with ⟨s₁, hstep, hrun⟩
    have hhost := host_step hstep
    rw [dbfile, hbase] at hhost
    rw [hostActs_cons hstep, Lib.run_cons hhost]
    exact ih ((step_basedir hstep).trans hbase) hrun

theorem boot_of_new {d : Disk} {db : Db} {h : VirtualHost} (hnew : VirtualHost.new pb basedir (basedir ++ "/meta.db") d db = some h) :
    ∃ s, boot pb basedir d db = some s ∧ s.broker.host = h := by
  unfold boot
  rw [hnew]
  exact ⟨_, rfl, rfl⟩

/-- Whatever the clients, the worker and the restarts do in which order, the maps and the messages of the server are those
    of the warehouse of its operations. -/
theorem run_stocked {d : Disk} {s₀ : Sys} (hblank : Blank basedir names d) (hnames : Separate basedir names)
    (hboot : boot pb basedir d {} = some s₀) (hf : s₀.broker.host.Fits pb basedir names [] (s₀.hostActs pb acts))
    (hrun : s₀.run pb acts = some s) : s.broker.host.Shows pb ((s₀.hostActs pb acts).foldl HostAct.stocks {}) := by
  rw [run_eq_run] at hrun
  have hs₀ := VirtualHost.new_stocks hblank (host_boot hboot)
  exact (VirtualHost.run_stocks hnames hf hs₀ (host_run (boot_basedir hboot) hrun).2).shows

/-- A run of the empty server, with the conditions evaluated on it. -/
theorem exists_fits {acts : List Act} {p : Sys → Bool}
    (hall : (boot protobuf "data" Store.vacant {}).any (fun s₀ =>
      decide (∀ q ∈ (s₀.hostActs protobuf acts).filterMap HostAct.declares, q ∈ ["q", "r"]) &&
        decide (∀ a ∈ s₀.hostActs protobuf acts, ∀ st ∈ a.statements, st.Clean) &&
        decide ((s₀.hostActs protobuf acts).filterMap HostAct.posts).Nodup &&
        Lib.always (VirtualHost.act protobuf "data" ("data" ++ "/meta.db"))
          (VirtualHost.staysSmall protobuf "data" ("data" ++ "/meta.db"))
          s₀.broker.host (s₀.hostActs protobuf acts) && (s₀.run protobuf acts).any p) = true) :
    ∃ s₀ s : Sys, boot protobuf "data" Store.vacant {} = some s₀ ∧
      s₀.broker.host.Fits protobuf "data" ["q", "r"] [] (s₀.hostActs protobuf acts) ∧ s₀.run protobuf acts = some s ∧
      p s = true := by
  rcases (Option.any_eq_true _ _).mp hall with ⟨s₀, hboot, hs₀⟩
  simp only [Bool.and_eq_true, decide_eq_true_eq] at hs₀
  rcases hs₀ with ⟨⟨⟨⟨hdeclares, hclean⟩, hposts⟩, hsmall⟩, hrun⟩
  rcases (Option.any_eq_true _ _).mp hrun with ⟨s, hs, hp⟩
  exact ⟨s₀, s, hboot, ⟨hdeclares, hclean, hposts, hsmall⟩, hs, hp⟩

theorem fits_recovered : ∃ s₀ s : Sys, boot protobuf "data" Store.vacant {} = some s₀ ∧
    s₀.broker.host.Fits protobuf "data" ["q", "r"] [] (s₀.hostActs protobuf recovered) ∧ s₀.run protobuf recovered = some s := by
  have hall := @exists_fits recovered (fun _ => true) (by decide +kernel)
  rcases hall with ⟨s₀, s, hboot, hf, hs, -⟩
  exact ⟨s₀, s, hboot, hf, hs⟩

theorem run_stocked_recovered : ∃ s₀ s : Sys, boot protobuf "data" Store.vacant {} = some s₀ ∧
    s₀.run protobuf recovered = some s ∧ s.broker.host.Shows protobuf ((s₀.hostActs protobuf recovered).foldl HostAct.stocks {}) := by
  rcases fits_recovered with ⟨s₀, s, hboot, hf, hs⟩
  exact ⟨s₀, s, hboot, hs, run_stocked VirtualHost.vacant_blank VirtualHost.separate_data hboot hf hs⟩

/-- A durable message that was published to a durable queue is there, in every order of the steps of the clients, the worker
    and the restarts, until it is acknowledged or the queue is deleted. A process that is started at any time has it
    pending again. -/
theorem run_retains {d : Disk} {s₀ s₁ : Sys} {before after : List Act} {qname uuid body : String} {bp : Option BasicProperties}
    {mqp : MsgQueue} (hblank : Blank basedir names d) (hnames : Separate basedir names) (hboot : boot pb basedir d {} = some s₀)
    (hf : s₀.broker.host.Fits pb basedir names [] (s₀.hostActs pb (before ++ act :: after)))
    (hbefore : s₀.run pb before = some s₁) (hact : s₁.hostAct act = .publish qname bp uuid body)
    (hselect : s₁.broker.host.mqmp.selectQueue qname = some mqp) (hqueue : mqp.durable = true)
    (hmode : (promised bp uuid body true).isDurable = true) (hafter : s₁.run pb (act :: after) = some s)
    (hspared : ∀ a ∈ s₁.hostActs pb (act :: after), a.spares qname (promised bp uuid body true).id = true) :
    s.broker.host.Keeps qname (promised bp uuid body true) ∧
      ∃ s', s.step pb .restart = some s' ∧ promised bp uuid body true ∈ s'.broker.host.mmp.contents qname := by
  rw [run_eq_run] at hbefore hafter
  have hs₀ := VirtualHost.new_stocks hblank (host_boot hboot)
  rcases host_run (boot_basedir hboot) hbefore with ⟨hbase₁, hhost₁⟩
  rcases host_run hbase₁ hafter with ⟨hbase, hhost⟩
  rw [hostActs_append hbefore] at hf
  rcases VirtualHost.run_part hnames hf hs₀ hhost₁ with ⟨hs₁, hf₁⟩
  have hs := VirtualHost.run_stocks hnames hf₁ hs₁ hhost
  rcases Lib.run_cons_eq_some hafter with ⟨s₂, hstep, -⟩
  rw [hostActs_cons hstep, hact, List.foldl_cons] at hs
  rw [hostActs_cons hstep, List.forall_mem_cons] at hspared
  -- the publication puts the message into the queue, and nothing takes it out of what is held
  have hdurable := hs₁.durable qname
  rw [VirtualHost.durable_catalog, hselect, Option.map_some, hqueue, eq_comm, Option.map_eq_some_iff] at hdurable
  rcases hdurable with ⟨stock, hstock, hlasting⟩
  have hretains := HostAct.foldl_retains (Warehouse.retains_push hstock hlasting fun durable => promised bp uuid body durable)
    hmode hspared.2
  refine ⟨hs.keeps hretains, ?_⟩
  rcases (hretains.restart hmode).pending with ⟨again, hagain, hpending⟩
  rcases hretains with ⟨stock', hstock', -, -⟩
  rcases hs.stocked.lookup_of_stock hstock' with ⟨qmp, -, hholds⟩
  rcases VirtualHost.step_of_housed pb (basedir ++ "/meta.db") hs.mirrored ⟨hs.stocked.base, hholds.isDir⟩ .restart with ⟨h', hnew, -⟩
  rcases boot_of_new hnew with ⟨s', hboot', rfl⟩
  have hstep' : s.step pb .restart = some s' := by
    rw [← hbase] at hboot'
    exact hboot'
  exact ⟨s', hstep', (hs.restart hnames hnew).pending_mem hagain hpending⟩

/-- The worker takes a message that no consumer waits for. -/
def unclaimed : List Act := bound ++ pushed

open VirtualHost in
theorem run_retains_pushed : ∃ s₀ s₁ s : Sys, boot protobuf "data" Store.vacant {} = some s₀ ∧
    s₀.run protobuf (unclaimed.take 8) = some s₁ ∧ s₁.run protobuf (.publish "u" :: unclaimed.drop 9) = some s ∧
    s.broker.host.Keeps "q" ⟨"m", "x", "a.k", .durable⟩ ∧
    ∃ s', s.step protobuf .restart = some s' ∧ ⟨"m", "x", "a.k", .durable⟩ ∈ s'.broker.host.mmp.contents "q" := by
  have hall : (boot protobuf "data" Store.vacant {}).any (fun s₀ =>
      decide (∀ q ∈ (s₀.hostActs protobuf unclaimed).filterMap HostAct.declares, q ∈ ["q", "r"]) &&
        decide (∀ a ∈ s₀.hostActs protobuf unclaimed, ∀ st ∈ a.statements, st.Clean) &&
        decide ((s₀.hostActs protobuf unclaimed).filterMap HostAct.posts).Nodup &&
        Lib.always (act protobuf "data" ("data" ++ "/meta.db")) (staysSmall protobuf "data" ("data" ++ "/meta.db"))
          s₀.broker.host (s₀.hostActs protobuf unclaimed) &&
        (s₀.run protobuf (unclaimed.take 8)).any fun s₁ =>
          (s₁.hostAct (.publish "u")).published = some ("q", some ⟨"m", .durable, "a.k"⟩, "u", "x") &&
            (s₁.broker.host.mqmp.selectQueue "q").any (·.durable) && (s₁.run protobuf (.publish "u" :: unclaimed.drop 9)).isSome &&
            (s₁.hostActs protobuf (.publish "u" :: unclaimed.drop 9)).all (HostAct.spares "q" "m")) = true := by
    decide +kernel
  rcases (Option.any_eq_true _ _).mp hall with ⟨s₀, hboot, hs₀⟩
  simp only [Bool.and_eq_true, decide_eq_true_eq] at hs₀
  rcases hs₀ with ⟨⟨⟨⟨hdeclares, hclean⟩, hposts⟩, hsmall⟩, hs₀⟩
  rcases (Option.any_eq_true _ _).mp hs₀ with ⟨s₁, hbefore, hs₁⟩
  simp only [Bool.and_eq_true, decide_eq_true_eq, Option.isSome_iff_exists, List.all_eq_true] at hs₁
  rcases hs₁ with ⟨⟨⟨hact, hqueue⟩, s, hafter⟩, hspared⟩
  rcases (Option.any_eq_true _ _).mp hqueue with ⟨mqp, hselect, hdurable⟩
  have hf : s₀.broker.host.Fits protobuf "data" ["q", "r"] [] (s₀.hostActs protobuf (unclaimed.take 8 ++ .publish "u" :: unclaimed.drop 9)) :=
    ⟨hdeclares, hclean, hposts, hsmall⟩
  exact ⟨s₀, s₁, s, hboot, hbefore, hafter, run_retains vacant_blank separate_data hboot hf hbefore (HostAct.of_published hact)
    hselect hdurable rfl hafter hspared⟩

end Sys
end HareMQ
