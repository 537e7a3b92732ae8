import HareMQ.Theorems.HostActs
import HareMQ.Theorems.Publish

/-! # Legal keys

Neither `bind` nor `basic_publish` asks the router whether a key is legal. The binding keys of a server are legal exactly
when every `bind` that enters a binding names a legal key, and a publish is refused exactly when its exchange is unknown. -/

namespace HareMQ
open Lib

/-! ### Rows of the binding table -/

namespace Db
variable {db db' : Db}

def rows (db : Db) : List BindingRow := db.bindingTable.getD []

/-- No row of the binding table is new. -/
def Shrinks (db db' : Db) : Prop := ∀ row ∈ db'.rows, row ∈ db.rows

theorem Shrinks.refl (db : Db) : Shrinks db db := fun _ => id

theorem Shrinks.trans {db₁ db₂ : Db} (h₁ : Shrinks db db₁) (h₂ : Shrinks db₁ db₂) : Shrinks db db₂ :=
  fun row hrow => h₁ row (h₂ row hrow)

theorem shrinks_exec (db : Db) {statement : Db → Option Db} (hs : ∀ db db', statement db = some db' → Shrinks db db') :
    Shrinks db (db.exec statement).2 := by
  unfold exec
  split
  · exact Shrinks.refl db
  · split
    · exact Shrinks.refl db
    · next heq => exact hs db.tick _ heq

theorem shrinks_createExchangeTable {db db' : Db} (h : createExchangeTable db = some db') : Shrinks db db' := by
  cases h
  exact Shrinks.refl db

theorem shrinks_createQueueTable {db db' : Db} (h : createQueueTable db = some db') : Shrinks db db' := by
  cases h
  exact Shrinks.refl db

theorem shrinks_createBindingTable {db db' : Db} (h : createBindingTable db = some db') : Shrinks db db' := by
  cases h
  exact fun row hrow => hrow

theorem shrinks_insertExchange (row : ExchangeRow) {db db' : Db} (h : insertExchange row db = some db') :
    Shrinks db db' := by
  unfold insertExchange at h
  split at h
  · cases h
  · split at h
    · cases h
    · cases h
      exact fun _ => id

theorem shrinks_insertQueue (row : QueueRow) {db db' : Db} (h : insertQueue row db = some db') : Shrinks db db' := by
  unfold insertQueue at h
  split at h
  · cases h
  · split at h
    · cases h
    · cases h
      exact fun _ => id

theorem shrinks_deleteExchanges (name : String) {db db' : Db} (h : deleteExchanges name db = some db') :
    Shrinks db db' := by
  rcases Option.map_eq_some_iff.mp h with ⟨_, -, rfl⟩
  exact fun _ => id

theorem shrinks_deleteQueues (name : String) {db db' : Db} (h : deleteQueues name db = some db') : Shrinks db db' := by
  rcases Option.map_eq_some_iff.mp h with ⟨_, -, rfl⟩
  exact fun _ => id

theorem shrinks_deleteBindings (clause : BindingRow → Bool) {db db' : Db} (h : deleteBindings clause db = some db') :
    Shrinks db db' := by
  rcases Option.map_eq_some_iff.mp h with ⟨rows, hrows, rfl⟩
  intro row hrow
  rw [Db.rows, hrows]
  exact List.mem_of_mem_filter hrow

theorem shrinks_openTable {create : Db → Option Db} (hcreate : ∀ db db', create db = some db' → Shrinks db db')
    {dbfile : String} {d d' : Disk} (h : openTable create dbfile d db = some (d', db')) : Shrinks db db' := by
  unfold openTable at h
  dsimp only at h
  split at h
  · cases h
  · next db₁ hopen =>
    split at h
    · cases h
    · next db₂ hexec =>
      cases h
      have hopened : Shrinks db db₁ := by
        have hkeep : Shrinks db db.openFile.2 := shrinks_exec db fun _ _ h => by cases h; exact Shrinks.refl _
        rwa [hopen] at hkeep
      have hcreated := shrinks_exec db₁ hcreate
      rw [hexec] at hcreated
      exact hopened.trans hcreated

/-- A query delivers rows of its table, and changes none. -/
theorem query_cases {ρ : Type} (db : Db) (table : Db → Option (List ρ)) :
    (∀ row ∈ (db.query table).1, row ∈ (table db).getD []) ∧ Shrinks db (db.query table).2 := by
  unfold query
  split
  · exact ⟨fun row hrow => List.mem_of_mem_take hrow, Shrinks.refl db⟩
  · exact ⟨fun row hrow => hrow, Shrinks.refl db⟩

end Db

/-! ### Bindings and rows -/

namespace BindingManager

/-- The pair has no binding, and `bind` enters one. -/
def adds (m : BindingManager) (ename qname : String) (durable : Bool) (db : Db) : Bool :=
  !m.exists? ename qname && (!durable || (db.fate = .ok && db.bindingTable.isSome))

/-- What `bind` does to the bindings and to the rows. -/
theorem bind_cases (m : BindingManager) (ename qname key : String) (durable : Bool) (db : Db) :
    (m.adds ename qname durable db = false ∧ (m.bind ename qname key durable db).2.1 = m ∧
      Db.Shrinks db (m.bind ename qname key durable db).2.2) ∨
    (m.adds ename qname durable db = true ∧
      (∀ e q, (m.bind ename qname key durable db).2.1.getBinding e q =
        (m.getBinding e q).or (if e = ename ∧ q = qname then some ⟨ename, qname, key⟩ else none)) ∧
      m.getBinding ename qname = none ∧
      ∀ row ∈ (m.bind ename qname key durable db).2.2.rows, row ∈ db.rows ∨ row = ⟨ename, qname, key⟩) := by
  unfold adds bind
  by_cases hex : m.exists? ename qname = true
  · simp only [hex, if_true, Bool.not_true, Bool.false_and]
    exact Or.inl ⟨trivial, trivial, Db.Shrinks.refl _⟩
  · have hfree : m.getBinding ename qname = none := by
      simpa [exists?] using hex
    have hins := fun e q => getBinding_insert m.bindings ⟨ename, qname, key⟩ ename qname e q
    rw [Bool.not_eq_true] at hex
    simp only [hex, Bool.false_eq_true, if_false, Bool.not_false, Bool.true_and]
    cases durable with
    | false => exact Or.inr ⟨rfl, hins, hfree, fun row hrow => Or.inl hrow⟩
    | true =>
      simp only [if_true, Bool.not_true, Bool.false_or, BindingMapper.insert, Db.exec]
      cases hfate : db.fate with
      | fail n => exact Or.inl ⟨rfl, rfl, Db.Shrinks.refl _⟩
      | ok =>
        cases htable : db.bindingTable with
        | none =>
          have htick : db.tick.bindingTable = none := htable
          simp only [Db.insertBinding, htick]
          exact Or.inl ⟨rfl, trivial, Db.Shrinks.refl _⟩
        | some rows =>
          have htick : db.tick.bindingTable = some rows := htable
          simp only [Db.insertBinding, htick]
          refine Or.inr ⟨rfl, hins, hfree, fun row hrow => ?_⟩
          rw [Db.rows, htable]
          exact (List.mem_append.mp hrow).imp_right List.mem_singleton.mp

/-- The removals leave bindings and rows that were there. -/
theorem unbind_shrinks (m : BindingManager) (ename qname : String) (db : Db) :
    (∀ e q bp, (m.unbind ename qname db).1.getBinding e q = some bp → m.getBinding e q = some bp) ∧
      Db.Shrinks db (m.unbind ename qname db).2 := by
  unfold unbind
  split
  · exact ⟨fun e q bp hbp => hbp, Db.Shrinks.refl _⟩
  · next qbmap hqbmap =>
    split
    · refine ⟨fun e q bp hbp => ?_, Db.shrinks_exec _ fun _ _ => Db.shrinks_deleteBindings _⟩
      simp only [getBinding, UMap.lookup_insert] at hbp ⊢
      split at hbp
      · next he =>
        rw [he, hqbmap]
        exact (UMap.lookup_erase_eq_some hbp).2
      · exact hbp
    · exact ⟨fun e q bp hbp => hbp, Db.Shrinks.refl _⟩

theorem unbindExchange_shrinks (m : BindingManager) (name : String) (db : Db) :
    (∀ e q bp, (m.unbindExchange name db).1.getBinding e q = some bp → e ≠ name ∧ m.getBinding e q = some bp) ∧
      Db.Shrinks db (m.unbindExchange name db).2 := by
  refine ⟨fun e q bp hbp => ?_, Db.shrinks_exec _ fun _ _ => Db.shrinks_deleteBindings _⟩
  have hbp : ({ bindings := m.bindings.erase name } : BindingManager).getBinding e q = some bp := hbp
  rw [VirtualHost.getBinding_erase] at hbp
  split at hbp
  · cases hbp
  · next hne => exact ⟨hne, hbp⟩

theorem unbindQueue_shrinks (m : BindingManager) (name : String) (db : Db) :
    (∀ e q bp, (m.unbindQueue name db).1.getBinding e q = some bp → q ≠ name ∧ m.getBinding e q = some bp) ∧
      Db.Shrinks db (m.unbindQueue name db).2 := by
  refine ⟨fun e q bp hbp => ?_, Db.shrinks_exec _ fun _ _ => Db.shrinks_deleteBindings _⟩
  have hbp : ({ bindings := m.bindings.mapValues (·.erase name) } : BindingManager).getBinding e q = some bp := hbp
  rw [VirtualHost.getBinding_mapValues_erase] at hbp
  split at hbp
  · cases hbp
  · next hne => exact ⟨hne, hbp⟩

end BindingManager

/-! ### The keys of a host -/

namespace VirtualHost
variable {pb : PayloadCodec} {basedir dbfile : String} {h h' : VirtualHost} {legal : String → Prop}

/-- The binding keys in memory and in the table. -/
structure KeysIn (legal : String → Prop) (h : VirtualHost) : Prop where
  bindings : ∀ {ename qname bp}, h.bmp.getBinding ename qname = some bp → legal bp.bindingKey
  rows : ∀ row ∈ h.db.rows, legal row.bindingKey

/-- The pair has no binding, and `bind` enters one. -/
def binds (h : VirtualHost) (ename qname : String) : Bool :=
  match h.emp.selectExchange ename, h.mqmp.selectQueue qname with
  | some ep, some mqp =>
    !h.bmp.exists? ename qname && (!(ep.durable && mqp.durable) || (h.db.fate = .ok && h.db.bindingTable.isSome))
  | _, _ => false

theorem KeysIn.of_shrinks (hk : h.KeysIn legal)
    (hbmp : ∀ {ename qname bp}, h'.bmp.getBinding ename qname = some bp → h.bmp.getBinding ename qname = some bp)
    (hdb : Db.Shrinks h.db h'.db) : h'.KeysIn legal where
  bindings hbp := hk.bindings (hbmp hbp)
  rows row hrow := hk.rows row (hdb row hrow)

/-- What `bind` does to the bindings and to the rows. -/
theorem bind_cases (h : VirtualHost) (ename qname key : String) :
    (h.binds ename qname = false ∧ (h.bind ename qname key).2.bmp = h.bmp ∧ Db.Shrinks h.db (h.bind ename qname key).2.db) ∨
    (h.binds ename qname = true ∧
      (∀ e q, (h.bind ename qname key).2.bmp.getBinding e q =
        (h.bmp.getBinding e q).or (if e = ename ∧ q = qname then some ⟨ename, qname, key⟩ else none)) ∧
      h.bmp.getBinding ename qname = none ∧
      ∀ row ∈ (h.bind ename qname key).2.db.rows, row ∈ h.db.rows ∨ row.bindingKey = key) := by
  unfold binds VirtualHost.bind
  cases hep : h.emp.selectExchange ename with
  | none => exact Or.inl ⟨rfl, rfl, Db.Shrinks.refl _⟩
  | some ep =>
    cases hmqp : h.mqmp.selectQueue qname with
    | none => exact Or.inl ⟨rfl, rfl, Db.Shrinks.refl _⟩
    | some mqp =>
      obtain hkept | ⟨hadds, hget, hfree, hrows⟩ := h.bmp.bind_cases ename qname key (ep.durable && mqp.durable) h.db
      · exact Or.inl hkept
      · exact Or.inr ⟨hadds, hget, hfree, fun row hrow => (hrows row hrow).imp_right fun heq => by rw [heq]⟩

theorem KeysIn.unbind (hk : h.KeysIn legal) (ename qname : String) : (h.unbind ename qname).KeysIn legal :=
  hk.of_shrinks (fun {e q bp} => (h.bmp.unbind_shrinks ename qname h.db).1 e q bp) (h.bmp.unbind_shrinks ename qname h.db).2

theorem KeysIn.deleteExchange (hk : h.KeysIn legal) (name : String) : (h.deleteExchange name).KeysIn legal := by
  obtain ⟨hbindings, hunbound⟩ := h.bmp.unbindExchange_shrinks name h.db
  refine hk.of_shrinks (fun {e q bp} hbp => (hbindings e q bp hbp).2) (hunbound.trans ?_)
  unfold VirtualHost.deleteExchange ExchangeManager.deleteExchange
  dsimp only
  split
  · exact Db.Shrinks.refl _
  · dsimp only
    split
    · exact Db.shrinks_exec _ fun _ _ => Db.shrinks_deleteExchanges _
    · exact Db.Shrinks.refl _

theorem KeysIn.deleteQueue (hk : h.KeysIn legal) (name : String) : (h.deleteQueue name).KeysIn legal := by
  obtain ⟨hbindings, hunbound⟩ := h.bmp.unbindQueue_shrinks name h.db
  refine hk.of_shrinks (fun {e q bp} hbp => (hbindings e q bp hbp).2) (hunbound.trans ?_)
  unfold VirtualHost.deleteQueue MsgQueueManager.deleteQueue
  dsimp only
  split
  · exact Db.Shrinks.refl _
  · dsimp only
    split
    · exact Db.shrinks_exec _ fun _ _ => Db.shrinks_deleteQueues _
    · exact Db.Shrinks.refl _

theorem shrinks_declareExchange (m : ExchangeManager) (name : String) (type : ExchangeType) (durable autoDelete : Bool)
    (args : UMap String String) (db : Db) :
    Db.Shrinks db (m.declareExchange name type durable autoDelete args db).2.2 := by
  unfold ExchangeManager.declareExchange
  split
  · exact Db.Shrinks.refl _
  · dsimp only
    split
    · exact Db.shrinks_exec _ fun _ _ => Db.shrinks_insertExchange _
    · exact Db.Shrinks.refl _

theorem shrinks_declareQueue (m : MsgQueueManager) (qname : String) (qdurable qexclusive qautoDelete : Bool)
    (qargs : UMap String String) (db : Db) :
    Db.Shrinks db (m.declareQueue qname qdurable qexclusive qautoDelete qargs db).2.2 := by
  unfold MsgQueueManager.declareQueue
  split
  · exact Db.Shrinks.refl _
  · dsimp only
    split
    · have hexec : ∀ q : MsgQueue, Db.Shrinks db (MsgQueueMapper.insert q db).2 := fun q =>
        Db.shrinks_exec db fun _ _ => Db.shrinks_insertQueue _
      split
      · next hins => exact (congrArg Prod.snd hins) ▸ hexec _
      · next hins => exact (congrArg Prod.snd hins) ▸ hexec _
    · exact Db.Shrinks.refl _

/-- A start opens the three tables one after the other and reads each. -/
theorem new_stages {d : Disk} {db : Db} (hnew : new pb basedir dbfile d db = some h) : ∃ d₁ db₁ d₂ db₂ d₃ db₃,
    Db.openTable Db.createExchangeTable dbfile d db = some (d₁, db₁) ∧
    Db.openTable Db.createQueueTable dbfile d₁ (db₁.query (·.exchangeTable)).2 = some (d₂, db₂) ∧
    Db.openTable Db.createBindingTable dbfile d₂ (db₂.query (·.queueTable)).2 = some (d₃, db₃) ∧
    h.emp = ⟨(db₁.query (·.exchangeTable)).1.foldl ExchangeMapper.select ∅⟩ ∧
    h.mqmp = ⟨(db₂.query (·.queueTable)).1.foldl MsgQueueMapper.select ∅⟩ ∧
    h.bmp = ⟨(db₃.query (·.bindingTable)).1.foldl BindingMapper.select ∅⟩ ∧
    h.db = (db₃.query (·.bindingTable)).2 ∧
    initAll pb { baseDir := basedir } d₃ h.mqmp.msgQueues.keys = some (h.mmp, h.disk) := by
  unfold new ExchangeManager.new MsgQueueManager.new BindingManager.new at hnew
  cases hopen₁ : ExchangeMapper.new dbfile d db with
  | none => simp [hopen₁] at hnew
  | some s₁ =>
    obtain ⟨d₁, db₁⟩ := s₁
    simp only [hopen₁, ExchangeMapper.all] at hnew
    cases hopen₂ : MsgQueueMapper.new dbfile d₁ (db₁.query (·.exchangeTable)).2 with
    | none => simp [hopen₂] at hnew
    | some s₂ =>
      obtain ⟨d₂, db₂⟩ := s₂
      simp only [hopen₂, MsgQueueMapper.all] at hnew
      cases hopen₃ : BindingMapper.new dbfile d₂ (db₂.query (·.queueTable)).2 with
      | none => simp [hopen₃] at hnew
      | some s₃ =>
        obtain ⟨d₃, db₃⟩ := s₃
        simp only [hopen₃, BindingMapper.all] at hnew
        split at hnew
        · cases hnew
        · next hinit =>
          cases hnew
          exact ⟨d₁, db₁, d₂, db₂, d₃, db₃, hopen₁, hopen₂, hopen₃, rfl, rfl, rfl, rfl, hinit⟩

/-- A start finds only bindings of the table. -/
theorem new_keysIn {d : Disk} {db : Db} (hrows : ∀ row ∈ db.rows, legal row.bindingKey)
    (hnew : new pb basedir dbfile d db = some h) : h.KeysIn legal := by
  obtain ⟨d₁, db₁, d₂, db₂, d₃, db₃, hopen₁, hopen₂, hopen₃, -, -, hbmp, hdb, -⟩ := new_stages hnew
  have h₁ := (Db.shrinks_openTable (fun _ _ => Db.shrinks_createExchangeTable) hopen₁).trans (Db.query_cases db₁ (·.exchangeTable)).2
  have h₂ := (Db.shrinks_openTable (fun _ _ => Db.shrinks_createQueueTable) hopen₂).trans (Db.query_cases db₂ (·.queueTable)).2
  have h₃ := (h₁.trans h₂).trans (Db.shrinks_openTable (fun _ _ => Db.shrinks_createBindingTable) hopen₃)
  obtain ⟨hread, hquery⟩ := Db.query_cases db₃ (·.bindingTable)
  refine ⟨fun {e q bp} hbp => ?_, fun row hrow => hrows row (h₃ row (hquery row (hdb ▸ hrow)))⟩
  rw [hbmp, getBinding_foldl_select, show ({ bindings := ∅ } : BindingManager).getBinding e q = none from rfl,
    Option.none_or] at hbp
  obtain ⟨row, hrow, rfl⟩ := Option.map_eq_some_iff.mp hbp
  exact hrows row (h₃ row (hread row (List.mem_of_find?_eq_some hrow)))

theorem act_keysIn {act : HostAct} (hk : h.KeysIn legal) (hstep : h.act pb basedir dbfile act = some h')
    (hnew : ∀ ename qname key, act = .op (.bind ename qname key) → h.binds ename qname = true → legal key) :
    h'.KeysIn legal := by
  cases act with
  | idle => cases hstep; exact hk
  | op op =>
    cases op with
    | declareExchange name type durable autoDelete args =>
      cases hstep
      exact hk.of_shrinks id (shrinks_declareExchange _ _ _ _ _ _ _)
    | deleteExchange name => cases hstep; exact hk.deleteExchange name
    | declareQueue name qdurable qexclusive qautoDelete qargs =>
      rcases Option.map_eq_some_iff.mp hstep with ⟨⟨ok, h₁⟩, hdecl, rfl⟩
      unfold declareQueue at hdecl
      split at hdecl
      · cases hdecl
      · cases hdecl
        exact hk.of_shrinks id (shrinks_declareQueue _ _ _ _ _ _ _)
    | deleteQueue name => cases hstep; exact hk.deleteQueue name
    | bind ename qname key =>
      cases hstep
      rcases h.bind_cases ename qname key with ⟨-, hbmp, hdb⟩ | ⟨hbinds, hget, -, hrows⟩
      · exact hk.of_shrinks (fun hbp => hbmp ▸ hbp) hdb
      · have hkey := hnew ename qname key rfl hbinds
        refine ⟨fun {e q bp} hbp => ?_, fun row hrow => ?_⟩
        · rw [hget] at hbp
          rcases Option.or_eq_some_iff.mp hbp with hbp | ⟨-, hbp⟩
          · exact hk.bindings hbp
          · split at hbp
            · cases hbp
              exact hkey
            · cases hbp
        · rcases hrows row hrow with hrow | heq
          · exact hk.rows row hrow
          · rw [heq]
            exact hkey
    | unbind ename qname => cases hstep; exact hk.unbind ename qname
    | restart => exact new_keysIn hk.rows hstep
  | publish name bp uuid body =>
    cases hstep
    unfold basicPublish
    split
    · exact hk
    · exact ⟨hk.bindings, hk.rows⟩
  | consume name => cases hstep; exact ⟨hk.bindings, hk.rows⟩
  | ack name msgId =>
    rw [act, basicAck] at hstep
    split at hstep
    · cases hstep
    · cases hstep
      exact ⟨hk.bindings, hk.rows⟩
  | touch name r => cases hstep; exact ⟨hk.bindings, hk.rows⟩

end VirtualHost

/-! ### Requests -/

namespace Broker

def routingKey (req : BasicPublishRequest) : String := (req.properties.map (·.routingKey)).getD ""

/-- A publish is refused: the answer is negative, and no queue has a new message. -/
structure Refused (b : Broker) (cp : ChannelRef) (req : BasicPublishRequest) (b' : Broker) : Prop where
  answer : b'.sent = b.sent ++ [((b.channels cp).conn, .basicCommonResponse req.rid req.cid false)]
  messages : b'.host.mmp = b.host.mmp

variable (pb : PayloadCodec) (b : Broker) (self : ChannelRef) (req : BasicPublishRequest) (uuid : String → String)

theorem foldl_publishTo_sent (qnames : List String) (b : Broker) :
    (qnames.foldl (fun b qname => b.publishTo pb self req uuid qname) b).sent = b.sent ∧
      (qnames.foldl (fun b qname => b.publishTo pb self req uuid qname) b).channels = b.channels := by
  induction qnames generalizing b with
  | nil => exact ⟨rfl, rfl⟩
  | cons qname qnames ih => exact ih (b.publishTo pb self req uuid qname)

/-- The answer says whether the exchange is known. -/
theorem basicPublish_sent : (b.basicPublish pb self req uuid).sent = b.sent ++
    [((b.channels self).conn, .basicCommonResponse req.rid req.cid (b.host.selectExchange req.exchangeName).isSome)] := by
  unfold basicPublish
  cases b.host.selectExchange req.exchangeName with
  | none => rfl
  | some ep =>
    rcases foldl_publishTo_sent pb self req uuid (b.targets ep req) b with ⟨hsent, hchannels⟩
    dsimp only
    rw [basicResponse, send, hsent, hchannels]
    rfl

theorem refused_iff : b.Refused self req (b.basicPublish pb self req uuid) ↔
    (b.host.selectExchange req.exchangeName).isNone = true := by
  constructor
  · intro h
    have hanswer := (basicPublish_sent pb b self req uuid).symm.trans h.answer
    simp only [List.append_cancel_left_eq, List.cons.injEq, Prod.mk.injEq, Response.basicCommonResponse.injEq, true_and,
      and_true] at hanswer
    rw [← Option.not_isSome, hanswer]
    rfl
  · intro hnone
    rw [Option.isNone_iff_eq_none] at hnone
    refine ⟨?_, ?_⟩
    · rw [basicPublish_sent, hnone]
      rfl
    · rw [basicPublish, hnone]
      rfl

end Broker

/-! ### The server -/

namespace Sys
variable {pb : PayloadCodec} {s s' : Sys} {act : Act}

/-- Every binding that is stored, in memory or in the table, has a legal key. -/
def LegalKeys (s : Sys) : Prop := s.broker.host.KeysIn (Router.isLegalBindingKey · = true)

/-- A publish with an illegal routing key to an open channel is refused. -/
def Refuses (pb : PayloadCodec) (s : Sys) : Act → Prop
  | .request conn (.basicPublish req) => ∀ self, s.broker.registry.channelAt conn req.cid = some self →
    Router.isLegalRoutingKey (Broker.routingKey req) = false → ∀ uuid,
    s.broker.Refused self req (s.broker.basicPublish pb self req uuid)
  | _ => True

/-- A `bind` that enters a binding names a legal key. -/
def bindsLegal (s : Sys) : Act → Bool
  | .request conn (.bind req) =>
    !((s.broker.registry.channelAt conn req.cid).isSome && s.broker.host.binds req.exchangeName req.queueName) ||
      Router.isLegalBindingKey req.bindingKey
  | _ => true

/-- A publish with an illegal routing key names an unknown exchange. -/
def publishesLegal (s : Sys) : Act → Bool
  | .request conn (.basicPublish req) =>
    (s.broker.registry.channelAt conn req.cid).isNone || Router.isLegalRoutingKey (Broker.routingKey req) ||
      (s.broker.host.selectExchange req.exchangeName).isNone
  | _ => true

theorem refuses_iff : s.Refuses pb act ↔ s.publishesLegal act = true := by
  cases act with
  | request conn req =>
    cases req with
    | basicPublish req =>
      simp only [Refuses, publishesLegal, Broker.refused_iff, Bool.or_eq_true]
      cases hself : s.broker.registry.channelAt conn req.cid with
      | none => simp
      | some self => cases Router.isLegalRoutingKey (Broker.routingKey req) <;> simp
    | _ => exact ⟨fun _ => rfl, fun _ => trivial⟩
  | _ => exact ⟨fun _ => rfl, fun _ => trivial⟩

theorem hostAct_eq_bind {ename qname key : String} (h : s.hostAct act = .op (.bind ename qname key)) :
    ∃ conn req, act = .request conn (.bind req) ∧ (s.broker.registry.channelAt conn req.cid).isSome = true ∧
      req.exchangeName = ename ∧ req.queueName = qname ∧ req.bindingKey = key := by
  cases act with
  | request conn req =>
    unfold hostAct at h
    dsimp only at h
    split at h
    · cases h
    · next self hself =>
      cases req with
      | bind req =>
        cases h
        exact ⟨conn, req, rfl, Option.isSome_of_eq_some hself, rfl, rfl, rfl⟩
      | _ => cases h
  | publish uuid =>
    unfold hostAct at h
    dsimp only at h
    split at h
    · cases h
    · split at h
      · cases h
      · split at h <;> cases h
  | work =>
    unfold hostAct at h
    dsimp only at h
    split at h
    · cases h
    · split at h <;> cases h
    · split at h <;> cases h
    · cases h
  | _ => cases h

theorem step_legalKeys (hs : s.LegalKeys) (hstep : s.step pb act = some s') (hlegal : s.bindsLegal act = true) :
    s'.LegalKeys := by
  refine VirtualHost.act_keysIn hs (host_step hstep) fun ename qname key hact hbinds => ?_
  rcases hostAct_eq_bind hact with ⟨conn, req, rfl, hself, rfl, rfl, rfl⟩
  simpa [bindsLegal, hself, hbinds] using hlegal

theorem not_legalKeys_of_step (hstep : s.step pb act = some s') (hillegal : s.bindsLegal act = false) : ¬s'.LegalKeys := by
  cases act with
  | request conn req =>
    cases req with
    | bind req =>
      simp only [bindsLegal, Bool.or_eq_false_iff, Bool.not_eq_false', Bool.and_eq_true] at hillegal
      rcases hillegal with ⟨⟨hself, hbinds⟩, hkey⟩
      rcases Option.isSome_iff_exists.mp hself with ⟨self, hself⟩
      have hhost := host_step hstep
      simp only [hostAct, Request.cid, hself] at hhost
      have hhost : (s.broker.host.bind req.exchangeName req.queueName req.bindingKey).2 = s'.broker.host :=
        Option.some.inj hhost
      rcases s.broker.host.bind_cases req.exchangeName req.queueName req.bindingKey with ⟨hnot, -⟩ | ⟨-, hget, hfree, -⟩
      · rw [hbinds] at hnot
        cases hnot
      · intro hlegal
        have hentered : s'.broker.host.bmp.getBinding req.exchangeName req.queueName =
            some ⟨req.exchangeName, req.queueName, req.bindingKey⟩ := by
          rw [← hhost, hget, hfree, if_pos ⟨rfl, rfl⟩, Option.none_or]
        have hnew := hlegal.bindings hentered
        rw [hkey] at hnew
        cases hnew
    | _ => cases hillegal
  | _ => cases hillegal

/-- From a database without bindings, with statements that may fail. -/
theorem run_legal_iff {basedir : String} {d : Disk} {fates : List Fate} {acts : List Act} {s₀ : Sys}
    (hboot : boot pb basedir d { fates } = some s₀) (hrun : s₀.run pb acts = some s) :
    ((∀ pre s₁, pre <+: acts → s₀.run pb pre = some s₁ → s₁.LegalKeys) ∧
      ∀ pre act s₁, pre ++ [act] <+: acts → s₀.run pb pre = some s₁ → s₁.Refuses pb act) ↔
    always (step pb) (fun s act => s.bindsLegal act && s.publishesLegal act) s₀ acts = true := by
  simp only [run_eq_run] at hrun ⊢
  have hstart : s₀.LegalKeys := VirtualHost.new_keysIn (fun _ hrow => by cases hrow) (host_boot hboot)
  have hkeys : (∀ pre s₁, pre <+: acts → Lib.run (step pb) s₀ pre = some s₁ → s₁.LegalKeys) ↔
      always (step pb) bindsLegal s₀ acts = true :=
    always_iff_of_exact (fun _ => id) (fun _ _ _ => step_legalKeys) (fun _ _ _ _ => not_legalKeys_of_step) hstart hrun
  have hpublishes : always (step pb) publishesLegal s₀ acts = true ↔ _ := always_iff hrun
  rw [always_and, hkeys, hpublishes]
  simp only [refuses_iff]

/-- A legal key, a publish that it matches, and an illegal publish to an unknown exchange. -/
def lawful : List Act :=
  bound ++ [.request 1 (.basicPublish ⟨"7", "c", "e", "x", some ⟨"m", .durable, "a.k"⟩⟩), .publish "u", .publish "",
    .publish "", .request 1 (.basicPublish ⟨"8", "c", "f", "x", some ⟨"m", .durable, "a.#"⟩⟩)]

theorem run_legal_iff_lawful : ∃ s₀ s : Sys, boot protobuf "data" Store.vacant {} = some s₀ ∧
    s₀.run protobuf lawful = some s ∧ s.LegalKeys ∧
    (∀ pre s₁, pre <+: lawful → s₀.run protobuf pre = some s₁ → s₁.LegalKeys) ∧
    ∀ pre act s₁, pre ++ [act] <+: lawful → s₀.run protobuf pre = some s₁ → s₁.Refuses protobuf act := by
  have hrun : (boot protobuf "data" Store.vacant {}).any (fun s₀ =>
      always (step protobuf) (fun s act => s.bindsLegal act && s.publishesLegal act) s₀ lawful &&
        (s₀.run protobuf lawful).isSome) = true := by
    decide +kernel
  rcases (Option.any_eq_true _ _).mp hrun with ⟨s₀, hboot, hs₀⟩
  rcases (Bool.and_eq_true _ _).mp hs₀ with ⟨hlegal, hs₀⟩
  rcases Option.isSome_iff_exists.mp hs₀ with ⟨s, hs⟩
  have hall := (run_legal_iff hboot hs).mpr hlegal
  exact ⟨s₀, s, hboot, hs, hall.1 lawful s (List.prefix_refl _) hs, hall⟩

/-- The key `a.##` is bound, and the key `a.#` is routed with it. -/
def lawless : List Act :=
  bound ++ [.request 1 (.declareQueue ⟨"7", "c", "p", false, false, false, ∅⟩), .request 1 (.bind ⟨"8", "c", "e", "p", "a.##"⟩),
    .request 1 (.basicPublish ⟨"9", "c", "e", "x", some ⟨"m", .durable, "a.#"⟩⟩), .publish "u", .publish "", .publish ""]

theorem run_illegal : ∃ s₀ s : Sys, boot protobuf "data" Store.vacant {} = some s₀ ∧ s₀.run protobuf lawless = some s ∧
    s.broker.sent.getLast? = some (1, .basicCommonResponse "9" "c" true) ∧
    (pending s.broker.host s.epochs "q").length = 1 ∧ Router.isLegalRoutingKey "a.#" = false ∧ ¬s.LegalKeys := by
  have hrun : (boot protobuf "data" Store.vacant {}).any (fun s₀ => (s₀.run protobuf lawless).any fun s =>
      decide (s.broker.sent.getLast? = some (1, .basicCommonResponse "9" "c" true)) &&
        decide ((pending s.broker.host s.epochs "q").length = 1) &&
        (s.broker.host.bmp.getBinding "e" "p").any fun bp => !Router.isLegalBindingKey bp.bindingKey) = true := by
    decide +kernel
  rcases (Option.any_eq_true _ _).mp hrun with ⟨s₀, hboot, hs₀⟩
  rcases (Option.any_eq_true _ _).mp hs₀ with ⟨s, hs, hend⟩
  simp only [Bool.and_eq_true, decide_eq_true_eq] at hend
  rcases hend with ⟨⟨hsent, hpending⟩, hbound⟩
  rcases (Option.any_eq_true _ _).mp hbound with ⟨bp, hbp, hkey⟩
  refine ⟨s₀, s, hboot, hs, hsent, hpending, by decide +kernel, fun hlegal => ?_⟩
  rw [hlegal.bindings hbp] at hkey
  cases hkey

end Sys
end HareMQ
