import HareMQ.Sections
import HareMQ.Theorems.Truth

/-! # Bindings while their ends are deleted

`bind` looks at the exchange, then at the queue, and then enters the binding; a deletion removes the bindings first and
the exchange or the queue after them. No lock spans these sections. The bindings keep their ends if none is entered
when an end is gone or about to go. -/

namespace HareMQ
open Lib

/-! ### Deletions of the ends -/

namespace ExchangeManager

theorem mem_declareExchange (m : ExchangeManager) (name : String) (type : ExchangeType) (durable autoDelete : Bool)
    (args : UMap String String) (db : Db) {ename : String} (h : ename ∈ m.exchanges) :
    ename ∈ (m.declareExchange name type durable autoDelete args db).2.1.exchanges := by
  unfold declareExchange
  split
  · exact h
  · exact UMap.mem_emplace.mpr (Or.inr h)

/-- Only the exchange of this name goes, and no binding row comes. -/
theorem deleteExchange_shrinks (m : ExchangeManager) (name : String) (db : Db) :
    (∀ ename ∈ m.exchanges, ename ≠ name → ename ∈ (m.deleteExchange name db).1.exchanges) ∧
      Db.Shrinks db (m.deleteExchange name db).2 := by
  unfold deleteExchange
  split
  · exact ⟨fun _ h _ => h, Db.Shrinks.refl _⟩
  · refine ⟨fun ename h hne => AList.mem_erase.mpr ⟨hne, h⟩, ?_⟩
    dsimp only
    split
    · exact Db.shrinks_exec _ fun _ _ => Db.shrinks_deleteExchanges _
    · exact Db.Shrinks.refl _

end ExchangeManager

namespace MsgQueueManager

theorem mem_declareQueue (m : MsgQueueManager) (name : String) (qdurable qexclusive qautoDelete : Bool)
    (qargs : UMap String String) (db : Db) {qname : String} (h : qname ∈ m.msgQueues) :
    qname ∈ (m.declareQueue name qdurable qexclusive qautoDelete qargs db).2.1.msgQueues := by
  unfold declareQueue
  split
  · exact h
  · dsimp only
    split
    · split
      · exact h
      · exact UMap.mem_emplace.mpr (Or.inr h)
    · exact UMap.mem_emplace.mpr (Or.inr h)

theorem deleteQueue_shrinks (m : MsgQueueManager) (name : String) (db : Db) :
    (∀ qname ∈ m.msgQueues, qname ≠ name → qname ∈ (m.deleteQueue name db).1.msgQueues) ∧
      Db.Shrinks db (m.deleteQueue name db).2 := by
  unfold deleteQueue
  split
  · exact ⟨fun _ h _ => h, Db.Shrinks.refl _⟩
  · refine ⟨fun qname h hne => AList.mem_erase.mpr ⟨hne, h⟩, ?_⟩
    dsimp only
    split
    · exact Db.shrinks_exec _ fun _ _ => Db.shrinks_deleteQueues _
    · exact Db.Shrinks.refl _

end MsgQueueManager

/-! ### Pairs that are bound -/

namespace BindingManager

/-- A binding in memory or a row of the table names the pair. -/
def Names (m : BindingManager) (db : Db) (ename qname : String) : Prop :=
  (∃ bp, m.getBinding ename qname = some bp) ∨ ∃ row ∈ db.rows, row.exchangeName = ename ∧ row.msgQueueName = qname

/-- Every binding is kept under the names that it has. -/
def Filed (m : BindingManager) : Prop :=
  ∀ ⦃ename qname bp⦄, m.getBinding ename qname = some bp → bp.exchangeName = ename ∧ bp.msgQueueName = qname

variable {m m' : BindingManager} {db db' : Db} {e q : String}

theorem Names.of_shrinks (hm : ∀ e q bp, m'.getBinding e q = some bp → m.getBinding e q = some bp)
    (hdb : Db.Shrinks db db') (h : m'.Names db' e q) : m.Names db e q := by
  obtain ⟨bp, hbp⟩ | ⟨row, hrow, hends⟩ := h
  · exact Or.inl ⟨bp, hm e q bp hbp⟩
  · exact Or.inr ⟨row, hdb row hrow, hends⟩

theorem Filed.of_shrinks (h : m.Filed) (hm : ∀ e q bp, m'.getBinding e q = some bp → m.getBinding e q = some bp) :
    m'.Filed := fun _ _ _ hbp => h (hm _ _ _ hbp)

theorem names_bind {ename qname key : String} {durable : Bool}
    (h : (m.bind ename qname key durable db).2.1.Names (m.bind ename qname key durable db).2.2 e q) :
    m.Names db e q ∨ m.adds ename qname durable db = true ∧ e = ename ∧ q = qname := by
  obtain ⟨-, hm, hdb⟩ | ⟨hadds, hget, -, hrows⟩ := m.bind_cases ename qname key durable db
  · exact Or.inl (h.of_shrinks (fun e q bp hbp => by rwa [hm] at hbp) hdb)
  · obtain ⟨bp, hbp⟩ | ⟨row, hrow, hends⟩ := h
    · rw [hget, Option.or_eq_some_iff] at hbp
      obtain hbp | ⟨-, hnew⟩ := hbp
      · exact Or.inl (Or.inl ⟨bp, hbp⟩)
      · exact Or.inr ⟨hadds, (Option.ite_none_right_eq_some.mp hnew).1⟩
    · obtain hrow | rfl := hrows row hrow
      · exact Or.inl (Or.inr ⟨row, hrow, hends⟩)
      · exact Or.inr ⟨hadds, hends.1.symm, hends.2.symm⟩

theorem Filed.bind (h : m.Filed) (ename qname key : String) (durable : Bool) (db : Db) :
    (m.bind ename qname key durable db).2.1.Filed := by
  obtain ⟨-, hm, -⟩ | ⟨-, hget, -, -⟩ := m.bind_cases ename qname key durable db
  · rwa [hm]
  · intro e q bp hbp
    rw [hget, Option.or_eq_some_iff] at hbp
    obtain hbp | ⟨-, hnew⟩ := hbp
    · exact h hbp
    · obtain ⟨⟨rfl, rfl⟩, heq⟩ := Option.ite_none_right_eq_some.mp hnew
      cases heq
      exact ⟨rfl, rfl⟩

/-- A removal of all bindings of an exchange, if its statement succeeds or has no row to delete. -/
theorem names_unbindExchange (m : BindingManager) {name : String} (hfate : db.fate = .ok ∨ db.rows.any (·.exchangeName = name) = false)
    (h : (m.unbindExchange name db).1.Names (m.unbindExchange name db).2 e q) : e ≠ name ∧ m.Names db e q := by
  obtain ⟨hm, hdb⟩ := m.unbindExchange_shrinks name db
  obtain ⟨bp, hbp⟩ | ⟨row, hrow, hends⟩ := h
  · exact (hm e q bp hbp).imp_right fun hbp => Or.inl ⟨bp, hbp⟩
  · have hgone := (Db.not_mem_deleteBindings db fun row => row.exchangeName = name).mpr hfate.symm row hrow
    refine ⟨?_, Or.inr ⟨row, hdb row hrow, hends⟩⟩
    rintro rfl
    exact of_decide_eq_false hgone hends.1

theorem names_unbindQueue (m : BindingManager) {name : String} (hfate : db.fate = .ok ∨ db.rows.any (·.msgQueueName = name) = false)
    (h : (m.unbindQueue name db).1.Names (m.unbindQueue name db).2 e q) : q ≠ name ∧ m.Names db e q := by
  obtain ⟨hm, hdb⟩ := m.unbindQueue_shrinks name db
  obtain ⟨bp, hbp⟩ | ⟨row, hrow, hends⟩ := h
  · exact (hm e q bp hbp).imp_right fun hbp => Or.inl ⟨bp, hbp⟩
  · have hgone := (Db.not_mem_deleteBindings db fun row => row.msgQueueName = name).mpr hfate.symm row hrow
    refine ⟨?_, Or.inr ⟨row, hdb row hrow, hends⟩⟩
    rintro rfl
    exact of_decide_eq_false hgone hends.2

end BindingManager

/-! ### Sections -/

namespace SharedHost

/-- No binding, in memory or in the table, names an exchange or a queue that does not exist. -/
structure Tied (h : SharedHost) : Prop where
  filed : h.bmp.Filed
  exchanges : ∀ ⦃ename qname⦄, h.bmp.Names h.db ename qname → ename ∈ h.emp.exchanges
  queues : ∀ ⦃ename qname⦄, h.bmp.Names h.db ename qname → qname ∈ h.mqmp.msgQueues

/-- A deletion that has removed the bindings finds none of them again. -/
def Unbound (h : SharedHost) : HostSection → Prop
  | .removeExchange name => ∀ qname, ¬h.bmp.Names h.db name qname
  | .removeQueue name => ∀ ename, ¬h.bmp.Names h.db ename name
  | _ => True

variable {h h' : SharedHost} {pc : HostSection}

/-- Nothing new is named. -/
theorem Unbound.of_names (hun : h.Unbound pc) (hnames : ∀ e q, h'.bmp.Names h'.db e q → h.bmp.Names h.db e q) :
    h'.Unbound pc := by
  cases pc with
  | removeExchange name => exact fun qname hn => hun qname (hnames _ _ hn)
  | removeQueue name => exact fun ename hn => hun ename (hnames _ _ hn)
  | _ => trivial

theorem Tied.of_names (ht : h.Tied) (hfiled : h'.bmp.Filed)
    (hnames : ∀ e q, h'.bmp.Names h'.db e q → h.bmp.Names h.db e q)
    (hemp : ∀ e q, h'.bmp.Names h'.db e q → e ∈ h.emp.exchanges → e ∈ h'.emp.exchanges)
    (hmqmp : ∀ e q, h'.bmp.Names h'.db e q → q ∈ h.mqmp.msgQueues → q ∈ h'.mqmp.msgQueues) : h'.Tied where
  filed := hfiled
  exchanges _ _ hn := hemp _ _ hn (ht.exchanges (hnames _ _ hn))
  queues _ _ hn := hmqmp _ _ hn (ht.queues (hnames _ _ hn))

/-- The section enters a binding. -/
def enters (h : SharedHost) : HostSection → Bool
  | .addBinding ename qname _ durable => h.bmp.adds ename qname durable h.db
  | _ => false

/-- The section removes bindings, and rows of theirs stay behind because the statement fails. -/
def strands (h : SharedHost) : HostSection → Bool
  | .unbindExchange name => h.db.fate != .ok && h.db.rows.any (·.exchangeName = name)
  | .unbindQueue name => h.db.fate != .ok && h.db.rows.any (·.msgQueueName = name)
  | _ => false

/-- The sections of the message manager touch nothing else. -/
theorem messages_frame {pb : PayloadCodec} {sec : MessageSection} {inner : MessageSection → HostSection} {outer : HostSection}
    {next : Next HostSection Bool} (hrun : h.messages pb sec inner outer = some (h', next)) :
    h' = { h with mmp := h'.mmp } ∧ ∀ pc', next = .goto pc' → pc' = outer ∨ ∃ sec, pc' = inner sec := by
  unfold messages at hrun
  split at hrun
  · cases hrun
  · next mmp sec' _ =>
    cases hrun
    refine ⟨rfl, fun pc' hnext => ?_⟩
    cases hnext
    exact Or.inr ⟨sec', rfl⟩
  · cases hrun
    refine ⟨rfl, fun pc' hnext => ?_⟩
    cases hnext
    exact Or.inl rfl

/-- A section that enters no binding leaves nothing behind that is not there before it. -/
theorem Tied.section {pb : PayloadCodec} {next : Next HostSection Bool} (ht : h.Tied) (hun : h.Unbound pc)
    (henters : h.enters pc = false) (hstrands : h.strands pc = false) (hrun : h.runSection pb pc = some (h', next)) :
    h'.Tied ∧ (∀ e q, h'.bmp.Names h'.db e q → h.bmp.Names h.db e q) ∧ ∀ pc', next = .goto pc' → h'.Unbound pc' := by
  have hsame : ∀ {m : BindingManager} {db : Db}, Db.Shrinks h.db db → m = h.bmp → ∀ e q, m.Names db e q →
      h.bmp.Names h.db e q := fun hdb hm e q hn => hn.of_shrinks (fun _ _ _ hbp => by rwa [hm] at hbp) hdb
  cases pc with
  | addExchange name type durable autoDelete args =>
    cases hrun
    have hnames := hsame (VirtualHost.shrinks_declareExchange h.emp name type durable autoDelete args h.db) rfl
    refine ⟨ht.of_names ht.filed hnames (fun e _ _ he => ?_) fun _ _ _ hq => hq, hnames, fun _ hnext => by cases hnext⟩
    exact h.emp.mem_declareExchange name type durable autoDelete args h.db he
  | unbindExchange name =>
    cases hrun
    have hfate : h.db.fate = .ok ∨ h.db.rows.any (·.exchangeName = name) = false := by
      simpa [strands, or_iff_not_imp_left] using hstrands
    have hnames : ∀ e q, (h.bmp.unbindExchange name h.db).1.Names (h.bmp.unbindExchange name h.db).2 e q →
        e ≠ name ∧ h.bmp.Names h.db e q := fun e q hn => h.bmp.names_unbindExchange hfate hn
    have hfiled := ht.filed.of_shrinks fun e q bp hbp => ((h.bmp.unbindExchange_shrinks name h.db).1 e q bp hbp).2
    refine ⟨ht.of_names hfiled (fun e q hn => (hnames e q hn).2) (fun _ _ _ he => he) fun _ _ _ hq => hq,
      fun e q hn => (hnames e q hn).2, fun pc' hnext => ?_⟩
    cases hnext
    exact fun qname hn => (hnames name qname hn).1 rfl
  | removeExchange name =>
    cases hrun
    obtain ⟨hmem, hdb⟩ := h.emp.deleteExchange_shrinks name h.db
    have hnames := hsame hdb rfl
    refine ⟨ht.of_names ht.filed hnames (fun e q hn he => ?_) fun _ _ _ hq => hq, hnames, fun _ hnext => by cases hnext⟩
    refine hmem e he ?_
    rintro rfl
    exact hun q (hnames e q hn)
  | initQueueMsg sec qname qdurable qexclusive qautoDelete qargs =>
    obtain ⟨heq, hnext⟩ := messages_frame hrun
    rw [heq]
    refine ⟨⟨ht.filed, ht.exchanges, ht.queues⟩, fun _ _ hn => hn, fun pc' hpc' => ?_⟩
    obtain rfl | ⟨sec', rfl⟩ := hnext pc' hpc' <;> trivial
  | destroyQueueMsg sec name =>
    obtain ⟨heq, hnext⟩ := messages_frame hrun
    rw [heq]
    refine ⟨⟨ht.filed, ht.exchanges, ht.queues⟩, fun _ _ hn => hn, fun pc' hpc' => ?_⟩
    obtain rfl | ⟨sec', rfl⟩ := hnext pc' hpc' <;> trivial
  | addQueue qname qdurable qexclusive qautoDelete qargs =>
    cases hrun
    have hnames := hsame (VirtualHost.shrinks_declareQueue h.mqmp qname qdurable qexclusive qautoDelete qargs h.db) rfl
    refine ⟨ht.of_names ht.filed hnames (fun _ _ _ he => he) fun _ q _ hq => ?_, hnames, fun _ hnext => by cases hnext⟩
    exact h.mqmp.mem_declareQueue qname qdurable qexclusive qautoDelete qargs h.db hq
  | unbindQueue name =>
    cases hrun
    have hfate : h.db.fate = .ok ∨ h.db.rows.any (·.msgQueueName = name) = false := by
      simpa [strands, or_iff_not_imp_left] using hstrands
    have hnames : ∀ e q, (h.bmp.unbindQueue name h.db).1.Names (h.bmp.unbindQueue name h.db).2 e q →
        q ≠ name ∧ h.bmp.Names h.db e q := fun e q hn => h.bmp.names_unbindQueue hfate hn
    have hfiled := ht.filed.of_shrinks fun e q bp hbp => ((h.bmp.unbindQueue_shrinks name h.db).1 e q bp hbp).2
    refine ⟨ht.of_names hfiled (fun e q hn => (hnames e q hn).2) (fun _ _ _ he => he) fun _ _ _ hq => hq,
      fun e q hn => (hnames e q hn).2, fun pc' hnext => ?_⟩
    cases hnext
    exact fun ename hn => (hnames ename name hn).1 rfl
  | removeQueue name =>
    cases hrun
    obtain ⟨hmem, hdb⟩ := h.mqmp.deleteQueue_shrinks name h.db
    have hnames := hsame hdb rfl
    refine ⟨ht.of_names ht.filed hnames (fun _ _ _ he => he) fun e q hn hq => ?_, hnames, fun _ hnext => by cases hnext⟩
    refine hmem q hq ?_
    rintro rfl
    exact hun e (hnames e q hn)
  | selectExchange ename qname key =>
    simp only [runSection] at hrun
    split at hrun <;> cases hrun
    · exact ⟨ht, fun _ _ hn => hn, fun _ hnext => by cases hnext⟩
    · exact ⟨ht, fun _ _ hn => hn, fun _ hnext => by cases hnext; trivial⟩
  | selectQueue ename qname key ep =>
    simp only [runSection] at hrun
    split at hrun <;> cases hrun
    · exact ⟨ht, fun _ _ hn => hn, fun _ hnext => by cases hnext⟩
    · exact ⟨ht, fun _ _ hn => hn, fun _ hnext => by cases hnext; trivial⟩
  | addBinding ename qname key durable =>
    cases hrun
    have hnames : ∀ e q, (h.bmp.bind ename qname key durable h.db).2.1.Names (h.bmp.bind ename qname key durable h.db).2.2
        e q → h.bmp.Names h.db e q := fun e q hn => (BindingManager.names_bind hn).resolve_right fun hadds =>
      Bool.eq_false_iff.mp henters hadds.1
    have hfiled := ht.filed.bind ename qname key durable h.db
    exact ⟨ht.of_names hfiled hnames (fun _ _ _ he => he) fun _ _ _ hq => hq, hnames, fun _ hnext => by cases hnext⟩
  | unbind ename qname =>
    cases hrun
    obtain ⟨hbindings, hdb⟩ := h.bmp.unbind_shrinks ename qname h.db
    have hnames : ∀ e q, (h.bmp.unbind ename qname h.db).1.Names (h.bmp.unbind ename qname h.db).2 e q →
        h.bmp.Names h.db e q := fun e q hn => hn.of_shrinks hbindings hdb
    have hfiled := ht.filed.of_shrinks hbindings
    exact ⟨ht.of_names hfiled hnames (fun _ _ _ he => he) fun _ _ _ hq => hq, hnames, fun _ hnext => by cases hnext⟩

/-- A binding is entered while both ends exist. -/
theorem Tied.addBinding (ht : h.Tied) {ename qname : String} (he : ename ∈ h.emp.exchanges) (hq : qname ∈ h.mqmp.msgQueues)
    (key : String) (durable : Bool) :
    ({ h with
      bmp := (h.bmp.bind ename qname key durable h.db).2.1
      db := (h.bmp.bind ename qname key durable h.db).2.2 } : SharedHost).Tied where
  filed := ht.filed.bind ename qname key durable h.db
  exchanges e q hn := by
    obtain hn | ⟨-, rfl, -⟩ := BindingManager.names_bind hn
    · exact ht.exchanges hn
    · exact he
  queues e q hn := by
    obtain hn | ⟨-, -, rfl⟩ := BindingManager.names_bind hn
    · exact ht.queues hn
    · exact hq

end SharedHost

namespace HostThreads
variable {pb : PayloadCodec} {t t' : HostThreads}

/-- Both ends of a binding that is to be entered exist, and no deletion of one of them is at its last section. -/
def ends (t : HostThreads) : HostSection → Bool
  | .addBinding ename qname _ _ =>
    decide (ename ∈ t.shared.emp.exchanges) && decide (qname ∈ t.shared.mqmp.msgQueues) &&
      !t.anyAt fun
        | .removeExchange name => name = ename
        | .removeQueue name => name = qname
        | _ => false
  | _ => true

/-- A section enters a binding only while its ends stay, and removes the rows of the bindings that it removes. -/
def orderly (t : HostThreads) : Turn HostCall → Bool
  | .call _ => true
  | .go id =>
    match t.running.lookup id with
    | none => true
    | some th => !t.shared.strands th.pc && (!t.shared.enters th.pc || t.ends th.pc)

/-- What orderly sections keep. -/
structure Held (t : HostThreads) : Prop where
  tied : t.shared.Tied
  unbound : ∀ id th, t.running.lookup id = some th → t.shared.Unbound th.pc

theorem Held.section (hheld : t.Held) {id : Nat} {th : Thread HostCall HostSection} {h : SharedHost}
    {next : Next HostSection Bool} (hth : t.running.lookup id = some th) (horderly : t.orderly (.go id) = true)
    (hrun : t.shared.runSection pb th.pc = some (h, next)) :
    h.Tied ∧ (∀ id' th', t.running.lookup id' = some th' → h.Unbound th'.pc) ∧ ∀ pc, next = .goto pc → h.Unbound pc := by
  simp only [orderly, hth, Bool.and_eq_true, Bool.not_eq_true', Bool.or_eq_true] at horderly
  obtain ⟨hstrands, hends⟩ := horderly
  by_cases henters : t.shared.enters th.pc = true
  · have hends := hends.resolve_left (by simp [henters])
    cases hpc : th.pc with
    | addBinding ename qname key durable =>
      rw [hpc] at hends hrun
      cases hrun
      simp only [ends, Bool.and_eq_true, decide_eq_true_eq, Bool.not_eq_true', Threads.anyAt_eq_false_iff] at hends
      obtain ⟨⟨he, hq⟩, hno⟩ := hends
      refine ⟨hheld.tied.addBinding he hq key durable, fun id' th' hth' => ?_, fun _ hnext => by cases hnext⟩
      have hold := hheld.unbound id' th' hth'
      have hother := hno id' th' hth'
      cases hpc' : th'.pc with
      | removeExchange name =>
        rw [hpc'] at hold hother
        intro q hn
        obtain hn | ⟨-, rfl, -⟩ := BindingManager.names_bind hn
        · exact hold q hn
        · simp at hother
      | removeQueue name =>
        rw [hpc'] at hold hother
        intro e hn
        obtain hn | ⟨-, -, rfl⟩ := BindingManager.names_bind hn
        · exact hold e hn
        · simp at hother
      | _ => trivial
    | _ =>
      rw [hpc] at henters
      cases henters
  · rw [Bool.not_eq_true] at henters
    obtain ⟨htied, hnames, hnext⟩ := hheld.tied.section (hheld.unbound id th hth) henters hstrands hrun
    exact ⟨htied, fun id' th' hth' => (hheld.unbound id' th' hth').of_names hnames, hnext⟩

theorem Held.step (hheld : t.Held) {turn : Turn HostCall} (hstep : t.step pb turn = some t')
    (horderly : t.orderly turn = true) : t'.Held := by
  obtain ⟨htied, hunbound⟩ := Threads.step_keeps hheld.tied hheld.unbound (fun c => by cases c <;> trivial)
    (fun id th h next hturn hth hrun => hheld.section hth (hturn ▸ horderly) hrun) hstep
  exact ⟨htied, hunbound⟩

/-- In a run of orderly sections, however the calls mix, no binding in memory or in the table ever names an exchange or a
queue that does not exist. -/
theorem run_tied {h : SharedHost} {turns : List (Turn HostCall)} (htied : h.Tied)
    (horderly : always (step pb) orderly { shared := h } turns = true) :
    ∀ pre t, pre <+: turns → run (step pb) { shared := h } pre = some t → t.shared.Tied := by
  intro pre t hpre hrun
  have hheld : Held { shared := h } := ⟨htied, fun id th hth => by cases hth⟩
  exact (run_induct_of_always (fun _ _ _ hheld hstep => hheld.step hstep) hheld horderly pre t hpre hrun).tied

/-- An exchange and a queue, both durable and in the tables. -/
def paired : SharedHost where
  emp := { exchanges := UMap.emplace ∅ "e" ⟨"e", .direct, true, false, ∅⟩ }
  mqmp := { msgQueues := UMap.emplace ∅ "q" ⟨"q", true, false, false, ∅⟩ }
  mmp := { baseDir := "data", disk := Store.vacant }
  db :=
    { exchangeTable := some [⟨"e", .direct, true, false, ""⟩], queueTable := some [⟨"q", true, false, false, ""⟩],
      bindingTable := some [] }

theorem paired_tied : paired.Tied where
  filed _ _ _ hbp := by cases hbp
  exchanges := by
    rintro e q (⟨bp, hbp⟩ | ⟨row, hrow, -⟩)
    · cases hbp
    · cases hrow
  queues := by
    rintro e q (⟨bp, hbp⟩ | ⟨row, hrow, -⟩)
    · cases hbp
    · cases hrow

/-- The sections of a binding and of a deletion of its queue, the binding being entered first. -/
theorem run_tied_orderly : ∃ t : HostThreads,
    run (step protobuf) { shared := paired } [.call (.bind "e" "q" "k"), .call (.deleteQueue "q"), .go 0, .go 0, .go 1, .go 0,
      .go 1, .go 1] = some t ∧ t.running.entries.length = 0 ∧ t.shared.Tied := by
  let turns : List (Turn HostCall) :=
    [.call (.bind "e" "q" "k"), .call (.deleteQueue "q"), .go 0, .go 0, .go 1, .go 0, .go 1, .go 1]
  have hrun : ((run (step protobuf) { shared := paired } turns).any fun t => t.running.entries.length = 0) = true := by
    decide +kernel
  have hall : always (step protobuf) orderly { shared := paired } turns = true := by decide +kernel
  obtain ⟨t, ht, hidle⟩ := (Option.any_eq_true _ _).mp hrun
  exact ⟨t, ht, of_decide_eq_true hidle, run_tied paired_tied hall turns t (List.prefix_refl _) ht⟩

/-- The queue goes between the look at it and the entry of the binding. -/
theorem run_untied : ∃ t : HostThreads,
    run (step protobuf) { shared := paired } [.call (.bind "e" "q" "k"), .call (.deleteQueue "q"), .go 0, .go 0, .go 1, .go 1,
      .go 1, .go 0] = some t ∧ t.running.entries.length = 0 ∧ t.shared.bmp.getBinding "e" "q" = some ⟨"e", "q", "k"⟩ ∧
      ⟨"e", "q", "k"⟩ ∈ t.shared.db.rows ∧ "q" ∉ t.shared.mqmp.msgQueues ∧ ¬t.shared.Tied := by
  have hrun : ((run (step protobuf) { shared := paired } [.call (.bind "e" "q" "k"), .call (.deleteQueue "q"), .go 0, .go 0,
      .go 1, .go 1, .go 1, .go 0]).any fun t => decide (t.running.entries.length = 0) &&
        decide (t.shared.bmp.getBinding "e" "q" = some ⟨"e", "q", "k"⟩) && decide (⟨"e", "q", "k"⟩ ∈ t.shared.db.rows) &&
        decide ("q" ∉ t.shared.mqmp.msgQueues)) = true := by
    decide +kernel
  obtain ⟨t, ht, hend⟩ := (Option.any_eq_true _ _).mp hrun
  simp only [Bool.and_eq_true, decide_eq_true_eq] at hend
  obtain ⟨⟨⟨hidle, hbp⟩, hrow⟩, hgone⟩ := hend
  exact ⟨t, ht, hidle, hbp, hrow, hgone, fun htied => hgone (htied.queues (Or.inl ⟨_, hbp⟩))⟩

end HostThreads
end HareMQ
