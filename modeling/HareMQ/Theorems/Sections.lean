import HareMQ.Sections
import HareMQ.Theorems.Tables

/-! # One call alone

The sections of a call with no other call in between are the operation that the other modules take as one step. -/

namespace HareMQ
open Lib

/-- The reply for a queue that is not there. -/
def MessageCall.missing : MessageCall → Reply
  | initQueueMsg _ | destroyQueueMsg _ | ack .. => .done true
  | insert .. => .done false
  | front _ => .message none

/-- The section of the call on the queue object. -/
def MessageCall.act (qmp : Ref) : MessageCall → MessageSection
  | initQueueMsg _ => .recovery qmp
  | destroyQueueMsg _ => .clear qmp
  | insert _ bp uuid body queueDurable => .insert qmp bp uuid body queueDurable
  | front _ => .front qmp
  | ack _ msgId => .remove qmp msgId

/-- The call needs a queue, and keeps it. -/
def MessageCall.uses : MessageCall → Bool
  | initQueueMsg _ | destroyQueueMsg _ => false
  | insert .. | front _ | ack .. => true

namespace SharedMessages
variable {pb : PayloadCodec} {s s' : SharedMessages} {m : MessageManager} {c : MessageCall} {qmp : Ref}
  {next : Next MessageSection Reply}

/-! ### The section on the map -/

theorem lookup_missing (hmissing : s.queueMsgs.lookup c.qname = none) (hc : ∀ qname, c ≠ .initQueueMsg qname) :
    s.lookup c = some (s, .done c.missing) := by
  cases c with
  | initQueueMsg qname => exact absurd rfl (hc qname)
  | _ => simp only [MessageCall.qname] at hmissing; simp only [lookup, hmissing, MessageCall.missing]

theorem lookup_found (hfound : s.queueMsgs.lookup c.qname = some qmp) (huses : c.uses = true) :
    s.lookup c = some (s, .goto (c.act qmp)) := by
  cases c with
  | initQueueMsg qname => cases huses
  | destroyQueueMsg qname => cases huses
  | _ => simp only [MessageCall.qname] at hfound; simp only [lookup, hfound, MessageCall.act]

/-- From the map a call goes to its section on the queue. -/
theorem act_of_lookup {sec : MessageSection} (hrun : s.lookup c = some (s', .goto sec)) : ∃ qmp, sec = c.act qmp := by
  cases c with
  | initQueueMsg qname =>
    simp only [lookup] at hrun
    split at hrun
    · cases hrun
    · split at hrun
      · cases hrun
      · cases hrun
        exact ⟨_, rfl⟩
  | _ =>
    simp only [lookup] at hrun
    split at hrun
    · cases hrun
    · cases hrun
      exact ⟨_, rfl⟩

/-! ### The section on the queue -/

/-- It is the last one. -/
theorem done_of_act (hrun : s.runSection pb (c.act qmp) = some (s', next)) : ∃ reply, next = .done reply := by
  cases c with
  | ack qname msgId =>
    simp only [MessageCall.act, runSection] at hrun
    split at hrun
    · cases hrun
    · cases hrun
      exact ⟨_, rfl⟩
  | _ =>
    cases hrun
    exact ⟨_, rfl⟩

theorem section_uses (huses : c.uses = true) (hrun : s.runSection pb (c.act qmp) = some (s', next)) :
    ∃ q reply, s' = s.put qmp q s'.disk ∧ next = .done reply ∧
      ∀ m : MessageManager, m.queueMsgs.lookup c.qname = some (s.objects qmp) →
        MessageManager.call pb (m, s.disk) c = some (reply, m.put c.qname q, s'.disk) := by
  cases c with
  | initQueueMsg qname => cases huses
  | destroyQueueMsg qname => cases huses
  | insert qname bp uuid body queueDurable =>
    cases hrun
    refine ⟨_, _, rfl, rfl, fun m hm => ?_⟩
    simp only [MessageCall.qname] at hm
    simp only [MessageManager.call, MessageManager.insert, hm]
    rfl
  | front qname =>
    rcases hfront : (s.objects qmp).front with ⟨r, q⟩
    simp only [MessageCall.act, runSection, hfront] at hrun
    cases hrun
    refine ⟨q, _, rfl, rfl, fun m hm => ?_⟩
    simp only [MessageCall.qname] at hm
    simp only [MessageManager.call, MessageManager.front, hm, hfront, MessageManager.put, AList.lookup_insert, Option.map_some]
    cases r <;> rfl
  | ack qname msgId =>
    simp only [MessageCall.act, runSection] at hrun
    split at hrun
    · cases hrun
    · next q disk hremove =>
      cases hrun
      refine ⟨q, _, rfl, rfl, fun m hm => ?_⟩
      simp only [MessageCall.qname] at hm
      simp only [MessageManager.call, MessageManager.ack, hm, hremove]
      rfl

end SharedMessages

namespace MessageManager
variable {pb : PayloadCodec} {m : MessageManager} {d : Disk} {c : MessageCall}

theorem call_missing (hmissing : m.queueMsgs.lookup c.qname = none) (hc : ∀ qname, c ≠ .initQueueMsg qname) :
    call pb (m, d) c = some (c.missing, m, d) := by
  cases c with
  | initQueueMsg qname => exact absurd rfl (hc qname)
  | destroyQueueMsg qname =>
    simp only [MessageCall.qname] at hmissing
    simp only [call, destroyQueueMsg, hmissing, MessageCall.missing]
  | insert qname bp uuid body queueDurable =>
    simp only [MessageCall.qname] at hmissing
    simp only [call, insert, hmissing, MessageCall.missing]
  | front qname =>
    simp only [MessageCall.qname] at hmissing
    simp only [call, front, hmissing, MessageCall.missing, Option.bind_none]
  | ack qname msgId =>
    simp only [MessageCall.qname] at hmissing
    simp only [call, ack, hmissing, MessageCall.missing, Option.map_some]

end MessageManager
/-! ### The whole call -/

namespace SharedMessages
variable {pb : PayloadCodec} {s s' : SharedMessages} {m : MessageManager} {c : MessageCall} {qmp : Ref}
  {next : Next MessageSection Reply}

/-- The queue objects of the map are those of the manager. -/
structure Shows (s : SharedMessages) (m : MessageManager) : Prop where
  baseDir : m.baseDir = s.baseDir
  queues : ∀ name, m.queueMsgs.lookup name = (s.queueMsgs.lookup name).map s.objects

/-- No two names have one object, and objects to come are not among them. -/
structure Sound (s : SharedMessages) : Prop where
  below : ∀ name qmp, s.queueMsgs.lookup name = some qmp → qmp < s.next
  distinct : ∀ name name' qmp, s.queueMsgs.lookup name = some qmp → s.queueMsgs.lookup name' = some qmp → name = name'

/-- Another object in the place of one that the name does not have. -/
theorem map_put {name : String} (hne : s.queueMsgs.lookup name ≠ some qmp) (q : QueueMessage) (disk : Disk) :
    ((s.put qmp q disk).queueMsgs.lookup name).map (s.put qmp q disk).objects = (s.queueMsgs.lookup name).map s.objects := by
  show (s.queueMsgs.lookup name).map _ = _
  cases hlookup : s.queueMsgs.lookup name with
  | none => rfl
  | some qmp' =>
    refine congrArg some (Function.update_of_ne ?_ ..)
    rintro rfl
    exact hne hlookup

/-- A new object is none of the others. -/
theorem Sound.create (hsound : s.Sound) (qname : String) (q : QueueMessage) (disk : Disk) :
    ({ s.put s.next q disk with queueMsgs := s.queueMsgs.emplace qname s.next, next := s.next + 1 } : SharedMessages).Sound where
  below name qmp hlookup := by
    obtain hold | ⟨-, -, rfl⟩ := UMap.lookup_emplace_eq_some hlookup
    · exact Nat.lt_succ_of_lt (hsound.below name qmp hold)
    · exact Nat.lt_succ_self _
  distinct name name' qmp hlookup hlookup' := by
    obtain hold | ⟨rfl, -, hnew⟩ := UMap.lookup_emplace_eq_some hlookup
    · obtain hold' | ⟨rfl, -, hnew'⟩ := UMap.lookup_emplace_eq_some hlookup'
      · exact hsound.distinct name name' qmp hold hold'
      · exact absurd (hsound.below name qmp hold) (by simp [hnew'])
    · obtain hold' | ⟨rfl, -, -⟩ := UMap.lookup_emplace_eq_some hlookup'
      · exact absurd (hsound.below name' qmp hold') (by simp [hnew])
      · rfl

/-- Every section keeps the objects apart. -/
theorem Sound.runSection {pc : MessageSection} (hsound : s.Sound) (hrun : s.runSection pb pc = some (s', next)) :
    s'.Sound := by
  cases pc with
  | lookup c =>
    simp only [SharedMessages.runSection] at hrun
    cases c with
    | initQueueMsg qname =>
      simp only [lookup] at hrun
      split at hrun
      · cases hrun
        exact hsound
      · split at hrun
        · cases hrun
        · cases hrun
          exact hsound.create qname _ _
    | destroyQueueMsg qname =>
      simp only [lookup] at hrun
      split at hrun
      · cases hrun
        exact hsound
      · cases hrun
        exact ⟨fun name qmp hlookup => hsound.below name qmp (UMap.lookup_erase_eq_some hlookup).2,
          fun name name' qmp hlookup hlookup' => hsound.distinct name name' qmp (UMap.lookup_erase_eq_some hlookup).2
            (UMap.lookup_erase_eq_some hlookup').2⟩
    | _ =>
      simp only [lookup] at hrun
      split at hrun <;> cases hrun <;> exact hsound
  | remove qmp msgId =>
    simp only [SharedMessages.runSection] at hrun
    split at hrun
    · cases hrun
    · cases hrun
      exact ⟨hsound.below, hsound.distinct⟩
  | _ =>
    cases hrun
    exact ⟨hsound.below, hsound.distinct⟩

/-- The queues of the manager, when one of them is kept apart. -/
theorem Shows.of_queue {m' : MessageManager} (name : String) (hbaseDir : m'.baseDir = s.baseDir)
    (hqueue : m'.queueMsgs.lookup name = (s.queueMsgs.lookup name).map s.objects)
    (hothers : ∀ name', name' ≠ name → m'.queueMsgs.lookup name' = (s.queueMsgs.lookup name').map s.objects) :
    s.Shows m' where
  baseDir := hbaseDir
  queues name' := by
    by_cases heq : name' = name
    · rw [heq, hqueue]
    · exact hothers name' heq

/-- The sections of a call one after the other are the call of a manager that nothing shares. -/
theorem alone_call {reply : Reply} (hshows : s.Shows m) (hsound : s.Sound)
    (hrun : Threads.alone (SharedMessages.runSection pb) 2 s (.lookup c) = some (reply, s')) :
    ∃ m', MessageManager.call pb (m, s.disk) c = some (reply, m', s'.disk) ∧ s'.Shows m' := by
  rw [Threads.alone, SharedMessages.runSection] at hrun
  have hqueue := hshows.queues c.qname
  cases hlookup : s.queueMsgs.lookup c.qname with
  | none =>
    rw [hlookup, Option.map_none] at hqueue
    by_cases hinit : ∃ name, c = .initQueueMsg name
    · obtain ⟨name, rfl⟩ := hinit
      simp only [MessageCall.qname] at hlookup hqueue
      simp only [lookup, hlookup] at hrun
      cases hnew : MessageMapper.new s.disk s.baseDir name with
      | none => simp [hnew] at hrun
      | some entry =>
        obtain ⟨mapper, disk⟩ := entry
        simp only [hnew, Threads.alone, SharedMessages.runSection, put, Function.update_self] at hrun
        cases hrun
        let recovered := ({ mapper } : QueueMessage).recovery pb disk
        let objects := Function.update (Function.update s.objects s.next { mapper }) s.next recovered.1
        have hself : objects s.next = recovered.1 := Function.update_self ..
        have hother : ∀ qmp, qmp ≠ s.next → objects qmp = s.objects qmp :=
          fun qmp hne => (Function.update_of_ne hne ..).trans (Function.update_of_ne hne ..)
        refine ⟨{ m with queueMsgs := m.queueMsgs.emplace name recovered.1 }, ?_, ?_⟩
        · simp only [MessageManager.call, MessageManager.initQueueMsg, hqueue, hshows.baseDir, hnew]
          rfl
        · refine Shows.of_queue name hshows.baseDir ?_ fun name' hne => ?_
          · show (m.queueMsgs.emplace name _).lookup name = ((s.queueMsgs.emplace name s.next).lookup name).map _
            rw [UMap.lookup_emplace_self (AList.lookup_eq_none.mp hqueue),
              UMap.lookup_emplace_self (AList.lookup_eq_none.mp hlookup), Option.map_some]
            exact congrArg some hself.symm
          · show (m.queueMsgs.emplace name _).lookup name' = ((s.queueMsgs.emplace name s.next).lookup name').map _
            rw [UMap.lookup_emplace_ne hne, UMap.lookup_emplace_ne hne, hshows.queues name']
            cases hlookup' : s.queueMsgs.lookup name' with
            | none => rfl
            | some qmp =>
              have hold : qmp ≠ s.next := Nat.ne_of_lt (hsound.below name' qmp hlookup')
              exact congrArg some (hother qmp hold).symm
    · have hc : ∀ name, c ≠ .initQueueMsg name := not_exists.mp hinit
      rw [lookup_missing hlookup hc] at hrun
      cases hrun
      exact ⟨m, MessageManager.call_missing hqueue hc, hshows⟩
  | some qmp =>
    rw [hlookup, Option.map_some] at hqueue
    have hapart : ∀ name, name ≠ c.qname → s.queueMsgs.lookup name ≠ some qmp :=
      fun name hne hname => hne (hsound.distinct name c.qname qmp hname hlookup)
    cases huses : c.uses with
    | true =>
      rw [lookup_found hlookup huses] at hrun
      simp only [Threads.alone] at hrun
      split at hrun
      · cases hrun
      · cases hrun
      · next s₁ reply' hsection =>
        obtain ⟨q, reply'', hs, hnext, hcall⟩ := section_uses huses hsection
        cases hnext
        cases hrun
        refine ⟨m.put c.qname q, hcall m hqueue, ?_⟩
        rw [hs]
        refine Shows.of_queue c.qname hshows.baseDir ?_ fun name hne => ?_
        · show (m.queueMsgs.insert c.qname q).lookup c.qname =
            (s.queueMsgs.lookup c.qname).map (s.put qmp q s'.disk).objects
          have hself : (s.put qmp q s'.disk).objects qmp = q := Function.update_self ..
          rw [AList.lookup_insert, hlookup, Option.map_some, hself]
        · rw [map_put (hapart name hne), ← hshows.queues name]
          exact AList.lookup_insert_ne hne
    | false =>
      cases c with
      | initQueueMsg name =>
        simp only [MessageCall.qname] at hlookup hqueue
        simp only [lookup, hlookup] at hrun
        cases hrun
        refine ⟨m, ?_, hshows⟩
        simp only [MessageManager.call, MessageManager.initQueueMsg, hqueue, Option.map_some]
      | destroyQueueMsg name =>
        simp only [MessageCall.qname] at hlookup hqueue hapart
        simp only [lookup, hlookup, Threads.alone, SharedMessages.runSection] at hrun
        cases hrun
        refine ⟨{ m with queueMsgs := m.queueMsgs.erase name }, ?_, ?_⟩
        · simp only [MessageManager.call, MessageManager.destroyQueueMsg, hqueue]
          rfl
        · refine Shows.of_queue name hshows.baseDir ?_ fun name' hne => ?_
          · show (m.queueMsgs.erase name).lookup name = ((s.queueMsgs.erase name).lookup name).map _
            rw [AList.lookup_erase, AList.lookup_erase, Option.map_none]
          · show (m.queueMsgs.erase name).lookup name' = ((s.queueMsgs.erase name).lookup name').map _
            rw [AList.lookup_erase_ne hne, AList.lookup_erase_ne hne, hshows.queues name']
            exact (map_put (hapart name' hne) _ s.disk).symm
      | _ => cases huses

end SharedMessages
/-- The operation of the call. -/
def HostCall.op : HostCall → HostOp
  | declareExchange name type durable autoDelete args => .declareExchange name type durable autoDelete args
  | deleteExchange name => .deleteExchange name
  | declareQueue qname qdurable qexclusive qautoDelete qargs => .declareQueue qname qdurable qexclusive qautoDelete qargs
  | deleteQueue name => .deleteQueue name
  | bind ename qname key => .bind ename qname key
  | unbind ename qname => .unbind ename qname

namespace SharedHost
variable {pb : PayloadCodec} {basedir dbfile : String} {h h' : SharedHost} {v : VirtualHost} {ok : Bool}

structure Shows (h : SharedHost) (v : VirtualHost) : Prop where
  emp : v.emp = h.emp
  mqmp : v.mqmp = h.mqmp
  bmp : v.bmp = h.bmp
  mmp : h.mmp.Shows v.mmp
  disk : v.disk = h.mmp.disk
  db : v.db = h.db

/-- The sections of a call of the message manager come first. -/
theorem alone_messages (inner : MessageSection → HostSection) {outer : HostSection} (c : MessageCall)
    (hinner : ∀ h : SharedHost, ∀ sec, h.runSection pb (inner sec) = h.messages pb sec inner outer) {n : Nat}
    (hrun : Threads.alone (SharedHost.runSection pb) (n + 2) h (inner (.lookup c)) = some (ok, h')) :
    ∃ reply mmp, Threads.alone (SharedMessages.runSection pb) 2 h.mmp (.lookup c) = some (reply, mmp) ∧
      ∃ n', Threads.alone (SharedHost.runSection pb) n' { h with mmp } outer = some (ok, h') := by
  rw [Threads.alone, hinner, messages] at hrun
  rw [Threads.alone]
  rcases hfirst : h.mmp.runSection pb (.lookup c) with _ | ⟨mmp, sec | reply⟩
  · simp [hfirst] at hrun
  · simp only [hfirst, Threads.alone, hinner, messages] at hrun ⊢
    rcases hsecond : mmp.runSection pb sec with _ | ⟨mmp', sec' | reply⟩
    · simp [hsecond] at hrun
    · obtain ⟨qmp, rfl⟩ := SharedMessages.act_of_lookup hfirst
      obtain ⟨reply, hnext⟩ := SharedMessages.done_of_act hsecond
      cases hnext
    · simp only [hsecond] at hrun ⊢
      exact ⟨reply, mmp', rfl, n, hrun⟩
  · simp only [hfirst] at hrun ⊢
    exact ⟨reply, mmp, rfl, n + 1, hrun⟩

/-- The sections of a call one after the other are the operation of the virtual host. -/
theorem alone_op {c : HostCall} (hshows : h.Shows v) (hsound : h.mmp.Sound)
    (hrun : Threads.alone (SharedHost.runSection pb) 4 h c.start = some (ok, h')) :
    ∃ v', v.step pb basedir dbfile c.op = some v' ∧ h'.Shows v' := by
  obtain ⟨hemp, hmqmp, hbmp, hmmp, hdisk, hdb⟩ := hshows
  cases c with
  | declareExchange name type durable autoDelete args =>
    cases hrun
    refine ⟨_, rfl, ?_⟩
    simp only [VirtualHost.declareExchange, hemp, hdb]
    exact ⟨rfl, hmqmp, hbmp, hmmp, hdisk, rfl⟩
  | deleteExchange name =>
    cases hrun
    refine ⟨_, rfl, ?_⟩
    simp only [VirtualHost.deleteExchange, hemp, hbmp, hdb]
    exact ⟨rfl, hmqmp, rfl, hmmp, hdisk, rfl⟩
  | declareQueue qname qdurable qexclusive qautoDelete qargs =>
    obtain ⟨reply, mmp, hmessages, n, hrun⟩ := alone_messages (n := 2)
      (.initQueueMsg · qname qdurable qexclusive qautoDelete qargs) (.initQueueMsg qname) (fun _ _ => rfl) hrun
    obtain ⟨m, hcall, hm⟩ := SharedMessages.alone_call hmmp hsound hmessages
    obtain ⟨⟨m', disk⟩, hinit, heq⟩ := Option.map_eq_some_iff.mp hcall
    cases heq
    cases n with
    | zero => cases hrun
    | succ n =>
      cases hrun
      let declared := h.mqmp.declareQueue qname qdurable qexclusive qautoDelete qargs h.db
      refine ⟨{ v with mmp := m, disk := mmp.disk, mqmp := declared.2.1, db := declared.2.2 }, ?_,
        ⟨hemp, rfl, hbmp, hm, rfl, rfl⟩⟩
      simp only [VirtualHost.step, HostCall.op, VirtualHost.declareQueue, hdisk, hinit, hmqmp, hdb, Option.map_some]
      rfl
  | deleteQueue name =>
    obtain ⟨reply, mmp, hmessages, n, hrun⟩ := alone_messages (n := 2) (.destroyQueueMsg · name) (.destroyQueueMsg name)
      (fun _ _ => rfl) hrun
    obtain ⟨m, hcall, hm⟩ := SharedMessages.alone_call hmmp hsound hmessages
    have hdestroy : v.mmp.destroyQueueMsg name h.mmp.disk = (m, mmp.disk) := (Prod.mk.inj (Option.some.inj hcall)).2
    match n with
    | 0 => cases hrun
    | 1 => cases hrun
    | n + 2 =>
      cases hrun
      refine ⟨_, rfl, ?_⟩
      simp only [VirtualHost.deleteQueue, hdisk, hdestroy, hbmp, hmqmp, hdb]
      exact ⟨hemp, rfl, rfl, hm, rfl, rfl⟩
  | bind ename qname key =>
    refine ⟨_, rfl, ?_⟩
    simp only [HostCall.start, Threads.alone, SharedHost.runSection] at hrun
    simp only [VirtualHost.bind, hemp, hmqmp, hbmp, hdb]
    cases hep : h.emp.selectExchange ename with
    | none =>
      simp only [hep] at hrun ⊢
      cases hrun
      exact ⟨hemp, hmqmp, hbmp, hmmp, hdisk, hdb⟩
    | some ep =>
      cases hqueue : h.mqmp.selectQueue qname with
      | none =>
        simp only [hep, hqueue] at hrun ⊢
        cases hrun
        exact ⟨hemp, hmqmp, hbmp, hmmp, hdisk, hdb⟩
      | some mqp =>
        simp only [hep, hqueue] at hrun ⊢
        cases hrun
        exact ⟨rfl, rfl, rfl, hmmp, hdisk, rfl⟩
  | unbind ename qname =>
    cases hrun
    refine ⟨_, rfl, ?_⟩
    simp only [VirtualHost.unbind, hbmp, hdb]
    exact ⟨hemp, hmqmp, rfl, hmmp, hdisk, rfl⟩

end SharedHost
end HareMQ
