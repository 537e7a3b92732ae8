import HareMQ.Codec
import HareMQ.Theorems.Recovery
import HareMQ.Theorems.Sections
import Mathlib.Data.List.Permutation

/-! # Calls on one queue in any order of their sections

A call is settled at one of its sections: a creation at the section on the map, a destruction when it clears the queue
object, and a use of the queue at its section on the object. Between the erasure of the queue and its clearing a call
that finds no queue comes after the destruction, and one that still holds the object comes before it. -/

namespace HareMQ
open Lib

namespace MessageSection

def recovers : MessageSection → Bool
  | recovery _ => true
  | _ => false

def clears : MessageSection → Bool
  | clear _ => true
  | _ => false

end MessageSection

/-- A call that uses a queue neither recovers nor clears it. -/
theorem MessageCall.act_of_uses {c : MessageCall} (h : c.uses = true) (qmp : Ref) :
    (c.act qmp).recovers = false ∧ (c.act qmp).clears = false := by
  cases c with
  | initQueueMsg qname => cases h
  | destroyQueueMsg qname => cases h
  | _ => exact ⟨rfl, rfl⟩

namespace MessageThreads
variable {pb : PayloadCodec} {qname : String}

/-- A queue object is used after its recovery and before its clearing, and no other one is made for the same file
while a clearing is to come. -/
def orderly (t : MessageThreads) : Turn MessageCall → Bool
  | .call _ => true
  | .go id =>
    match t.running.lookup id with
    | none => true
    | some th =>
      match th.pc with
      | .lookup (.initQueueMsg qname) => decide (qname ∈ t.shared.queueMsgs) || !t.anyAt MessageSection.clears
      | .lookup _ | .recovery _ => true
      | .clear qmp => !t.anyAt fun
        | .recovery qmp' => qmp' = qmp
        | _ => false
      | .insert qmp .. | .front qmp | .remove qmp _ =>
        (!t.anyAt fun
          | .recovery qmp' => qmp' = qmp
          | _ => false) &&
        (decide (t.shared.queueMsgs.lookup th.call.qname = some qmp) || t.anyAt fun
          | .clear qmp' => qmp' = qmp
          | _ => false)

/-! ### The state of the queue -/

/-- The queue object of the name: in the map, or erased and to be cleared. -/
inductive Entry (qname : String) (t : MessageThreads) (late : List (Done MessageCall Reply)) : Option Ref → Prop
  | absent (hmissing : t.shared.queueMsgs.lookup qname = none) (hclear : Threads.Free t.running MessageSection.clears) :
    Entry qname t late none
  | listed {qmp : Ref} (hfound : t.shared.queueMsgs.lookup qname = some qmp)
    (hclear : Threads.Free t.running MessageSection.clears) (hlate : late = []) : Entry qname t late (some qmp)
  | erased {qmp : Ref} {id : Nat} {th : Thread MessageCall MessageSection}
    (hmissing : t.shared.queueMsgs.lookup qname = none) (hth : t.running.lookup id = some th) (hpc : th.pc = .clear qmp)
    (hclear : Threads.Sole t.running MessageSection.clears id) : Entry qname t late (some qmp)

/-- What the queue and the disk are to the calls that are settled. A new queue is taken to be recovered. -/
inductive Content (pb : PayloadCodec) (t : MessageThreads) (pending : List (Done MessageCall Reply)) :
    Option Ref → Option QueueMessage → Disk → Prop
  | absent (hrecovery : Threads.Free t.running MessageSection.recovers) (hpending : pending = []) :
    Content pb t pending none none t.shared.disk
  | ready {qmp : Ref} (hrecovery : Threads.Free t.running MessageSection.recovers) (hpending : pending = []) :
    Content pb t pending (some qmp) (some (t.shared.objects qmp)) t.shared.disk
  | fresh {qmp : Ref} {id : Nat} {th : Thread MessageCall MessageSection} (hth : t.running.lookup id = some th)
    (hpc : th.pc = .recovery qmp) (hrecovery : Threads.Sole t.running MessageSection.recovers id)
    (hpending : pending = [th.done id (.done true)]) :
    Content pb t pending (some qmp) (some ((t.shared.objects qmp).recovery pb t.shared.disk).1)
      ((t.shared.objects qmp).recovery pb t.shared.disk).2

/-- The calls are settled in the order `early`. Those of `late` found no queue and come after them all. -/
structure Settled (pb : PayloadCodec) (qname : String) (start : MessageManager × Disk) (t : MessageThreads)
    (early late pending : List (Done MessageCall Reply)) (object : Option Ref) (m : MessageManager) (d : Disk) : Prop where
  logged : Threads.Logged t (early ++ late) pending
  replayed : Threads.replay (MessageManager.call pb) start early = some (m, d)
  missed : ∀ e ∈ late, e.call.qname = qname ∧ (∀ name, e.call ≠ .initQueueMsg name) ∧ e.reply = e.call.missing
  unseen : ∀ id th, t.running.lookup id = some th → th.pc ≠ .lookup th.call → ∀ e ∈ late, e.id ∉ th.before
  calls : ∀ id th, t.running.lookup id = some th →
    th.call.qname = qname ∧ (th.pc = .lookup th.call ∨ ∃ qmp, th.pc = th.call.act qmp)
  baseDir : m.baseDir = t.shared.baseDir
  others : ∀ name, name ≠ qname → m.queueMsgs.lookup name = (t.shared.queueMsgs.lookup name).map t.shared.objects
  below : ∀ name qmp, t.shared.queueMsgs.lookup name = some qmp → qmp < t.shared.next
  apart : ∀ qmp, object = some qmp → ∀ name, name ≠ qname → t.shared.queueMsgs.lookup name ≠ some qmp
  entry : Entry qname t late object
  content : Content pb t pending object (m.queueMsgs.lookup qname) d

section Moves
variable {t t' : MessageThreads} {late pending : List (Done MessageCall Reply)} {object : Option Ref}
  {queue : Option QueueMessage} {d : Disk}

theorem Entry.move (h : Entry qname t late object)
    (hmap : t'.shared.queueMsgs.lookup qname = t.shared.queueMsgs.lookup qname)
    (hclear : Threads.Alike t.running t'.running MessageSection.clears) : Entry qname t' late object := by
  cases h with
  | absent hmissing hfree => exact .absent (hmap.trans hmissing) (hclear.free hfree)
  | listed hfound hfree hlate => exact .listed (hmap.trans hfound) (hclear.free hfree) hlate
  | erased hmissing hth hpc hsole =>
    exact .erased (hmap.trans hmissing) ((hclear _ _ (by rw [hpc]; rfl)).mpr hth) hpc (hclear.sole hsole)

/-- While the name has no queue, more calls may find that. -/
theorem Entry.missed (h : Entry qname t late object) (hmissing : t.shared.queueMsgs.lookup qname = none)
    (late' : List (Done MessageCall Reply)) : Entry qname t late' object := by
  cases h with
  | absent _ hclear => exact .absent hmissing hclear
  | listed hfound => rw [hfound] at hmissing; cases hmissing
  | erased _ hth hpc hclear => exact .erased hmissing hth hpc hclear

theorem Entry.flush (h : Entry qname t late object) : Entry qname t [] object := by
  cases h with
  | absent hmissing hclear => exact .absent hmissing hclear
  | listed hfound hclear => exact .listed hfound hclear rfl
  | erased hmissing hth hpc hclear => exact .erased hmissing hth hpc hclear

theorem Content.move (h : Content pb t pending object queue d) (hdisk : t'.shared.disk = t.shared.disk)
    (hobjects : ∀ qmp, object = some qmp → t'.shared.objects qmp = t.shared.objects qmp)
    (hrecovery : Threads.Alike t.running t'.running MessageSection.recovers) : Content pb t' pending object queue d := by
  cases h with
  | absent hfree hpending =>
    rw [← hdisk]
    exact .absent (hrecovery.free hfree) hpending
  | ready hfree hpending =>
    rw [← hdisk, ← hobjects _ rfl]
    exact .ready (hrecovery.free hfree) hpending
  | fresh hth hpc hsole hpending =>
    rw [← hdisk, ← hobjects _ rfl]
    exact .fresh ((hrecovery _ _ (by rw [hpc]; rfl)).mpr hth) hpc (hrecovery.sole hsole) hpending

/-- A new object is recovered on the disk as it is now. -/
theorem Content.new {qmp : Ref} {id : Nat} {th : Thread MessageCall MessageSection} {q : QueueMessage}
    (hth : t.running.lookup id = some th) (hpc : th.pc = .recovery qmp)
    (hrecovery : Threads.Sole t.running MessageSection.recovers id) (hpending : pending = [th.done id (.done true)])
    (hobject : t.shared.objects qmp = q) (hdisk : t.shared.disk = d) :
    Content pb t pending (some qmp) (some (q.recovery pb d).1) (q.recovery pb d).2 := by
  subst hobject hdisk
  exact .fresh hth hpc hrecovery hpending

theorem Content.kept {qmp : Ref} {q : QueueMessage} (hrecovery : Threads.Free t.running MessageSection.recovers)
    (hpending : pending = []) (hobject : t.shared.objects qmp = q) (hdisk : t.shared.disk = d) :
    Content pb t pending (some qmp) (some q) d := by
  subst hobject hdisk
  exact .ready hrecovery hpending

end Moves

section Steps
variable {start : MessageManager × Disk} {t : MessageThreads} {early late pending : List (Done MessageCall Reply)}
  {object : Option Ref} {m : MessageManager} {d : Disk} {id : Nat} {th : Thread MessageCall MessageSection}

theorem Settled.call (h : Settled pb qname start t early late pending object m d) {c : MessageCall} (hc : c.qname = qname) :
    Settled pb qname start { t with
      running := t.running.insert t.next { call := c, pc := .lookup c, before := t.returned.map Done.id }
      next := t.next + 1 } early late pending object m d where
  logged := h.logged.call c (.lookup c)
  replayed := h.replayed
  missed := h.missed
  unseen id th hth hpc := by
    rw [UMap.lookup_insert] at hth
    split at hth
    · cases hth
      exact absurd rfl hpc
    · exact h.unseen id th hth hpc
  calls id th hth := by
    rw [UMap.lookup_insert] at hth
    split at hth
    · cases hth
      exact ⟨hc, Or.inl rfl⟩
    · exact h.calls id th hth
  baseDir := h.baseDir
  others := h.others
  below := h.below
  apart := h.apart
  entry := h.entry.move rfl (Threads.alike_insert (fun th hth => absurd (h.logged.since _ th hth).1 (Nat.lt_irrefl _)) rfl)
  content := h.content.move rfl (fun _ _ => rfl)
    (Threads.alike_insert (fun th hth => absurd (h.logged.since _ th hth).1 (Nat.lt_irrefl _)) rfl)

/-- The queue of the name. -/
theorem Settled.found (h : Settled pb qname start t early late pending object m d) {qmp : Ref}
    (hfound : t.shared.queueMsgs.lookup qname = some qmp) :
    object = some qmp ∧ late = [] ∧ Threads.Free t.running MessageSection.clears := by
  cases h.entry with
  | absent hmissing => rw [hmissing] at hfound; cases hfound
  | listed hfound' hclear hlate =>
    rw [hfound'] at hfound
    cases hfound
    exact ⟨rfl, hlate, hclear⟩
  | erased hmissing => rw [hmissing] at hfound; cases hfound

theorem Settled.queue_isSome (h : Settled pb qname start t early late pending object m d) {qmp : Ref}
    (hobject : object = some qmp) : ∃ q, m.queueMsgs.lookup qname = some q := by
  subst hobject
  generalize hqueue : m.queueMsgs.lookup qname = queue
  have hcontent := h.content
  rw [hqueue] at hcontent
  cases hcontent with
  | ready => exact ⟨_, rfl⟩
  | fresh => exact ⟨_, rfl⟩

/-- Without a queue the calls that found none can be taken to be settled. -/
theorem Settled.flush (h : Settled pb qname start t early late pending object m d)
    (hqueue : m.queueMsgs.lookup qname = none) : Settled pb qname start t (early ++ late) [] pending object m d :=
  { h with
    logged := by rw [List.append_nil]; exact h.logged
    replayed := by
      rw [Threads.replay_append, h.replayed, Option.bind_some]
      refine Threads.replay_of_idle fun e he => ?_
      obtain ⟨hname, hc, hreply⟩ := h.missed e he
      rw [hreply]
      exact MessageManager.call_missing (hname ▸ hqueue) hc
    missed := fun _ he => by cases he
    unseen := fun _ _ _ _ _ he => by cases he
    entry := h.entry.flush }

theorem Settled.calls_erase (h : Settled pb qname start t early late pending object m d) :
    ∀ id' th', (t.running.erase id).lookup id' = some th' →
      th'.call.qname = qname ∧ (th'.pc = .lookup th'.call ∨ ∃ qmp, th'.pc = th'.call.act qmp) :=
  fun id' th' hth' => h.calls id' th' (UMap.lookup_erase_eq_some hth').2

theorem Settled.calls_insert (h : Settled pb qname start t early late pending object m d)
    (hth : t.running.lookup id = some th) (qmp : Ref) :
    ∀ id' th', (t.running.insert id { th with pc := th.call.act qmp }).lookup id' = some th' →
      th'.call.qname = qname ∧ (th'.pc = .lookup th'.call ∨ ∃ qmp, th'.pc = th'.call.act qmp) := by
  intro id' th' hth'
  rw [UMap.lookup_insert] at hth'
  split at hth'
  · cases hth'
    exact ⟨(h.calls id th hth).1, Or.inr ⟨qmp, rfl⟩⟩
  · exact h.calls id' th' hth'

/-- The points that a call leaves. -/
theorem alike_erase_of_pc (hth : t.running.lookup id = some th) {p : MessageSection → Bool} (hp : p th.pc = false) :
    Threads.Alike t.running (t.running.erase id) p :=
  Threads.alike_erase fun th' hth' => by
    rw [hth] at hth'
    cases hth'
    exact hp

theorem alike_insert_of_pc (hth : t.running.lookup id = some th) {p : MessageSection → Bool} {pc : MessageSection}
    (hp : p th.pc = false) (hpc : p pc = false) : Threads.Alike t.running (t.running.insert id { th with pc }) p :=
  Threads.alike_insert (fun th' hth' => by rw [hth] at hth'; cases hth'; exact hp) hpc

/-- A call is settled and returns. -/
theorem Settled.finish (h : Settled pb qname start t early late pending object m d) (hth : t.running.lookup id = some th)
    (hlate : ∀ e ∈ late, e.id ∉ th.before) {reply : Reply} {s : SharedMessages} {object' : Option Ref} {m' : MessageManager}
    {d' : Disk} (hcall : MessageManager.call pb (m, d) th.call = some (reply, m', d')) (hbaseDir : m'.baseDir = s.baseDir)
    (hothers : ∀ name, name ≠ qname → m'.queueMsgs.lookup name = (s.queueMsgs.lookup name).map s.objects)
    (hbelow : ∀ name qmp, s.queueMsgs.lookup name = some qmp → qmp < s.next)
    (hapart : ∀ qmp, object' = some qmp → ∀ name, name ≠ qname → s.queueMsgs.lookup name ≠ some qmp)
    (hentry : Entry qname { t with
      shared := s, running := t.running.erase id, returned := t.returned ++ [th.done id reply] } late object')
    (hcontent : Content pb { t with
      shared := s, running := t.running.erase id, returned := t.returned ++ [th.done id reply] } pending object'
      (m'.queueMsgs.lookup qname) d') :
    Settled pb qname start { t with
      shared := s, running := t.running.erase id, returned := t.returned ++ [th.done id reply] } (early ++ [th.done id reply])
      late pending object' m' d' where
  logged := by
    rw [List.append_assoc, List.singleton_append]
    exact h.logged.finish hth hlate reply s
  replayed := Threads.replay_snoc h.replayed hcall
  missed := h.missed
  unseen id' th' hth' := h.unseen id' th' (UMap.lookup_erase_eq_some hth').2
  calls := h.calls_erase
  baseDir := hbaseDir
  others := hothers
  below := hbelow
  apart := hapart
  entry := hentry
  content := hcontent

/-! ### Sections on the map -/

/-- A call finds no queue. -/
theorem Settled.miss (h : Settled pb qname start t early late pending object m d) (hth : t.running.lookup id = some th)
    (hpc : th.pc = .lookup th.call) (hmissing : t.shared.queueMsgs.lookup qname = none)
    (hc : ∀ name, th.call ≠ .initQueueMsg name) :
    Settled pb qname start { t with
      running := t.running.erase id
      returned := t.returned ++ [th.done id th.call.missing] } early (late ++ [th.done id th.call.missing]) pending object
      m d where
  logged := by
    have hlog : Threads.Logged t ((early ++ late) ++ []) pending := by rw [List.append_nil]; exact h.logged
    have hfinish := hlog.finish hth (fun _ he => by cases he) th.call.missing t.shared
    rwa [List.append_assoc] at hfinish
  replayed := h.replayed
  missed e he := by
    obtain he | he := List.mem_append.mp he
    · exact h.missed e he
    · rw [List.mem_singleton.mp he]
      exact ⟨(h.calls id th hth).1, hc, rfl⟩
  unseen id' th' hth' hpc' e he := by
    have hth' := (UMap.lookup_erase_eq_some hth').2
    obtain he | he := List.mem_append.mp he
    · exact h.unseen id' th' hth' hpc' e he
    · rw [List.mem_singleton.mp he]
      exact fun hid => h.logged.not_returned hth ((h.logged.since id' th' hth').2 _ hid)
  calls := h.calls_erase
  baseDir := h.baseDir
  others := h.others
  below := h.below
  apart := h.apart
  entry := Entry.move (h.entry.missed hmissing _) rfl (alike_erase_of_pc hth (by rw [hpc]; rfl))
  content := h.content.move rfl (fun _ _ => rfl) (alike_erase_of_pc hth (by rw [hpc]; rfl))

/-- A creation finds a queue. -/
theorem Settled.init_found (h : Settled pb qname start t early late pending object m d)
    (hth : t.running.lookup id = some th) (hpc : th.pc = .lookup th.call) (hc : th.call = .initQueueMsg qname) {qmp : Ref}
    (hfound : t.shared.queueMsgs.lookup qname = some qmp) :
    Settled pb qname start { t with
      running := t.running.erase id
      returned := t.returned ++ [th.done id (.done true)] } (early ++ [th.done id (.done true)]) late pending object m d := by
  obtain ⟨hobject, hlate, -⟩ := h.found hfound
  obtain ⟨q, hqueue⟩ := h.queue_isSome hobject
  have hcall : MessageManager.call pb (m, d) th.call = some (.done true, m, d) := by
    rw [hc]
    simp only [MessageManager.call, MessageManager.initQueueMsg, hqueue, Option.map_some]
  exact h.finish hth (fun e he => by rw [hlate] at he; cases he) hcall h.baseDir h.others h.below h.apart
    (h.entry.move rfl (alike_erase_of_pc hth (by rw [hpc]; rfl)))
    (h.content.move rfl (fun _ _ => rfl) (alike_erase_of_pc hth (by rw [hpc]; rfl)))

/-- A call takes the queue object that it finds. -/
theorem Settled.use_found (h : Settled pb qname start t early late pending object m d)
    (hth : t.running.lookup id = some th) (hpc : th.pc = .lookup th.call) (huses : th.call.uses = true) {qmp : Ref}
    (hfound : t.shared.queueMsgs.lookup qname = some qmp) :
    Settled pb qname start { t with running := t.running.insert id { th with pc := th.call.act qmp } } early late pending
      object m d := by
  obtain ⟨-, rfl, -⟩ := h.found hfound
  obtain ⟨hrecovers, hclears⟩ := th.call.act_of_uses huses qmp
  exact
    { h with
      logged := h.logged.goto hth t.shared (th.call.act qmp)
      unseen := fun _ _ _ _ _ he => by cases he
      calls := h.calls_insert hth qmp
      entry := h.entry.move rfl (alike_insert_of_pc hth (by rw [hpc]; rfl) hclears)
      content := h.content.move rfl (fun _ _ => rfl) (alike_insert_of_pc hth (by rw [hpc]; rfl) hrecovers) }

/-- A destruction erases the queue from the map, and has its object yet to clear. -/
theorem Settled.destroy_found (h : Settled pb qname start t early late pending object m d)
    (hth : t.running.lookup id = some th) (hpc : th.pc = .lookup th.call) (hc : th.call = .destroyQueueMsg qname) {qmp : Ref}
    (hfound : t.shared.queueMsgs.lookup qname = some qmp) :
    Settled pb qname start { t with
      shared := { t.shared with queueMsgs := t.shared.queueMsgs.erase qname }
      running := t.running.insert id { th with pc := th.call.act qmp } } early late pending object m d := by
  obtain ⟨rfl, rfl, hclear⟩ := h.found hfound
  have hact : th.call.act qmp = .clear qmp := by rw [hc]; rfl
  exact
    { h with
      logged := h.logged.goto hth _ (th.call.act qmp)
      unseen := fun _ _ _ _ _ he => by cases he
      calls := h.calls_insert hth qmp
      others := fun name hname => by
        rw [AList.lookup_erase_ne hname]
        exact h.others name hname
      below := fun name qmp' hlookup => h.below name qmp' (UMap.lookup_erase_eq_some hlookup).2
      apart := fun qmp' hobject name hname hlookup =>
        h.apart qmp' hobject name hname (UMap.lookup_erase_eq_some hlookup).2
      entry := .erased (AList.lookup_erase ..) (AList.lookup_insert ..) hact hclear.sole_insert
      content := h.content.move rfl (fun _ _ => rfl)
        (alike_insert_of_pc hth (by rw [hpc]; rfl) (by rw [hact]; rfl)) }

theorem Content.of_none (h : Content pb t pending none (m.queueMsgs.lookup qname) d) :
    m.queueMsgs.lookup qname = none ∧ d = t.shared.disk ∧ pending = [] ∧ Threads.Free t.running MessageSection.recovers := by
  generalize m.queueMsgs.lookup qname = queue at h
  cases h with
  | absent hrecovery hpending => exact ⟨rfl, rfl, hpending, hrecovery⟩

/-- A creation enters a new object, which it has yet to recover. It is settled here. -/
theorem Settled.create (h : Settled pb qname start t early late pending none m d)
    (hth : t.running.lookup id = some th) (hpc : th.pc = .lookup th.call) (hc : th.call = .initQueueMsg qname)
    (hmissing : t.shared.queueMsgs.lookup qname = none) {mapper : MessageMapper} {disk : Disk}
    (hnew : MessageMapper.new t.shared.disk t.shared.baseDir qname = some (mapper, disk)) :
    ∃ early m d, Settled pb qname start { t with
      shared := { t.shared.put t.shared.next { mapper } disk with
        queueMsgs := t.shared.queueMsgs.emplace qname t.shared.next
        next := t.shared.next + 1 }
      running := t.running.insert id { th with pc := th.call.act t.shared.next } } early [] [th.done id (.done true)]
      (some t.shared.next) m d := by
  obtain ⟨hqueue, rfl, rfl, hrecovery⟩ := h.content.of_none
  have hflush := h.flush hqueue
  have hclear : Threads.Free t.running MessageSection.clears := by
    cases h.entry with
    | absent _ hclear => exact hclear
  have hact : th.call.act t.shared.next = .recovery t.shared.next := by rw [hc]; rfl
  have hfree : qname ∉ m.queueMsgs := AList.lookup_eq_none.mp hqueue
  let recovered := ({ mapper } : QueueMessage).recovery pb disk
  have hcall : MessageManager.call pb (m, t.shared.disk) th.call =
      some (.done true, { m with queueMsgs := m.queueMsgs.emplace qname recovered.1 }, recovered.2) := by
    rw [hc]
    simp only [MessageManager.call, MessageManager.initQueueMsg, hqueue, h.baseDir, hnew]
    rfl
  have hnext : ∀ name qmp, t.shared.queueMsgs.lookup name = some qmp → qmp ≠ t.shared.next :=
    fun name qmp hlookup => Nat.ne_of_lt (h.below name qmp hlookup)
  refine ⟨(early ++ late) ++ [th.done id (.done true)], { m with queueMsgs := m.queueMsgs.emplace qname recovered.1 },
    recovered.2, ?_⟩
  exact
    { logged := by
        have hinsert := (hflush.logged.insert hth (fun _ he => by cases he) (.done true)).goto hth
          { t.shared.put t.shared.next { mapper } disk with
            queueMsgs := t.shared.queueMsgs.emplace qname t.shared.next
            next := t.shared.next + 1 } (th.call.act t.shared.next)
        rw [List.append_nil]
        exact hinsert
      replayed := Threads.replay_snoc hflush.replayed hcall
      missed := fun _ he => by cases he
      unseen := fun _ _ _ _ _ he => by cases he
      calls := h.calls_insert hth t.shared.next
      baseDir := h.baseDir
      others := fun name hname => by
        show (m.queueMsgs.emplace qname _).lookup name = ((t.shared.queueMsgs.emplace qname _).lookup name).map _
        rw [UMap.lookup_emplace_ne hname, UMap.lookup_emplace_ne hname, h.others name hname]
        cases hlookup : t.shared.queueMsgs.lookup name with
        | none => rfl
        | some qmp => exact congrArg some (Function.update_of_ne (hnext name qmp hlookup) ..).symm
      below := fun name qmp hlookup => by
        obtain hold | ⟨-, -, rfl⟩ := UMap.lookup_emplace_eq_some hlookup
        · exact Nat.lt_succ_of_lt (h.below name qmp hold)
        · exact Nat.lt_succ_self _
      apart := fun qmp hobject name hname hlookup => by
        cases hobject
        obtain hold | ⟨heq, -, -⟩ := UMap.lookup_emplace_eq_some hlookup
        · exact hnext name _ hold rfl
        · exact hname heq
      entry := .listed (UMap.lookup_emplace_self (AList.lookup_eq_none.mp hmissing) _)
        ((alike_insert_of_pc hth (by rw [hpc]; rfl) (by rw [hact]; rfl)).free hclear) rfl
      content := by
        show Content pb _ _ _ ((m.queueMsgs.emplace qname recovered.1).lookup qname) _
        rw [UMap.lookup_emplace_self hfree]
        exact .new (AList.lookup_insert ..) hact hrecovery.sole_insert rfl (Function.update_self ..) rfl }

/-! ### Sections on the queue -/

/-- The recovery that the creation took for granted. -/
theorem Settled.recovery (h : Settled pb qname start t early late pending object m d)
    (hth : t.running.lookup id = some th) {qmp : Ref} (hpc : th.pc = .recovery qmp) :
    Settled pb qname start { t with
      shared := t.shared.put qmp ((t.shared.objects qmp).recovery pb t.shared.disk).1
        ((t.shared.objects qmp).recovery pb t.shared.disk).2
      running := t.running.erase id
      returned := t.returned ++ [th.done id (.done true)] } early late [] object m d := by
  generalize hqueue : m.queueMsgs.lookup qname = queue
  have hcontent := h.content
  rw [hqueue] at hcontent
  have hat : th.pc.recovers = true := by rw [hpc]; rfl
  cases hcontent with
  | absent hrecovery =>
    rw [hrecovery id th hth] at hat
    cases hat
  | ready hrecovery =>
    rw [hrecovery id th hth] at hat
    cases hat
  | fresh hth' hpc' hrecovery hpending =>
    cases hrecovery id th hth hat
    rw [hth] at hth'
    cases hth'
    rw [hpc] at hpc'
    cases hpc'
    subst hpending
    have hclears : th.pc.clears = false := by rw [hpc]; rfl
    exact
      { h with
        logged := by
          have hlog : Threads.Logged t (early ++ late) ([] ++ [th.done id (.done true)]) := h.logged
          exact hlog.settle hth _
        unseen := fun id' th' hth' => h.unseen id' th' (UMap.lookup_erase_eq_some hth').2
        calls := h.calls_erase
        others := fun name hname => (h.others name hname).trans (SharedMessages.map_put (h.apart qmp rfl name hname) ..).symm
        entry := h.entry.move rfl (alike_erase_of_pc hth hclears)
        content := by
          rw [hqueue]
          exact .kept hrecovery.free_erase rfl (Function.update_self ..) rfl }

/-- The object that a call may use is that of the name, and it is recovered. -/
theorem Settled.usable (h : Settled pb qname start t early late pending object m d) {qmp : Ref}
    (hrecovery : ∀ id th, t.running.lookup id = some th → th.pc ≠ .recovery qmp)
    (hkept : t.shared.queueMsgs.lookup qname = some qmp ∨ ∃ id th, t.running.lookup id = some th ∧ th.pc = .clear qmp) :
    object = some qmp ∧ pending = [] ∧ m.queueMsgs.lookup qname = some (t.shared.objects qmp) ∧ d = t.shared.disk ∧
      Threads.Free t.running MessageSection.recovers := by
  have hobject : object = some qmp := by
    obtain hfound | ⟨id, th, hth, hpc⟩ := hkept
    · exact (h.found hfound).1
    · have hat : th.pc.clears = true := by rw [hpc]; rfl
      cases h.entry with
      | absent _ hclear =>
        rw [hclear id th hth] at hat
        cases hat
      | listed _ hclear =>
        rw [hclear id th hth] at hat
        cases hat
      | erased _ hth' hpc' hclear =>
        cases hclear id th hth hat
        rw [hth] at hth'
        cases hth'
        rw [hpc] at hpc'
        cases hpc'
        rfl
  subst hobject
  have hcontent := h.content
  generalize m.queueMsgs.lookup qname = queue at hcontent
  cases hcontent with
  | ready hfree hpending => exact ⟨rfl, hpending, rfl, rfl, hfree⟩
  | fresh hth hpc => exact absurd hpc (hrecovery _ _ hth)

/-- A destruction clears the object that it erased, and then the calls that found no queue are settled. -/
theorem Settled.clear (h : Settled pb qname start t early late pending object m d)
    (hth : t.running.lookup id = some th) {qmp : Ref} (hc : th.call = .destroyQueueMsg qname) (hpc : th.pc = .clear qmp)
    (hrecovery : ∀ id th, t.running.lookup id = some th → th.pc ≠ .recovery qmp) :
    ∃ early m d, Settled pb qname start { t with
      shared := t.shared.put qmp ((t.shared.objects qmp).clear t.shared.disk).1 ((t.shared.objects qmp).clear t.shared.disk).2
      running := t.running.erase id
      returned := t.returned ++ [th.done id (.done true)] } early late pending none m d := by
  obtain ⟨rfl, rfl, hqueue, rfl, hfree⟩ := h.usable hrecovery (Or.inr ⟨id, th, hth, hpc⟩)
  have hat : th.pc.clears = true := by rw [hpc]; rfl
  have hcall : MessageManager.call pb (m, t.shared.disk) th.call =
      some (.done true, { m with queueMsgs := m.queueMsgs.erase qname }, ((t.shared.objects qmp).clear t.shared.disk).2) := by
    rw [hc]
    simp only [MessageManager.call, MessageManager.destroyQueueMsg, hqueue]
  have hentry : t.shared.queueMsgs.lookup qname = none ∧ Threads.Sole t.running MessageSection.clears id := by
    cases h.entry with
    | listed _ hclear =>
      rw [hclear id th hth] at hat
      cases hat
    | erased hmissing _ _ hclear =>
      cases hclear id th hth hat
      exact ⟨hmissing, hclear⟩
  have hgone : (m.queueMsgs.erase qname).lookup qname = none := AList.lookup_erase ..
  refine ⟨_, _, _, h.finish hth (h.unseen id th hth (by rw [hpc]; exact fun heq => by cases heq)) hcall h.baseDir
    (fun name hname => ?_) h.below (fun _ hobject => by cases hobject) (.absent hentry.1 hentry.2.free_erase) ?_⟩
  · rw [SharedMessages.map_put (h.apart qmp rfl name hname), ← h.others name hname]
    exact AList.lookup_erase_ne hname
  · rw [hgone]
    exact .absent ((alike_erase_of_pc hth (by rw [hpc]; rfl)).free hfree) rfl

/-- A call uses the object of the queue, in the map or erased from it. -/
theorem Settled.use (h : Settled pb qname start t early late pending object m d)
    (hth : t.running.lookup id = some th) {qmp : Ref} (huses : th.call.uses = true) (hpc : th.pc = th.call.act qmp)
    (hrecovery : ∀ id th, t.running.lookup id = some th → th.pc ≠ .recovery qmp)
    (hkept : t.shared.queueMsgs.lookup qname = some qmp ∨ ∃ id th, t.running.lookup id = some th ∧ th.pc = .clear qmp)
    {s : SharedMessages} {next : Next MessageSection Reply} (hrun : t.shared.runSection pb th.pc = some (s, next)) :
    ∃ reply, next = .done reply ∧ ∃ early m d, Settled pb qname start { t with
      shared := s
      running := t.running.erase id
      returned := t.returned ++ [th.done id reply] } early late pending object m d := by
  obtain ⟨rfl, rfl, hqueue, rfl, hfree⟩ := h.usable hrecovery hkept
  obtain ⟨hrecovers, hclears⟩ := th.call.act_of_uses huses qmp
  obtain ⟨hname, -⟩ := h.calls id th hth
  rw [hpc] at hrun
  obtain ⟨q, reply, hs, rfl, hcall⟩ := SharedMessages.section_uses huses hrun
  rw [hname] at hcall
  rw [hs]
  refine ⟨reply, rfl, _, _, _, h.finish hth (h.unseen id th hth ?_) (hcall m hqueue) h.baseDir
    (fun name hname => ?_) h.below h.apart (h.entry.move rfl (alike_erase_of_pc hth (hpc ▸ hclears))) ?_⟩
  · rw [hpc]
    cases hc : th.call <;> exact fun heq => by cases heq
  · rw [SharedMessages.map_put (h.apart qmp rfl name hname), ← h.others name hname]
    exact AList.lookup_insert_ne hname
  · show Content pb _ [] (some qmp) ((m.queueMsgs.insert qname q).lookup qname) _
    rw [AList.lookup_insert]
    exact .kept ((alike_erase_of_pc hth (hpc ▸ hrecovers)).free hfree) rfl (Function.update_self ..) rfl

/-! ### Runs -/

theorem Settled.initial {s : SharedMessages} (hshows : s.Shows m) (hsound : s.Sound) (qname : String) :
    Settled pb qname (m, s.disk) { shared := s } [] [] [] (s.queueMsgs.lookup qname) m s.disk where
  logged := Threads.logged_start s
  replayed := rfl
  missed _ he := by cases he
  unseen _ _ hth := by cases hth
  calls _ _ hth := by cases hth
  baseDir := hshows.baseDir
  others name _ := hshows.queues name
  below := hsound.below
  apart qmp hqmp name hname hlookup := hname (hsound.distinct _ _ qmp hlookup hqmp)
  entry := by
    cases hlookup : s.queueMsgs.lookup qname with
    | none => exact .absent hlookup fun _ _ hth => by cases hth
    | some qmp => exact .listed hlookup (fun _ _ hth => by cases hth) rfl
  content := by
    rw [hshows.queues]
    cases hlookup : s.queueMsgs.lookup qname with
    | none => exact .absent (fun _ _ hth => by cases hth) rfl
    | some qmp => exact .ready (fun _ _ hth => by cases hth) rfl

/-- The calls so far are settled in some order. -/
def Linear (pb : PayloadCodec) (qname : String) (start : MessageManager × Disk) (t : MessageThreads) : Prop :=
  ∃ early late pending object m d, Settled pb qname start t early late pending object m d

/-- The call is one on this queue. -/
def onQueue (qname : String) : Turn MessageCall → Bool
  | .call c => c.qname = qname
  | .go _ => true

/-- A call at its section on the map. -/
theorem Settled.lookup_step (h : Settled pb qname start t early late pending object m d)
    (hth : t.running.lookup id = some th) (hpc : th.pc = .lookup th.call) (horderly : t.orderly (.go id) = true)
    {t' : MessageThreads} (hstep : t.step pb (.go id) = some t') : Linear pb qname start t' := by
  obtain ⟨hname, -⟩ := h.calls id th hth
  simp only [step, Threads.step, hth, hpc, SharedMessages.runSection] at hstep
  cases hlookup : t.shared.queueMsgs.lookup qname with
  | none =>
    by_cases hinit : ∃ name, th.call = .initQueueMsg name
    · obtain ⟨name, hc⟩ := hinit
      obtain rfl : name = qname := by rw [← hname, hc]; rfl
      have hclear : Threads.Free t.running MessageSection.clears := by
        simp only [orderly, hth, hpc, hc, Bool.or_eq_true, decide_eq_true_eq, AList.lookup_eq_none.mp hlookup, false_or,
          Bool.not_eq_true'] at horderly
        exact Threads.anyAt_eq_false_iff.mp horderly
      obtain rfl : object = none := by
        cases h.entry with
        | absent => rfl
        | listed hfound => rw [hfound] at hlookup; cases hlookup
        | erased _ hth' hpc' =>
          have hat := hclear _ _ hth'
          rw [hpc'] at hat
          cases hat
      simp only [hc, SharedMessages.lookup, hlookup] at hstep
      cases hnew : MessageMapper.new t.shared.disk t.shared.baseDir name with
      | none => simp [hnew] at hstep
      | some entry =>
        obtain ⟨mapper, disk⟩ := entry
        simp only [hnew] at hstep
        cases hstep
        obtain ⟨early, m, d, hsettled⟩ := h.create hth hpc hc hlookup hnew
        rw [hc] at hsettled
        exact ⟨_, _, _, _, _, _, hsettled⟩
    · have hc : ∀ name, th.call ≠ .initQueueMsg name := not_exists.mp hinit
      rw [SharedMessages.lookup_missing (hname.symm ▸ hlookup) hc] at hstep
      cases hstep
      exact ⟨_, _, _, _, _, _, h.miss hth hpc hlookup hc⟩
  | some qmp =>
    cases huses : th.call.uses with
    | true =>
      rw [SharedMessages.lookup_found (hname.symm ▸ hlookup) huses] at hstep
      cases hstep
      exact ⟨_, _, _, _, _, _, h.use_found hth hpc huses hlookup⟩
    | false =>
      cases hc : th.call with
      | initQueueMsg name =>
        obtain rfl : name = qname := by rw [← hname, hc]; rfl
        simp only [hc, SharedMessages.lookup, hlookup] at hstep
        cases hstep
        have hfound := h.init_found hth hpc hc hlookup
        simp only [Thread.done, hc] at hfound
        exact ⟨_, _, _, _, _, _, hfound⟩
      | destroyQueueMsg name =>
        obtain rfl : name = qname := by rw [← hname, hc]; rfl
        simp only [hc, SharedMessages.lookup, hlookup] at hstep
        cases hstep
        have hfound := h.destroy_found hth hpc hc hlookup
        rw [hc] at hfound
        exact ⟨_, _, _, _, _, _, hfound⟩
      | _ =>
        rw [hc] at huses
        cases huses

/-- What an orderly use of a queue object finds. -/
theorem orderly_use (hth : t.running.lookup id = some th) {qmp : Ref} (huses : th.call.uses = true)
    (hpc : th.pc = th.call.act qmp) (horderly : t.orderly (.go id) = true) :
    (∀ id th, t.running.lookup id = some th → th.pc ≠ .recovery qmp) ∧
      (t.shared.queueMsgs.lookup th.call.qname = some qmp ∨ ∃ id th, t.running.lookup id = some th ∧ th.pc = .clear qmp) := by
  have hkinds : (!t.anyAt fun
          | .recovery qmp' => decide (qmp' = qmp)
          | _ => false) = true ∧
      (decide (t.shared.queueMsgs.lookup th.call.qname = some qmp) || t.anyAt fun
        | .clear qmp' => decide (qmp' = qmp)
        | _ => false) = true := by
    simp only [orderly, hth, hpc] at horderly
    cases hc : th.call with
    | initQueueMsg name => rw [hc] at huses; cases huses
    | destroyQueueMsg name => rw [hc] at huses; cases huses
    | _ =>
      rw [hc] at horderly
      exact (Bool.and_eq_true _ _).mp horderly
  simp only [Bool.not_eq_true', Threads.anyAt_eq_false_iff, Bool.or_eq_true, decide_eq_true_eq, Threads.anyAt_iff] at hkinds
  obtain ⟨hrecovery, hkept⟩ := hkinds
  constructor
  · intro id' th' hth' hpc'
    have hat := hrecovery id' th' hth'
    simp [hpc'] at hat
  · refine hkept.imp_right ?_
    rintro ⟨id', th', hth', hat⟩
    refine ⟨id', th', hth', ?_⟩
    cases hpc' : th'.pc with
    | clear qmp' =>
      rw [hpc'] at hat
      rw [of_decide_eq_true hat]
    | _ =>
      rw [hpc'] at hat
      cases hat

/-- A call at its section on a queue object. -/
theorem Settled.act_step (h : Settled pb qname start t early late pending object m d)
    (hth : t.running.lookup id = some th) {qmp : Ref} (hpc : th.pc = th.call.act qmp)
    (horderly : t.orderly (.go id) = true) {t' : MessageThreads} (hstep : t.step pb (.go id) = some t') :
    Linear pb qname start t' := by
  obtain ⟨hname, -⟩ := h.calls id th hth
  simp only [step, Threads.step, hth] at hstep
  cases huses : th.call.uses with
  | true =>
    obtain ⟨hrecovery, hkept⟩ := orderly_use hth huses hpc horderly
    rw [hname] at hkept
    split at hstep
    · cases hstep
    · next hrun =>
      obtain ⟨reply, hnext, -⟩ := h.use hth huses hpc hrecovery hkept hrun
      cases hnext
    · next hrun =>
      obtain ⟨reply, hnext, early, m, d, hsettled⟩ := h.use hth huses hpc hrecovery hkept hrun
      cases hnext
      cases hstep
      exact ⟨_, _, _, _, _, _, hsettled⟩
  | false =>
    cases hc : th.call with
    | initQueueMsg name =>
      rw [hc] at hpc
      simp only [hpc, MessageCall.act, SharedMessages.runSection] at hstep
      cases hstep
      exact ⟨_, _, _, _, _, _, h.recovery hth hpc⟩
    | destroyQueueMsg name =>
      obtain rfl : name = qname := by rw [← hname, hc]; rfl
      rw [hc] at hpc
      have hrecovery : ∀ id th, t.running.lookup id = some th → th.pc ≠ .recovery qmp := by
        simp only [orderly, hth, hpc, MessageCall.act, Bool.not_eq_true', Threads.anyAt_eq_false_iff] at horderly
        intro id' th' hth' hpc'
        have hat := horderly id' th' hth'
        simp [hpc'] at hat
      simp only [hpc, MessageCall.act, SharedMessages.runSection] at hstep
      cases hstep
      obtain ⟨early, m, d, hsettled⟩ := h.clear hth hc hpc hrecovery
      exact ⟨_, _, _, _, _, _, hsettled⟩
    | _ =>
      rw [hc] at huses
      cases huses

theorem Linear.step (h : Linear pb qname start t) {turn : Turn MessageCall} {t' : MessageThreads}
    (hstep : t.step pb turn = some t') (horderly : (t.orderly turn && onQueue qname turn) = true) :
    Linear pb qname start t' := by
  obtain ⟨early, late, pending, object, m, d, hsettled⟩ := h
  obtain ⟨horderly, hon⟩ := (Bool.and_eq_true _ _).mp horderly
  cases turn with
  | call c =>
    cases hstep
    exact ⟨_, _, _, _, _, _, hsettled.call (of_decide_eq_true hon)⟩
  | go id =>
    cases hth : t.running.lookup id with
    | none =>
      simp only [MessageThreads.step, Threads.step, hth] at hstep
      cases hstep
      exact ⟨_, _, _, _, _, _, hsettled⟩
    | some th =>
      obtain ⟨-, hpc | ⟨qmp, hpc⟩⟩ := hsettled.calls id th hth
      · exact hsettled.lookup_step hth hpc horderly hstep
      · exact hsettled.act_step hth hpc horderly hstep

/-- When all calls have returned, they did so as in one order. -/
theorem Linear.linearizable (h : Linear pb qname start t) (hidle : t.running.entries = []) :
    t.Linearizable (MessageManager.call pb) (fun m s => s.Shows m.1 ∧ m.2 = s.disk) start := by
  have hnone : ∀ id th, t.running.lookup id ≠ some th := fun id th hth => by
    have hmem := UMap.mem_entries_iff.mpr hth
    rw [hidle] at hmem
    cases hmem
  obtain ⟨early, late, pending, object, m, d, h⟩ := h
  have hend : ∃ early, Settled pb qname start t early [] [] object m d ∧ m.queueMsgs.lookup qname =
      (t.shared.queueMsgs.lookup qname).map t.shared.objects ∧ d = t.shared.disk := by
    have hcontent := h.content
    cases h.entry with
    | absent hmissing =>
      obtain ⟨hqueue, hdisk, rfl, -⟩ := hcontent.of_none
      exact ⟨early ++ late, h.flush hqueue, by rw [hmissing, hqueue]; rfl, hdisk⟩
    | listed hfound _ hlate =>
      subst hlate
      generalize hqueue : m.queueMsgs.lookup qname = queue at hcontent
      cases hcontent with
      | ready _ hpending =>
        subst hpending
        exact ⟨early, h, by rw [hfound]; rfl, rfl⟩
      | fresh hth => exact absurd hth (hnone _ _)
    | erased _ hth => exact absurd hth (hnone _ _)
  obtain ⟨early, h, hqueue, hdisk⟩ := hend
  have hperm := h.logged.perm
  have hordered := h.logged.ordered
  rw [List.append_nil] at hordered
  rw [List.append_nil, List.append_nil] at hperm
  refine ⟨early, (m, d), hperm, hordered, h.replayed, ⟨h.baseDir, fun name => ?_⟩, hdisk⟩
  by_cases hname : name = qname
  · rw [hname, hqueue]
  · exact h.others name hname

end Steps

/-- In a run of orderly sections, however the calls on one queue mix, what they returned and left is that of the calls one
after the other. -/
theorem run_linearizable {s : SharedMessages} {m : MessageManager} {turns : List (Turn MessageCall)} {t : MessageThreads}
    (hshows : s.Shows m) (hsound : s.Sound) (hon : ∀ turn ∈ turns, onQueue qname turn = true)
    (horderly : always (step pb) orderly { shared := s } turns = true)
    (hrun : run (step pb) { shared := s } turns = some t) (hidle : t.running.entries = []) :
    t.Linearizable (MessageManager.call pb) (fun m s => s.Shows m.1 ∧ m.2 = s.disk) (m, s.disk) := by
  have hboth := always_and.mpr ⟨horderly, always_of_forall hon⟩
  have hinitial : Linear pb qname (m, s.disk) { shared := s } := ⟨_, _, _, _, _, _, Settled.initial hshows hsound qname⟩
  have hlinear := run_induct_of_always (fun _ _ _ hlinear hstep => Linear.step hlinear hstep) hinitial hboth turns t
    (List.prefix_refl _) hrun
  exact hlinear.linearizable hidle

/-- A manager without queues. -/
def bare : SharedMessages where
  baseDir := "data"
  disk := Store.vacant

theorem bare_shows : bare.Shows { baseDir := "data" } where
  baseDir := rfl
  queues _ := rfl

theorem bare_sound : bare.Sound where
  below _ _ h := by cases h
  distinct _ _ _ h := by cases h

/-- A publish takes the queue, a destruction erases it, a delivery finds none, the message is inserted, and then the queue
is cleared. -/
def overlapped : List (Turn MessageCall) :=
  [.call (.initQueueMsg "q"), .go 0, .go 0, .call (.insert "q" (some ⟨"i", .durable, "k"⟩) "" "m" true), .go 1,
    .call (.destroyQueueMsg "q"), .go 2, .call (.front "q"), .go 3, .go 1, .go 2]

theorem run_overlapped : ∃ t : MessageThreads, run (step protobuf) { shared := bare } overlapped = some t ∧
    (t.returned.map fun e => (e.id, e.reply)) = [(0, .done true), (3, .message none), (1, .done true), (2, .done true)] ∧
    t.Linearizable (MessageManager.call protobuf) (fun m s => s.Shows m.1 ∧ m.2 = s.disk) ({ baseDir := "data" }, bare.disk) := by
  have hrun : ((run (step protobuf) { shared := bare } overlapped).any fun t =>
      decide (t.running.entries.length = 0) && decide ((t.returned.map fun e => (e.id, e.reply)) =
        [(0, .done true), (3, .message none), (1, .done true), (2, .done true)])) = true := by
    decide +kernel
  have hall : always (step protobuf) orderly { shared := bare } overlapped = true := by decide +kernel
  have hon : ∀ turn ∈ overlapped, onQueue "q" turn = true := by decide
  obtain ⟨t, ht, hend⟩ := (Option.any_eq_true _ _).mp hrun
  simp only [Bool.and_eq_true, decide_eq_true_eq] at hend
  exact ⟨t, ht, hend.2, run_linearizable bare_shows bare_sound hon hall ht (List.length_eq_zero_iff.mp hend.1)⟩

/-- A message that is inserted before the recovery of its queue is dropped. -/
def dropped : List (Turn MessageCall) :=
  [.call (.initQueueMsg "q"), .go 0, .call (.insert "q" (some ⟨"i", .undurable, "k"⟩) "" "m" true), .go 1, .go 1, .go 0]

/-- A destruction takes the file of the queue that is created after it. -/
def unfiled : List (Turn MessageCall) :=
  [.call (.initQueueMsg "q"), .go 0, .go 0, .call (.destroyQueueMsg "q"), .go 1, .call (.initQueueMsg "q"), .go 2, .go 2,
    .call (.insert "q" (some ⟨"i", .durable, "k"⟩) "" "m" true), .go 3, .go 3, .go 1]

/-- No order of the calls gives these replies with this many messages in the queue, and its file there or not. -/
def unordered (t : MessageThreads) : Bool :=
  t.returned.permutations'.all fun order =>
    (Threads.replay (MessageManager.call protobuf) ({ baseDir := "data" }, bare.disk) order).all fun m =>
      !(m.1.getableCount "q" = (((t.shared.queueMsgs.lookup "q").map t.shared.objects).map QueueMessage.getableCount).getD 0 &&
        m.2.file? "data/q.mqd" = t.shared.disk.file? "data/q.mqd")

theorem not_linearizable_of_unordered {t : MessageThreads} (h : unordered t = true) :
    ¬t.Linearizable (MessageManager.call protobuf) (fun m s => s.Shows m.1 ∧ m.2 = s.disk)
      ({ baseDir := "data" }, bare.disk) := by
  rintro ⟨order, ⟨m, d⟩, hperm, -, hreplay, hshows, rfl⟩
  have hall := List.all_eq_true.mp h order (List.mem_permutations'.mpr hperm)
  rw [hreplay, Option.all_some] at hall
  have hcount : m.getableCount "q" =
      (((t.shared.queueMsgs.lookup "q").map t.shared.objects).map QueueMessage.getableCount).getD 0 := by
    rw [MessageManager.getableCount, MessageManager.count, hshows.queues]
  simp [hcount] at hall

/-- In both runs every insertion returned true. -/
theorem run_not_linearizable : ∃ t t' : MessageThreads, run (step protobuf) { shared := bare } dropped = some t ∧
    run (step protobuf) { shared := bare } unfiled = some t' ∧ t.running.entries = [] ∧ t'.running.entries = [] ∧
    (¬t.Linearizable (MessageManager.call protobuf) (fun m s => s.Shows m.1 ∧ m.2 = s.disk)
      ({ baseDir := "data" }, bare.disk)) ∧
    ¬t'.Linearizable (MessageManager.call protobuf) (fun m s => s.Shows m.1 ∧ m.2 = s.disk)
      ({ baseDir := "data" }, bare.disk) := by
  have hdropped : ((run (step protobuf) { shared := bare } dropped).any fun t =>
      decide (t.running.entries.length = 0) && unordered t) = true := by
    decide +kernel
  have hunfiled : ((run (step protobuf) { shared := bare } unfiled).any fun t =>
      decide (t.running.entries.length = 0) && unordered t) = true := by
    decide +kernel
  obtain ⟨t, ht, hend⟩ := (Option.any_eq_true _ _).mp hdropped
  obtain ⟨t', ht', hend'⟩ := (Option.any_eq_true _ _).mp hunfiled
  simp only [Bool.and_eq_true, decide_eq_true_eq, List.length_eq_zero_iff] at hend hend'
  exact ⟨t, t', ht, ht', hend.1, hend'.1, not_linearizable_of_unordered hend.2, not_linearizable_of_unordered hend'.2⟩

end MessageThreads
end HareMQ
