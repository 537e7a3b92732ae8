import HareMQ.Codec
import HareMQ.Theorems.Tight

/-! # Conservation of messages

A ledger records what happened to the message objects of a queue: which were accepted, delivered and acknowledged,
and how often each id was delivered and acknowledged. With arbitrary ids a message is conserved as long as no
delivery meets an id that is still unacknowledged, and no compaction meets a durable map that has lost an entry. -/

namespace HareMQ
open Lib

/-! ### Ledgers -/

/-- An acknowledgement counts for an id only while a delivery of the id is not answered. -/
structure Ledger where
  accepted : List (Ref × Payload) := []
  delivered : List Ref := []
  acked : List Ref := []
  deliveries : String → Nat := fun _ => 0
  acks : String → Nat := fun _ => 0

namespace Ledger

def bump (f : String → Nat) (id : String) : String → Nat := Function.update f id (f id + 1)

def accept (l : Ledger) (r : Ref) (p : Payload) : Ledger := { l with accepted := l.accepted ++ [(r, p)] }

def deliver (l : Ledger) (r : Ref) (id : String) : Ledger :=
  { l with delivered := l.delivered ++ [r], deliveries := bump l.deliveries id }

def settle (l : Ledger) (r : Option Ref) (id : String) : Ledger :=
  { l with
    acked := l.acked ++ r.toList
    acks := if l.acks id < l.deliveries id then bump l.acks id else l.acks }

/-- What a step from the queue `q` to `q'` adds. -/
def note (l : Ledger) (q q' : QueueMessage) : StoreOp → Reply → Ledger
  | .insert .., .done true => l.accept q.next (q'.heap q.next).payload
  | .front, _ =>
    match q.msgs with
    | [] => l
    | r :: _ => l.deliver r (q.heap r).id
  | .remove msgId, _ => l.settle (q.waitAckMsgs.lookup msgId) msgId
  | _, _ => l

end Ledger

/-- A run with its ledger. -/
def Store.audit (pb : PayloadCodec) (s : Store) (l : Ledger) : List StoreOp → Option (Store × Ledger)
  | [] => some (s, l)
  | op :: ops =>
    match s.step pb op with
    | none => none
    | some (reply, s') => s'.audit pb (l.note s.queue s'.queue op reply) ops

/-- Every step of a run meets a condition on the queue before it. -/
def Store.meets (pb : PayloadCodec) (cond : QueueMessage → StoreOp → Bool) (s : Store) : List StoreOp → Bool
  | [] => true
  | op :: ops =>
    cond s.queue op &&
      match s.step pb op with
      | none => true
      | some (_, s') => s'.meets pb cond ops

/-- The next delivery has an id of its own among the unacknowledged messages. -/
def QueueMessage.freshFront (q : QueueMessage) : Bool :=
  match q.msgs with
  | [] => true
  | r :: _ => (q.heap r).id ∉ q.waitAckMsgs

/-- A compaction that acknowledging `msgId` starts finds the durable map complete. -/
def QueueMessage.gcReady (q : QueueMessage) (msgId : String) : Bool :=
  !q.collects msgId || q.durableCount = q.validCount

/-- The steps that keep the messages apart. -/
def StoreOp.separate (q : QueueMessage) : StoreOp → Bool
  | .insert .. => true
  | .front => q.freshFront
  | .remove msgId => q.gcReady msgId
  | .restart => false

/-! ### The invariant -/

/-- Every accepted message is known or acknowledged, and an id waits exactly while a delivery is not answered. -/
structure Accounted (q : QueueMessage) (lay : List Slot) (l : Ledger) : Prop where
  kept : ∀ e ∈ l.accepted, q.Known e.1 ∨ e.1 ∈ l.acked
  served : ∀ r ∈ l.delivered, (∃ id, q.waitAckMsgs.lookup id = some r) ∨ r ∈ l.acked
  gone : ∀ r ∈ l.acked, ¬q.Known r ∧ r ∉ owners lay ∧ r < q.next
  counts : ∀ id, l.deliveries id = l.acks id + if id ∈ q.waitAckMsgs then 1 else 0

section
variable {pb : PayloadCodec} {d : Disk} {q q' : QueueMessage} {lay lay' : List Slot} {l : Ledger}

theorem Accounted.insert (h : Accounted q lay l) {msg : Message} (hins : Inserted q q' lay lay' msg) (p : Payload) :
    Accounted q' lay' (l.accept q.next p) where
  kept e he := by
    rcases List.mem_append.mp he with he | he
    · exact (h.kept e he).imp_left fun hk => hins.known.mpr (Or.inl hk)
    · obtain rfl := List.mem_singleton.mp he
      exact Or.inl (hins.known.mpr (Or.inr rfl))
  served r hr := by
    rw [hins.waits]
    exact h.served r hr
  gone r hr := by
    obtain ⟨hk, howner, hlt⟩ := h.gone r hr
    have hne : r ≠ q.next := Nat.ne_of_lt hlt
    refine ⟨fun hk' => (hins.known.mp hk').elim hk hne, ?_, ?_⟩
    · rw [hins.owners]
      split
      · rw [List.mem_append, List.mem_singleton]
        exact fun hmem => hmem.elim howner hne
      · exact howner
    · rw [hins.next]
      exact Nat.lt_succ_of_lt hlt
  counts id := by
    rw [hins.waits]
    exact h.counts id

theorem Accounted.front (h : Accounted q lay l) {r : Ref} {rest : List Ref} (hq : q.msgs = r :: rest)
    (hfree : (q.heap r).id ∉ q.waitAckMsgs) : Accounted q.front.2 lay (l.deliver r (q.heap r).id) where
  kept e he := (h.kept e he).imp_left (front_known hq hfree).mpr
  served r' hr' := by
    rw [front_eq hq]
    rcases List.mem_append.mp hr' with hr' | hr'
    · refine (h.served r' hr').imp_left fun ⟨id, hid⟩ => ⟨id, ?_⟩
      rwa [UMap.lookup_emplace_ne]
      rintro rfl
      exact hfree (UMap.mem_of_lookup hid)
    · obtain rfl := List.mem_singleton.mp hr'
      exact Or.inl ⟨_, UMap.lookup_emplace_self hfree _⟩
  gone r' hr' := by
    obtain ⟨hk, howner, hlt⟩ := h.gone r' hr'
    refine ⟨fun hk' => hk ((front_known hq hfree).mp hk'), howner, ?_⟩
    rw [front_eq hq]
    exact hlt
  counts id := by
    have hmem : id ∈ q.front.2.waitAckMsgs ↔ id = (q.heap r).id ∨ id ∈ q.waitAckMsgs := by
      rw [front_eq hq]
      exact UMap.mem_emplace
    have hcount := h.counts id
    by_cases hid : id = (q.heap r).id
    · subst hid
      rw [if_neg hfree] at hcount
      rw [if_pos (hmem.mpr (Or.inl rfl)), Ledger.deliver]
      simp only [Ledger.bump, Function.update_self]
      omega
    · have hiff : id ∈ q.front.2.waitAckMsgs ↔ id ∈ q.waitAckMsgs := by rw [hmem, or_iff_right hid]
      simp only [Ledger.deliver, Ledger.bump, Function.update_of_ne hid, hiff]
      exact hcount

/-- An acknowledgement that finds the message object `r`. -/
theorem Accounted.settle (h : Accounted q lay l) (hbooks : Books q lay) {msgId : String} {r : Ref}
    (hwait : q.waitAckMsgs.lookup msgId = some r) (hmsgs : q'.msgs = q.msgs)
    (hwaits : q'.waitAckMsgs = q.waitAckMsgs.erase msgId) (hnext : q'.next = q.next)
    (howners : ∀ r' ∈ owners lay', r' ∈ owners lay ∧ r' ≠ r) : Accounted q' lay' (l.settle (some r) msgId) where
  kept e he := by
    rw [hbooks.known_erase hwait hmsgs hwaits]
    simp only [Ledger.settle, Option.toList_some, List.mem_append, List.mem_singleton]
    by_cases her : e.1 = r
    · exact Or.inr (Or.inr her)
    · exact (h.kept e he).imp (fun hk => ⟨hk, her⟩) Or.inl
  served r' hr' := by
    simp only [Ledger.settle, Option.toList_some, List.mem_append, List.mem_singleton]
    by_cases hrr : r' = r
    · exact Or.inr (Or.inr hrr)
    · refine (h.served r' hr').imp (fun ⟨id, hid⟩ => ⟨id, ?_⟩) Or.inl
      rw [hwaits, AList.lookup_erase_ne]
      · exact hid
      · rintro rfl
        rw [hwait, Option.some.injEq] at hid
        exact hrr hid.symm
  gone r' hr' := by
    rw [hnext, hbooks.known_erase hwait hmsgs hwaits]
    simp only [Ledger.settle, Option.toList_some, List.mem_append, List.mem_singleton] at hr'
    rcases hr' with hr' | rfl
    · obtain ⟨hk, howner, hlt⟩ := h.gone r' hr'
      exact ⟨fun hk' => hk hk'.1, fun hmem => howner (howners r' hmem).1, hlt⟩
    · exact ⟨fun hk' => hk'.2 rfl, fun hmem => (howners r' hmem).2 rfl, (hbooks.waits hwait).2.1⟩
  counts id := by
    have hmem : id ∈ q'.waitAckMsgs ↔ id ≠ msgId ∧ id ∈ q.waitAckMsgs := by
      rw [hwaits]
      exact AList.mem_erase
    have hcount := h.counts id
    have hcount' := h.counts msgId
    rw [if_pos (UMap.mem_of_lookup hwait)] at hcount'
    simp only [Ledger.settle, if_pos (show l.acks msgId < l.deliveries msgId by omega), Ledger.bump]
    by_cases hid : id = msgId
    · subst hid
      rw [Function.update_self, if_neg fun hm => (hmem.mp hm).1 rfl]
      omega
    · have hiff : id ∈ q'.waitAckMsgs ↔ id ∈ q.waitAckMsgs := by rw [hmem, and_iff_right hid]
      simp only [Function.update_of_ne hid, hiff]
      exact hcount

theorem Accounted.remove (h : Accounted q lay l) (hinv : Inv pb d q lay) {msgId : String}
    (hrem : Removed q q' lay lay' msgId) : Accounted q' lay' (l.settle (q.waitAckMsgs.lookup msgId) msgId) := by
  cases hrem with
  | absent hnone hq hlay =>
    subst hq hlay
    have hcount := h.counts msgId
    rw [if_neg fun hmem => by rw [← AList.lookup_isSome, hnone] at hmem; cases hmem] at hcount
    have hsettle : l.settle (q'.waitAckMsgs.lookup msgId) msgId = l := by
      simp only [Ledger.settle, hnone, Option.toList_none, List.append_nil,
        if_neg (show ¬l.acks msgId < l.deliveries msgId by omega)]
    rwa [hsettle]
  | plain r hwait hmode hq hlay =>
    subst hq hlay
    rw [hwait]
    refine h.settle hinv.books hwait rfl rfl rfl fun r' hr' => ⟨hr', ?_⟩
    rintro rfl
    rw [hinv.core.layout.owner_isDurable hr'] at hmode
    cases hmode
  | durable r hwait howner howners hmapper hmsgs hwaits hdurable hnext hpayload hcontent =>
    rw [hwait]
    refine h.settle hinv.books hwait hmsgs hwaits hnext fun r' hr' => ?_
    rw [howners, hinv.core.layout.nodup.mem_erase_iff] at hr'
    exact hr'.symm

theorem Inv.gcReady (hinv : Inv pb d q lay) {msgId : String} (h : q.gcReady msgId = true)
    (hcollects : q.collects msgId = true) : Synced q lay := by
  simp only [QueueMessage.gcReady, hcollects, Bool.not_true, Bool.false_or, decide_eq_true_eq] at h
  exact hinv.core.layout.durable_size.2.mpr (h.trans hinv.core.valid)

end

/-! ### Runs -/

namespace Store
variable {pb : PayloadCodec} {s : Store} {lay : List Slot} {l : Ledger}

/-- Every accepted message is pending, unacknowledged or acknowledged; and when an id has been acknowledged as often
    as delivered, no delivered message with it is unacknowledged or owns a valid record of the data file. -/
structure Conserved (pb : PayloadCodec) (s : Store) (l : Ledger) : Prop where
  kept : ∀ e ∈ l.accepted,
    e.1 ∈ s.queue.msgs ∨ (∃ id, s.queue.waitAckMsgs.lookup id = some e.1) ∨ e.1 ∈ l.acked
  settled : ∀ id, l.acks id = l.deliveries id → ∀ r ∈ l.delivered, (s.queue.heap r).id = id →
    ∀ id', s.queue.waitAckMsgs.lookup id' ≠ some r
  unmarked : ∃ lay, s.disk.file? s.queue.mapper.dataFile = some (encode pb (lay.map (·.payload))) ∧
    Layout pb s.queue lay ∧ ∀ id, l.acks id = l.deliveries id →
      ∀ r ∈ l.delivered, (s.queue.heap r).id = id → r ∉ owners lay

theorem Conserved.of_accounted (hinv : Inv pb s.disk s.queue lay) (h : Accounted s.queue lay l) : s.Conserved pb l := by
  have hsettled : ∀ id, l.acks id = l.deliveries id → ∀ r ∈ l.delivered, (s.queue.heap r).id = id →
      ∀ id', s.queue.waitAckMsgs.lookup id' ≠ some r := by
    intro id heq r _ hid id' hr
    obtain rfl : id' = id := (hinv.books.waits hr).1.symm.trans hid
    have hcount := h.counts id'
    rw [if_pos (UMap.mem_of_lookup hr)] at hcount
    omega
  refine ⟨fun e he => or_assoc.mp (h.kept e he), hsettled, lay, hinv.core.file, hinv.core.layout, fun id heq r hr hid => ?_⟩
  rcases h.served r hr with ⟨id', hr'⟩ | hr'
  · exact absurd hr' (hsettled id heq r hr hid id')
  · exact (h.gone r hr').2.1

theorem Accounted.step (hinv : Inv pb s.disk s.queue lay) (h : Accounted s.queue lay l) {op : StoreOp}
    (hsep : op.separate s.queue = true)
    (hsmall : ∀ reply s', s.step pb op = some (reply, s') → FileHelper.size s'.disk s'.queue.mapper.dataFile < 2 ^ 32) :
    ∃ reply s' lay', s.step pb op = some (reply, s') ∧ Inv pb s'.disk s'.queue lay' ∧
      Accounted s'.queue lay' (l.note s.queue s'.queue op reply) := by
  cases op with
  | insert bp uuid body queueDurable =>
    obtain ⟨q', d', hins, -, hrest⟩ := hinv.insert bp uuid body queueDurable
    have hstep : s.step pb (.insert bp uuid body queueDurable) = some (.done true, { s with queue := q', disk := d' }) := by
      rw [step_insert, hins]
    obtain ⟨lay', hinv', hi⟩ := hrest (hsmall _ _ hstep)
    exact ⟨_, _, lay', hstep, hinv', h.insert hi _⟩
  | front =>
    refine ⟨_, { s with queue := s.queue.front.2 }, lay, rfl, hinv.front, ?_⟩
    cases hq : s.queue.msgs with
    | nil =>
      simp only [Ledger.note, hq, QueueMessage.front]
      exact h
    | cons r rest =>
      simp only [Ledger.note, hq]
      refine h.front hq ?_
      simpa only [StoreOp.separate, QueueMessage.freshFront, hq, decide_eq_true_eq] using hsep
  | remove msgId =>
    obtain ⟨q', d', lay', hrem, hinv', hr, -⟩ := hinv.remove msgId (hinv.gcReady hsep)
    exact ⟨.done true, { s with queue := q', disk := d' }, lay', by rw [step_remove, hrem]; rfl, hinv', h.remove hinv hr⟩
  | restart => cases hsep

theorem Accounted.audit : ∀ (ops : List StoreOp) {s : Store} {lay : List Slot} {l : Ledger},
    Inv pb s.disk s.queue lay → Accounted s.queue lay l → s.meets pb StoreOp.separate ops = true →
    s.below4GiB pb ops = true →
    ∃ s' l' lay', s.audit pb l ops = some (s', l') ∧ Inv pb s'.disk s'.queue lay' ∧ Accounted s'.queue lay' l'
  | [], s, lay, l, hinv, h, _, _ => ⟨s, l, lay, rfl, hinv, h⟩
  | op :: ops, s, lay, l, hinv, h, hmeets, hsmall => by
    simp only [meets, Bool.and_eq_true] at hmeets
    simp only [below4GiB, Bool.and_eq_true] at hsmall
    obtain ⟨reply, s₁, lay₁, hstep, hinv₁, h₁⟩ := Accounted.step hinv h hmeets.1 fun reply s' hs => by
      rw [hs] at hsmall
      exact below4GiB_head hsmall.2
    rw [hstep] at hmeets hsmall
    obtain ⟨s₂, l₂, lay₂, haudit, h₂⟩ := Accounted.audit ops hinv₁ h₁ hmeets.2 hsmall.2
    exact ⟨s₂, l₂, lay₂, by rw [Store.audit, hstep]; exact haudit, h₂⟩

/-- The ledger of a store that was just opened: what it recovered counts as accepted. -/
def openingLedger (s : Store) : Ledger := { accepted := s.queue.msgs.map fun r => (r, (s.queue.heap r).payload) }

/-- **Conservation.** In a run with arbitrary ids whose steps keep the messages apart, every message is conserved in
    every state reached. -/
theorem audit_conserved {d : Disk} {baseDir qname : String} (hopen : Openable pb d baseDir qname)
    (hboot : boot pb d baseDir qname = some s) {ops : List StoreOp} (hsep : s.meets pb StoreOp.separate ops = true)
    (hsmall : s.below4GiB pb ops = true) :
    ∃ s' l, s.audit pb s.openingLedger ops = some (s', l) ∧ s'.Conserved pb l := by
  obtain ⟨ps, lay, h⟩ := hopen.boot hboot
  have hopening : Accounted s.queue lay s.openingLedger := by
    refine ⟨fun e he => ?_, nofun, nofun, fun id => ?_⟩
    · obtain ⟨r, hr, rfl⟩ := List.mem_map.mp he
      exact Or.inl (Or.inl hr)
    · rw [h.recovered.waits]
      rfl
  obtain ⟨s', l', lay', haudit, hinv', h'⟩ := Accounted.audit ops h.inv hopening hsep hsmall
  exact ⟨s', l', haudit, Conserved.of_accounted hinv' h'⟩

/-- A publisher that reuses one id. -/
def reused : Option BasicProperties := some ⟨"a", .durable, "k"⟩

/-- Each delivery is acknowledged before the next one. -/
def alternating : List StoreOp :=
  [.insert reused "" "x" true, .insert reused "" "y" true, .front, .remove "a", .front, .remove "a"]

theorem audit_conserved_alternating : ∃ s s' l, boot protobuf vacant "data" "q" = some s ∧
    s.audit protobuf s.openingLedger alternating = some (s', l) ∧ s'.Conserved protobuf l := by
  have hboot : (boot protobuf vacant "data" "q").any (fun s =>
      s.meets protobuf StoreOp.separate alternating && s.below4GiB protobuf alternating) = true := by decide +kernel
  obtain ⟨s, hs, hcond⟩ := (Option.any_eq_true _ _).mp hboot
  rw [Bool.and_eq_true] at hcond
  obtain ⟨s', l, haudit, hcons⟩ := audit_conserved (.fresh vacant_fresh) hs hcond.1 hcond.2
  exact ⟨s, s', l, hs, haudit, hcons⟩

/-- Both messages are delivered before an acknowledgement. -/
def colliding : List StoreOp := [.insert reused "" "x" true, .insert reused "" "y" true, .front, .front]

/-- The second of two messages with one id is lost when it is delivered before the first is acknowledged. -/
theorem audit_colliding : ∃ s s' l, boot protobuf vacant "data" "q" = some s ∧ s.below4GiB protobuf colliding = true ∧
    s.audit protobuf s.openingLedger colliding = some (s', l) ∧ ¬s'.Conserved protobuf l := by
  have hboot : (boot protobuf vacant "data" "q").any (fun s => s.below4GiB protobuf colliding &&
      (s.audit protobuf s.openingLedger colliding).any fun (s', l) => l.accepted.any fun e =>
        e.1 ∉ s'.queue.msgs && e.1 ∉ s'.queue.waitAckMsgs.entries.map (·.2) && e.1 ∉ l.acked) = true := by
    decide +kernel
  obtain ⟨s, hs, hcond⟩ := (Option.any_eq_true _ _).mp hboot
  obtain ⟨hsmall, haudit⟩ := Bool.and_eq_true_iff.mp hcond
  obtain ⟨⟨s', l⟩, hl, hlost⟩ := (Option.any_eq_true _ _).mp haudit
  refine ⟨s, s', l, hs, hsmall, hl, fun hcons => ?_⟩
  obtain ⟨e, he, hlost⟩ := List.any_eq_true.mp hlost
  simp only [Bool.and_eq_true, decide_eq_true_eq] at hlost
  rcases hcons.kept e he with h | ⟨id, h⟩ | h
  · exact hlost.1.1 h
  · exact hlost.1.2 (List.mem_map.mpr ⟨⟨id, e.1⟩, UMap.mem_entries_iff.mpr h, rfl⟩)
  · exact hlost.2 h

end Store
end HareMQ
