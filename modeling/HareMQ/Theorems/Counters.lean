import HareMQ.Codec
import HareMQ.Lib.Run
import HareMQ.Theorems.Pending
import HareMQ.Theorems.Tight

/-! # The valid counter

An acknowledgement of a durable message takes one from `__valid_count`, which therefore has to cover all durable messages
that are not acknowledged yet. A compaction sets the counter from the file and may queue messages a second time: it keeps
the counter covered as long as it does not queue more of them than the counter has to spare. -/

namespace HareMQ
open Lib

namespace QueueMessage
variable {pb : PayloadCodec} {d d' : Disk} {q q' : QueueMessage}

/-- The messages that were not acknowledged yet. -/
def unacked (q : QueueMessage) : List Ref := q.msgs ++ q.waitAckMsgs.values

/-- The acknowledgements that will take one from the counter. -/
def owed (q : QueueMessage) : Nat := q.unacked.countP fun r => (q.heap r).isDurable

/-- The messages that the acknowledgement of `msgId` queues a second time. -/
def requeued (pb : PayloadCodec) (q : QueueMessage) (msgId : String) (d : Disk) : Nat :=
  match q.waitAckMsgs.lookup msgId with
  | none => 0
  | some r =>
    if (q.heap r).isDurable then
      match q.invalidate pb msgId r d with
      | (q, d) => if q.gcCheck then (unknown q.durableMsgs (q.mapper.gc pb d).1).card else 0
    else 0

/-- What is expected of the counters between two calls. -/
structure Counted (q : QueueMessage) : Prop where
  le : q.validCount ≤ q.totalCount
  pos : ∀ msgId r, q.waitAckMsgs.lookup msgId = some r → (q.heap r).isDurable = true → 0 < q.validCount

/-- The valid counter covers the acknowledgements to come. -/
structure Covered (q : QueueMessage) : Prop where
  lt_next : ∀ r ∈ q.unacked, r < q.next
  owed : q.owed ≤ q.validCount
  le : q.validCount ≤ q.totalCount
  total : q.totalCount < 2 ^ 64

theorem owed_pos {msgId : String} {r : Ref} (hwait : q.waitAckMsgs.lookup msgId = some r)
    (hmode : (q.heap r).isDurable = true) : 0 < q.owed :=
  List.countP_pos_iff.mpr ⟨r, List.mem_append_right _ (UMap.mem_values_of_lookup hwait), hmode⟩

theorem Covered.counted (h : q.Covered) : q.Counted :=
  ⟨h.le, fun _ _ hwait hmode => Nat.lt_of_lt_of_le (owed_pos hwait hmode) h.owed⟩

/-! ### Insert -/

/-- A successful insertion counts a durable message. -/
theorem insert_counts {bp : Option BasicProperties} {uuid body : String} {queueDurable : Bool}
    (h : q.insert pb bp uuid body queueDurable d = (true, q', d')) :
    (q'.validCount, q'.totalCount) = if (makeMessage bp uuid body queueDurable).isDurable then
      ((q.validCount + 1) % 2 ^ 64, (q.totalCount + 1) % 2 ^ 64) else (q.validCount, q.totalCount) := by
  unfold insert at h
  dsimp only at h
  split at h
  · next hmode =>
    rw [if_pos hmode]
    split at h
    · cases h
    · cases h
      rfl
  · next hmode =>
    rw [if_neg hmode]
    cases h
    rfl

theorem isDurable_stored (msg : Message) : (stored msg).isDurable = msg.isDurable := by
  unfold stored
  split
  · rfl
  · rfl

theorem Appended.unacked {msg : Message} (h : Appended q q' msg) : q'.unacked.Perm (q.next :: q.unacked) := by
  rw [QueueMessage.unacked, h.msgs, h.waits, List.append_assoc]
  exact List.perm_middle

theorem Appended.owed {msg : Message} (h : Appended q q' msg) (hq : ∀ r ∈ q.unacked, r < q.next) :
    q'.owed = q.owed + if msg.isDurable then 1 else 0 := by
  have hold : q.unacked.countP (fun r => (q'.heap r).isDurable) = q.owed := by
    refine List.countP_congr fun r hr => ?_
    rw [h.old r (Nat.ne_of_lt (hq r hr))]
  have hnew : (q'.heap q.next).isDurable = msg.isDurable := by
    rw [← isDurable_stored msg, Message.isDurable, h.payload, Message.isDurable]
  rw [QueueMessage.owed, h.unacked.countP_eq, List.countP_cons, hold, hnew]

theorem Covered.insert (h : q.Covered) {bp : Option BasicProperties} {uuid body : String} {queueDurable ok : Bool}
    (hinsert : q.insert pb bp uuid body queueDurable d = (ok, q', d'))
    (hcount : (makeMessage bp uuid body queueDurable).isDurable = true → q.totalCount + 1 < 2 ^ 64) : q'.Covered := by
  obtain ⟨-, rfl⟩ | ⟨rfl, happended⟩ := insert_cases hinsert
  · exact h
  have hcounts := insert_counts hinsert
  have howed := happended.owed h.lt_next
  have hlt : ∀ r ∈ q'.unacked, r < q'.next := by
    intro r hr
    rw [happended.next]
    obtain rfl | hr := List.mem_cons.mp (happended.unacked.mem_iff.mp hr)
    · exact Nat.lt_succ_self _
    · exact Nat.lt_succ_of_lt (h.lt_next r hr)
  have hle := h.le
  have hcovered := h.owed
  cases hmode : (makeMessage bp uuid body queueDurable).isDurable with
  | false =>
    rw [hmode, if_neg Bool.false_ne_true, Prod.mk.injEq] at hcounts
    rw [hmode, if_neg Bool.false_ne_true] at howed
    exact ⟨hlt, by omega, by omega, by rw [hcounts.2]; exact h.total⟩
  | true =>
    have hsmall := hcount hmode
    rw [hmode, if_pos rfl, Prod.mk.injEq, Nat.mod_eq_of_lt (by omega), Nat.mod_eq_of_lt hsmall] at hcounts
    rw [hmode, if_pos rfl] at howed
    exact ⟨hlt, by omega, by omega, by omega⟩

/-! ### Front -/

/-- A delivered message stays unacknowledged, or is lost when its id is waiting already. -/
theorem front_unacked (q : QueueMessage) : q.front.2.unacked.Subperm q.unacked := by
  cases hmsgs : q.msgs with
  | nil => simp only [front, hmsgs, List.Subperm.refl]
  | cons r rest =>
    rw [front_eq hmsgs, unacked, unacked, hmsgs]
    dsimp only
    by_cases hid : (q.heap r).id ∈ q.waitAckMsgs
    · rw [UMap.emplace_of_mem hid]
      exact (List.sublist_cons_self r _).subperm
    · rw [UMap.values_emplace_of_notMem hid]
      exact List.perm_middle.subperm

theorem front_keeps (q : QueueMessage) : q.front.2.heap = q.heap ∧ q.front.2.next = q.next ∧
    q.front.2.validCount = q.validCount ∧ q.front.2.totalCount = q.totalCount := by
  unfold front
  split
  · exact ⟨rfl, rfl, rfl, rfl⟩
  · exact ⟨rfl, rfl, rfl, rfl⟩

theorem Covered.front (h : q.Covered) : q.front.2.Covered := by
  obtain ⟨hheap, hnext, hvalid, htotal⟩ := q.front_keeps
  refine ⟨fun r hr => ?_, ?_, ?_, ?_⟩
  · rw [hnext]
    exact h.lt_next r (q.front_unacked.subset hr)
  · rw [hvalid, QueueMessage.owed, hheap]
    exact Nat.le_trans (q.front_unacked.countP_le _) h.owed
  · rw [hvalid, htotal]
    exact h.le
  · rw [htotal]
    exact h.total

/-! ### Compaction -/

/-- At most the requeued messages are owed in addition. -/
theorem Requeued.owed_le {lst : List Message} (h : Requeued q q' lst) (hq : ∀ r ∈ q.unacked, r < q.next) :
    q'.owed ≤ q.owed + (unknown q.durableMsgs lst).card := by
  obtain ⟨new, hmsgs, hlen, -⟩ := h.msgs
  have hperm : q'.unacked.Perm (q.unacked ++ new) := by
    rw [unacked, unacked, hmsgs, h.waits, List.append_assoc, List.append_assoc]
    exact List.perm_append_comm.append_left _
  have hold : q.unacked.countP (fun r => (q'.heap r).isDurable) = q.owed := by
    refine List.countP_congr fun r hr => ?_
    rw [Message.isDurable, h.payload r (hq r hr), Message.isDurable]
  rw [owed, hperm.countP_eq, List.countP_append, hold, ← hlen]
  exact Nat.add_le_add_left List.countP_le_length _

theorem Requeued.lt_next {lst : List Message} (h : Requeued q q' lst) (hq : ∀ r ∈ q.unacked, r < q.next) :
    ∀ r ∈ q'.unacked, r < q'.next := by
  obtain ⟨new, hmsgs, -, hnew⟩ := h.msgs
  intro r hr
  rw [unacked, hmsgs, h.waits, List.append_assoc, List.mem_append, List.mem_append] at hr
  obtain hr | hr | hr := hr
  · exact Nat.lt_of_lt_of_le (hq r (List.mem_append_left _ hr)) (h.next ▸ Nat.le_add_right _ _)
  · exact (hnew r hr).2.1
  · exact Nat.lt_of_lt_of_le (hq r (List.mem_append_right _ hr)) (h.next ▸ Nat.le_add_right _ _)

/-! ### Remove -/

theorem Invalidated.unacked (h : Invalidated q q') : q'.unacked = q.unacked := by
  rw [QueueMessage.unacked, h.msgs, h.waits, QueueMessage.unacked]

theorem Invalidated.owed (h : Invalidated q q') : q'.owed = q.owed := by
  rw [QueueMessage.owed, h.unacked, QueueMessage.owed]
  exact List.countP_congr fun r _ => by rw [h.isDurable]

/-- An acknowledged message is no longer owed. -/
theorem owed_erase {msgId : String} {r : Ref} (hwait : q.waitAckMsgs.lookup msgId = some r) :
    q.unacked.Perm (r :: ({ q with waitAckMsgs := q.waitAckMsgs.erase msgId } : QueueMessage).unacked) ∧
      q.owed = ({ q with waitAckMsgs := q.waitAckMsgs.erase msgId } : QueueMessage).owed +
        if (q.heap r).isDurable then 1 else 0 := by
  have hperm : q.unacked.Perm (r :: ({ q with waitAckMsgs := q.waitAckMsgs.erase msgId } : QueueMessage).unacked) :=
    ((UMap.values_perm_erase hwait).append_left q.msgs).trans List.perm_middle
  exact ⟨hperm, by rw [owed, hperm.countP_eq, List.countP_cons, owed]⟩

theorem Covered.remove (h : q.Covered) {msgId : String} (hremove : q.remove pb msgId d = some (q', d'))
    (hcovers : q.owed + q.requeued pb msgId d ≤ q.validCount) : q'.Covered := by
  cases hwait : q.waitAckMsgs.lookup msgId with
  | none =>
    simp only [QueueMessage.remove, hwait, Option.some.injEq] at hremove
    cases hremove
    exact h
  | some r =>
    obtain ⟨hperm, howed⟩ := owed_erase hwait
    cases hmode : (q.heap r).isDurable with
    | false =>
      simp only [QueueMessage.remove, hwait, hmode, Bool.false_eq_true, if_false, Option.some.injEq] at hremove
      cases hremove
      rw [hmode, if_neg Bool.false_ne_true, Nat.add_zero] at howed
      exact ⟨fun r' hr' => h.lt_next r' (hperm.mem_iff.mpr (List.mem_cons_of_mem r hr')), howed ▸ h.owed, h.le, h.total⟩
    | true =>
      rw [remove_durable_eq pb d hwait hmode, Option.map_eq_some_iff] at hremove
      obtain ⟨⟨q₂, d₂⟩, hgc, heq⟩ := hremove
      cases heq
      have hinv := invalidate_spec pb q msgId r d
      simp only [requeued, hwait, hmode, if_true] at hcovers
      generalize q.invalidate pb msgId r d = qd₁ at hgc hinv hcovers
      obtain ⟨q₁, d₁⟩ := qd₁
      dsimp only at hgc hinv hcovers
      -- The counter is positive, so that it does not wrap.
      have hpos := owed_pos hwait hmode
      have hle := h.le
      have htotal := h.total
      have hvalid : q₁.validCount = q.validCount - 1 := by
        have := hinv.valid
        omega
      have hlt₁ : ∀ r' ∈ q₁.unacked, r' < q₁.next := by
        rw [hinv.unacked, hinv.next]
        exact h.lt_next
      obtain ⟨hlt₂, howed₂, hwait₂, hmode₂, hle₂, htotal₂⟩ : (∀ r' ∈ q₂.unacked, r' < q₂.next) ∧
          q₂.owed ≤ q₂.validCount + 1 ∧ q₂.waitAckMsgs.lookup msgId = some r ∧ (q₂.heap r).isDurable = true ∧
          q₂.validCount ≤ q₂.totalCount ∧ q₂.totalCount < 2 ^ 64 := by
        obtain ⟨hcheck, rfl⟩ | ⟨hcheck, hrequeued, hvalid₂, htotal₂⟩ := gc_cases hgc
        · rw [hcheck, if_neg Bool.false_ne_true] at hcovers
          refine ⟨hlt₁, by rw [hinv.owed]; omega, by rw [hinv.waits, hwait], by rw [hinv.isDurable, hmode], ?_, ?_⟩
          · rw [hinv.total]
            omega
          · rw [hinv.total]
            exact htotal
        · rw [if_pos hcheck] at hcovers
          have howed₂ := hrequeued.owed_le hlt₁
          rw [hinv.owed] at howed₂
          have hr : r ∈ q₁.unacked := by
            rw [hinv.unacked]
            exact List.mem_append_right _ (UMap.mem_values_of_lookup hwait)
          refine ⟨hrequeued.lt_next hlt₁, by omega, by rw [hrequeued.waits, hinv.waits, hwait], ?_, by omega, by omega⟩
          · rw [Message.isDurable, hrequeued.payload r (hlt₁ r hr), ← Message.isDurable, hinv.isDurable, hmode]
      obtain ⟨hperm₂, herase₂⟩ := owed_erase hwait₂
      rw [herase₂, hmode₂, if_pos rfl] at howed₂
      exact ⟨fun r' hr' => hlt₂ r' (hperm₂.mem_iff.mpr (List.mem_cons_of_mem r hr')), Nat.le_of_succ_le_succ howed₂, hle₂,
        htotal₂⟩

/-! ### Recovery -/

variable (pb) in
/-- A recovered queue counts every message that it holds. -/
theorem recovery_covered (mapper : MessageMapper) (d : Disk)
    (hcount : (({ mapper } : QueueMessage).recovery pb d).1.totalCount < 2 ^ 64) :
    (({ mapper } : QueueMessage).recovery pb d).1.Covered := by
  have hlt : ∀ r ∈ ([] : List Ref), r < 0 := nofun
  obtain ⟨-, hwaits, hnext⟩ := foldl_adopt_keeps (mapper.gc pb d).1 { mapper } hlt
  have hpending := congrArg List.length (pending_recovery pb { mapper } d)
  rw [pending, List.length_map] at hpending
  have hunacked : (({ mapper } : QueueMessage).recovery pb d).1.unacked =
      (({ mapper } : QueueMessage).recovery pb d).1.msgs := by
    have hnone : (({ mapper } : QueueMessage).recovery pb d).1.waitAckMsgs = ∅ := hwaits
    rw [unacked, hnone]
    exact List.append_nil _
  refine ⟨?_, ?_, Nat.le_refl _, hcount⟩
  · rw [hunacked]
    exact hnext
  · rw [owed, hunacked]
    exact Nat.le_trans List.countP_le_length (Nat.le_of_eq hpending)

end QueueMessage

/-! ### Runs -/

/-- The operations of a queue that is not restarted. -/
def StoreOp.inside : StoreOp → Bool
  | .restart => false
  | _ => true

namespace Store
variable {pb : PayloadCodec} {s s' : Store}

/-- The store after a step. -/
def next (pb : PayloadCodec) (s : Store) (op : StoreOp) : Option Store := (s.step pb op).map (·.2)

/-- The counters have room for an insertion, and the valid counter covers what an acknowledgement queues again. -/
def covers (pb : PayloadCodec) (s : Store) : StoreOp → Bool
  | .insert bp uuid body queueDurable =>
    !(QueueMessage.makeMessage bp uuid body queueDurable).isDurable || s.queue.totalCount + 1 < 2 ^ 64
  | .remove msgId => s.queue.owed + s.queue.requeued pb msgId s.disk ≤ s.queue.validCount
  | _ => true

theorem next_covered {op : StoreOp} (h : s.queue.Covered) (hstep : next pb s op = some s') (hop : op.inside = true)
    (hcovers : covers pb s op = true) : s'.queue.Covered := by
  obtain ⟨⟨reply, s₁⟩, hop', rfl⟩ := Option.map_eq_some_iff.mp hstep
  cases op with
  | insert bp uuid body queueDurable =>
    cases hop'
    refine h.insert rfl fun hmode => ?_
    rw [covers, hmode, Bool.not_true, Bool.false_or] at hcovers
    exact of_decide_eq_true hcovers
  | front =>
    cases hop'
    exact h.front
  | remove msgId =>
    rw [step_remove] at hop'
    obtain ⟨qd, hremove, heq⟩ := Option.map_eq_some_iff.mp hop'
    cases heq
    exact h.remove hremove (of_decide_eq_true hcovers)
  | restart => cases hop

theorem boot_covered {d : Disk} {baseDir qname : String} (hboot : boot pb d baseDir qname = some s)
    (hcount : s.queue.totalCount < 2 ^ 64) : s.queue.Covered := by
  unfold boot at hboot
  split at hboot
  · cases hboot
  · next mapper d₁ hnew =>
    cases hboot
    exact QueueMessage.recovery_covered pb mapper d₁ hcount

/-- **The valid counter never wraps** in a run whose compactions queue no more messages again than it has to spare. -/
theorem run_counted {d : Disk} {baseDir qname : String} (hboot : boot pb d baseDir qname = some s)
    (hcount : s.queue.totalCount < 2 ^ 64) {ops : List StoreOp} (hops : ∀ op ∈ ops, op.inside = true)
    (hall : always (next pb) (covers pb) s ops = true) :
    ∀ pre s', pre <+: ops → Lib.run (next pb) s pre = some s' → s'.queue.Counted := by
  have hboth : always (next pb) (fun s op => covers pb s op && op.inside) s ops = true :=
    always_and.mpr ⟨hall, always_of_forall hops⟩
  have hkeeps : ∀ s op s', s.queue.Covered → next pb s op = some s' → (covers pb s op && op.inside) = true →
      s'.queue.Covered := by
    intro s op s' hs hstep hcond
    rw [Bool.and_eq_true] at hcond
    exact next_covered hs hstep hcond.2 hcond.1
  intro pre s' hpre hrun
  exact (run_induct_of_always hkeeps (boot_covered hboot hcount) hboth pre s' hpre hrun).counted

/-- The same durable message once more. -/
def again : StoreOp := .insert (some ⟨"a", .durable, ""⟩) "" "" true

def turn : List StoreOp := [.front, .remove "a"]

theorem turn_inside : ∀ op ∈ turn, op.inside = true :=
  List.forall_mem_cons.mpr ⟨rfl, List.forall_mem_singleton.mpr rfl⟩

theorem flatten_inside {ops : List StoreOp} (h : ∀ op ∈ ops, op.inside = true) (count : Nat) :
    ∀ op ∈ (List.replicate count ops).flatten, op.inside = true := by
  intro op hop
  obtain ⟨l, hl, hop⟩ := List.mem_flatten.mp hop
  rw [List.eq_of_mem_replicate hl] at hop
  exact h op hop

/-- One message, delivered and acknowledged. -/
theorem run_counted_once : ∃ s, boot protobuf vacant "data" "q" = some s ∧
    ∀ pre s', pre <+: again :: turn → Lib.run (next protobuf) s pre = some s' → s'.queue.Counted := by
  have hboot : (boot protobuf vacant "data" "q").any (fun s => decide (s.queue.totalCount < 2 ^ 64) &&
      always (next protobuf) (covers protobuf) s (again :: turn)) = true := by decide +kernel
  obtain ⟨s, hs, hcond⟩ := (Option.any_eq_true _ _).mp hboot
  rw [Bool.and_eq_true, decide_eq_true_eq] at hcond
  exact ⟨s, hs, run_counted hs hcond.1 (by decide) hcond.2⟩

end Store

/-! ### A run that wraps the counter -/

namespace QueueMessage
variable {pb : PayloadCodec} {d d' : Disk} {q q' : QueueMessage}

/-- The pending messages all have the id `"a"` and are durable, and none is delivered. -/
structure Uniform (q : QueueMessage) : Prop where
  msgs : ∀ r ∈ q.msgs, (q.heap r).id = "a" ∧ (q.heap r).isDurable = true
  waits : q.waitAckMsgs = ∅

theorem erase_emplace_empty (r : Ref) : ((∅ : UMap String Ref).emplace "a" r).erase "a" = ∅ := by
  refine UMap.eq_empty_of_lookup fun id => ?_
  rw [UMap.lookup_erase]
  split
  · rfl
  · next hne => rw [UMap.lookup_emplace_ne hne]; rfl

/-- The delivered message waits under `"a"`. -/
theorem Uniform.front (h : q.Uniform) {r : Ref} {rest : List Ref} (hmsgs : q.msgs = r :: rest) :
    q.front.2 = { q with msgs := rest, waitAckMsgs := (∅ : UMap String Ref).emplace "a" r } := by
  have hid := (h.msgs r (hmsgs ▸ List.mem_cons_self)).1
  rw [front_eq hmsgs, hid, h.waits]

theorem lookup_single (r : Ref) : ((∅ : UMap String Ref).emplace "a" r).lookup "a" = some r :=
  UMap.lookup_emplace_self (AList.notMem_empty _) r

variable (pb) in
/-- A delivery and its acknowledgement, when no compaction starts. -/
theorem Uniform.turn (h : q.Uniform) {r : Ref} {rest : List Ref} (hmsgs : q.msgs = r :: rest) (hpos : 0 < q.validCount)
    (hbound : q.validCount < 2 ^ 64) (hcheck : q.totalCount ≤ 2000 ∨ q.totalCount ≤ 2 * (q.validCount - 1)) (d : Disk) :
    ∃ q' d', q.front.2.remove pb "a" d = some (q', d') ∧ q'.Uniform ∧ q'.msgs = rest ∧
      q'.validCount = q.validCount - 1 ∧ q'.totalCount = q.totalCount ∧ (∀ r, (q'.heap r).id = (q.heap r).id) := by
  obtain ⟨-, hmode⟩ := h.msgs r (hmsgs ▸ List.mem_cons_self)
  have hfront := h.front hmsgs
  have hwait : q.front.2.waitAckMsgs.lookup "a" = some r := by
    rw [hfront]
    exact lookup_single r
  have hmode' : (q.front.2.heap r).isDurable = true := by rw [hfront, hmode]
  have hinv := invalidate_spec pb q.front.2 "a" r d
  have hremove := remove_durable_eq pb d hwait hmode'
  generalize q.front.2.invalidate pb "a" r d = qd at hinv hremove
  obtain ⟨q₁, d₁⟩ := qd
  dsimp only at hinv hremove
  have hmsgs₁ : q₁.msgs = rest := by rw [hinv.msgs, hfront]
  have hwaits₁ : q₁.waitAckMsgs = (∅ : UMap String Ref).emplace "a" r := by rw [hinv.waits, hfront]
  have htotal₁ : q₁.totalCount = q.totalCount := by rw [hinv.total, hfront]
  have hvalid₁ : q₁.validCount = q.validCount - 1 := by
    have hvalid := hinv.valid
    rw [hfront] at hvalid
    dsimp only at hvalid
    omega
  have hid₁ : ∀ r, (q₁.heap r).id = (q.heap r).id := fun r => by rw [hinv.id, hfront]
  have hmode₁ : ∀ r, (q₁.heap r).isDurable = (q.heap r).isDurable := fun r => by rw [hinv.isDurable, hfront]
  have hgc : q₁.gc pb d₁ = some (q₁, d₁) := by
    have hnot : q₁.gcCheck = false := by
      rw [gcCheck, Bool.and_eq_false_iff, decide_eq_false_iff_not, decide_eq_false_iff_not]
      omega
    rw [gc, hnot, if_neg Bool.false_ne_true]
  rw [hgc, Option.map_some] at hremove
  refine ⟨_, _, hremove, ⟨fun r' hr' => ?_, ?_⟩, hmsgs₁, hvalid₁, htotal₁, hid₁⟩
  · have hmem : r' ∈ q.msgs := by
      rw [hmsgs]
      exact List.mem_cons_of_mem r (hmsgs₁ ▸ hr')
    exact ⟨(hid₁ r').trans (h.msgs r' hmem).1, (hmode₁ r').trans (h.msgs r' hmem).2⟩
  · show q₁.waitAckMsgs.erase "a" = ∅
    rw [hwaits₁, erase_emplace_empty]

/-- The messages of the records have the id `"a"`, too. -/
structure Alike (d : Disk) (q : QueueMessage) (lay : List Slot) : Prop where
  inv : Inv protobuf d q lay
  uniform : q.Uniform
  owners : ∀ r ∈ owners lay, (q.heap r).id = "a"

/-- The acknowledgement of an alike queue keeps it alike, when no compaction starts. -/
theorem Alike.turn {lay : List Slot} (h : Alike d q lay) {r : Ref} {rest : List Ref} (hmsgs : q.msgs = r :: rest)
    (hpos : 0 < q.validCount) (hcheck : q.totalCount ≤ 2000 ∨ q.totalCount ≤ 2 * (q.validCount - 1)) :
    ∃ q' d' lay', q.front.2.remove protobuf "a" d = some (q', d') ∧ Alike d' q' lay' ∧ q'.msgs = rest ∧
      q'.validCount = q.validCount - 1 ∧ q'.totalCount = q.totalCount := by
  have hbound : q.validCount < 2 ^ 64 := by
    have h₁ := length_lay_le_span protobuf lay
    have h₂ := length_owners_le lay
    have h₃ := h.inv.core.small
    rw [h.inv.core.valid]
    omega
  obtain ⟨q', d', hremove, huniform, hmsgs', hvalid, htotal, hid⟩ := h.uniform.turn protobuf hmsgs hpos hbound hcheck d
  have hcollects : q.front.2.collects "a" = false := by
    rw [h.uniform.front hmsgs, collects, lookup_single]
    dsimp only
    rw [Bool.and_assoc, Bool.and_eq_false_iff, Bool.and_eq_false_iff, decide_eq_false_iff_not, decide_eq_false_iff_not]
    omega
  obtain ⟨q₂, d₂, lay', hremove₂, hinv', hremoved, -⟩ := h.inv.front.remove "a" fun hc => by rw [hcollects] at hc; cases hc
  rw [hremove] at hremove₂
  cases hremove₂
  refine ⟨q', d', lay', hremove, ⟨hinv', huniform, fun r' hr' => ?_⟩, hmsgs', hvalid, htotal⟩
  have hmem : r' ∈ HareMQ.owners lay := by
    cases hremoved with
    | absent _ _ hlay => exact hlay ▸ hr'
    | plain _ _ _ _ hlay => exact hlay ▸ hr'
    | durable r _ _ howners _ _ _ _ _ _ _ => exact List.mem_of_mem_erase (howners ▸ hr')
  rw [hid]
  exact h.owners r' hmem

/-- A compaction that loads unknown messages of one id queues one of them. -/
theorem foldl_relocate_alike {lst : List Message} (hne : lst ≠ [])
    (hlst : ∀ msg ∈ lst, msg.id = "a" ∧ msg.isDurable = true) (hfree : "a" ∉ q.durableMsgs) :
    ∃ r, (lst.foldl relocate q).msgs = q.msgs ++ [r] ∧ ((lst.foldl relocate q).heap r).id = "a" ∧
      ((lst.foldl relocate q).heap r).isDurable = true := by
  have hsingle : unknown q.durableMsgs lst = {"a"} := by
    ext id
    simp only [unknown, List.mem_toFinset, List.mem_filter, List.mem_map, decide_eq_true_eq, Finset.mem_singleton]
    constructor
    · rintro ⟨⟨msg, hmsg, rfl⟩, -⟩
      exact (hlst msg hmsg).1
    · rintro rfl
      obtain ⟨msg, hmsg⟩ := List.exists_mem_of_ne_nil lst hne
      exact ⟨⟨msg, hmsg, (hlst msg hmsg).1⟩, hfree⟩
  obtain ⟨new, hmsgs, hcount, hnew⟩ := (foldl_relocate_requeued lst q).msgs
  rw [hsingle, Finset.card_singleton, List.length_eq_one_iff] at hcount
  obtain ⟨r, rfl⟩ := hcount
  obtain ⟨-, -, msg, hmsg, hpayload⟩ := hnew r (List.mem_singleton_self r)
  refine ⟨r, hmsgs, ?_, ?_⟩
  · rw [Message.id, hpayload]
    exact (hlst msg hmsg).1
  · rw [Message.isDurable, hpayload]
    exact (hlst msg hmsg).2

/-- The compaction that an acknowledgement starts queues one of the records again: none of them is known. -/
theorem Alike.collect {lay : List Slot} (h : Alike d q lay) {r : Ref} {rest : List Ref} (hmsgs : q.msgs = r :: rest)
    (hpos : 1 < q.validCount) (hcheck : 2000 < q.totalCount ∧ 2 * (q.validCount - 1) < q.totalCount) :
    ∃ q' d', q.front.2.remove protobuf "a" d = some (q', d') ∧ q'.Uniform ∧ q'.msgs.length = rest.length + 1 ∧
      q'.validCount = q.validCount - 1 ∧ q'.totalCount = q.validCount - 1 := by
  obtain ⟨hid, hmode⟩ := h.uniform.msgs r (hmsgs ▸ List.mem_cons_self)
  have hfront := h.uniform.front hmsgs
  have howner : r ∈ HareMQ.owners lay := h.inv.books.owned r (Or.inl (hmsgs ▸ List.mem_cons_self)) hmode
  have hwait : q.front.2.waitAckMsgs.lookup "a" = some r := by
    rw [hfront]
    exact lookup_single r
  have hremove := remove_durable_eq protobuf d hwait (by rw [hfront, hmode])
  obtain ⟨q₁, d₁, lay₁, hinv₁, hcore₁, howners₁, hq₁, -⟩ := h.inv.front.core.invalidate howner (by rw [hfront, hid])
  rw [hinv₁] at hremove
  dsimp only at hremove
  rw [hfront] at hq₁
  dsimp only at hq₁
  have hdurable₁ : "a" ∉ q₁.durableMsgs := by
    rw [hq₁, AList.mem_erase]
    exact fun hmem => hmem.1 rfl
  -- Every record that is left belongs to a message with the id `"a"`.
  have hpayload₁ : ∀ r' ∈ HareMQ.owners lay₁, (q₁.heap r').id = "a" ∧ (q₁.heap r').isDurable = true := by
    intro r' hr'
    refine ⟨?_, hcore₁.layout.owner_isDurable hr'⟩
    rw [howners₁, h.inv.core.layout.nodup.mem_erase_iff] at hr'
    rw [hq₁]
    dsimp only
    rw [Function.update_of_ne hr'.1]
    exact h.owners r' hr'.2
  obtain ⟨d₂, hgc₂, -, -⟩ := MessageMapper.gc_eq protobuf hcore₁.calm hcore₁.names hcore₁.file hcore₁.size
  rw [live_map_payload hcore₁.layout.flagged, hcore₁.layout.kept_payloads] at hgc₂
  generalize hlst : placedFrom protobuf 0 ((HareMQ.owners lay₁).map fun r => (q₁.heap r).payload) = lst at hgc₂
  have hlen : lst.length = q₁.validCount := by
    rw [← hlst, length_placedFrom, List.length_map, hcore₁.valid]
  have hvalid₁ : q₁.validCount = q.validCount - 1 := by rw [hq₁]
  have hlst' : ∀ msg ∈ lst, msg.id = "a" ∧ msg.isDurable = true := by
    intro msg hmsg
    have hmem : msg.payload ∈ lst.map (·.payload) := List.mem_map_of_mem hmsg
    rw [← hlst, map_payload_placedFrom] at hmem
    obtain ⟨r', hr', hpay⟩ := List.mem_map.mp hmem
    rw [Message.id, Message.isDurable, ← hpay]
    exact hpayload₁ r' hr'
  have hgc : q₁.gc protobuf d₁ =
      some ({ lst.foldl relocate q₁ with validCount := lst.length, totalCount := lst.length }, d₂) := by
    have hcollect : q₁.gcCheck = true := by
      rw [gcCheck, hvalid₁, hq₁, Bool.and_eq_true, decide_eq_true_eq, decide_eq_true_eq]
      exact hcheck
    simp only [gc, hcollect, if_true, hgc₂, hlen]
  rw [hgc, Option.map_some] at hremove
  have hrelocated := foldl_relocate_requeued lst q₁
  obtain ⟨new, hmsgs₂, hnew⟩ := foldl_relocate_alike (List.ne_nil_of_length_pos (by omega)) hlst' hdurable₁
  have hrest : q₁.msgs = rest := by rw [hq₁]
  refine ⟨_, _, hremove, ⟨fun r' hr' => ?_, ?_⟩, ?_, hlen.trans hvalid₁, hlen.trans hvalid₁⟩
  · have hmem : r' ∈ q₁.msgs ++ [new] := hmsgs₂ ▸ hr'
    show ((lst.foldl relocate q₁).heap r').id = "a" ∧ ((lst.foldl relocate q₁).heap r').isDurable = true
    obtain hmem | hmem := List.mem_append.mp hmem
    · have hold : r' ∈ q.msgs := by
        rw [hmsgs]
        exact List.mem_cons_of_mem r (hrest ▸ hmem)
      have hne : r' ≠ r := by
        rintro rfl
        have hnodup := h.inv.books.nodup
        rw [hmsgs, List.nodup_cons] at hnodup
        exact hnodup.1 (hrest ▸ hmem)
      have hlt : r' < q₁.next := by
        rw [hq₁]
        exact h.inv.books.lt_next r' hold
      have hheap : q₁.heap r' = q.heap r' := by
        rw [hq₁]
        exact Function.update_of_ne hne _ _
      rw [Message.id, Message.isDurable, hrelocated.payload r' hlt, hheap]
      exact h.uniform.msgs r' hold
    · rw [List.mem_singleton.mp hmem]
      exact hnew
  · show (lst.foldl relocate q₁).waitAckMsgs.erase "a" = ∅
    rw [hrelocated.waits, hq₁]
    exact erase_emplace_empty r
  · show (lst.foldl relocate q₁).msgs.length = rest.length + 1
    rw [hmsgs₂, List.length_append, hrest, List.length_singleton]

end QueueMessage
namespace Store
variable {s : Store}

/-- More than two thousand insertions, all acknowledged but the last. -/
def wrapping : List StoreOp :=
  (List.replicate 2001 [again]).flatten ++ ((List.replicate 1000 turn).flatten ++
    (turn ++ ((List.replicate 1000 turn).flatten ++ [.front])))

theorem wrapping_inside : ∀ op ∈ wrapping, op.inside = true := by
  refine List.forall_mem_append.mpr ⟨flatten_inside (List.forall_mem_singleton.mpr rfl) _, ?_⟩
  refine List.forall_mem_append.mpr ⟨flatten_inside turn_inside _, ?_⟩
  refine List.forall_mem_append.mpr ⟨turn_inside, ?_⟩
  exact List.forall_mem_append.mpr ⟨flatten_inside turn_inside _, List.forall_mem_singleton.mpr rfl⟩

/-- The record of the message. -/
def record : Payload where
  properties := some { id := "a", deliveryMode := .durable }
  valid := "1"

theorem length_record : (protobuf.serialize record).length = 10 := by decide +kernel

/-- After `n` insertions. -/
structure Filled (n : Nat) (s : Store) : Prop where
  alike : ∃ lay, s.queue.Alike s.disk lay
  file : s.disk.file? s.queue.mapper.dataFile = some (encode protobuf (List.replicate n record))
  msgs : s.queue.msgs.length = n
  valid : s.queue.validCount = n
  total : s.queue.totalCount = n

theorem Filled.succ {n : Nat} (hn : n < 2001) (h : Filled n s) :
    ∃ s', Lib.run (next protobuf) s [again] = some s' ∧ Filled (n + 1) s' := by
  obtain ⟨lay, hinv, huniform, howners⟩ := h.alike
  have hmode : (QueueMessage.makeMessage (some ⟨"a", .durable, ""⟩) "" "" true).isDurable = true := rfl
  obtain ⟨d', hins, -, -, hfile'⟩ := hinv.core.insert_durable hmode
  obtain ⟨q', d'', hins', -, hrest⟩ := hinv.insert (some ⟨"a", .durable, ""⟩) "" "" true
  have hfiles : d'' = d' ∧ q'.mapper = s.queue.mapper := by
    rw [hins] at hins'
    cases hins'
    exact ⟨rfl, rfl⟩
  obtain ⟨rfl, hmapper⟩ := hfiles
  have hrecord : (stored (QueueMessage.makeMessage (some ⟨"a", .durable, ""⟩) "" "" true)).payload = record := rfl
  have hfile : d''.file? q'.mapper.dataFile = some (encode protobuf (List.replicate (n + 1) record)) := by
    have hsame := hinv.core.file.symm.trans h.file
    rw [Option.some.injEq] at hsame
    rw [hmapper, hfile', hrecord, encode_append, hsame, ← encode_append, List.replicate_succ']
  have hsize : FileHelper.size d'' q'.mapper.dataFile < 2 ^ 32 := by
    rw [FileHelper.size_eq hfile, length_encode_replicate, length_record]
    omega
  obtain ⟨lay', hinv', hi⟩ := hrest hsize
  have hcounts := QueueMessage.insert_counts hins'
  rw [if_pos hmode, h.valid, h.total, Prod.mk.injEq, Nat.mod_eq_of_lt (by omega)] at hcounts
  have hold : ∀ r < s.queue.next, q'.heap r = s.queue.heap r := fun r hr => hi.old r (Nat.ne_of_lt hr)
  have hnew : (q'.heap s.queue.next).id = "a" ∧ (q'.heap s.queue.next).isDurable = true := by
    rw [Message.id, Message.isDurable, hi.payload]
    exact ⟨rfl, rfl⟩
  refine ⟨{ s with queue := q', disk := d'' }, ?_, ⟨lay', hinv', ⟨fun r hr => ?_, ?_⟩, fun r hr => ?_⟩, hfile, ?_,
    hcounts.1, hcounts.2⟩
  · simp only [Lib.run, next, again, step_insert, hins', Option.map_some]
  · rw [hi.msgs] at hr
    obtain hr | hr := List.mem_append.mp hr
    · rw [hold r (hinv.books.lt_next r hr)]
      exact huniform.msgs r hr
    · rw [List.mem_singleton.mp hr]
      exact hnew
  · rw [hi.waits, huniform.waits]
  · rw [hi.owners, if_pos hmode] at hr
    obtain hr | hr := List.mem_append.mp hr
    · rw [hold r (hinv.core.layout.lt_next r hr)]
      exact howners r hr
    · rw [List.mem_singleton.mp hr]
      exact hnew.1
  · rw [hi.msgs, List.length_append, h.msgs, List.length_singleton]

theorem run_turn {q' : QueueMessage} {d' : Disk} (h : s.queue.front.2.remove protobuf "a" s.disk = some (q', d')) :
    Lib.run (next protobuf) s turn = some { s with queue := q', disk := d' } := by
  simp only [Lib.run, next, turn, step_front, step_remove, Option.map_some, h]

/-- After `n` acknowledgements, up to the compaction. -/
def Turning (n : Nat) (s : Store) : Prop :=
  (∃ lay, s.queue.Alike s.disk lay) ∧ s.queue.msgs.length = 2001 - n ∧ s.queue.validCount = 2001 - n ∧
    s.queue.totalCount = 2001

theorem exists_cons_of_length {q : QueueMessage} {n : Nat} (h : q.msgs.length = n) (hn : 0 < n) :
    ∃ r rest, q.msgs = r :: rest ∧ rest.length = n - 1 := by
  cases hmsgs : q.msgs with
  | nil =>
    rw [hmsgs, List.length_nil] at h
    omega
  | cons r rest =>
    rw [hmsgs, List.length_cons] at h
    exact ⟨r, rest, rfl, by omega⟩

theorem Turning.succ {n : Nat} (hn : n < 1000) (h : Turning n s) :
    ∃ s', Lib.run (next protobuf) s turn = some s' ∧ Turning (n + 1) s' := by
  obtain ⟨⟨lay, halike⟩, hlen, hvalid, htotal⟩ := h
  obtain ⟨r, rest, hmsgs, hrest⟩ := exists_cons_of_length hlen (by omega)
  obtain ⟨q', d', lay', hremove, halike', hmsgs', hvalid', htotal'⟩ := halike.turn hmsgs (by omega) (by omega)
  refine ⟨_, run_turn hremove, ⟨lay', halike'⟩, ?_, ?_, htotal'.trans htotal⟩
  · show q'.msgs.length = _
    rw [hmsgs', hrest]
    omega
  · show q'.validCount = _
    omega

/-- After the compaction, and `n` more acknowledgements. -/
def Collected (n : Nat) (s : Store) : Prop :=
  s.queue.Uniform ∧ s.queue.msgs.length = 1001 - n ∧ s.queue.validCount = 1000 - n ∧ s.queue.totalCount = 1000

theorem Turning.collect (h : Turning 1000 s) : ∃ s', Lib.run (next protobuf) s turn = some s' ∧ Collected 0 s' := by
  obtain ⟨⟨lay, halike⟩, hlen, hvalid, htotal⟩ := h
  obtain ⟨r, rest, hmsgs, hrest⟩ := exists_cons_of_length hlen (by omega)
  obtain ⟨q', d', hremove, huniform, hlen', hvalid', htotal'⟩ := halike.collect hmsgs (by omega) (by omega)
  refine ⟨_, run_turn hremove, huniform, ?_, ?_, ?_⟩
  · show q'.msgs.length = _
    omega
  · show q'.validCount = _
    omega
  · show q'.totalCount = _
    omega

theorem Collected.succ {n : Nat} (hn : n < 1000) (h : Collected n s) :
    ∃ s', Lib.run (next protobuf) s turn = some s' ∧ Collected (n + 1) s' := by
  obtain ⟨huniform, hlen, hvalid, htotal⟩ := h
  obtain ⟨r, rest, hmsgs, hrest⟩ := exists_cons_of_length hlen (by omega)
  obtain ⟨q', d', hremove, huniform', hmsgs', hvalid', htotal', -⟩ :=
    huniform.turn protobuf hmsgs (by omega) (by omega) (by omega) s.disk
  refine ⟨_, run_turn hremove, huniform', ?_, ?_, htotal'.trans htotal⟩
  · show q'.msgs.length = _
    rw [hmsgs', hrest]
    omega
  · show q'.validCount = _
    omega

theorem exists_boot_filled : ∃ s, boot protobuf vacant "data" "q" = some s ∧ Filled 0 s := by
  have hboot : (boot protobuf vacant "data" "q").any (fun s => s.queue.totalCount = 0) = true := by decide +kernel
  obtain ⟨s, hs, htotal⟩ := (Option.any_eq_true _ _).mp hboot
  obtain ⟨lay, hopened⟩ := boot_of_fresh vacant_fresh hs
  have htotal : s.queue.totalCount = 0 := of_decide_eq_true htotal
  have hlay : lay = [] := by
    rw [← List.length_eq_zero_iff, ← hopened.inv.core.total, htotal]
  subst hlay
  have hmsgs : s.queue.msgs = [] := hopened.recovered.msgs
  refine ⟨s, hs, ⟨[], hopened.inv, ⟨fun r hr => ?_, hopened.recovered.waits⟩, nofun⟩, hopened.inv.core.file, ?_,
    hopened.inv.core.valid, htotal⟩
  · rw [hmsgs] at hr
    cases hr
  · rw [hmsgs]
    rfl

/-- A thousand messages are pending after the compaction, and one of them twice: the counter is at zero one acknowledgement
    early. -/
theorem run_wraps : ∃ s s', boot protobuf vacant "data" "q" = some s ∧ (∀ op ∈ wrapping, op.inside = true) ∧
    Lib.run (next protobuf) s wrapping = some s' ∧ ¬s'.queue.Counted := by
  obtain ⟨s, hboot, hs⟩ := exists_boot_filled
  obtain ⟨s₁, hrun₁, hs₁⟩ := exists_run_flatten (fun _ _ hn h => Filled.succ hn h) 2001 (Nat.le_refl _) hs
  have hturning : Turning 0 s₁ := ⟨hs₁.alike, hs₁.msgs, hs₁.valid, hs₁.total⟩
  obtain ⟨s₂, hrun₂, hs₂⟩ := exists_run_flatten (fun _ _ hn h => Turning.succ hn h) 1000 (Nat.le_refl _) hturning
  obtain ⟨s₃, hrun₃, hs₃⟩ := hs₂.collect
  obtain ⟨s₄, hrun₄, huniform, hlen, hvalid, -⟩ :=
    exists_run_flatten (fun _ _ hn h => Collected.succ hn h) 1000 (Nat.le_refl _) hs₃
  obtain ⟨r, rest, hmsgs, -⟩ := exists_cons_of_length hlen (by omega)
  obtain ⟨hid, hmode⟩ := huniform.msgs r (hmsgs ▸ List.mem_cons_self)
  have hfront := huniform.front hmsgs
  refine ⟨s, { s₄ with queue := s₄.queue.front.2 }, hboot, wrapping_inside, ?_, fun h => ?_⟩
  · rewrite [wrapping, run_append hrun₁, run_append hrun₂, run_append hrun₃, run_append hrun₄]
    rfl
  · have hpos := h.pos "a" r (by rw [hfront]; exact QueueMessage.lookup_single r) (by rw [hfront, hmode])
    rw [hfront] at hpos
    have hzero : s₄.queue.validCount = 0 := hvalid
    dsimp only at hpos
    omega

end Store
end HareMQ
