import HareMQ.Theorems.Recovery
import Mathlib.Data.Finset.Card

/-! # The pending list under faults

What the operations of a queue do to its pending list, whatever the files hold, whatever the file operations return
and whatever the ids are. -/

namespace HareMQ
open Lib

namespace QueueMessage
variable {pb : PayloadCodec} {d : Disk} {q q' : QueueMessage}

/-- The references in use are older than the next one. -/
def Bounded (q : QueueMessage) : Prop := ∀ r ∈ q.msgs, r < q.next

/-! ### Insert -/

/-- One message was queued. -/
structure Appended (q q' : QueueMessage) (msg : Message) : Prop where
  mapper : q'.mapper = q.mapper
  msgs : q'.msgs = q.msgs ++ [q.next]
  waits : q'.waitAckMsgs = q.waitAckMsgs
  next : q'.next = q.next + 1
  payload : (q'.heap q.next).payload = (stored msg).payload
  old : ∀ r ≠ q.next, q'.heap r = q.heap r

theorem Appended.bounded {msg : Message} (h : Appended q q' msg) (hq : q.Bounded) : q'.Bounded := by
  intro r hr
  rw [h.msgs, List.mem_append, List.mem_singleton] at hr
  rw [h.next]
  exact hr.elim (fun hr => Nat.lt_succ_of_lt (hq r hr)) fun hr => hr ▸ Nat.lt_succ_self _

/-- The pending messages keep their contents. -/
theorem Appended.pending {msg : Message} (h : Appended q q' msg) (hq : q.Bounded) :
    q'.pending = q.pending ++ [q'.heap q.next] := by
  rw [QueueMessage.pending, h.msgs, List.map_append, List.map_singleton, QueueMessage.pending]
  congr 1
  exact List.map_congr_left fun r hr => h.old r (Nat.ne_of_lt (hq r hr))

variable (pb) in
theorem insertInto_payload (name : String) (msg : Message) (d : Disk) :
    (MessageMapper.insertInto pb name msg d).2.1.payload = msg.payload := by
  unfold MessageMapper.insertInto
  dsimp only
  split
  · rfl
  · split <;> rfl

/-- An insertion that fails leaves the queue as it was; one that succeeds queues the message. -/
theorem insert_cases {bp : Option BasicProperties} {uuid body : String} {queueDurable ok : Bool} {d' : Disk}
    (h : q.insert pb bp uuid body queueDurable d = (ok, q', d')) :
    (ok = false ∧ q' = q) ∨ (ok = true ∧ Appended q q' (makeMessage bp uuid body queueDurable)) := by
  cases hmode : (makeMessage bp uuid body queueDurable).isDurable with
  | false =>
    rw [insert_undurable hmode, Prod.mk.injEq, Prod.mk.injEq] at h
    obtain ⟨rfl, rfl, rfl⟩ := h
    refine Or.inr ⟨rfl, rfl, rfl, rfl, rfl, ?_, fun r hr => Function.update_of_ne hr _ _⟩
    rw [stored, if_neg (by simp [hmode])]
    exact congrArg Message.payload (Function.update_self ..)
  | true =>
    have hpayload := insertInto_payload pb q.mapper.dataFile (stored (makeMessage bp uuid body queueDurable)) d
    rw [stored, if_pos hmode] at hpayload
    simp only [insert, hmode, if_true, MessageMapper.insert] at h
    split at h
    · obtain ⟨rfl, rfl, rfl⟩ := h
      exact Or.inl ⟨rfl, rfl⟩
    · next heq =>
      rw [heq] at hpayload
      obtain ⟨rfl, rfl, rfl⟩ := h
      refine Or.inr ⟨rfl, rfl, rfl, rfl, rfl, ?_, fun r hr => Function.update_of_ne hr _ _⟩
      rw [stored, if_pos hmode]
      exact (congrArg Message.payload (Function.update_self ..)).trans hpayload

variable (pb) in
/-- The file operations of an insertion succeed when the data file is there, and no file is lost. -/
theorem insert_of_file (hd : d.Calm) (hf : (d.file? q.mapper.dataFile).isSome) (bp : Option BasicProperties)
    (uuid body : String) (queueDurable : Bool) : ∃ q' d', q.insert pb bp uuid body queueDurable d = (true, q', d') ∧
    Appended q q' (makeMessage bp uuid body queueDurable) ∧ d'.Calm ∧
    ∀ name, (d.file? name).isSome → (d'.file? name).isSome := by
  suffices h : ∃ q' d', q.insert pb bp uuid body queueDurable d = (true, q', d') ∧ d'.Calm ∧
      ∀ name, (d.file? name).isSome → (d'.file? name).isSome by
    obtain ⟨q', d', hins, hrest⟩ := h
    refine ⟨q', d', hins, ?_, hrest⟩
    exact (insert_cases hins).elim (fun hfalse => nomatch hfalse.1) And.right
  cases hmode : (makeMessage bp uuid body queueDurable).isDurable with
  | false => exact ⟨_, d, insert_undurable hmode, hd, fun _ h => h⟩
  | true =>
    obtain ⟨data, hdata⟩ := Option.isSome_iff_exists.mp hf
    obtain ⟨d', hins, hf', hw⟩ :=
      MessageMapper.insertInto_eq pb hd hdata (stored (makeMessage bp uuid body queueDurable))
    refine ⟨(q.insert pb bp uuid body queueDurable d).2.1, d', ?_, hw.fates.trans hd, fun name hname => ?_⟩
    · rw [stored, if_pos hmode] at hins
      simp only [insert, hmode, if_true, MessageMapper.insert, hins]
    · by_cases hr : resolve name = resolve q.mapper.dataFile
      · rw [Disk.file?, hr]
        exact Option.isSome_iff_exists.mpr ⟨_, hf'⟩
      · rwa [hw.file?_ne hr]

/-! ### Recovery -/

theorem foldl_adopt_nodup : ∀ (lst : List Message) (q : QueueMessage), q.Bounded → q.msgs.Nodup →
    (lst.foldl adopt q).msgs.Nodup
  | [], _, _, hnodup => hnodup
  | msg :: lst, q, hq, hnodup => by
    refine foldl_adopt_nodup lst (q.adopt msg) (adopt_lt_next hq msg) ?_
    refine List.nodup_append.mpr ⟨hnodup, List.nodup_singleton _, fun r hr r' hr' heq => ?_⟩
    rw [List.mem_singleton] at hr'
    exact absurd (hq r hr) (by rw [heq, hr']; exact Nat.lt_irrefl _)

variable (pb) in
theorem recovery_nodup (mapper : MessageMapper) (d : Disk) : (({ mapper } : QueueMessage).recovery pb d).1.msgs.Nodup :=
  foldl_adopt_nodup (mapper.gc pb d).1 { mapper } nofun List.nodup_nil

/-! ### Front -/

theorem front_cases (q : QueueMessage) : (q.msgs = [] ∧ q.front = (none, q)) ∨
    ∃ r, q.front.1 = some r ∧ q.msgs = r :: q.front.2.msgs ∧ q.front.2.next = q.next ∧ q.front.2.heap = q.heap := by
  unfold front
  split
  · next h => exact Or.inl ⟨h, rfl⟩
  · next r rest h => exact Or.inr ⟨r, rfl, h, rfl, rfl⟩

theorem Bounded.front (hq : q.Bounded) : q.front.2.Bounded := by
  rcases q.front_cases with ⟨-, hf⟩ | ⟨r, -, hmsgs, hnext, -⟩
  · rwa [hf]
  · intro r' hr'
    rw [hnext]
    exact hq r' (hmsgs ▸ List.mem_cons_of_mem r hr')

/-! ### Remove -/

/-- A compaction that acknowledging `msgId` starts loads a record whose id is not in `__durable_msgs`: the message is
    queued a second time. -/
def requeues (pb : PayloadCodec) (q : QueueMessage) (msgId : String) (d : Disk) : Bool :=
  match q.waitAckMsgs.lookup msgId with
  | none => false
  | some r =>
    (q.heap r).isDurable &&
      match q.invalidate pb msgId r d with
      | (q, d) => q.gcCheck && (q.mapper.gc pb d).1.any (·.id ∉ q.durableMsgs)

/-- The first half of `remove` takes one from the counter. -/
structure Invalidated (q q' : QueueMessage) : Prop where
  msgs : q'.msgs = q.msgs
  waits : q'.waitAckMsgs = q.waitAckMsgs
  next : q'.next = q.next
  isDurable : ∀ r, (q'.heap r).isDurable = (q.heap r).isDurable
  id : ∀ r, (q'.heap r).id = (q.heap r).id
  valid : q'.validCount = (q.validCount + (2 ^ 64 - 1)) % 2 ^ 64
  total : q'.totalCount = q.totalCount

variable (pb) in
theorem mapper_remove_payload (m : MessageMapper) (msg : Message) (d : Disk) :
    (m.remove pb msg d).2.1.payload = msg.payload.setValid "0" := by
  unfold MessageMapper.remove
  dsimp only
  split
  · rfl
  · rfl

variable (pb) in
theorem invalidate_spec (q : QueueMessage) (msgId : String) (r : Ref) (d : Disk) :
    Invalidated q (q.invalidate pb msgId r d).1 := by
  have hpayload := mapper_remove_payload pb q.mapper (q.heap r) d
  obtain ⟨ok, msg, d', hremove⟩ : ∃ ok msg d', q.mapper.remove pb (q.heap r) d = (ok, msg, d') := ⟨_, _, _, rfl⟩
  rw [hremove] at hpayload
  simp only [invalidate, hremove]
  have hprops : ∀ r', (Function.update q.heap r msg r').payload.props = (q.heap r').payload.props := by
    intro r'
    by_cases hr : r' = r
    · rw [hr, Function.update_self, hpayload]
      rfl
    · rw [Function.update_of_ne hr]
  exact ⟨rfl, rfl, rfl, fun r' => congrArg (fun bp : BasicProperties => decide (bp.deliveryMode = .durable)) (hprops r'),
    fun r' => congrArg BasicProperties.id (hprops r'), rfl, rfl⟩

variable (pb d) in
/-- The acknowledgement of a durable message, step by step. -/
theorem remove_durable_eq {msgId : String} {r : Ref} (hwait : q.waitAckMsgs.lookup msgId = some r)
    (hmode : (q.heap r).isDurable = true) : q.remove pb msgId d =
      ((q.invalidate pb msgId r d).1.gc pb (q.invalidate pb msgId r d).2).map fun qd =>
        ({ qd.1 with waitAckMsgs := qd.1.waitAckMsgs.erase msgId }, qd.2) := by
  simp only [remove, hwait, hmode, if_true]
  split
  · next h => rw [h, Option.map_none]
  · next h => rw [h, Option.map_some]

/-! ### Compaction -/

/-- The ids of the loaded messages that the durable map does not know: each makes `gc` queue one message. -/
def unknown (known : UMap String Ref) (lst : List Message) : Finset String :=
  ((lst.map (·.id)).filter (· ∉ known)).toFinset

/-- What a compaction makes of the messages in memory: one is queued for each unknown id. -/
structure Requeued (q q' : QueueMessage) (lst : List Message) : Prop where
  msgs : ∃ new : List Ref, q'.msgs = q.msgs ++ new ∧ new.length = (unknown q.durableMsgs lst).card ∧
    ∀ r ∈ new, q.next ≤ r ∧ r < q'.next ∧ ∃ msg ∈ lst, (q'.heap r).payload = msg.payload
  waits : q'.waitAckMsgs = q.waitAckMsgs
  next : q'.next = q.next + (unknown q.durableMsgs lst).card
  payload : ∀ r < q.next, (q'.heap r).payload = (q.heap r).payload

theorem card_unknown_cons {known : UMap String Ref} {msg : Message} (h : msg.id ∉ known) (r : Ref) (lst : List Message) :
    (unknown known (msg :: lst)).card = (unknown (known.emplace msg.id r) lst).card + 1 := by
  have hcons : unknown known (msg :: lst) = Insert.insert msg.id (unknown known lst) := by
    rw [unknown, List.map_cons, List.filter_cons, if_pos (by simpa using h), List.toFinset_cons]
    rfl
  have herase : unknown (known.emplace msg.id r) lst = (unknown known (msg :: lst)).erase msg.id := by
    rw [hcons, Finset.erase_insert_eq_erase]
    ext id
    simp only [unknown, List.mem_toFinset, List.mem_filter, Finset.mem_erase, decide_eq_true_eq, UMap.mem_emplace, not_or]
    tauto
  rw [herase, Finset.card_erase_add_one (hcons ▸ Finset.mem_insert_self ..)]

theorem unknown_cons_of_mem {known : UMap String Ref} {msg : Message} (h : msg.id ∈ known) (lst : List Message) :
    unknown known (msg :: lst) = unknown known lst := by
  rw [unknown, List.map_cons, List.filter_cons_of_neg (by simpa using h)]
  rfl

theorem payload_update {heap : Ref → Message} {r₀ : Ref} {msg : Message} (h : msg.payload = (heap r₀).payload) (r : Ref) :
    (Function.update heap r₀ msg r).payload = (heap r).payload := by
  by_cases hr : r = r₀
  · rw [hr, Function.update_self, h]
  · rw [Function.update_of_ne hr]

theorem foldl_relocate_requeued : ∀ (lst : List Message) (q : QueueMessage), Requeued q (lst.foldl relocate q) lst
  | [], q => ⟨⟨[], (List.append_nil _).symm, rfl, nofun⟩, rfl, rfl, fun _ _ => rfl⟩
  | msg :: lst, q => by
    rw [List.foldl_cons]
    cases hr : q.durableMsgs.lookup msg.id with
    | none =>
      have hrel : q.relocate msg = q.adopt msg := by simp only [relocate, hr]
      have hcard : (unknown q.durableMsgs (msg :: lst)).card = (unknown (q.adopt msg).durableMsgs lst).card + 1 :=
        card_unknown_cons (AList.lookup_eq_none.mp hr) q.next lst
      rw [hrel]
      obtain ⟨⟨new, hmsgs, hlen, hnew⟩, hwaits, hnext, hpayload⟩ := foldl_relocate_requeued lst (q.adopt msg)
      have hnext : (lst.foldl relocate (q.adopt msg)).next = q.next + 1 + (unknown (q.adopt msg).durableMsgs lst).card := hnext
      have hlt : q.next < (lst.foldl relocate (q.adopt msg)).next := by
        rw [hnext]
        exact Nat.lt_of_lt_of_le (Nat.lt_succ_self _) (Nat.le_add_right _ _)
      have hadopted : ((q.adopt msg).heap q.next).payload = msg.payload := congrArg Message.payload (Function.update_self ..)
      refine ⟨⟨q.next :: new, ?_, ?_, ?_⟩, hwaits, by rw [hnext, hcard, Nat.add_assoc, Nat.add_comm 1],
        fun r hr => ?_⟩
      · rw [hmsgs, List.append_cons]
        rfl
      · rw [hcard, List.length_cons, hlen]
      · refine List.forall_mem_cons.mpr ⟨⟨Nat.le_refl _, hlt, msg, List.mem_cons_self, ?_⟩, fun r hr => ?_⟩
        · rw [hpayload q.next (Nat.lt_succ_self _), hadopted]
        · obtain ⟨hle, hlt, m, hm, hpay⟩ := hnew r hr
          exact ⟨Nat.le_of_succ_le hle, hlt, m, List.mem_cons_of_mem msg hm, hpay⟩
      · rw [hpayload r (Nat.lt_succ_of_lt hr)]
        exact congrArg Message.payload (Function.update_of_ne (Nat.ne_of_lt hr) _ _)
    | some r₀ =>
      have hrel : q.relocate msg =
          { q with heap := Function.update q.heap r₀ { q.heap r₀ with offset := msg.offset, length := msg.length } } := by
        simp only [relocate, hr]
      rw [hrel]
      obtain ⟨⟨new, hmsgs, hlen, hnew⟩, hwaits, hnext, hpayload⟩ := foldl_relocate_requeued lst
        { q with heap := Function.update q.heap r₀ { q.heap r₀ with offset := msg.offset, length := msg.length } }
      have hpatched : ∀ r, (Function.update q.heap r₀ { q.heap r₀ with offset := msg.offset, length := msg.length } r).payload =
          (q.heap r).payload := payload_update rfl
      rw [← unknown_cons_of_mem (UMap.mem_of_lookup hr) lst] at hlen hnext
      refine ⟨⟨new, hmsgs, hlen, fun r hr => ?_⟩, hwaits, hnext, fun r hr => (hpayload r hr).trans (hpatched r)⟩
      obtain ⟨hle, hlt, m, hm, hpay⟩ := hnew r hr
      exact ⟨hle, hlt, m, List.mem_cons_of_mem msg hm, hpay⟩

/-- `gc` leaves the queue alone, or sets both counters to the number of loaded messages, which was counted as valid. -/
theorem gc_cases (h : q.gc pb d = some (q', d')) : (q.gcCheck = false ∧ q' = q) ∨
    (q.gcCheck = true ∧ Requeued q q' (q.mapper.gc pb d).1 ∧
      q'.validCount = q.validCount ∧ q'.totalCount = q.validCount) := by
  unfold gc at h
  split at h
  · next hcheck =>
    split at h
    next lst d₁ hlst =>
    split at h
    · next hlen =>
      cases h
      have hrequeued := foldl_relocate_requeued lst q
      rw [hlst]
      exact Or.inr ⟨hcheck, ⟨hrequeued.msgs, hrequeued.waits, hrequeued.next, hrequeued.payload⟩, hlen, hlen⟩
    · cases h
  · next hcheck =>
    cases h
    exact Or.inl ⟨Bool.eq_false_iff.mpr hcheck, rfl⟩

theorem unknown_eq_empty {known : UMap String Ref} {lst : List Message} :
    unknown known lst = ∅ ↔ lst.any (·.id ∉ known) = false := by
  rw [unknown, List.toFinset_eq_empty_iff, List.filter_eq_nil_iff, List.any_eq_false, List.forall_mem_map]

/-- An acknowledgement never removes a pending message, and adds some exactly when it queues records again. -/
theorem remove_cases {msgId : String} {d' : Disk} (h : q.remove pb msgId d = some (q', d')) :
    (q.Bounded → q'.Bounded) ∧ (q.requeues pb msgId d = false → q'.msgs = q.msgs ∧ q'.next = q.next) ∧
      (q.requeues pb msgId d = true → ∃ r ∈ q'.msgs, q.next ≤ r) := by
  cases hwait : q.waitAckMsgs.lookup msgId with
  | none =>
    simp only [remove, hwait, Option.some.injEq] at h
    cases h
    exact ⟨id, fun _ => ⟨rfl, rfl⟩, fun hreq => by simp [requeues, hwait] at hreq⟩
  | some r =>
    cases hmode : (q.heap r).isDurable with
    | false =>
      simp only [remove, hwait, hmode, Bool.false_eq_true, if_false, Option.some.injEq] at h
      cases h
      exact ⟨id, fun _ => ⟨rfl, rfl⟩, fun hreq => by simp [requeues, hwait, hmode] at hreq⟩
    | true =>
      rw [remove_durable_eq pb d hwait hmode, Option.map_eq_some_iff] at h
      obtain ⟨⟨q₂, d₂⟩, hgc, heq⟩ := h
      cases heq
      have hinv := invalidate_spec pb q msgId r d
      simp only [requeues, hwait, hmode, Bool.true_and]
      generalize q.invalidate pb msgId r d = qd₁ at hgc hinv
      obtain ⟨q₁, d₁⟩ := qd₁
      dsimp only at hgc hinv ⊢
      rw [← hinv.msgs, ← hinv.next]
      have hbounded : q.Bounded ↔ q₁.Bounded := by rw [Bounded, Bounded, hinv.msgs, hinv.next]
      rw [hbounded]
      obtain ⟨hcheck, rfl⟩ | ⟨hcheck, hrequeued, -, -⟩ := gc_cases hgc
      · rw [hcheck, Bool.false_and]
        exact ⟨id, fun _ => ⟨rfl, rfl⟩, fun h => absurd h Bool.false_ne_true⟩
      · obtain ⟨new, hmsgs, hcount, hnew⟩ := hrequeued.msgs
        have hnext := hrequeued.next
        have hlt : ∀ r ∈ new, r < q₂.next := fun r hr => (hnew r hr).2.1
        rw [hcheck, Bool.true_and]
        refine ⟨fun hq r' hr' => ?_, fun hknown => ?_, fun hunknown => ?_⟩
        · have hr' : r' ∈ q₁.msgs ++ new := hmsgs ▸ hr'
          obtain hr' | hr' := List.mem_append.mp hr'
          · exact Nat.lt_of_lt_of_le (hq r' hr') (hnext ▸ Nat.le_add_right _ _)
          · exact hlt r' hr'
        · rw [unknown_eq_empty.mpr hknown, Finset.card_empty] at hcount hnext
          rw [List.length_eq_zero_iff.mp hcount, List.append_nil] at hmsgs
          exact ⟨hmsgs, hnext⟩
        · have hpos : 0 < new.length := by
            rw [hcount, Finset.card_pos, Finset.nonempty_iff_ne_empty]
            intro hempty
            rw [unknown_eq_empty.mp hempty] at hunknown
            cases hunknown
          obtain ⟨r', hr'⟩ := List.exists_mem_of_length_pos hpos
          refine ⟨r', ?_, (hnew r' hr').1⟩
          show r' ∈ q₂.msgs
          rw [hmsgs]
          exact List.mem_append_right _ hr'

end QueueMessage
end HareMQ
