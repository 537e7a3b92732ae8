import HareMQ.Theorems.Crash
import HareMQ.Theorems.Ledger

/-! # A torn append

A crash inside `__insert` leaves a proper prefix of one more frame at the end of the data file. The complete records
are recovered in any case. What happens afterwards is recovered too if the prefix is empty; behind a nonempty prefix
the file must not be written any more. -/

namespace HareMQ
open Lib

/-! ### What is due at the next restart -/

namespace Ledger

/-- The durable messages that were accepted and not acknowledged. -/
def owed (l : Ledger) : List (Ref × Payload) := l.accepted.filter fun e => e.2.deliveryMode = .durable && e.1 ∉ l.acked

def due (l : Ledger) : List Payload := l.owed.map (·.2)

variable {l : Ledger} {r : Ref} {p : Payload}

theorem due_congr {l' : Ledger} (h : l'.owed = l.owed) : l'.due = l.due := by
  rw [due, due, h]

theorem owed_accept_of_ne (h : p.deliveryMode ≠ .durable) : (l.accept r p).owed = l.owed := by
  show (l.accepted ++ [(r, p)]).filter _ = _
  rw [List.filter_append, List.filter_cons_of_neg (by simp [h]), List.filter_nil, List.append_nil]
  rfl

theorem owed_accept (h : p.deliveryMode = .durable) (hr : r ∉ l.acked) : (l.accept r p).owed = l.owed ++ [(r, p)] := by
  show (l.accepted ++ [(r, p)]).filter _ = _
  rw [List.filter_append, List.filter_cons_of_pos (by simp [h, hr, accept]), List.filter_nil]
  rfl

theorem owed_settle_none (id : String) : (l.settle none id).owed = l.owed := by
  simp [owed, settle]

theorem owed_settle (r : Ref) (id : String) : (l.settle (some r) id).owed = l.owed.filter (·.1 ≠ r) := by
  rw [owed, owed, List.filter_filter]
  refine List.filter_congr fun e _ => ?_
  simp only [settle, Option.toList_some, List.mem_append, List.mem_singleton, not_or]
  by_cases her : e.1 = r <;> simp [her, Bool.and_comm]

end Ledger

/-- The ledger speaks about the message objects of the queue. -/
structure Noted (q : QueueMessage) (l : Ledger) : Prop where
  lt_next : ∀ e ∈ l.accepted, e.1 < q.next
  acked_lt : ∀ r ∈ l.acked, r < q.next
  mode : ∀ e ∈ l.accepted, (q.heap e.1).payload.deliveryMode = e.2.deliveryMode
  payload : ∀ e ∈ l.accepted, e.1 ∉ l.acked → (q.heap e.1).payload = e.2

section
variable {pb : PayloadCodec} {d : Disk} {q q' : QueueMessage} {lay lay' : List Slot} {l : Ledger} {r : Ref}

theorem Noted.accept (h : Noted q l) (hold : ∀ r < q.next, q'.heap r = q.heap r) (hnext : q'.next = q.next + 1) :
    Noted q' (l.accept q.next (q'.heap q.next).payload) where
  lt_next e he := by
    rw [hnext]
    rcases List.mem_append.mp he with he | he
    · exact Nat.lt_succ_of_lt (h.lt_next e he)
    · obtain rfl := List.mem_singleton.mp he
      exact Nat.lt_succ_self _
  acked_lt r hr := by
    rw [hnext]
    exact Nat.lt_succ_of_lt (h.acked_lt r hr)
  mode e he := by
    rcases List.mem_append.mp he with he | he
    · rw [hold _ (h.lt_next e he)]
      exact h.mode e he
    · obtain rfl := List.mem_singleton.mp he
      rfl
  payload e he hacked := by
    rcases List.mem_append.mp he with he | he
    · rw [hold _ (h.lt_next e he)]
      exact h.payload e he hacked
    · obtain rfl := List.mem_singleton.mp he
      rfl

theorem Noted.deliver (h : Noted q l) (r : Ref) (id : String) (hheap : q'.heap = q.heap) (hnext : q'.next = q.next) :
    Noted q' (l.deliver r id) where
  lt_next e he := hnext ▸ h.lt_next e he
  acked_lt r hr := hnext ▸ h.acked_lt r hr
  mode e he := hheap ▸ h.mode e he
  payload e he hacked := hheap ▸ h.payload e he hacked

theorem Noted.settle (h : Noted q l) (id : String) (hr : r < q.next) (hnext : q'.next = q.next)
    (hother : ∀ r' ≠ r, (q'.heap r').payload = (q.heap r').payload)
    (hmode : (q'.heap r).payload.deliveryMode = (q.heap r).payload.deliveryMode) : Noted q' (l.settle (some r) id) where
  lt_next e he := hnext ▸ h.lt_next e he
  acked_lt r' hr' := by
    rw [hnext]
    rcases List.mem_append.mp hr' with hr' | hr'
    · exact h.acked_lt r' hr'
    · obtain rfl := List.mem_singleton.mp hr'
      exact hr
  mode e he := by
    by_cases her : e.1 = r
    · rw [← h.mode e he, her, hmode]
    · rw [hother _ her]
      exact h.mode e he
  payload e he hacked := by
    simp only [Ledger.settle, Option.toList_some, List.mem_append, List.mem_singleton, not_or] at hacked
    rw [hother _ hacked.2]
    exact h.payload e he hacked.1

theorem Noted.settle_none (h : Noted q l) (id : String) : Noted q (l.settle none id) where
  lt_next := h.lt_next
  acked_lt r hr := h.acked_lt r (by simpa [Ledger.settle] using hr)
  mode := h.mode
  payload e he hacked := h.payload e he (by simpa [Ledger.settle] using hacked)

/-- Nothing durable is owed under the reference of an undurable message. -/
theorem Noted.owed_settle_of_undurable (h : Noted q l) (id : String) (hmode : (q.heap r).isDurable = false) :
    (l.settle (some r) id).owed = l.owed := by
  rw [Ledger.owed_settle, List.filter_eq_self]
  intro e he
  obtain ⟨hmem, hdue⟩ := List.mem_filter.mp he
  rw [Bool.and_eq_true, decide_eq_true_eq] at hdue
  refine decide_eq_true fun her => ?_
  rw [Message.isDurable, ← her, h.mode e hmem, hdue.1] at hmode
  cases hmode

end

/-! ### Steps -/

/-- The step writes to the data file. -/
def StoreOp.writes (q : QueueMessage) : StoreOp → Bool
  | .insert bp uuid body queueDurable => (QueueMessage.makeMessage bp uuid body queueDurable).isDurable
  | .front => false
  | .remove msgId =>
    match q.waitAckMsgs.lookup msgId with
    | none => false
    | some r => (q.heap r).isDurable
  | .restart => true

/-- The steps after which the next restart recovers what is due, on a file that ends in `torn`. -/
def StoreOp.harmless (torn : Bytes) (q : QueueMessage) : StoreOp → Bool
  | .remove msgId => if torn.isEmpty then q.gcReady msgId else !(StoreOp.remove msgId).writes q
  | .restart => false
  | op => torn.isEmpty || !op.writes q

namespace Store
variable {pb : PayloadCodec} {baseDir qname : String} {ps : List Payload} {torn : Bytes} {s : Store} {lay : List Slot}
  {l : Ledger}

/-- The records of the data file belong to the messages that are owed. -/
structure Owing (pb : PayloadCodec) (baseDir qname : String) (s : Store) (lay : List Slot) (l : Ledger) : Prop where
  mapper : s.queue.mapper = .files baseDir qname
  dir : s.disk.isDir (MessageMapper.directory baseDir) = true
  inv : Inv pb s.disk s.queue lay
  noted : Noted s.queue l
  owners : owners lay = l.owed.map (·.1)

theorem Owing.payloads (h : Owing pb baseDir qname s lay l) :
    (HareMQ.owners lay).map (fun r => (s.queue.heap r).payload) = l.due := by
  rw [h.owners, List.map_map]
  refine List.map_congr_left fun e he => ?_
  obtain ⟨hmem, hdue⟩ := List.mem_filter.mp he
  rw [Bool.and_eq_true, decide_eq_true_eq, decide_eq_true_eq] at hdue
  exact h.noted.payload e hmem hdue.2

/-- The next restart recovers what is due. -/
theorem Owing.boot (h : Owing pb baseDir qname s lay l) : ∃ s', Store.boot pb s.disk baseDir qname = some s' ∧
    s'.queue.msgs.map (fun r => (s'.queue.heap r).payload) = l.due := by
  have hfile := h.inv.core.file
  rw [h.mapper] at hfile
  obtain ⟨s', lay', hboot, h', -, -⟩ := boot_of_file h.inv.core.calm h.dir hfile h.inv.core.size h.inv.core.small_live
    h.inv.core.layout.stored
  refine ⟨s', hboot, ?_⟩
  rw [h'.recovered.msgs, h'.recovered.payloads, live_map_payload h.inv.core.layout.flagged,
    h.inv.core.layout.kept_payloads, h.payloads]

theorem Owing.step (h : Owing pb baseDir qname s lay l) {op : StoreOp} (hharmless : op.harmless [] s.queue = true)
    (hsmall : ∀ reply s', s.step pb op = some (reply, s') → FileHelper.size s'.disk s'.queue.mapper.dataFile < 2 ^ 32) :
    ∃ reply s' lay', s.step pb op = some (reply, s') ∧
      Owing pb baseDir qname s' lay' (l.note s.queue s'.queue op reply) := by
  have hdirs : ∀ d' : Disk, d'.dirs = s.disk.dirs → d'.isDir (MessageMapper.directory baseDir) = true := by
    intro d' hd
    rw [Disk.isDir_congr hd]
    exact h.dir
  cases op with
  | insert bp uuid body queueDurable =>
    obtain ⟨q', d', hins, hd, hrest⟩ := h.inv.insert bp uuid body queueDurable
    have hstep : s.step pb (.insert bp uuid body queueDurable) = some (.done true, { s with queue := q', disk := d' }) := by
      rw [step_insert, hins]
    obtain ⟨lay', hinv', hi⟩ := hrest (hsmall _ _ hstep)
    refine ⟨_, _, lay', hstep, hi.mapper.trans h.mapper, hdirs d' hd, hinv',
      h.noted.accept (fun r hr => hi.old r (Nat.ne_of_lt hr)) hi.next, ?_⟩
    -- A durable message owns the new record, and is owed from now on.
    have hmode : (q'.heap s.queue.next).payload.deliveryMode =
        (QueueMessage.makeMessage bp uuid body queueDurable).payload.deliveryMode := by
      rw [hi.payload, stored]
      split <;> rfl
    rw [hi.owners]
    split
    · next hdurable =>
      have hdurable' : (q'.heap s.queue.next).payload.deliveryMode = .durable := by
        rw [hmode]
        exact of_decide_eq_true hdurable
      show _ = ((l.accept _ _).owed).map _
      rw [Ledger.owed_accept hdurable' fun hmem => Nat.lt_irrefl _ (h.noted.acked_lt _ hmem), List.map_append, ← h.owners]
      rfl
    · next hdurable =>
      have hdurable' : (q'.heap s.queue.next).payload.deliveryMode ≠ .durable := by
        rw [hmode]
        exact fun heq => hdurable (decide_eq_true heq)
      show _ = ((l.accept _ _).owed).map _
      rw [Ledger.owed_accept_of_ne hdurable', h.owners]
  | front =>
    have hnote : Noted s.queue.front.2 (l.note s.queue s.queue.front.2 .front (.message none)) ∧
        HareMQ.owners lay = (l.note s.queue s.queue.front.2 .front (.message none)).owed.map (·.1) := by
      cases hq : s.queue.msgs with
      | nil =>
        simp only [Ledger.note, hq, QueueMessage.front]
        exact ⟨h.noted, h.owners⟩
      | cons r rest =>
        simp only [Ledger.note, hq]
        exact ⟨h.noted.deliver r _ (by rw [front_eq hq]) (by rw [front_eq hq]), h.owners⟩
    exact ⟨_, { s with queue := s.queue.front.2 }, lay, rfl, s.queue.front_mapper.trans h.mapper, h.dir, h.inv.front,
      hnote.1, hnote.2⟩
  | remove msgId =>
    obtain ⟨q', d', lay', hrem, hinv', hr, hd⟩ := h.inv.remove msgId (h.inv.gcReady hharmless)
    have hnote : Noted q' (l.settle (s.queue.waitAckMsgs.lookup msgId) msgId) ∧
        HareMQ.owners lay' = (l.settle (s.queue.waitAckMsgs.lookup msgId) msgId).owed.map (·.1) := by
      cases hr with
      | absent hnone hq hlay =>
        rw [hnone, hq, hlay, Ledger.owed_settle_none]
        exact ⟨h.noted.settle_none msgId, h.owners⟩
      | plain r hwait hmode hq hlay =>
        obtain ⟨-, hlt, -⟩ := h.inv.books.waits hwait
        rw [hwait, hlay, h.noted.owed_settle_of_undurable msgId hmode, hq]
        exact ⟨h.noted.settle msgId hlt rfl (fun _ _ => rfl) rfl, h.owners⟩
      | durable r hwait howner howners hmapper hmsgs hwaits hdurable hnext hpayload hcontent =>
        obtain ⟨-, hlt, -⟩ := h.inv.books.waits hwait
        rw [hwait]
        refine ⟨h.noted.settle msgId hlt hnext hpayload (by rw [hcontent]; rfl), ?_⟩
        rw [howners, h.inv.core.layout.nodup.erase_eq_filter, h.owners, Ledger.owed_settle, List.filter_map]
        refine congrArg _ (List.filter_congr fun e _ => ?_)
        rw [Bool.eq_iff_iff, Function.comp_apply, bne_iff_ne, decide_eq_true_iff]
    exact ⟨.done true, { s with queue := q', disk := d' }, lay', by rw [step_remove, hrem]; rfl,
      hr.mapper.trans h.mapper, hdirs d' hd, hinv', hnote.1, hnote.2⟩
  | restart => cases hharmless

/-- A data file that ends in a proper prefix of a frame. -/
structure TornFile (pb : PayloadCodec) (baseDir qname : String) (ps : List Payload) (torn : Bytes) (d : Disk) : Prop where
  calm : d.Calm
  dir : d.isDir (MessageMapper.directory baseDir) = true
  file : d.file? (MessageMapper.files baseDir qname).dataFile = some (encode pb ps ++ torn)
  cut : ∃ p, torn <+: frame (pb.serialize p) ∧ torn ≠ frame (pb.serialize p) ∧
    (encode pb ps ++ frame (pb.serialize p)).length < 2 ^ 64
  stored : Stored ps

variable {d : Disk}

theorem TornFile.size (h : TornFile pb baseDir qname ps torn d) : (encode pb ps).length < 2 ^ 64 := by
  obtain ⟨p, -, -, hsize⟩ := h.cut
  rw [List.length_append] at hsize
  omega

/-- The restart recovers the complete valid records, and leaves a file with a nonempty prefix as it is. -/
theorem TornFile.boot (h : TornFile pb baseDir qname ps torn d) :
    ∃ s, Store.boot pb d baseDir qname = some s ∧ s.queue.mapper = .files baseDir qname ∧
      s.queue.msgs.map (fun r => (s.queue.heap r).payload) = live ps ∧ s.queue.waitAckMsgs = ∅ ∧
      (∀ r ∈ s.queue.msgs, r < s.queue.next) ∧ (torn ≠ [] → s.disk = d) ∧
      (torn = [] → s.disk.file? (MessageMapper.files baseDir qname).dataFile = some (encode pb (live ps))) := by
  obtain ⟨p, hprefix, hproper, hsize⟩ := h.cut
  have hgc : ∃ lst d', (MessageMapper.files baseDir qname).gc pb d = (lst, d') ∧ lst.map (·.payload) = live ps ∧
      (torn ≠ [] → d' = d) ∧
      (torn = [] → d'.file? (MessageMapper.files baseDir qname).dataFile = some (encode pb (live ps))) := by
    by_cases hne : torn = []
    · subst hne
      have hf := h.file
      rw [List.append_nil] at hf
      obtain ⟨d', hgc, hcomp, -⟩ := MessageMapper.gc_eq pb h.calm (MessageMapper.files_names baseDir qname) hf h.size
      exact ⟨_, d', hgc, map_payload_placedFrom pb 0 _, fun hne => absurd rfl hne, fun _ => hcomp.data⟩
    · refine ⟨_, d, MessageMapper.gc_torn h.calm h.file hsize hprefix hne hproper, ?_, fun _ => rfl, fun heq => absurd heq hne⟩
      rw [List.map_map]
      exact List.map_id _
  obtain ⟨lst, d', hgc, hpayloads, hdisk⟩ := hgc
  have hkeeps := QueueMessage.foldl_adopt_keeps lst { mapper := .files baseDir qname } nofun
  have hpending := QueueMessage.pending_foldl_adopt lst { mapper := .files baseDir qname } nofun
  refine ⟨{ baseDir, qname, disk := d', queue := { lst.foldl QueueMessage.adopt { mapper := .files baseDir qname } with
    validCount := lst.length, totalCount := lst.length } }, ?_, hkeeps.1, ?_, hkeeps.2.1, hkeeps.2.2, hdisk⟩
  · rw [Store.boot, MessageMapper.new_of_isDir h.dir,
      MessageMapper.createMsgFile_of_file (MessageMapper.dataFile_ne baseDir qname) h.file]
    simp only [QueueMessage.recovery, hgc]
  · rw [← hpayloads]
    have := congrArg (List.map (·.payload)) hpending
    rwa [QueueMessage.pending, List.map_map] at this

/-- The state while nothing is written behind the prefix. -/
structure Untouched (pb : PayloadCodec) (baseDir qname : String) (ps : List Payload) (torn : Bytes) (s : Store)
    (l : Ledger) : Prop where
  file : TornFile pb baseDir qname ps torn s.disk
  noted : Noted s.queue l
  waits : ∀ id r, s.queue.waitAckMsgs.lookup id = some r → r < s.queue.next
  msgs : ∀ r ∈ s.queue.msgs, r < s.queue.next
  due : l.due = live ps

theorem Untouched.step (h : Untouched pb baseDir qname ps torn s l) (hne : torn ≠ []) {op : StoreOp}
    (hharmless : op.harmless torn s.queue = true) :
    ∃ reply s', s.step pb op = some (reply, s') ∧
      Untouched pb baseDir qname ps torn s' (l.note s.queue s'.queue op reply) := by
  have htorn : torn.isEmpty = false := by simpa using hne
  cases op with
  | insert bp uuid body queueDurable =>
    simp only [StoreOp.harmless, htorn, Bool.false_or, StoreOp.writes, Bool.not_eq_true'] at hharmless
    have hins : s.queue.insert pb bp uuid body queueDurable s.disk = _ := insert_undurable hharmless
    have hstep := congrArg (fun x => some (Reply.done x.1, { s with queue := x.2.1, disk := x.2.2 })) hins
    refine ⟨.done true, _, hstep, h.file, h.noted.accept (fun r hr => ?_) rfl, ?_, ?_, ?_⟩
    · exact Function.update_of_ne (Nat.ne_of_lt hr) _ _
    · exact fun id r hr => Nat.lt_succ_of_lt (h.waits id r hr)
    · intro r hr
      rcases List.mem_append.mp hr with hr | hr
      · exact Nat.lt_succ_of_lt (h.msgs r hr)
      · exact List.mem_singleton.mp hr ▸ Nat.lt_succ_self _
    · have hmode : (Function.update s.queue.heap s.queue.next (QueueMessage.makeMessage bp uuid body queueDurable)
          s.queue.next).payload.deliveryMode ≠ .durable := by
        rw [Function.update_self]
        exact of_decide_eq_false hharmless
      exact (Ledger.due_congr (Ledger.owed_accept_of_ne hmode)).trans h.due
  | front =>
    cases hq : s.queue.msgs with
    | nil =>
      refine ⟨_, s, by rw [step_front, show s.queue.front = (none, s.queue) by simp only [QueueMessage.front, hq]], ?_⟩
      simp only [Ledger.note, hq]
      exact h
    | cons r rest =>
      have hr : r < s.queue.next := h.msgs r (hq ▸ List.mem_cons_self)
      refine ⟨_, _, by rw [step_front, front_eq hq], ?_⟩
      simp only [Ledger.note, hq]
      refine ⟨h.file, h.noted.deliver r _ rfl rfl, fun id r' hr' => ?_,
        fun r' hr' => h.msgs r' (hq ▸ List.mem_cons_of_mem _ hr'), h.due⟩
      rcases UMap.lookup_emplace_eq_some hr' with hr' | ⟨-, -, rfl⟩
      · exact h.waits id r' hr'
      · exact hr
  | remove msgId =>
    simp only [StoreOp.harmless, htorn, Bool.false_eq_true, if_false, StoreOp.writes] at hharmless
    cases hwait : s.queue.waitAckMsgs.lookup msgId with
    | none =>
      refine ⟨.done true, s, by simp only [step_remove, QueueMessage.remove, hwait, Option.map_some], ?_⟩
      simp only [Ledger.note, hwait]
      exact ⟨h.file, h.noted.settle_none msgId, h.waits, h.msgs, (Ledger.due_congr (Ledger.owed_settle_none msgId)).trans h.due⟩
    | some r =>
      simp only [hwait, Bool.not_eq_true'] at hharmless
      refine ⟨.done true, { s with queue := { s.queue with waitAckMsgs := s.queue.waitAckMsgs.erase msgId } },
        by
          simp only [step_remove, QueueMessage.remove, hwait, hharmless, Bool.false_eq_true, if_false, Option.map_some], ?_⟩
      simp only [Ledger.note, hwait]
      refine ⟨h.file, h.noted.settle msgId (h.waits _ r hwait) rfl (fun _ _ => rfl) rfl,
        fun id r' hr' => h.waits id r' (UMap.lookup_erase_eq_some hr').2, h.msgs, ?_⟩
      exact (Ledger.due_congr (h.noted.owed_settle_of_undurable msgId hharmless)).trans h.due
  | restart => cases hharmless

theorem Owing.audit : ∀ (ops : List StoreOp) {s : Store} {lay : List Slot} {l : Ledger},
    Owing pb baseDir qname s lay l → s.meets pb (fun q op => op.harmless [] q) ops = true → s.below4GiB pb ops = true →
    ∃ s' l' lay', s.audit pb l ops = some (s', l') ∧ Owing pb baseDir qname s' lay' l'
  | [], s, lay, l, h, _, _ => ⟨s, l, lay, rfl, h⟩
  | op :: ops, s, lay, l, h, hmeets, hsmall => by
    simp only [meets, Bool.and_eq_true] at hmeets
    simp only [below4GiB, Bool.and_eq_true] at hsmall
    obtain ⟨reply, s₁, lay₁, hstep, h₁⟩ := h.step hmeets.1 fun reply s' hs => by
      rw [hs] at hsmall
      exact below4GiB_head hsmall.2
    rw [hstep] at hmeets hsmall
    obtain ⟨s₂, l₂, lay₂, haudit, h₂⟩ := Owing.audit ops h₁ hmeets.2 hsmall.2
    exact ⟨s₂, l₂, lay₂, by rw [Store.audit, hstep]; exact haudit, h₂⟩

theorem Untouched.audit (hne : torn ≠ []) : ∀ (ops : List StoreOp) {s : Store} {l : Ledger},
    Untouched pb baseDir qname ps torn s l → s.meets pb (fun q op => op.harmless torn q) ops = true →
    ∃ s' l', s.audit pb l ops = some (s', l') ∧ Untouched pb baseDir qname ps torn s' l'
  | [], s, l, h, _ => ⟨s, l, rfl, h⟩
  | op :: ops, s, l, h, hmeets => by
    simp only [meets, Bool.and_eq_true] at hmeets
    obtain ⟨reply, s₁, hstep, h₁⟩ := h.step hne hmeets.1
    rw [hstep] at hmeets
    obtain ⟨s₂, l₂, haudit, h₂⟩ := Untouched.audit hne ops h₁ hmeets.2
    exact ⟨s₂, l₂, by rw [Store.audit, hstep]; exact haudit, h₂⟩

/-- What was recovered is noted, and owed when it is durable. -/
theorem openingLedger_noted (hlt : ∀ r ∈ s.queue.msgs, r < s.queue.next) : Noted s.queue s.openingLedger := by
  refine ⟨fun e he => ?_, nofun, fun e he => ?_, fun e he _ => ?_⟩
  all_goals
    obtain ⟨r, hr, rfl⟩ := List.mem_map.mp he
  · exact hlt r hr
  · rfl
  · rfl

theorem openingLedger_owed (hdurable : ∀ r ∈ s.queue.msgs, (s.queue.heap r).payload.deliveryMode = .durable) :
    s.openingLedger.owed = s.queue.msgs.map fun r => (r, (s.queue.heap r).payload) := by
  refine List.filter_eq_self.mpr fun e he => ?_
  obtain ⟨r, hr, rfl⟩ := List.mem_map.mp he
  simp [openingLedger, hdurable r hr]

/-- **Torn appends.** The restart recovers the complete valid records; and after a run whose steps are all harmless the
    next restart recovers the durable messages that were accepted and not acknowledged. -/
theorem torn_recovered (h : TornFile pb baseDir qname ps torn d) :
    ∃ s, Store.boot pb d baseDir qname = some s ∧ s.queue.msgs.map (fun r => (s.queue.heap r).payload) = live ps ∧
      ∀ ops, s.meets pb (fun q op => op.harmless torn q) ops = true → s.below4GiB pb ops = true →
        ∃ s' l s'', s.audit pb s.openingLedger ops = some (s', l) ∧ Store.boot pb s'.disk baseDir qname = some s'' ∧
          s''.queue.msgs.map (fun r => (s''.queue.heap r).payload) = l.due := by
  obtain ⟨s, hboot, hmapper, hpayloads, hwaits, hlt, hdisk, hcompacted⟩ := h.boot
  refine ⟨s, hboot, hpayloads, fun ops hmeets hsmall => ?_⟩
  have hdurable : ∀ r ∈ s.queue.msgs, (s.queue.heap r).payload.deliveryMode = .durable := by
    intro r hr
    have hmem : (s.queue.heap r).payload ∈ live ps := hpayloads ▸ List.mem_map_of_mem hr
    obtain ⟨hps, hvalid⟩ := List.mem_filter.mp hmem
    exact ((h.stored _ hps).resolve_left (by simpa using hvalid)).2
  have howed := openingLedger_owed hdurable
  by_cases hne : torn = []
  · subst hne
    have hf := h.file
    rw [List.append_nil] at hf
    have hlive : (encode pb (live ps)).length < 2 ^ 32 := by
      have hhead := below4GiB_head hsmall
      rwa [hmapper, FileHelper.size_eq (hcompacted rfl)] at hhead
    obtain ⟨s₀, lay, hboot₀, hopen, hbase, hname⟩ := boot_of_file h.calm h.dir hf h.size hlive h.stored
    rw [hboot, Option.some.injEq] at hboot₀
    subst hboot₀ hbase hname
    have howing : Owing pb s.baseDir s.qname s lay s.openingLedger := by
      refine ⟨hmapper, hopen.dir, hopen.inv, openingLedger_noted hlt, ?_⟩
      rw [howed, List.map_map, ← hopen.recovered.msgs]
      exact (List.map_id _).symm
    obtain ⟨s', l, lay', haudit, h'⟩ := Owing.audit ops howing hmeets hsmall
    obtain ⟨s'', hboot'', hpayloads''⟩ := h'.boot
    exact ⟨s', l, s'', haudit, hboot'', hpayloads''⟩
  · have hopen : Untouched pb baseDir qname ps torn s s.openingLedger := by
      refine ⟨hdisk hne ▸ h, openingLedger_noted hlt, fun id r hr => ?_, hlt, ?_⟩
      · rw [hwaits] at hr
        cases hr
      · rw [Ledger.due, howed, List.map_map]
        exact hpayloads
    obtain ⟨s', l, haudit, h'⟩ := Untouched.audit hne ops hopen hmeets
    obtain ⟨s'', hboot'', -, hpayloads'', -⟩ := h'.file.boot
    exact ⟨s', l, s'', haudit, hboot'', hpayloads''.trans h'.due.symm⟩

/-- The first byte of one more record. -/
def firstByte : Bytes := (frame (protobuf.serialize lone)).take 1

def tornDisk : Disk :=
  .ofFiles (fun p => if p = resolve "data/q.mqd" then some (encode protobuf [lone] ++ firstByte) else none)
    fun p => p = resolve "data"

theorem tornDisk_torn : TornFile protobuf "data" "q" [lone] firstByte tornDisk :=
  ⟨by decide, by decide +kernel, by decide +kernel,
    ⟨lone, List.take_prefix _ _, by decide +kernel, by decide +kernel⟩, fun p hp => by
      rw [List.mem_singleton.mp hp]
      exact Or.inr ⟨rfl, rfl⟩⟩

/-- Nothing durable is inserted or acknowledged. -/
def passing : List StoreOp := [.insert (some ⟨"b", .undurable, "k"⟩) "" "y" true, .front, .front, .remove "b"]

theorem torn_recovered_passing : ∃ s s' l s'', Store.boot protobuf tornDisk "data" "q" = some s ∧
    s.queue.msgs.map (fun r => (s.queue.heap r).payload) = [lone] ∧
    s.audit protobuf s.openingLedger passing = some (s', l) ∧ Store.boot protobuf s'.disk "data" "q" = some s'' ∧
    s''.queue.msgs.map (fun r => (s''.queue.heap r).payload) = l.due := by
  obtain ⟨s, hboot, hpayloads, hruns⟩ := torn_recovered tornDisk_torn
  have hcond : (Store.boot protobuf tornDisk "data" "q").all (fun s =>
      s.meets protobuf (fun q op => op.harmless firstByte q) passing && s.below4GiB protobuf passing) = true := by
    decide +kernel
  rw [hboot, Option.all_some, Bool.and_eq_true] at hcond
  obtain ⟨s', l, s'', haudit, hboot'', hdue⟩ := hruns passing hcond.1 hcond.2
  exact ⟨s, s', l, s'', hboot, hpayloads, haudit, hboot'', hdue⟩

/-- A durable message that is accepted behind one torn byte is gone at the next restart. -/
theorem torn_lost : TornFile protobuf "data" "q" [lone] firstByte tornDisk ∧
    ∃ s s' l s'', Store.boot protobuf tornDisk "data" "q" = some s ∧
      s.audit protobuf s.openingLedger [.insert none "b" "y" true] = some (s', l) ∧
      Store.boot protobuf s'.disk "data" "q" = some s'' ∧
      s''.queue.msgs.map (fun r => (s''.queue.heap r).payload) = [lone] ∧
      l.due.map (·.body) = ["x", "y"] := by
  have hrun : (Store.boot protobuf tornDisk "data" "q").any (fun s =>
      (s.audit protobuf s.openingLedger [.insert none "b" "y" true]).any fun (s', l) =>
        (Store.boot protobuf s'.disk "data" "q").any fun s'' =>
          s''.queue.msgs.map (fun r => (s''.queue.heap r).payload) = [lone] && l.due.map (·.body) = ["x", "y"]) = true := by
    decide +kernel
  obtain ⟨s, hs, hrun⟩ := (Option.any_eq_true _ _).mp hrun
  obtain ⟨⟨s', l⟩, hl, hrun⟩ := (Option.any_eq_true _ _).mp hrun
  obtain ⟨s'', hs'', hrun⟩ := (Option.any_eq_true _ _).mp hrun
  rw [Bool.and_eq_true, decide_eq_true_eq, decide_eq_true_eq] at hrun
  exact ⟨tornDisk_torn, s, s', l, s'', hs, hl, hs'', hrun.1, hrun.2⟩

end Store
end HareMQ
