import HareMQ.Theorems.Store

/-! # Bounded garbage

A compaction is considered only when a durable message is acknowledged, and then it leaves no invalid record. In between
an insertion adds a valid record, so that the invalid ones never outgrow the valid ones by more than the threshold. -/

namespace HareMQ
open Lib

namespace QueueMessage
variable {pb : PayloadCodec} {q q' : QueueMessage} {d d' : Disk}

/-- At most the threshold more than twice the valid records. -/
def Compact (q : QueueMessage) : Prop := q.totalCount ≤ 2 * q.validCount + 2000

theorem gcCheck_eq_false : q.gcCheck = false ↔ q.totalCount ≤ 2000 ∨ q.totalCount ≤ 2 * q.validCount := by
  simp only [gcCheck, Bool.and_eq_false_iff, decide_eq_false_iff_not, Nat.not_lt]

theorem Compact.of_gcCheck (h : q.gcCheck = false) : q.Compact := by
  unfold Compact
  have := gcCheck_eq_false.mp h
  omega

/-- When `gc` returns there is nothing left to collect. -/
theorem gc_gcCheck (h : q.gc pb d = some (q', d')) : q'.gcCheck = false := by
  unfold gc at h
  split at h
  · split at h
    dsimp only at h
    split at h
    · cases h
      exact gcCheck_eq_false.mpr (Or.inr (Nat.le_mul_of_pos_left _ Nat.two_pos))
    · cases h
  · next hcheck =>
    cases h
    exact Bool.eq_false_iff.mpr hcheck

/-- The acknowledgement of a durable message asks `gc`. -/
theorem remove_gcCheck {msgId : String} {r : Ref} (hwait : q.waitAckMsgs.lookup msgId = some r)
    (hmode : (q.heap r).isDurable = true) (h : q.remove pb msgId d = some (q', d')) : q'.gcCheck = false := by
  simp only [remove, hwait, hmode, if_true] at h
  cases hgc : (q.invalidate pb msgId r d).1.gc pb (q.invalidate pb msgId r d).2 with
  | none =>
    rw [hgc] at h
    cases h
  | some p =>
    rw [hgc] at h
    cases h
    have hcheck : p.1.gcCheck = false := gc_gcCheck hgc
    exact hcheck

theorem remove_compact {msgId : String} (hq : q.Compact) (h : q.remove pb msgId d = some (q', d')) : q'.Compact := by
  cases hwait : q.waitAckMsgs.lookup msgId with
  | none =>
    simp only [remove, hwait, Option.some.injEq] at h
    cases h
    exact hq
  | some r =>
    cases hmode : (q.heap r).isDurable with
    | true => exact .of_gcCheck (remove_gcCheck hwait hmode h)
    | false =>
      simp only [remove, hwait, hmode, Bool.false_eq_true, if_false, Option.some.injEq] at h
      cases h
      exact hq

theorem front_compact (hq : q.Compact) : q.front.2.Compact := by
  unfold front
  split
  · exact hq
  · exact hq

/-- An insertion counts a record as valid and in total, or not at all. -/
theorem insert_compact (hq : q.Compact) (htotal : q.totalCount + 1 < 2 ^ 64) (hvalid : q.validCount + 1 < 2 ^ 64)
    (bp : Option BasicProperties) (uuid body : String) (queueDurable : Bool) :
    (q.insert pb bp uuid body queueDurable d).2.1.Compact := by
  unfold Compact at hq ⊢
  unfold insert
  dsimp only
  split
  · split
    · exact hq
    · show (q.totalCount + 1) % 2 ^ 64 ≤ 2 * ((q.validCount + 1) % 2 ^ 64) + 2000
      rw [Nat.mod_eq_of_lt htotal, Nat.mod_eq_of_lt hvalid]
      omega
  · exact hq

theorem recovery_compact (q : QueueMessage) (d : Disk) : (q.recovery pb d).1.Compact := by
  show (q.mapper.gc pb d).1.length ≤ 2 * (q.mapper.gc pb d).1.length + 2000
  omega

end QueueMessage

namespace Store
variable {pb : PayloadCodec} {s s' : Store} {lay : List Slot} {used : List String}

theorem boot_compact {d : Disk} {baseDir qname : String} (h : boot pb d baseDir qname = some s) : s.queue.Compact := by
  unfold boot at h
  split at h
  · cases h
  · next mapper d₁ hnew =>
    cases h
    exact QueueMessage.recovery_compact _ d₁

theorem Good.counts (h : s.Good pb lay used) : s.queue.totalCount + 1 < 2 ^ 64 ∧ s.queue.validCount + 1 < 2 ^ 64 := by
  have hspan := length_lay_le_span pb lay
  have howners := length_owners_le lay
  have hsmall := h.inv.core.small
  have htotal := h.inv.core.total
  have hvalid := h.inv.core.valid
  omega

theorem Good.step_compact {op : StoreOp} {reply : Reply} (h : s.Good pb lay used) (hs : s.queue.Compact)
    (hstep : s.step pb op = some (reply, s')) : s'.queue.Compact := by
  cases op with
  | insert bp uuid body queueDurable =>
    cases hstep
    exact QueueMessage.insert_compact hs h.counts.1 h.counts.2 bp uuid body queueDurable
  | front =>
    cases hstep
    exact QueueMessage.front_compact hs
  | remove msgId =>
    rw [step_remove] at hstep
    obtain ⟨qd, hremove, heq⟩ := Option.map_eq_some_iff.mp hstep
    cases heq
    exact QueueMessage.remove_compact hs hremove
  | restart =>
    rw [step_restart] at hstep
    obtain ⟨s', hboot, heq⟩ := Option.map_eq_some_iff.mp hstep
    cases heq
    exact boot_compact hboot

/-- The data file consists of `total` records, `valid` of them valid. -/
def Records (pb : PayloadCodec) (s : Store) (total valid : Nat) : Prop :=
  ∃ ps : List Payload, s.disk.file? s.queue.mapper.dataFile = some (encode pb ps) ∧ ps.length = total ∧
    (ps.filter (·.valid = "1")).length = valid

theorem Good.records (h : s.Good pb lay used) : s.Records pb s.queue.totalCount s.queue.validCount := by
  obtain ⟨ps, htotal, hfile, hvalid⟩ := h.represented.frames
  exact ⟨ps, hfile, htotal, hvalid.symm⟩

/-- **Bounded garbage.** In every state that a run reaches, with distinct ids, the data file holds at most twice as many
    records as are valid, and the threshold. After the acknowledgement of a durable message it holds at most twice as many
    as are valid, or is below the threshold. -/
theorem run_bounded {d : Disk} {baseDir qname : String} (hfresh : MessageMapper.Fresh d baseDir qname)
    (hboot : boot pb d baseDir qname = some s) {ops : List StoreOp} (hids : (ops.filterMap StoreOp.id?).Nodup)
    (hsmall : s.below4GiB pb ops = true) : ∃ obs s', s.run pb ops = some (obs, s') ∧
      (∃ total valid, s'.Records pb total valid ∧ total ≤ 2 * valid + 2000) ∧
      ∀ msgId r, s'.queue.waitAckMsgs.lookup msgId = some r → (s'.queue.heap r).isDurable = true →
        ∃ s'' total valid, s'.step pb (.remove msgId) = some (.done true, s'') ∧ s''.Records pb total valid ∧
          (total ≤ 2000 ∨ total ≤ 2 * valid) := by
  obtain ⟨lay, hgood, hmodels⟩ := boot_good hfresh hboot
  obtain ⟨s', lay', used', hrun, h', hcompact⟩ := hgood.run_keeps (P := fun s => s.queue.Compact) Good.step_compact ops
    hmodels hids (fun _ _ => List.not_mem_nil) hsmall (boot_compact hboot)
  refine ⟨_, s', hrun, ⟨_, _, h'.records, hcompact⟩, ?_⟩
  intro msgId r hwait hmode
  obtain ⟨s'', lay'', hstep, h'', -⟩ := h'.remove msgId
  refine ⟨s'', _, _, hstep, h''.records, QueueMessage.gcCheck_eq_false.mp ?_⟩
  rw [step_remove] at hstep
  obtain ⟨qd, hremove, heq⟩ := Option.map_eq_some_iff.mp hstep
  cases heq
  exact QueueMessage.remove_gcCheck hwait hmode hremove

theorem run_bounded_sample : ∃ s obs s', boot protobuf vacant "data" "q" = some s ∧
    s.run protobuf sample = some (obs, s') ∧
    ∃ total valid, s'.Records protobuf total valid ∧ total ≤ 2 * valid + 2000 := by
  obtain ⟨s, hs, hsmall⟩ := exists_boot_vacant
  obtain ⟨obs, s', hrun, hbound, -⟩ := run_bounded vacant_fresh hs (by decide) hsmall
  exact ⟨s, obs, s', hs, hrun, hbound⟩

end Store
end HareMQ
