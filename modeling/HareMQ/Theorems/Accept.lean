import HareMQ.Theorems.Faults
import HareMQ.Theorems.Publish

/-! # Which queues accept a message

An insertion into a queue succeeds exactly when a transient message is inserted, or the data file is there and the two
file operations report no failure; then the next queue of the loop of `basic_publish` finds the rest of the outcomes. -/

namespace HareMQ
open Lib

namespace QueueMessage
variable (pb : PayloadCodec)

/-- The number of file operations of an insertion. -/
def cost (bp : Option BasicProperties) (uuid body : String) (queueDurable : Bool) : Nat :=
  if (makeMessage bp uuid body queueDurable).isDurable then 2 else 0

/-- The data file is there, if the insertion needs it. -/
def fits (q : QueueMessage) (bp : Option BasicProperties) (uuid body : String) (queueDurable : Bool) (d : Disk) : Bool :=
  !(makeMessage bp uuid body queueDurable).isDurable || (d.file? q.mapper.dataFile).isSome

theorem insertInto_ok {name : String} {d : Disk} (hf : (d.file? name).isSome) (hpasses : d.passes 2 = true) (msg : Message) :
    ∃ msg' d', MessageMapper.insertInto pb name msg d = (true, msg', d') ∧ d.Spent 2 d' := by
  have honly := MessageMapper.insertInto_only pb name msg d
  have hreport := MessageMapper.insertInto_passes pb hf msg
  obtain ⟨⟨ok, msg', d'⟩, hinsert⟩ : ∃ x, MessageMapper.insertInto pb name msg d = x := ⟨_, rfl⟩
  rw [hinsert] at honly hreport ⊢
  obtain ⟨hfates, hf'⟩ := hreport.2 hpasses
  refine ⟨msg', d', by rw [show ok = true from hreport.1.trans hpasses], hfates, fun other => ?_⟩
  by_cases hr : resolve other = resolve name
  · rw [Disk.file?, Disk.file?, hr]
    exact hf'.trans hf.symm
  · rw [honly.file?_eq fun h => hr (List.mem_singleton.mp h)]

variable {q : QueueMessage} {bp : Option BasicProperties} {uuid body : String} {queueDurable : Bool} {d : Disk}

theorem insert_accepts (hfits : q.fits bp uuid body queueDurable d = true)
    (hpasses : d.passes (cost bp uuid body queueDurable) = true) :
    ∃ q' d', q.insert pb bp uuid body queueDurable d = (true, q', d') ∧
      Appended q q' (makeMessage bp uuid body queueDurable) ∧ d.Spent (cost bp uuid body queueDurable) d' := by
  suffices h : ∃ q' d', q.insert pb bp uuid body queueDurable d = (true, q', d') ∧
      d.Spent (cost bp uuid body queueDurable) d' by
    rcases h with ⟨q', d', hins, hspent⟩
    refine ⟨q', d', hins, ?_, hspent⟩
    exact (insert_cases hins).elim (fun hfalse => nomatch hfalse.1) And.right
  unfold cost at hpasses ⊢
  cases hmode : (makeMessage bp uuid body queueDurable).isDurable with
  | false => exact ⟨_, d, insert_undurable hmode, rfl, fun _ => rfl⟩
  | true =>
    rw [hmode, if_pos rfl] at hpasses
    rw [fits, hmode, Bool.not_true, Bool.false_or] at hfits
    rcases insertInto_ok pb hfits hpasses { (makeMessage bp uuid body queueDurable) with
      payload := (makeMessage bp uuid body queueDurable).payload.setValid "1" } with ⟨msg', d', hins, hspent⟩
    exact ⟨_, d', by simp only [insert, hmode, if_true, MessageMapper.insert, hins]; rfl, hspent⟩

theorem insert_rejects (h : ¬(q.fits bp uuid body queueDurable d = true ∧ d.passes (cost bp uuid body queueDurable) = true)) :
    ∃ d', q.insert pb bp uuid body queueDurable d = (false, q, d') := by
  unfold cost at h
  cases hmode : (makeMessage bp uuid body queueDurable).isDurable with
  | false =>
    rw [hmode, fits, hmode] at h
    exact absurd ⟨rfl, rfl⟩ h
  | true =>
    rw [hmode, if_pos rfl, fits, hmode, Bool.not_true, Bool.false_or] at h
    have hins := MessageMapper.insertInto_failed pb h { (makeMessage bp uuid body queueDurable) with
      payload := (makeMessage bp uuid body queueDurable).payload.setValid "1" }
    simp only [insert, hmode, if_true, MessageMapper.insert]
    split
    · exact ⟨_, rfl⟩
    · next heq =>
      rw [heq] at hins
      cases hins

end QueueMessage

/-! ### The loop -/

namespace Broker
variable {b b' : Broker} {req : BasicPublishRequest} {qname : String}

/-- The queue has the message of the request now, as its last one. -/
def Accepted (b b' : Broker) (req : BasicPublishRequest) (qname : String) : Prop :=
  ∃ mqp q q' uuid, b.host.mqmp.selectQueue qname = some mqp ∧ b.host.mmp.queueMsgs.lookup qname = some q ∧
    b'.host.mmp.queueMsgs.lookup qname = some q' ∧
    q.Appended q' (QueueMessage.makeMessage req.properties uuid req.body mqp.durable)

/-- The queue is declared, and has its storage and, for a durable copy, its data file. -/
def takes (b : Broker) (req : BasicPublishRequest) (qname : String) : Bool :=
  match b.host.mqmp.selectQueue qname, b.host.mmp.queueMsgs.lookup qname with
  | some mqp, some q => q.fits req.properties "" req.body mqp.durable b.host.disk
  | _, _ => false

/-- The number of file operations for the copy of this queue. -/
def cost (b : Broker) (req : BasicPublishRequest) (qname : String) : Nat :=
  match b.host.mqmp.selectQueue qname with
  | none => 0
  | some mqp => QueueMessage.cost req.properties "" req.body mqp.durable

/-- All these queues can take their copies, and the file operations report no failure. -/
def accepts (b : Broker) (req : BasicPublishRequest) (qnames : List String) : Bool :=
  qnames.all (b.takes req) && b.host.disk.passes (qnames.map (b.cost req)).sum

theorem isDurable_makeMessage (bp : Option BasicProperties) (uuid body : String) (queueDurable : Bool) :
    (QueueMessage.makeMessage bp uuid body queueDurable).isDurable =
      (QueueMessage.makeMessage bp "" body queueDurable).isDurable := by
  cases bp <;> rfl

variable (pb : PayloadCodec) (self : ChannelRef) (uuid : String → String)

/-- One round of the loop, of which the other queues notice only the disk. -/
theorem publishTo_accepts (b : Broker) (req : BasicPublishRequest) (qname : String) :
    (b.publishTo pb self req uuid qname).host.mqmp = b.host.mqmp ∧
    (∀ name ≠ qname, (b.publishTo pb self req uuid qname).host.mmp.queueMsgs.lookup name = b.host.mmp.queueMsgs.lookup name) ∧
    ((b.accepts req [qname] = true ∧ Accepted b (b.publishTo pb self req uuid qname) req qname ∧
        b.host.disk.Spent (b.cost req qname) (b.publishTo pb self req uuid qname).host.disk) ∨
      (b.accepts req [qname] = false ∧
        (b.publishTo pb self req uuid qname).host.mmp.queueMsgs.lookup qname = b.host.mmp.queueMsgs.lookup qname)) := by
  have haccepts : b.accepts req [qname] = (b.takes req qname && b.host.disk.passes (b.cost req qname)) := by
    simp only [accepts, List.all_cons, List.all_nil, Bool.and_true, List.map_cons, List.map_nil, List.sum_cons,
      List.sum_nil, Nat.add_zero]
  rw [haccepts]
  unfold publishTo VirtualHost.basicPublish takes cost
  cases hmqp : b.host.mqmp.selectQueue qname with
  | none => exact ⟨rfl, fun _ _ => rfl, Or.inr ⟨rfl, rfl⟩⟩
  | some mqp =>
    unfold MessageManager.insert
    cases hq : b.host.mmp.queueMsgs.lookup qname with
    | none => exact ⟨rfl, fun _ _ => rfl, Or.inr ⟨rfl, hq⟩⟩
    | some q =>
      have hcost : QueueMessage.cost req.properties (uuid qname) req.body mqp.durable =
          QueueMessage.cost req.properties "" req.body mqp.durable := by
        rw [QueueMessage.cost, isDurable_makeMessage, QueueMessage.cost]
      have hfits : q.fits req.properties (uuid qname) req.body mqp.durable b.host.disk =
          q.fits req.properties "" req.body mqp.durable b.host.disk := by
        rw [QueueMessage.fits, isDurable_makeMessage, QueueMessage.fits]
      by_cases hok : q.fits req.properties "" req.body mqp.durable b.host.disk = true ∧
          b.host.disk.passes (QueueMessage.cost req.properties "" req.body mqp.durable) = true
      · rcases QueueMessage.insert_accepts pb (hfits.trans hok.1) (hcost ▸ hok.2) with ⟨q', d', hins, happ, hspent⟩
        simp only [hins]
        refine ⟨trivial, fun name hname => AList.lookup_insert_ne hname, Or.inl ⟨?_, ?_, hcost ▸ hspent⟩⟩
        · rw [hok.1, hok.2]
          rfl
        · exact ⟨mqp, q, q', uuid qname, hmqp, hq, AList.lookup_insert .., happ⟩
      · rcases QueueMessage.insert_rejects pb (hfits ▸ hcost ▸ hok) with ⟨d', hins⟩
        simp only [hins]
        refine ⟨trivial, fun name hname => AList.lookup_insert_ne hname, Or.inr ⟨?_, ?_⟩⟩
        · rw [← Bool.not_eq_true, Bool.and_eq_true]
          exact hok
        · exact AList.lookup_insert ..

theorem accepts_head {qnames : List String} (h : b.accepts req (qname :: qnames) = true) : b.accepts req [qname] = true := by
  simp only [accepts, List.all_cons, List.map_cons, List.sum_cons, Bool.and_eq_true, List.all_nil, List.map_nil,
    List.sum_nil, Nat.add_zero, and_true] at h ⊢
  exact ⟨h.1.1, Disk.passes_of_add h.2⟩

/-- After one queue has accepted its copy, the others find the rest of the outcomes. -/
theorem accepts_cons {qnames : List String} (hmqmp : b'.host.mqmp = b.host.mqmp)
    (hround : ∀ name ∈ qnames, b'.host.mmp.queueMsgs.lookup name = b.host.mmp.queueMsgs.lookup name)
    (hspent : b.host.disk.Spent (b.cost req qname) b'.host.disk) (hfirst : b.accepts req [qname] = true) :
    b.accepts req (qname :: qnames) = b'.accepts req qnames := by
  have htakes : ∀ name ∈ qnames, b'.takes req name = b.takes req name := fun name hname => by
    unfold takes QueueMessage.fits
    rw [hmqmp, hround name hname]
    split
    · rw [hspent.files]
    · rfl
  have hcost : b'.cost req = b.cost req := funext fun name => by rw [cost, hmqmp, cost]
  simp only [accepts, List.all_cons, List.all_nil, Bool.and_true, List.map_cons, List.map_nil, List.sum_cons, List.sum_nil,
    Nat.add_zero, Bool.and_eq_true] at hfirst ⊢
  rw [hfirst.1, Bool.true_and, ← hspent.passes _ hfirst.2, hcost]
  congr 1
  rw [Bool.eq_iff_iff, List.all_eq_true, List.all_eq_true]
  exact forall₂_congr fun name hname => by rw [htakes name hname]

/-- Every queue of the loop accepts its copy exactly when all of them can, on the disk as it was before. -/
theorem foldl_publishTo_accepts (req : BasicPublishRequest) : ∀ (qnames : List String) (b : Broker), qnames.Nodup →
    (∀ name ∉ qnames, (qnames.foldl (fun b qname => b.publishTo pb self req uuid qname) b).host.mmp.queueMsgs.lookup name =
      b.host.mmp.queueMsgs.lookup name) ∧
    ((∀ qname ∈ qnames, Accepted b (qnames.foldl (fun b qname => b.publishTo pb self req uuid qname) b) req qname) ↔
      b.accepts req qnames = true)
  | [], b, _ => by
    refine ⟨fun _ _ => rfl, fun _ => ?_, fun _ _ hmem => by cases hmem⟩
    simp [accepts, Disk.passes]
  | qname :: qnames, b, hnodup => by
    rcases List.nodup_cons.mp hnodup with ⟨hnotin, hnodup⟩
    rcases foldl_publishTo_accepts req qnames (b.publishTo pb self req uuid qname) hnodup with ⟨hothers, hrest⟩
    rcases publishTo_accepts pb self uuid b req qname with ⟨hmqmp, hround, hcases⟩
    refine ⟨fun name hname => ?_, ?_⟩
    · rw [List.foldl_cons, hothers name (fun h => hname (List.mem_cons_of_mem _ h))]
      exact hround name fun h => hname (h ▸ List.mem_cons_self ..)
    · have hkeep := hothers qname hnotin
      rw [List.foldl_cons, List.forall_mem_cons]
      rcases hcases with ⟨hfirst, ⟨mqp, q, q', uuid', hdecl, hq, hq', happ⟩, hspent⟩ | ⟨hfirst, hsame⟩
      · have hround' : ∀ name ∈ qnames, (b.publishTo pb self req uuid qname).host.mmp.queueMsgs.lookup name =
            b.host.mmp.queueMsgs.lookup name := fun name hname => hround name fun h => hnotin (h ▸ hname)
        rw [accepts_cons hmqmp hround' hspent hfirst, ← hrest, and_iff_right ⟨mqp, q, q', uuid', hdecl, hq, hkeep.trans hq', happ⟩]
        refine forall₂_congr fun name hname => ?_
        unfold Accepted
        rw [hmqmp, hround' name hname]
      · refine ⟨fun h => ?_, fun h => ?_⟩
        · rcases h.1 with ⟨mqp, q, q', uuid', -, hq, hq', happ⟩
          rw [hkeep, hsame, hq] at hq'
          cases hq'
          exact absurd happ.msgs (by simp)
        · rw [accepts_head h] at hfirst
          cases hfirst

end Broker
end HareMQ
