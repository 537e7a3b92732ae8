import HareMQ.Theorems.Matching
import Mathlib.Data.List.Perm.Basic

/-! # Pushed messages

A pushed message goes through the event loop and the pool to the callback of its subscription. On the way it is looked up
twice: its channel by the event loop, and the subscription of the channel by the worker. `basic_consume` sets the
subscription only after the thread that called it has got the response, and by then messages may have been thrown away. -/

namespace HareMQ
open Lib

/-- A message is passed to the callback of a subscription of its own tag. -/
theorem ClientChannel.consume_eq_some_iff {ch : ClientChannel} {p : Push} {consumer : ClientConsumer} :
    ch.consume p = some consumer ↔ ch.consumer = some consumer ∧ consumer.tag = p.consumerTag := by
  unfold consume
  cases ch.consumer with
  | none => simp
  | some consumer' =>
    dsimp only
    split
    · next htag =>
      refine ⟨fun h => ?_, fun h => h.1⟩
      obtain rfl := Option.some.inj h
      exact ⟨rfl, htag⟩
    · next htag =>
      refine ⟨nofun, fun h => ?_⟩
      obtain rfl := Option.some.inj h.1
      exact absurd h.2 htag

namespace Client
variable {c c' : Client} {act : ClientAct}

/-- The messages of the tasks that found a channel, oldest first. -/
def queued (c : Client) : List Push :=
  (c.pool.tmp ++ c.pool.taskQueue).filterMap fun task => task.channel.map fun _ => task.resp

/-- The places of messages: on their way, in the pool, and with the user. -/
def places (c : Client) : List Push := c.inFlight ++ c.queued ++ c.consumed.map Consumed.resp

/-- What a subscriber may rely on. -/
structure Delivered (c : Client) : Prop where
  /-- A message that the server pushed is in one place. -/
  once : ∀ p ∈ c.sent, c.places.count p = 1
  /-- It is passed to the callback of its channel and tag. -/
  own : ∀ x ∈ c.consumed, x.consumer.tag = x.resp.consumerTag ∧ (c.channels x.channel).cid = x.resp.cid

/-- A message finds its channel when it arrives, and its subscription when the worker comes to it. -/
def attended (c : Client) : ClientAct → Bool
  | .arrive i => (c.inFlight[i]?).all fun p => (c.manager.lookup p.cid).isSome
  | .work =>
    match c.pool.tmp with
    | [] => true
    | task :: _ => task.channel.all fun ch =>
      (c.channels ch).consumer.any fun consumer => decide (consumer.tag = task.resp.consumerTag)
  | _ => true

/-! ### The invariant -/

structure Balanced (c : Client) : Prop where
  tied : c.Tied
  numbered : c.sent.map Push.seq = List.range c.sent.length
  placed : c.places.Perm c.sent
  tasks : ∀ task ∈ c.pool.tmp ++ c.pool.taskQueue, ∃ ch, task.channel = some ch ∧ ch < c.next ∧
    (c.channels ch).cid = task.resp.cid
  own : ∀ x ∈ c.consumed, x.consumer.tag = x.resp.consumerTag ∧ x.channel < c.next ∧
    (c.channels x.channel).cid = x.resp.cid

namespace Balanced

theorem nodup (h : c.Balanced) : c.sent.Nodup :=
  List.Nodup.of_map Push.seq (h.numbered ▸ List.nodup_range)

theorem delivered (h : c.Balanced) : c.Delivered where
  once p hp := (h.placed.count_eq p).trans (List.count_eq_one_of_mem h.nodup hp)
  own x hx := ⟨(h.own x hx).1, (h.own x hx).2.2⟩

/-- A message that leaves its place for none is lost. -/
theorem not_delivered (h : c.Balanced) {p : Push} (hsent : c'.sent = c.sent) (hplaces : c.places.Perm (p :: c'.places)) :
    ¬c'.Delivered := by
  intro hdelivered
  have hp : p ∈ c.sent := h.placed.mem_iff.mp (hplaces.mem_iff.mpr List.mem_cons_self)
  have hbefore : (p :: c'.places).count p = 1 := (hplaces.count_eq p).symm.trans (h.delivered.once p hp)
  have hafter : c'.places.count p = 1 := hdelivered.once p (hsent ▸ hp)
  rw [List.count_cons_self, hafter] at hbefore
  cases hbefore

end Balanced

/-- The messages stay where they are, and the channels keep their ids. -/
structure Quiet (c c' : Client) : Prop where
  inFlight : c'.inFlight = c.inFlight
  pool : c'.pool = c.pool
  consumed : c'.consumed = c.consumed
  sent : c'.sent = c.sent
  next : c.next ≤ c'.next
  cids : ∀ ch < c.next, (c'.channels ch).cid = (c.channels ch).cid

namespace Quiet

theorem places (h : c.Quiet c') : c'.places = c.places := by
  simp only [Client.places, queued, h.inFlight, h.pool, h.consumed]

theorem balanced (h : c.Quiet c') (hb : c.Balanced) (ht : c'.Tied) : c'.Balanced where
  tied := ht
  numbered := by
    rw [h.sent]
    exact hb.numbered
  placed := by
    rw [h.places, h.sent]
    exact hb.placed
  tasks task htask := by
    rw [h.pool] at htask
    obtain ⟨ch, hch, hlt, hcid⟩ := hb.tasks task htask
    exact ⟨ch, hch, hlt.trans_le h.next, (h.cids ch hlt).trans hcid⟩
  own x hx := by
    rw [h.consumed] at hx
    obtain ⟨htag, hlt, hcid⟩ := hb.own x hx
    exact ⟨htag, hlt.trans_le h.next, (h.cids _ hlt).trans hcid⟩

/-- The channels may change, but for their ids. -/
theorem of_channels (hpushes : c'.inFlight = c.inFlight ∧ c'.pool = c.pool ∧ c'.consumed = c.consumed ∧ c'.sent = c.sent)
    (hnext : c'.next = c.next) (hcids : ∀ ch, (c'.channels ch).cid = (c.channels ch).cid) : c.Quiet c' :=
  ⟨hpushes.1, hpushes.2.1, hpushes.2.2.1, hpushes.2.2.2, hnext ▸ Nat.le_refl _, fun ch _ => hcids ch⟩

end Quiet

theorem quiet_wait (caller : Caller) : c.Quiet (c.wait caller) := by
  cases hfound : c.found caller with
  | none =>
    rw [wait_none hfound]
    exact .of_channels ⟨rfl, rfl, rfl, rfl⟩ rfl fun _ => rfl
  | some resp =>
    rw [wait_some hfound]
    exact .of_channels ⟨rfl, rfl, rfl, rfl⟩ rfl (cid_setChannel _ _ _)

theorem pushes_finish (caller : Caller) (resp : Response) : (c.finish caller resp).inFlight = c.inFlight ∧
    (c.finish caller resp).pool = c.pool ∧ (c.finish caller resp).consumed = c.consumed ∧
    (c.finish caller resp).sent = c.sent := by
  unfold finish
  dsimp only
  split
  · split <;> exact ⟨rfl, rfl, rfl, rfl⟩
  · exact ⟨rfl, rfl, rfl, rfl⟩
  · split <;> exact ⟨rfl, rfl, rfl, rfl⟩
  · exact ⟨rfl, rfl, rfl, rfl⟩
  · exact ⟨rfl, rfl, rfl, rfl⟩

theorem quiet_commonResponse (outstanding : UMap String Request) {resp : Response} {query : Bool} {rid cid : String}
    (hanswers : resp.answers = some (query, rid, cid)) : c.Quiet ({ c with outstanding }.commonResponse cid resp) := by
  unfold commonResponse
  split
  · exact .of_channels ⟨rfl, rfl, rfl, rfl⟩ rfl fun _ => rfl
  · rw [pushBasicResponse_eq hanswers]
    exact .of_channels ⟨rfl, rfl, rfl, rfl⟩ rfl (cid_setChannel _ _ _)

theorem quiet_openChannel (cid rid : String) : c.Quiet (c.openChannel cid rid) where
  inFlight := rfl
  pool := rfl
  consumed := rfl
  sent := rfl
  next := Nat.le_succ _
  cids _ hch := congrArg ClientChannel.cid (Function.update_of_ne (Nat.ne_of_lt hch) ..)

/-- Only the server, the arrival of a message and the worker move messages. -/
theorem step_quiet (hstep : c.step act = some c') : c.Quiet c' ∨
    (∃ req properties body, act = .push req properties body) ∨ (∃ i, act = .arrive i) ∨ act = .work := by
  cases step_does hstep with
  | @openChannel cid rid => exact Or.inl (quiet_openChannel cid rid)
  | @call ch rid method =>
    refine Or.inl ?_
    obtain hsame | ⟨req, cb, hsend, -, -⟩ := step_request c ch rid method
    · rw [hsame]
      exact .of_channels ⟨rfl, rfl, rfl, rfl⟩ rfl fun _ => rfl
    · rw [hsend]
      exact .of_channels ⟨rfl, rfl, rfl, rfl⟩ rfl fun _ => rfl
  | wait => exact Or.inl (quiet_wait _)
  | spurious => exact Or.inl (.of_channels ⟨rfl, rfl, rfl, rfl⟩ rfl fun _ => rfl)
  | @finish rid caller resp =>
    have hf := finish_finished (c := c) caller resp
    exact Or.inl (.of_channels (pushes_finish caller resp) hf.next hf.cids)
  | register => exact Or.inl (.of_channels ⟨rfl, rfl, rfl, rfl⟩ rfl fun _ => rfl)
  | @response rid ok body req => exact Or.inl (quiet_commonResponse _ (answers_responseTo ok body req))
  | push => exact Or.inr (Or.inl ⟨_, _, _, rfl⟩)
  | arrive => exact Or.inr (Or.inr (Or.inl ⟨_, rfl⟩))
  | swap | drop | consume => exact Or.inr (Or.inr (Or.inr rfl))
  | callbackReturns => exact Or.inl (.of_channels ⟨rfl, rfl, rfl, rfl⟩ rfl fun _ => rfl)

/-! ### The steps of a message -/

theorem balanced_push (h : c.Balanced) {p : Push} (hseq : p.seq = c.sent.length) :
    { c with inFlight := c.inFlight ++ [p], sent := c.sent ++ [p] }.Balanced where
  tied := h.tied.apart ..
  numbered := by
    rw [List.map_append, h.numbered, List.map_singleton, hseq, List.length_append, List.length_singleton, List.range_succ]
  placed := by
    have hplaces : { c with inFlight := c.inFlight ++ [p], sent := c.sent ++ [p] }.places.Perm (p :: c.places) := by
      simp only [places, List.append_assoc]
      exact List.perm_middle
    exact hplaces.trans ((h.placed.cons p).trans (List.perm_append_singleton p c.sent).symm)
  tasks := h.tasks
  own := h.own

/-- The places after a message has arrived: it is queued when its channel is found. -/
theorem perm_arrive {i : Nat} {p : Push} (hp : c.inFlight[i]? = some p) :
    c.places.Perm (p :: ((c.inFlight.eraseIdx i ++ c.queued) ++ c.consumed.map Consumed.resp)) := by
  obtain ⟨hi, rfl⟩ := List.getElem?_eq_some_iff.mp hp
  have herase := (List.getElem_cons_eraseIdx_perm hi).symm
  exact ((herase.append_right c.queued).append_right _)

theorem places_arrive (i : Nat) (p : Push) : ({ c with inFlight := c.inFlight.eraseIdx i }.consumeResponse p).places =
    (c.inFlight.eraseIdx i ++ c.queued) ++
      (((c.manager.lookup p.cid).map fun _ => p).toList ++ c.consumed.map Consumed.resp) := by
  simp only [places, queued, consumeResponse, ThreadPool.push, List.append_assoc, List.filterMap_append]
  cases c.manager.lookup p.cid <;> simp

theorem balanced_arrive (h : c.Balanced) {i : Nat} {p : Push} (hp : c.inFlight[i]? = some p) {ch : ChannelPtr}
    (hch : c.manager.lookup p.cid = some ch) : ({ c with inFlight := c.inFlight.eraseIdx i }.consumeResponse p).Balanced where
  tied := h.tied.apart ..
  numbered := h.numbered
  placed := by
    have hplaces := places_arrive (c := c) i p
    rw [hch, Option.map_some, Option.toList_some] at hplaces
    rw [hplaces]
    exact List.perm_middle.trans ((perm_arrive hp).symm.trans h.placed)
  tasks task htask := by
    simp only [consumeResponse, ThreadPool.push, hch, ← List.append_assoc] at htask
    obtain htask | htask := List.mem_append.mp htask
    · exact h.tasks task htask
    · obtain rfl := List.mem_singleton.mp htask
      exact ⟨ch, rfl, h.tied.managed p.cid ch hch⟩
  own := h.own

/-- The worker takes over the tasks, and their messages stay in the pool. -/
theorem balanced_swap (h : c.Balanced) {pool : ThreadPool ConsumeTask} (htmp : c.pool.tmp = [])
    (hpool : c.pool.swap = some pool) : { c with pool }.Balanced := by
  have htasks : pool.tmp ++ pool.taskQueue = c.pool.tmp ++ c.pool.taskQueue := by
    unfold ThreadPool.swap at hpool
    split at hpool
    · cases hpool
    · cases hpool
      rw [htmp, List.append_nil, List.nil_append]
  have hplaces : { c with pool }.places = c.places := by simp only [places, queued, htasks]
  exact {
    tied := h.tied.apart ..
    numbered := h.numbered
    placed := hplaces ▸ h.placed
    tasks := fun task htask => h.tasks task (htasks ▸ htask)
    own := h.own }

/-- The message of the task that the worker comes to. -/
theorem queued_cons {task : ConsumeTask} {tmp : List ConsumeTask} {ch : ChannelPtr} (htmp : c.pool.tmp = task :: tmp)
    (hch : task.channel = some ch) : c.queued = task.resp :: { c with pool := { c.pool with tmp } }.queued := by
  simp only [queued, htmp, List.cons_append, List.filterMap_cons, hch, Option.map_some]

theorem perm_work {task : ConsumeTask} {tmp : List ConsumeTask} {ch : ChannelPtr} (htmp : c.pool.tmp = task :: tmp)
    (hch : task.channel = some ch) :
    c.places.Perm (task.resp :: { c with pool := { c.pool with tmp } }.places) := by
  rw [places, queued_cons htmp hch, List.append_assoc, List.cons_append, places, List.append_assoc]
  exact List.perm_middle

theorem balanced_consume (h : c.Balanced) {task : ConsumeTask} {tmp : List ConsumeTask} {ch : ChannelPtr}
    {consumer : ClientConsumer} (htmp : c.pool.tmp = task :: tmp) (hch : task.channel = some ch)
    (hconsumer : (c.channels ch).consume task.resp = some consumer) :
    ({ c with
      pool := { c.pool with tmp }
      calling := true
      consumed := c.consumed ++ [⟨ch, consumer, task.resp⟩] } : Client).Balanced where
  tied := h.tied.apart ..
  numbered := h.numbered
  placed := by
    refine List.Perm.trans ?_ ((perm_work htmp hch).symm.trans h.placed)
    simp only [places, List.map_append, List.map_singleton, ← List.append_assoc]
    exact List.perm_append_singleton ..
  tasks task' htask := h.tasks task' (by
    rw [htmp]
    exact List.mem_cons_of_mem _ htask)
  own x hx := by
    obtain hx | hx := List.mem_append.mp hx
    · exact h.own x hx
    · obtain rfl := List.mem_singleton.mp hx
      obtain ⟨ch', hch', hlt, hcid⟩ := h.tasks task (by
        rw [htmp]
        exact List.mem_cons_self)
      obtain rfl := Option.some.inj (hch.symm.trans hch')
      exact ⟨(ClientChannel.consume_eq_some_iff.mp hconsumer).2, hlt, hcid⟩

/-- The worker comes to a message with its subscription. -/
theorem attended_work {task : ConsumeTask} {tmp : List ConsumeTask} {ch : ChannelPtr} (htmp : c.pool.tmp = task :: tmp)
    (hch : task.channel = some ch) : c.attended .work = ((c.channels ch).consume task.resp).isSome := by
  simp only [attended, htmp, hch, Option.all_some, ClientChannel.consume]
  cases (c.channels ch).consumer with
  | none => rfl
  | some consumer =>
    simp only [Option.any_some]
    split
    · next htag => simp [htag]
    · next htag => simp [htag]

theorem step_balanced (h : c.Balanced) (hstep : c.step act = some c') (hattended : c.attended act = true) :
    c'.Balanced := by
  obtain hquiet | hmoved := step_quiet hstep
  · exact hquiet.balanced h (h.tied.step hstep)
  cases step_does hstep with
  | push hreq hresp => exact balanced_push h (hresp ▸ rfl)
  | arrive hmessage =>
    simp only [attended, hmessage, Option.all_some, Option.isSome_iff_exists] at hattended
    obtain ⟨ch, hch⟩ := hattended
    exact balanced_arrive h hmessage hch
  | swap htmp hpool => exact balanced_swap h htmp hpool
  | drop htmp hch hconsumer =>
    rw [attended_work htmp hch, hconsumer] at hattended
    cases hattended
  | consume htmp hch hconsumer => exact balanced_consume h htmp hch hconsumer
  | openChannel | call | wait | spurious | finish | register | response | callbackReturns =>
    simp at hmoved

/-- A message that is not attended to is lost. -/
theorem not_delivered_of_step (h : c.Balanced) (hstep : c.step act = some c') (hattended : c.attended act = false) :
    ¬c'.Delivered := by
  cases step_does hstep with
  | @arrive i message hmessage =>
    simp only [attended, hmessage, Option.all_some, Option.isSome_eq_false_iff, Option.isNone_iff_eq_none] at hattended
    refine h.not_delivered (p := message) rfl ?_
    have hplaces := places_arrive (c := c) i message
    rw [hattended, Option.map_none, Option.toList_none, List.nil_append] at hplaces
    rw [hplaces]
    exact perm_arrive hmessage
  | swap htmp =>
    simp only [attended, htmp] at hattended
    cases hattended
  | drop htmp hch => exact h.not_delivered rfl (perm_work htmp hch)
  | consume htmp hch hconsumer =>
    rw [attended_work htmp hch, hconsumer] at hattended
    cases hattended
  | _ => cases hattended

theorem balanced_start : ({} : Client).Balanced where
  tied := tied_start
  numbered := rfl
  placed := List.Perm.refl _
  tasks _ h := nomatch h
  own _ h := nomatch h

/-- In every state of a run each message that the server pushed is in one place, and those that were passed to a callback
    were passed to that of their own channel and tag, exactly when each message finds its channel in the channel manager
    when it arrives, and its subscription set when the worker comes to it. -/
theorem run_delivered_iff {acts : List ClientAct} (hrun : Lib.run step {} acts = some c) :
    (∀ pre c₁, pre <+: acts → Lib.run step {} pre = some c₁ → c₁.Delivered) ↔
      Lib.always step attended {} acts = true :=
  always_iff_of_exact (fun _ h => h.delivered) (fun _ _ _ h hstep hattended => step_balanced h hstep hattended)
    (fun _ _ _ h hstep hattended => not_delivered_of_step h hstep hattended) balanced_start hrun

/-- The server registers a subscription, and a message is on its way before the response has arrived. -/
def subscribing : List ClientAct :=
  opening ++ [.call 0 "2" (.basicConsume "t" "q" true 7), .wait "2", .register "2",
    .push ⟨"2", "c", "t", "q", true⟩ (some ⟨"m", .durable, "k"⟩) "hello", .response "2" true "", .arrive 0]

/-- The thread of `basic_consume` goes on before the worker. -/
def attentive : List ClientAct := subscribing ++ [.wait "2", .finish "2", .work, .work, .callbackReturns]

theorem run_delivered_iff_attentive : ∃ c, Lib.run step {} attentive = some c ∧
    ∀ pre c₁, pre <+: attentive → Lib.run step {} pre = some c₁ → c₁.Delivered := by
  have hrun : ((Lib.run step {} attentive).isSome && Lib.always step attended {} attentive) = true := by decide +kernel
  rw [Bool.and_eq_true, Option.isSome_iff_exists] at hrun
  obtain ⟨⟨c, hc⟩, hattended⟩ := hrun
  exact ⟨c, hc, (run_delivered_iff hc).mpr hattended⟩

/-- The worker is faster. -/
def hasty : List ClientAct := subscribing ++ [.work, .work, .wait "2", .finish "2"]

theorem run_not_delivered : ∃ c, Lib.run step {} hasty = some c ∧
    ("2", .basicCommonResponse "2" "c" true) ∈ c.returned.map (fun x => (x.1.rid, x.2)) ∧
    (c.channels 0).consumer = some ⟨"t", "q", true, 7⟩ ∧
    (∃ p ∈ c.sent, p.cid = "c" ∧ p.consumerTag = "t") ∧ c.places = [] ∧ ¬c.Delivered := by
  have hrun : (Lib.run step {} hasty).any (fun c =>
      decide (("2", .basicCommonResponse "2" "c" true) ∈ c.returned.map (fun x => (x.1.rid, x.2))) &&
      decide ((c.channels 0).consumer = some ⟨"t", "q", true, 7⟩) &&
      decide (∃ p ∈ c.sent, p.cid = "c" ∧ p.consumerTag = "t") && decide (c.places = [])) = true := by decide +kernel
  obtain ⟨c, hc, hrest⟩ := (Option.any_eq_true _ _).mp hrun
  simp only [Bool.and_eq_true, decide_eq_true_eq] at hrest
  obtain ⟨⟨⟨hreturned, hconsumer⟩, hsent⟩, hplaces⟩ := hrest
  refine ⟨c, hc, hreturned, hconsumer, hsent, hplaces, fun hdelivered => ?_⟩
  obtain ⟨p, hp, -⟩ := hsent
  have honce := hdelivered.once p hp
  rw [hplaces] at honce
  cases honce

end Client
end HareMQ
