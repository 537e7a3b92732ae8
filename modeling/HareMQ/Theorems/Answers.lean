import HareMQ.Codec
import HareMQ.Theorems.Registry

/-! # Answers

The server answers the requests of a connection one by one and in their order, unless a request names a channel that is
not open: then nobody answers. -/

namespace HareMQ
open Lib

/-- A request as its answer shows it: the connection, whether it is a query, and the ids of the request and of the
    channel. -/
abbrev Ask := ConnRef × Bool × String × String

/-! ### Channels know their ids -/

namespace Registry
variable {r : Registry} {conn : ConnRef} {cid : String} {self : ChannelRef}

/-- A channel object holds the connection and the id under which it is found. -/
def Named (r : Registry) : Prop :=
  ∀ ⦃conn cid self⦄, r.channelAt conn cid = some self → (r.channels self).conn = conn ∧ (r.channels self).cid = cid

/-- An operation does not change the names of an object that exists. -/
theorem channels_apply (op : RegistryOp) (hlt : self < r.next) :
    ((r.apply op).channels self).conn = (r.channels self).conn ∧ ((r.apply op).channels self).cid = (r.channels self).cid := by
  cases op with
  | disconnect conn =>
    unfold apply
    dsimp only
    split
    · exact ⟨rfl, rfl⟩
    · rw [(foldl_destroy_same _ _).channels]
      exact ⟨rfl, rfl⟩
  | openChannel conn cid =>
    unfold apply
    dsimp only
    split
    · exact ⟨rfl, rfl⟩
    · split
      · exact ⟨rfl, rfl⟩
      · dsimp only
        rw [Function.update_of_ne (Nat.ne_of_lt hlt)]
        exact ⟨rfl, rfl⟩
  | closeChannel conn cid =>
    unfold apply
    dsimp only
    split
    · exact ⟨rfl, rfl⟩
    · split
      · exact ⟨rfl, rfl⟩
      · rw [(destroy_same _ _).channels]
        exact ⟨rfl, rfl⟩
  | subscribe conn cid ctag qname autoAck =>
    unfold apply
    dsimp only
    split
    · exact ⟨rfl, rfl⟩
    · next self' _ =>
      by_cases heq : self = self'
      · subst heq
        simp only [Function.update_self, and_self]
      · dsimp only
        rw [Function.update_of_ne heq]
        exact ⟨rfl, rfl⟩
  | _ => exact ⟨rfl, rfl⟩

theorem Named.apply (hr : r.Sound) (hn : r.Named) (op : RegistryOp) : (r.apply op).Named := by
  intro conn cid self hself
  rcases channelAt_cases hself with hself | ⟨rfl, hmem, hnone, rfl⟩
  · rcases channels_apply op (hr.fresh hself) with ⟨hconn, hcid⟩
    rw [hconn, hcid]
    exact hn hself
  · rcases Option.isSome_iff_exists.mp (AList.lookup_isSome.mpr hmem) with ⟨channels, hconn⟩
    have hfree : cid ∉ channels := by
      rw [← AList.lookup_eq_none, ← channelAt_of_lookup hconn]
      exact hnone
    unfold Registry.apply
    simp only [hconn, hfree, if_false, Function.update_self, and_self]

end Registry

/-! ### Steps -/

theorem Broker.destroy_sent (b : Broker) (self : ChannelRef) : (b.destroy self).sent = b.sent := by
  unfold destroy
  split <;> rfl

theorem Broker.foldl_destroy_sent (entries : List (Sigma fun _ : String => ChannelRef)) (b : Broker) :
    (entries.foldl (fun b e => b.destroy e.2) b).sent = b.sent := by
  induction entries generalizing b with
  | nil => rfl
  | cons e entries ih => rw [List.foldl_cons, ih, destroy_sent]

theorem Broker.closeChannel_sent (b : Broker) (conn : ConnRef) (channels : ChannelManager) (req : CloseChannelRequest) :
    (b.closeChannel conn channels req).sent = b.sent ++ [(conn, .basicCommonResponse req.rid req.cid true)] := by
  unfold closeChannel send
  dsimp only
  split
  · rfl
  · rw [destroy_sent]

namespace Sys
variable {pb : PayloadCodec} {s s' : Sys} {act : Act}

/-- What was answered since the start. -/
def answered (s : Sys) : List Ask := s.broker.sent.filterMap fun e => e.2.answers.map (e.1, ·)

/-- The answer that follows the loop of `basic_publish`. -/
def due (s : Sys) : List Ask :=
  s.loop.toList.map fun p => ((s.broker.channels p.self).conn, false, p.req.rid, p.req.cid)

/-- Every request on a known connection asks for an answer. -/
def asks (s : Sys) : Act → List Ask
  | .request conn req => if conn ∈ s.broker.conns then [(conn, req.isQuery, req.rid, req.cid)] else []
  | _ => []

/-- The channel of the request is open, where it needs one. -/
def serves (s : Sys) : Act → Bool
  | .request _ (.openChannel _) => true
  | .request _ (.closeChannel _) => true
  | .request conn req => decide (conn ∉ s.broker.conns) || (s.broker.registry.channelAt conn req.cid).isSome
  | _ => true

theorem answered_of_sent (hsent : s'.broker.sent = s.broker.sent) : s'.answered = s.answered := by
  rw [answered, hsent, answered]

theorem answered_send {conn : ConnRef} {resp : Response} (hsent : s'.broker.sent = s.broker.sent ++ [(conn, resp)]) :
    s'.answered = s.answered ++ (resp.answers.map (conn, ·)).toList := by
  rw [answered, hsent, List.filterMap_append, answered]
  cases resp <;> rfl

/-- A handler that answers at once. -/
theorem answered_response {conn : ConnRef} {ask : Bool × String × String} {resp : Response} (hloop : s.loop = none)
    (hloop' : s'.loop = s.loop) (hsent : s'.broker.sent = s.broker.sent ++ [(conn, resp)]) (hask : resp.answers = some ask) :
    s'.answered ++ s'.due = s.answered ++ s.due ++ [(conn, ask)] := by
  simp only [answered_send hsent, due, hloop', hloop, hask, Option.toList_none, List.map_nil, List.append_nil]
  rfl

theorem noteDeclared_loop (s : Sys) (qname : String) (broker : Broker) : (s.noteDeclared qname broker).loop = s.loop := by
  unfold noteDeclared
  split <;> rfl

theorem noteDeleted_loop (s : Sys) (qname : String) (broker : Broker) : (s.noteDeleted qname broker).loop = s.loop := by
  unfold noteDeleted
  split <;> rfl

/-- Each handler of a channel answers once, to the connection of the channel. -/
theorem onChannel_answered {self : ChannelRef} {req : Request} (hloop : s.loop = none)
    (hopen : ∀ req', req ≠ .openChannel req') (hclose : ∀ req', req ≠ .closeChannel req')
    (hcid : (s.broker.channels self).cid = req.cid) (hstep : s.onChannel pb self req = some s') :
    s'.answered ++ s'.due =
      s.answered ++ s.due ++ [((s.broker.channels self).conn, req.isQuery, req.rid, req.cid)] := by
  cases req with
  | openChannel req => exact absurd rfl (hopen req)
  | closeChannel req => exact absurd rfl (hclose req)
  | declareExchange req => cases hstep; exact answered_response hloop rfl rfl rfl
  | deleteExchange req => cases hstep; exact answered_response hloop rfl rfl rfl
  | declareQueue req =>
    rcases Option.map_eq_some_iff.mp hstep with ⟨broker, hdecl, rfl⟩
    have hloop' := s.noteDeclared_loop req.queueName broker
    have hbroker := s.noteDeclared_broker req.queueName broker
    unfold Broker.declareQueue at hdecl
    split at hdecl
    · cases hdecl
    · cases hdecl
      exact answered_response hloop hloop' (congrArg Broker.sent hbroker) rfl
    · cases hdecl
      exact answered_response hloop hloop' (congrArg Broker.sent hbroker) rfl
  | deleteQueue req =>
    cases hstep
    exact answered_response hloop (noteDeleted_loop ..) (congrArg Broker.sent (noteDeleted_broker ..)) rfl
  | bind req => cases hstep; exact answered_response hloop rfl rfl rfl
  | unbind req => cases hstep; exact answered_response hloop rfl rfl rfl
  | basicPublish req =>
    cases hstep
    unfold startPublish
    split
    · exact answered_response hloop rfl rfl rfl
    · rw [due, due, hloop, answered_of_sent (s := s) rfl, Option.toList_none, List.map_nil, List.append_nil]
      rfl
  | basicAck req =>
    rcases onChannel_basicAck hstep with ⟨host, -, rfl⟩
    exact answered_response hloop rfl rfl rfl
  | basicConsume req =>
    cases hstep
    unfold Broker.basicConsume
    split
    · have hsent : ∀ consumer, (Function.update s.broker.channels self { s.broker.channels self with consumer } self).conn =
          (s.broker.channels self).conn := fun consumer => by rw [Function.update_self]
      exact answered_response hloop rfl (congrArg (fun conn => s.broker.sent ++ [(conn, _)]) (hsent _)) rfl
    · exact answered_response hloop rfl rfl rfl
  | basicCancel req => cases hstep; exact answered_response hloop rfl rfl rfl
  | basicQuery req =>
    rcases onChannel_basicQuery hstep with ⟨body, -, rfl⟩
    refine answered_response hloop rfl rfl ?_
    rw [Response.answers, hcid]
    rfl

theorem serves_of_lookup {conn : ConnRef} {channels : ChannelManager} {req : Request}
    (hconn : s.broker.conns.lookup conn = some channels) (hopen : ∀ r, req ≠ .openChannel r)
    (hclose : ∀ r, req ≠ .closeChannel r) : s.serves (.request conn req) = (channels.lookup req.cid).isSome := by
  have hknown : conn ∈ s.broker.conns := UMap.mem_of_lookup hconn
  have hat := Registry.channelAt_of_lookup (r := s.broker.registry) hconn req.cid
  cases req with
  | openChannel req => exact absurd rfl (hopen req)
  | closeChannel req => exact absurd rfl (hclose req)
  | _ => simp only [serves, hknown, not_true, decide_false, Bool.false_or, hat]

theorem onRequest_answered {conn : ConnRef} {req : Request} (hn : s.broker.registry.Named) (hloop : s.loop = none)
    (hstep : s.onRequest pb conn req = some s') :
    s'.answered ++ s'.due =
      s.answered ++ s.due ++ (if s.serves (.request conn req) then s.asks (.request conn req) else []) := by
  have hasks : ∀ {channels}, s.broker.conns.lookup conn = some channels →
      s.asks (.request conn req) = [(conn, req.isQuery, req.rid, req.cid)] := fun hconn => if_pos (UMap.mem_of_lookup hconn)
  cases requested hstep with
  | unknown hconn =>
    have hunknown : conn ∉ s.broker.conns := AList.lookup_eq_none.mp hconn
    simp only [asks, hunknown, if_false, ite_self, List.append_nil]
  | @opens _ req hconn =>
    rw [hasks hconn, if_pos (show s.serves (.request conn (.openChannel req)) = true from rfl)]
    unfold Broker.openChannel
    split <;> exact answered_response hloop rfl rfl rfl
  | @closes _ req hconn =>
    rw [hasks hconn, if_pos (show s.serves (.request conn (.closeChannel req)) = true from rfl)]
    exact answered_response hloop rfl (Broker.closeChannel_sent ..) rfl
  | unserved hconn hopen hclose hself =>
    rw [serves_of_lookup hconn hopen hclose, hself, Option.isSome_none, if_neg Bool.false_ne_true, List.append_nil]
  | served hconn hopen hclose hself hstep =>
    have hat := Registry.channelAt_of_lookup (r := s.broker.registry) hconn req.cid
    rcases hn (hat.trans hself) with ⟨hconn', hcid⟩
    rw [hasks hconn, serves_of_lookup hconn hopen hclose, hself, Option.isSome_some, if_pos rfl, ← hconn']
    exact onChannel_answered hloop hopen hclose hcid hstep

/-- The worker pushes messages, and answers nothing. -/
theorem work_answered (hstep : s.work pb = some s') : s'.answered ++ s'.due = s.answered ++ s.due := by
  have hsame : ∀ {s' : Sys}, s'.broker.sent = s.broker.sent → s'.loop = s.loop → s'.broker.channels = s.broker.channels →
      s'.answered ++ s'.due = s.answered ++ s.due := fun hsent hloop hchannels => by
    rw [answered_of_sent hsent, due, due, hloop, hchannels]
  cases worked hstep with
  | consume hworker =>
    unfold consume
    split <;> exact hsame rfl rfl rfl
  | choose hworker =>
    unfold choose
    split <;> exact hsame rfl rfl rfl
  | @call task m payload c hworker =>
    let ch := s.broker.channels c.callback
    have hsent : (s.call task m payload c).broker.sent =
        s.broker.sent ++ [(ch.conn, .basicConsumeResponse ch.cid c.tag payload.body (some payload.props))] := rfl
    rw [answered_send hsent]
    exact congrArg (· ++ s.due) (List.append_nil s.answered)
  | _ => exact hsame rfl rfl rfl

theorem step_answered (hn : s.broker.registry.Named) (hstep : s.step pb act = some s') (hact : act ≠ .restart) :
    s'.answered ++ s'.due = s.answered ++ s.due ++ (if s.serves act then s.asks act else []) := by
  have hloop : s.loop.isSome = false → s.loop = none := fun h => Option.not_isSome_iff_eq_none.mp (by simp [h])
  cases act with
  | connect conn =>
    simp only [step, Option.ite_none_left_eq_some, Option.some.injEq, Bool.not_eq_true] at hstep
    rw [← hstep.2]
    simp only [asks, ite_self, List.append_nil]
    rfl
  | disconnect conn =>
    simp only [step, Option.ite_none_left_eq_some, Option.some.injEq, Bool.not_eq_true] at hstep
    rw [← hstep.2]
    simp only [asks, ite_self, List.append_nil, due, handle, hloop hstep.1, Option.toList_none, List.map_nil]
    refine answered_of_sent ?_
    unfold Broker.deleteConnection
    dsimp only
    split
    · rfl
    · exact Broker.foldl_destroy_sent _ _
  | request conn req =>
    simp only [step, Option.ite_none_left_eq_some, Bool.not_eq_true] at hstep
    exact onRequest_answered hn (hloop hstep.1) hstep.2
  | publish uuid =>
    rcases Option.map_eq_some_iff.mp hstep with ⟨p, hp, rfl⟩
    simp only [asks, ite_self, List.append_nil]
    unfold publishStep
    split
    · rw [answered_send (s := s) rfl, due, due, hp]
      exact List.append_nil _
    · split
      · rw [answered_of_sent (s := s) rfl, due, due, hp]
        rfl
      · rw [answered_of_sent (s := s) rfl, due, due, hp]
        rfl
  | work =>
    rw [work_answered hstep]
    simp only [asks, ite_self, List.append_nil]
  | restart => exact absurd rfl hact

/-! ### Runs -/

/-- The server, with what it was asked since its start. -/
def hear (pb : PayloadCodec) (t : Sys × List Ask) (act : Act) : Option (Sys × List Ask) :=
  (t.1.step pb act).map fun s => (s, match act with
    | .restart => []
    | act => t.2 ++ t.1.asks act)

/-- Nothing was asked that was not answered or is about to be. -/
structure Prompt (t : Sys × List Ask) : Prop where
  registry : t.1.broker.registry.Sound
  named : t.1.broker.registry.Named
  answers : t.1.answered ++ t.1.due = t.2

theorem boot_prompt {basedir : String} {d : Disk} {db : Db} (hboot : boot pb basedir d db = some s) : Prompt (s, []) := by
  refine ⟨(boot_registry hboot).1, ?_, ?_⟩
  all_goals
    unfold boot at hboot
    split at hboot
    · cases hboot
    · cases hboot
      first | rfl | exact nofun

theorem hear_prompt {t t' : Sys × List Ask} (ht : Prompt t) (hhear : hear pb t act = some t')
    (hserves : t.1.serves act = true) : Prompt t' := by
  rcases Option.map_eq_some_iff.mp hhear with ⟨s', hstep, rfl⟩
  by_cases hact : act = .restart
  · subst hact
    exact boot_prompt hstep
  · refine ⟨step_registry_sound ht.registry hstep, ?_, ?_⟩
    · show s'.broker.registry.Named
      rw [registry_step hstep hact]
      exact ht.named.apply ht.registry _
    · show s'.answered ++ s'.due = _
      rw [step_answered ht.named hstep hact, if_pos hserves, ht.answers]
      cases act with
      | restart => exact absurd rfl hact
      | _ => rfl

/-- A request to a channel that is not open changes nothing, and is not answered. -/
theorem onRequest_unserved {conn : ConnRef} {req : Request} (hserves : s.serves (.request conn req) = false)
    (hstep : s.onRequest pb conn req = some s') : s' = s ∧ conn ∈ s.broker.conns := by
  cases requested hstep with
  | unknown hconn =>
    have hunknown : conn ∉ s.broker.conns := AList.lookup_eq_none.mp hconn
    cases req with
    | openChannel req => cases hserves
    | closeChannel req => cases hserves
    | _ =>
      simp only [serves, decide_eq_true hunknown, Bool.true_or] at hserves
      cases hserves
  | opens hconn => cases hserves
  | closes hconn => cases hserves
  | unserved hconn hopen hclose hself => exact ⟨rfl, UMap.mem_of_lookup hconn⟩
  | served hconn hopen hclose hself hstep =>
    rw [serves_of_lookup hconn hopen hclose, hself] at hserves
    cases hserves

theorem not_answered_of_hear {t t' : Sys × List Ask} (ht : Prompt t) (hhear : hear pb t act = some t')
    (hserves : t.1.serves act = false) : ¬(t'.1.loop = none → t'.1.answered = t'.2) := by
  rcases Option.map_eq_some_iff.mp hhear with ⟨s', hstep, rfl⟩
  cases act with
  | request conn req =>
    simp only [step, Option.ite_none_left_eq_some, Bool.not_eq_true, Option.isSome_eq_false_iff,
      Option.isNone_iff_eq_none] at hstep
    rcases hstep with ⟨hloop, hstep⟩
    rcases onRequest_unserved hserves hstep with ⟨rfl, hknown⟩
    have hanswers := ht.answers
    rw [due, hloop, Option.toList_none, List.map_nil, List.append_nil] at hanswers
    intro hall
    have hasked : t.1.answered = t.2 ++ t.1.asks (.request conn req) := hall hloop
    simp only [asks, hknown, if_true, hanswers, List.self_eq_append_right, List.cons_ne_nil] at hasked
  | _ => cases hserves

/-- In every run each request on a known connection has been answered once, in order, whenever the event loop is not
    inside `basic_publish`, exactly when no request names a channel that is not open. -/
theorem run_answered_iff {basedir : String} {d : Disk} {db : Db} {acts : List Act} {s₀ : Sys} {t : Sys × List Ask}
    (hboot : boot pb basedir d db = some s₀) (hrun : Lib.run (hear pb) (s₀, []) acts = some t) :
    (∀ pre t₁, pre <+: acts → Lib.run (hear pb) (s₀, []) pre = some t₁ → t₁.1.loop = none → t₁.1.answered = t₁.2) ↔
      always (hear pb) (fun t act => t.1.serves act) (s₀, []) acts = true := by
  have hgood : ∀ t : Sys × List Ask, Prompt t → t.1.loop = none → t.1.answered = t.2 := fun t ht hloop => by
    have hanswers := ht.answers
    rwa [due, hloop, Option.toList_none, List.map_nil, List.append_nil] at hanswers
  exact always_iff_of_exact hgood (fun _ _ _ => hear_prompt) (fun _ _ _ => not_answered_of_hear) (boot_prompt hboot) hrun

/-- Every channel is open when it is named, and a second opening is answered too. -/
def polite : List Act :=
  [.connect 1, .request 1 (.openChannel ⟨"1", "c"⟩), .request 1 (.openChannel ⟨"2", "c"⟩),
    .request 1 (.declareExchange ⟨"3", "c", "e", .fanout, true, false, ∅⟩),
    .request 1 (.basicPublish ⟨"4", "c", "e", "x", none⟩), .publish "", .request 1 (.basicQuery ⟨"5", "c"⟩),
    .request 1 (.closeChannel ⟨"6", "c"⟩), .request 1 (.closeChannel ⟨"7", "c"⟩)]

theorem run_answered_iff_polite : ∃ (s₀ : Sys) (t : Sys × List Ask), boot protobuf "data" Store.vacant {} = some s₀ ∧
    Lib.run (hear protobuf) (s₀, []) polite = some t ∧ t.2.length = 7 ∧ ∀ pre t₁, pre <+: polite →
      Lib.run (hear protobuf) (s₀, []) pre = some t₁ → t₁.1.loop = none → t₁.1.answered = t₁.2 := by
  have hrun : (boot protobuf "data" Store.vacant {}).any (fun s₀ =>
      always (hear protobuf) (fun t act => t.1.serves act) (s₀, []) polite &&
        (Lib.run (hear protobuf) (s₀, []) polite).any fun t => t.2.length = 7) = true := by
    decide +kernel
  rcases (Option.any_eq_true _ _).mp hrun with ⟨s₀, hboot, hs₀⟩
  rcases (Bool.and_eq_true _ _).mp hs₀ with ⟨hserves, hs₀⟩
  rcases (Option.any_eq_true _ _).mp hs₀ with ⟨t, ht, hasked⟩
  exact ⟨s₀, t, hboot, ht, of_decide_eq_true hasked, (run_answered_iff hboot ht).mpr hserves⟩

/-- A channel is used after it was closed. -/
def unheard : List Act :=
  [.connect 1, .request 1 (.openChannel ⟨"1", "c"⟩), .request 1 (.closeChannel ⟨"2", "c"⟩),
    .request 1 (.deleteQueue ⟨"3", "c", "q"⟩)]

theorem run_unanswered : ∃ (s₀ : Sys) (t : Sys × List Ask), boot protobuf "data" Store.vacant {} = some s₀ ∧
    Lib.run (hear protobuf) (s₀, []) unheard = some t ∧ t.1.loop = none ∧
    t.2 = t.1.answered ++ [(1, false, "3", "c")] := by
  have hrun : (boot protobuf "data" Store.vacant {}).any (fun s₀ =>
      (Lib.run (hear protobuf) (s₀, []) unheard).any fun t => t.1.loop.isNone &&
        decide (t.2 = t.1.answered ++ [(1, false, "3", "c")])) = true := by
    decide +kernel
  rcases (Option.any_eq_true _ _).mp hrun with ⟨s₀, hboot, hs₀⟩
  rcases (Option.any_eq_true _ _).mp hs₀ with ⟨t, ht, hend⟩
  rcases (Bool.and_eq_true _ _).mp hend with ⟨hloop, hasked⟩
  exact ⟨s₀, t, hboot, ht, Option.isNone_iff_eq_none.mp hloop, of_decide_eq_true hasked⟩

end Sys
end HareMQ
