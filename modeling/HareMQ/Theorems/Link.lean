import HareMQ.Theorems.Between

/-! # The client and the server together

The client was modelled with a server of which nothing is known but that it answers a request at most once and pushes
to consumers that it has registered. The server of `mqserver` is such a server: every run of both is a run of that
client. -/

namespace HareMQ
open Lib Wire Conveyor

/-! ### What the server sends on one connection -/

theorem Registry.mem_conns_apply {r : Registry} {conn : ConnRef} {op : RegistryOp} (hconn : conn ∈ r.conns)
    (hop : op ≠ .disconnect conn) : conn ∈ (r.apply op).conns := by
  unfold apply
  cases op with
  | connect conn' => exact UMap.mem_emplace.mpr (Or.inr hconn)
  | disconnect conn' =>
    dsimp only
    split
    · exact hconn
    · rw [(foldl_destroy_same _ _).conns]
      refine AList.mem_erase.mpr ⟨?_, hconn⟩
      rintro rfl
      exact hop rfl
  | openChannel conn' cid =>
    dsimp only
    split
    · exact hconn
    · split
      · exact hconn
      · exact (AList.mem_insert _).mpr (Or.inr hconn)
  | closeChannel conn' cid =>
    dsimp only
    split
    · exact hconn
    · split
      · exact (AList.mem_insert _).mpr (Or.inr hconn)
      · rw [(destroy_same _ _).conns]
        exact (AList.mem_insert _).mpr (Or.inr hconn)
  | subscribe conn' cid ctag qname autoAck =>
    dsimp only
    split <;> exact hconn
  | _ => exact hconn

namespace Sys
variable {pb : PayloadCodec} {s s' : Sys} {act : Act} {conn : ConnRef}

/-- The server sends, on one connection, what it owes there, and pushes what it passes to consumers there. -/
theorem step_new (hn : s.broker.registry.Named) (hstep : s.step pb act = some s') (hact : act ≠ .restart) (conn : ConnRef) :
    ∃ new, s'.broker.sent = s.broker.sent ++ new ∧ new.filter (fun e => e.2.isPush) = (s.passes act).map Delivery.response ∧
      (of conn new).filterMap Response.answers ++ of conn s'.due =
        of conn s.due ++ of conn (if s.serves act then s.asks act else []) := by
  rcases step_sends hstep hact with ⟨new, hsent, hpushed⟩
  have hanswered := step_answered hn hstep hact
  rw [answered, hsent, List.filterMap_append, List.append_assoc, List.append_assoc] at hanswered
  have hnew := List.append_cancel_left hanswered
  refine ⟨new, hsent, hpushed, ?_⟩
  rw [← of_filterMap, ← of_append, hnew, of_append]

/-- A subscription is answered at once, and granted. -/
theorem sent_of_subscribes (hn : s.broker.registry.Named) {req : BasicConsumeRequest} {c : Consumer}
    (hstep : s.step pb (.request conn (.basicConsume req)) = some s')
    (hsub : s.subscribes (.request conn (.basicConsume req)) = some c) :
    s'.broker.sent = s.broker.sent ++ [(conn, .basicCommonResponse req.rid req.cid true)] ∧ s'.due = [] := by
  simp only [step, Option.ite_none_left_eq_some] at hstep
  rcases hstep with ⟨hloop, hstep⟩
  have hloop : s.loop = none := Option.not_isSome_iff_eq_none.mp hloop
  unfold subscribes at hsub
  dsimp only at hsub
  split at hsub
  · cases hsub
  · next self hself =>
    split at hsub
    · next hexists =>
      have hnames := (hn hself).1
      have hnames : (s.broker.channels self).conn = conn := hnames
      rcases Option.bind_eq_some_iff.mp hself with ⟨channels, hconn, hcid⟩
      have hrequest : s.onRequest pb conn (.basicConsume req) = s.onChannel pb self (.basicConsume req) := by
        have hcid : channels.lookup (Request.basicConsume req).cid = some self := hcid
        simp only [onRequest, hconn, hcid]
      rw [hrequest] at hstep
      cases hstep
      constructor
      · simp only [handle, Broker.basicConsume, hexists, if_true, Broker.basicResponse, Broker.send, Function.update_self, hnames]
      · rw [due, handle, hloop]
        rfl
    · cases hsub

theorem tag_of_subscribes (hs : s.broker.consumers.Filed) {req : BasicConsumeRequest} {c : Consumer}
    (hsub : s.subscribes (.request conn (.basicConsume req)) = some c) : c.tag = req.consumerTag := by
  unfold subscribes at hsub
  dsimp only at hsub
  split at hsub
  · cases hsub
  · next self _ =>
    split at hsub
    · rcases ConsumerManager.create_cases hs req.consumerTag req.queueName req.autoAck self with
        ⟨-, ⟨hnone, -⟩ | ⟨hsome, -⟩⟩
      · rw [hnone] at hsub
        cases hsub
      · rw [hsome, Option.some.injEq] at hsub
        rw [← hsub]
    · cases hsub

/-- A connection stays until it is lost. -/
theorem conns_step (hstep : s.step pb act = some s') (hact : act ≠ .restart) (hconn : conn ∈ s.broker.conns)
    (hkept : act ≠ .disconnect conn) : conn ∈ s'.broker.conns := by
  have hop : s.registryOp pb act ≠ .disconnect conn := by
    intro hop
    cases act with
    | disconnect conn' =>
      cases hop
      exact hkept rfl
    | request conn' req =>
      cases req with
      | openChannel req => cases hop
      | closeChannel req => cases hop
      | declareQueue req =>
        simp only [registryOp, channelOp] at hop
        split at hop
        · cases hop
        · split at hop <;> cases hop
      | basicConsume req =>
        simp only [registryOp, channelOp] at hop
        split at hop
        · cases hop
        · split at hop <;> cases hop
      | _ =>
        simp only [registryOp, channelOp] at hop
        split at hop <;> cases hop
    | work =>
      simp only [registryOp] at hop
      split at hop <;> cases hop
    | _ => cases hop
  have hregistry := congrArg Registry.conns (registry_step hstep hact)
  have hconn : conn ∈ s.broker.registry.conns := hconn
  show conn ∈ s'.broker.registry.conns
  rw [hregistry]
  exact Registry.mem_conns_apply hconn hop

/-- What happens on other connections asks nothing on this one. -/
theorem of_asks_ne (h : ∀ conn' req, act = .request conn' req → conn' ≠ conn) : of conn (s.asks act) = [] := by
  cases act with
  | request conn' req =>
    simp only [asks]
    split
    · rw [of_cons_ne (h conn' req rfl), of_nil]
    · rfl
  | _ => rfl

theorem subscriptions_ne (h : ∀ conn' req, act = .request conn' req → conn' ≠ conn) : ∀ e ∈ s.subscriptions act, e.1 ≠ conn := by
  intro e he
  cases act with
  | request conn' req =>
    cases req with
    | basicConsume req =>
      rcases List.mem_map.mp he with ⟨c, -, rfl⟩
      exact h conn' _ rfl
    | _ => cases he
  | _ => cases he

end Sys

/-! ### Both sides -/

namespace Link
variable {pb : PayloadCodec} {l l' : Link} {registered : List BasicConsumeRequest} {reqs : List Request}
  {resps : List Response}

/-- The requests that are not answered yet, or whose answers have not arrived, in the order of their answers. -/
def pipe (l : Link) (reqs : List Request) (resps : List Response) : List (Bool × String × String) :=
  resps.filterMap Response.answers ++ (of l.conn l.flow.sys.due ++ reqs.map Request.ask)

/-- The messages on their way are `reqs` and `resps`, and the server has registered consumers for `registered`. -/
structure Joined (l : Link) (registered : List BasicConsumeRequest) (reqs : List Request) (resps : List Response) : Prop where
  flow : l.flow.Sound
  up : l.up = reqs.map Request.frame
  down : l.down = resps.map Response.frame
  connected : l.connected = true → l.conn ∈ l.flow.sys.broker.conns
  idle : l.connected = false → reqs = []
  shut : l.shut = false
  requested : ∀ req ∈ reqs, l.client.outstanding.lookup req.rid = some req
  asked : ∀ x ∈ l.pipe reqs resps, ∃ req, l.client.outstanding.lookup x.2.1 = some req ∧ req.ask = x
  nodup : ((l.pipe reqs resps).map fun x => x.2.1).Nodup
  uuids : ∀ rid ∈ l.client.outstanding, rid ∈ l.client.uuids
  granted : ∀ r ∈ registered, r.rid ∈ l.client.uuids ∧
    (∀ x ∈ of l.conn l.flow.sys.due ++ reqs.map Request.ask, x.2.1 ≠ r.rid) ∧
    ∀ resp ∈ resps, ∀ query cid, resp.answers = some (query, r.rid, cid) → resp = .basicCommonResponse r.rid cid true
  covered : ∀ e ∈ l.flow.subscribed, e.1 = l.conn → ∃ r ∈ registered, r.cid = e.2.1 ∧ r.consumerTag = e.2.2.tag

/-- The client as its model has it. -/
def seen (l : Link) (registered : List BasicConsumeRequest) (resps : List Response) : Client :=
  l.client.withServer registered (Client.pushesFrom l.client.sent.length resps)

/-- A run of the model of the client. -/
def Follows (l l' : Link) (registered registered' : List BasicConsumeRequest) (resps resps' : List Response) : Prop :=
  ∃ acts, Lib.run Client.step (l.seen registered resps) acts = some (l'.seen registered' resps')

theorem serverStep_eq {act : Act} (hstep : l.serverStep pb act = some l') (hact : act ≠ .restart) (hl : l.flow.Sound) :
    ∃ flow new, l.flow.step pb act = some flow ∧ flow.sys.broker.sent = l.flow.sys.broker.sent ++ new ∧
      new.filter (fun e => e.2.isPush) = (l.flow.sys.passes act).map Delivery.response ∧
      (of l.conn new).filterMap Response.answers ++ of l.conn flow.sys.due =
        of l.conn l.flow.sys.due ++ of l.conn (if l.flow.sys.serves act then l.flow.sys.asks act else []) ∧
      l' = { l with flow, down := l.down ++ (of l.conn new).map Response.frame } := by
  unfold serverStep at hstep
  split at hstep
  · cases hstep
  · next flow hflow =>
    rcases Sys.step_new hl.named (Flow.step_eq hflow hact).1 hact l.conn with ⟨new, hsent, hpushed, hasked⟩
    refine ⟨flow, new, hflow, hsent, hpushed, hasked, ?_⟩
    cases hstep
    rw [hsent, List.drop_left, of, List.map_map]
    rfl

/-- What is pushed on the connection goes to consumers that the client has asked for. -/
theorem known_of_pushed {new : List (ConnRef × Response)} (dls : List Delivery) (subscribed : List (ConnRef × String × Consumer))
    (hfollows : ∀ d ∈ dls, (d.conn, d.cid, d.consumer) ∈ subscribed)
    (hcovered : ∀ e ∈ subscribed, e.1 = l.conn → ∃ r ∈ registered, r.cid = e.2.1 ∧ r.consumerTag = e.2.2.tag)
    (hpushed : new.filter (fun e => e.2.isPush) = dls.map Delivery.response) :
    ∀ resp ∈ of l.conn new, Client.Known registered resp := by
  intro resp hresp
  cases resp with
  | basicConsumeResponse cid consumerTag body properties =>
    have hpush : (l.conn, Response.basicConsumeResponse cid consumerTag body properties) ∈ dls.map Delivery.response :=
      hpushed ▸ List.mem_filter.mpr ⟨mem_of.mp hresp, rfl⟩
    rcases List.mem_map.mp hpush with ⟨dl, hdl, heq⟩
    rw [Delivery.response, Prod.mk.injEq, Response.basicConsumeResponse.injEq] at heq
    rcases heq with ⟨hto, rfl, rfl, -, -⟩
    exact hcovered _ (hfollows dl hdl) hto
  | _ => trivial

/-- A step of the server on other connections, or for none. -/
theorem joined_apart (hl : l.Joined registered reqs resps) {act : Act} (hact : act ≠ .restart)
    (hrequest : ∀ conn req, act = .request conn req → conn ≠ l.conn) (hstep : l.serverStep pb act = some l')
    (hconn : l'.connected = true → l.conn ∈ l'.flow.sys.broker.conns) (hidle : l'.connected = false → reqs = []) :
    ∃ resps', l'.Joined registered reqs resps' ∧ l.Follows l' registered registered resps resps' := by
  rcases serverStep_eq hstep hact hl.flow with ⟨flow, new, hflow, hsent, hpushed, hasked, rfl⟩
  have hnone : of l.conn (if l.flow.sys.serves act then l.flow.sys.asks act else []) = [] := by
    split
    · exact Sys.of_asks_ne hrequest
    · rfl
  rw [hnone, List.append_nil] at hasked
  have hpipe : pipe { l with flow, down := l.down ++ (of l.conn new).map Response.frame } reqs (resps ++ of l.conn new) =
      l.pipe reqs resps := by
    rw [pipe, pipe, List.filterMap_append, List.append_assoc, ← List.append_assoc (List.filterMap _ (of l.conn new)), hasked]
  have hstepped := Flow.step_sound hl.flow hflow
  rcases Flow.step_eq hflow hact with ⟨hsys, -, hsubscribed, hpassed⟩
  have hcovered : ∀ e ∈ flow.subscribed, e.1 = l.conn → ∃ r ∈ registered, r.cid = e.2.1 ∧ r.consumerTag = e.2.2.tag := by
    intro e he heq
    rw [hsubscribed] at he
    rcases List.mem_append.mp he with he | he
    · exact hl.covered e he heq
    · exact absurd heq (Sys.subscriptions_ne hrequest e he)
  have hknown := known_of_pushed _ _ (fun dl hdl => hstepped.follows dl (hpassed ▸ List.mem_append_right _ hdl)) hcovered hpushed
  refine ⟨resps ++ of l.conn new, ?_, ?_⟩
  · refine ⟨hstepped, hl.up, ?_, hconn, hidle, hl.shut, hl.requested, ?_, ?_, hl.uuids, fun r hr => ?_, hcovered⟩
    · rw [List.map_append, ← hl.down]
    · rw [hpipe]
      exact hl.asked
    · rw [hpipe]
      exact hl.nodup
    · rcases hl.granted r hr with ⟨huuid, hahead, hanswered⟩
      have hfresh : ∀ x ∈ (of l.conn new).filterMap Response.answers ++ of l.conn flow.sys.due, x.2.1 ≠ r.rid := by
        rw [hasked]
        exact fun x hx => hahead x (List.mem_append_left _ hx)
      refine ⟨huuid, fun x hx => ?_, fun resp hresp query cid hans => ?_⟩
      · rcases List.mem_append.mp hx with hx | hx
        · exact hfresh x (List.mem_append_right _ hx)
        · exact hahead x (List.mem_append_right _ hx)
      · rcases List.mem_append.mp hresp with hresp | hresp
        · exact hanswered resp hresp query cid hans
        · exact absurd rfl (hfresh _ (List.mem_append_left _ (List.mem_filterMap.mpr ⟨resp, hresp, hans⟩)))
  · rw [Follows, seen, seen, Client.pushesFrom_append]
    exact Client.run_pushes _ _ hknown

/-- What the server makes of a request: it owes one answer, or none. -/
theorem pipe_served {req : Request} {new : List Response} {due' owed : List (Bool × String × String)}
    {flow : Flow} {down : List Frame} (hdue : of l.conn l.flow.sys.due = []) (hdue' : of l.conn flow.sys.due = due')
    (hasked : new.filterMap Response.answers ++ due' = owed) (howed : owed.Sublist [req.ask]) (reqs : List Request) :
    (pipe { l with flow, down } reqs (resps ++ new)).Sublist (l.pipe (req :: reqs) resps) := by
  rw [pipe, pipe, List.filterMap_append, List.append_assoc, ← List.append_assoc (List.filterMap _ new), hdue', hasked, hdue,
    List.nil_append, List.map_cons]
  exact (List.Sublist.refl _).append (howed.append (List.Sublist.refl _))

/-- The subscription that a request makes at the server. -/
def grants (l : Link) (req : Request) : List BasicConsumeRequest :=
  match req with
  | .basicConsume r => ((l.flow.sys.subscribes (.request l.conn (.basicConsume r))).map fun _ => r).toList
  | _ => []

theorem mem_grants {req : Request} {r : BasicConsumeRequest} (h : r ∈ l.grants req) :
    req = .basicConsume r ∧ ∃ c, l.flow.sys.subscribes (.request l.conn (.basicConsume r)) = some c := by
  unfold grants at h
  split at h
  · rw [Option.mem_toList, Option.map_eq_some_iff] at h
    rcases h with ⟨c, hc, rfl⟩
    exact ⟨rfl, c, hc⟩
  · cases h

section Request
variable {req req' : Request} {flow : Flow} {new : List (ConnRef × Response)}

/-- A request is served when nothing is due. -/
theorem due_of_request (hsys : l.flow.sys.step pb (.request l.conn req') = some flow.sys) : l.flow.sys.due = [] := by
  simp only [Sys.step, Option.ite_none_left_eq_some] at hsys
  rw [Sys.due, Option.not_isSome_iff_eq_none.mp hsys.1]
  rfl

/-- What a request owes on its connection is its own answer, or nothing. -/
theorem owed_of_request (l : Link) (hsame : req'.Same req) :
    (of l.conn (if l.flow.sys.serves (.request l.conn req') then l.flow.sys.asks (.request l.conn req') else
      [])).Sublist [req.ask] := by
  split
  · simp only [Sys.asks]
    split
    · rw [of_cons_self, of_nil]
      have hask : (req'.isQuery, req'.rid, req'.cid) = req.ask := hsame.ask
      rw [hask]
    · exact List.nil_sublist _
  · exact List.nil_sublist _

/-- A subscription that is made is answered at once. -/
theorem grants_sent (hnamed : l.flow.sys.broker.registry.Named) (hsame : req'.Same req)
    (hsys : l.flow.sys.step pb (.request l.conn req') = some flow.sys)
    (hsent : flow.sys.broker.sent = l.flow.sys.broker.sent ++ new) {r : BasicConsumeRequest} (hr : r ∈ l.grants req) :
    req = .basicConsume r ∧ new = [(l.conn, .basicCommonResponse r.rid r.cid true)] ∧ flow.sys.due = [] := by
  rcases mem_grants hr with ⟨rfl, c, hc⟩
  rw [hsame.basicConsume] at hsys
  rcases Sys.sent_of_subscribes hnamed hsys hc with ⟨hgranted, hdue⟩
  exact ⟨rfl, List.append_cancel_left (hsent.symm.trans hgranted), hdue⟩

/-- The subscription that the request makes has no other answer on its way. -/
theorem granted_request (hl : l.Joined registered (req :: reqs) resps) (hdue : of l.conn l.flow.sys.due = [])
    {r : BasicConsumeRequest} (hreq : req = .basicConsume r)
    (hnew : new = [(l.conn, .basicCommonResponse r.rid r.cid true)]) (hdue' : flow.sys.due = []) :
    r.rid ∈ l.client.uuids ∧ (∀ x ∈ of l.conn flow.sys.due ++ reqs.map Request.ask, x.2.1 ≠ r.rid) ∧
      ∀ resp ∈ resps ++ of l.conn new, ∀ query cid, resp.answers = some (query, r.rid, cid) →
        resp = .basicCommonResponse r.rid cid true := by
  subst hreq
  have hnodup := hl.nodup
  rw [pipe, hdue, List.nil_append, List.map_cons, List.map_append, List.nodup_append] at hnodup
  rcases hnodup with ⟨-, hrest, hdisjoint⟩
  rw [List.map_cons, List.nodup_cons] at hrest
  have hhead := hl.requested _ List.mem_cons_self
  refine ⟨hl.uuids _ (UMap.mem_of_lookup hhead), fun x hx heq => ?_, fun resp hresp query cid hans => ?_⟩
  · rw [hdue', of_nil, List.nil_append] at hx
    have hmem := List.mem_map_of_mem (f := fun x : Bool × String × String => x.2.1) hx
    rw [heq] at hmem
    exact hrest.1 hmem
  · rcases List.mem_append.mp hresp with hresp | hresp
    · have hmem := List.mem_map_of_mem (f := fun x : Bool × String × String => x.2.1)
        (List.mem_filterMap.mpr ⟨resp, hresp, hans⟩)
      exact absurd rfl (hdisjoint _ hmem _ List.mem_cons_self)
    · rw [hnew, of_cons_self, of_nil, List.mem_singleton] at hresp
      subst hresp
      cases hans
      rfl

/-- The request has another id than the subscriptions made before it, and so has its answer. -/
theorem granted_before (hl : l.Joined registered (req :: reqs) resps)
    (howed : ((of l.conn new).filterMap Response.answers ++ of l.conn flow.sys.due).Sublist [req.ask])
    {r : BasicConsumeRequest} (hr : r ∈ registered) :
    r.rid ∈ l.client.uuids ∧ (∀ x ∈ of l.conn flow.sys.due ++ reqs.map Request.ask, x.2.1 ≠ r.rid) ∧
      ∀ resp ∈ resps ++ of l.conn new, ∀ query cid, resp.answers = some (query, r.rid, cid) →
        resp = .basicCommonResponse r.rid cid true := by
  rcases hl.granted r hr with ⟨huuid, hahead, hanswered⟩
  have hne : req.rid ≠ r.rid := hahead req.ask (List.mem_append_right _ List.mem_cons_self)
  refine ⟨huuid, fun x hx => ?_, fun resp hresp query cid hans => ?_⟩
  · rcases List.mem_append.mp hx with hx | hx
    · rw [List.mem_singleton.mp (howed.subset (List.mem_append_right _ hx))]
      exact hne
    · exact hahead x (List.mem_append_right _ (List.mem_cons_of_mem _ hx))
  · rcases List.mem_append.mp hresp with hresp | hresp
    · exact hanswered resp hresp query cid hans
    · have hmem := howed.subset (List.mem_append_left _ (List.mem_filterMap.mpr ⟨resp, hresp, hans⟩))
      have heq := congrArg (fun x : Bool × String × String => x.2.1) (List.mem_singleton.mp hmem)
      exact absurd heq.symm hne

/-- Every consumer of the connection is there for a subscription that was made before, or that the request makes. -/
theorem covered_request (hl : l.Joined registered (req :: reqs) resps) (hsame : req'.Same req)
    (hsubscribed : flow.subscribed = l.flow.subscribed ++ l.flow.sys.subscriptions (.request l.conn req')) :
    ∀ e ∈ flow.subscribed, e.1 = l.conn → ∃ r ∈ l.grants req ++ registered, r.cid = e.2.1 ∧ r.consumerTag = e.2.2.tag := by
  intro e he heq
  rw [hsubscribed] at he
  rcases List.mem_append.mp he with he | he
  · rcases hl.covered e he heq with ⟨r, hr, hrest⟩
    exact ⟨r, List.mem_append_right _ hr, hrest⟩
  · cases req' with
    | basicConsume r =>
      rcases List.mem_map.mp he with ⟨c, hc, rfl⟩
      have hc := Option.mem_toList.mp hc
      have hreq : req = .basicConsume r := by
        cases req with
        | _ => exact hsame.symm
      subst hreq
      refine ⟨r, List.mem_append_left _ ?_, rfl, (Sys.tag_of_subscribes hl.flow.registry.filed hc).symm⟩
      simp only [grants]
      rw [show l.flow.sys.subscribes (.request l.conn (.basicConsume r)) = some c from hc]
      exact List.mem_singleton_self _
    | _ => cases he

/-- What the server sends for a request is no push: the client registers the subscription, and receives. -/
theorem follows_request (hl : l.Joined registered (req :: reqs) resps)
    (hgrants : ∀ r ∈ l.grants req, req = .basicConsume r) (hpushed : new.filter (fun e => e.2.isPush) = [])
    (flow : Flow) (down : List Frame) :
    l.Follows { l with flow, down } registered (l.grants req ++ registered) resps (resps ++ of l.conn new) := by
  have hregister : ∀ r ∈ l.grants req, l.client.outstanding.lookup r.rid = some (.basicConsume r) := by
    intro r hr
    rw [← hgrants r hr]
    have hhead := hl.requested req List.mem_cons_self
    rwa [hgrants r hr] at hhead ⊢
  have hknown : ∀ resp ∈ of l.conn new, Client.Known (l.grants req ++ registered) resp :=
    known_of_pushed [] [] (List.forall_mem_nil _) (List.forall_mem_nil _) hpushed
  rcases Client.run_registers registered (Client.pushesFrom l.client.sent.length resps) _ hregister with ⟨acts₁, hacts₁⟩
  rcases Client.run_pushes _ (Client.pushesFrom l.client.sent.length resps) hknown with ⟨acts₂, hacts₂⟩
  refine ⟨acts₁ ++ acts₂, ?_⟩
  rw [seen, Lib.run_append hacts₁, hacts₂, seen, Client.pushesFrom_append]

end Request

/-- A request arrives at the server. -/
theorem joined_request {req req' : Request} (hl : l.Joined registered (req :: reqs) resps) (hsame : req'.Same req)
    (hstep : { l with up := reqs.map Request.frame }.serverStep pb (.request l.conn req') = some l') :
    ∃ resps', l'.Joined (l.grants req ++ registered) reqs resps' ∧
      l.Follows l' registered (l.grants req ++ registered) resps resps' := by
  have hact : Act.request l.conn req' ≠ .restart := by
    intro h
    cases h
  have hconnected : l.connected = true := by
    by_contra hnot
    exact List.cons_ne_nil _ _ (hl.idle (Bool.eq_false_iff.mpr hnot))
  rcases serverStep_eq hstep hact hl.flow with ⟨flow, new, hflow, hsent, hpushed, hasked, rfl⟩
  rcases Flow.step_eq hflow hact with ⟨hsys, -, hsubscribed, -⟩
  have hsys : l.flow.sys.step pb (.request l.conn req') = some flow.sys := hsys
  have hdue : of l.conn l.flow.sys.due = [] := by rw [due_of_request hsys, of_nil]
  have howed := owed_of_request l hsame
  have hasked : (of l.conn new).filterMap Response.answers ++ of l.conn flow.sys.due =
      of l.conn (if l.flow.sys.serves (.request l.conn req') then l.flow.sys.asks (.request l.conn req') else []) := by
    have hasked := hasked
    rw [hdue, List.nil_append] at hasked
    exact hasked
  have hpipe : (pipe { l with flow, down := l.down ++ (of l.conn new).map Response.frame } reqs (resps ++ of l.conn new)).Sublist
      (l.pipe (req :: reqs) resps) := pipe_served hdue rfl hasked howed reqs
  have hgrants := fun r => grants_sent (r := r) hl.flow.named hsame hsys hsent
  refine ⟨resps ++ of l.conn new, ?_, follows_request hl (fun r hr => (hgrants r hr).1) hpushed flow (l.down ++ (of l.conn new).map Response.frame)⟩
  refine ⟨Flow.step_sound hl.flow hflow, rfl, ?_, ?_, ?_, hl.shut, ?_, ?_, ?_, hl.uuids, ?_,
    covered_request hl hsame hsubscribed⟩
  · rw [List.map_append, ← hl.down]
  · exact fun _ => Sys.conns_step hsys hact (hl.connected hconnected) (fun h => Act.noConfusion h)
  · intro hnot
    rw [hconnected] at hnot
    cases hnot
  · exact fun r hr => hl.requested r (List.mem_cons_of_mem _ hr)
  · exact fun x hx => hl.asked x (hpipe.subset hx)
  · exact (hpipe.map _).nodup hl.nodup
  · intro r hr
    rcases List.mem_append.mp hr with hr | hr
    · rcases hgrants r hr with ⟨hreq, hnew, hdue'⟩
      exact granted_request hl hdue hreq hnew hdue'
    · exact granted_before hl (hasked ▸ howed) hr

/-- A pushed message arrives at the client. -/
theorem joined_message {cid consumerTag body : String} {properties : Option BasicProperties}
    (hl : l.Joined registered reqs (.basicConsumeResponse cid consumerTag body properties :: resps)) :
    Joined { l with
        down := resps.map Response.frame
        client := l.client.onResponse (.basicConsumeResponse cid consumerTag body properties) } registered reqs resps ∧
      l.Follows { l with
        down := resps.map Response.frame
        client := l.client.onResponse (.basicConsumeResponse cid consumerTag body properties) } registered registered
          (.basicConsumeResponse cid consumerTag body properties :: resps) resps := by
  constructor
  · refine ⟨hl.flow, hl.up, rfl, hl.connected, hl.idle, hl.shut, hl.requested, hl.asked, hl.nodup, hl.uuids, ?_, hl.covered⟩
    intro r hr
    rcases hl.granted r hr with ⟨huuid, hahead, hanswered⟩
    exact ⟨huuid, hahead, fun resp hresp => hanswered resp (List.mem_cons_of_mem _ hresp)⟩
  · refine ⟨[.arrive 0], ?_⟩
    have hsent : (l.client.onResponse (.basicConsumeResponse cid consumerTag body properties)).sent =
        l.client.sent ++ [⟨l.client.sent.length, cid, consumerTag, properties, body⟩] := rfl
    rw [seen, seen, Client.pushesFrom]
    dsimp only
    rw [hsent, List.length_append, List.length_singleton]
    refine Lib.run_cons ?_
    simp only [Client.step, Client.withServer, List.getElem?_cons_zero, List.eraseIdx_zero, List.tail_cons,
      Client.consumeResponse, Client.onResponse, List.append_assoc, List.singleton_append]

/-- An answer arrives at the client. -/
theorem joined_answer {resp : Response} {ask : Bool × String × String} (hans : resp.answers = some ask)
    (hl : l.Joined registered reqs (resp :: resps)) :
    Joined { l with down := resps.map Response.frame, client := l.client.onResponse resp } registered reqs resps ∧
      l.Follows { l with down := resps.map Response.frame, client := l.client.onResponse resp } registered registered
        (resp :: resps) resps := by
  rcases ask with ⟨query, rid, cid⟩
  have hpipe : l.pipe reqs (resp :: resps) = (query, rid, cid) :: l.pipe reqs resps := by
    rw [pipe, List.filterMap_cons_some hans, List.cons_append, pipe]
  rcases hl.asked _ (hpipe ▸ List.mem_cons_self) with ⟨req, hreq, hask⟩
  have hreq : l.client.outstanding.lookup rid = some req := hreq
  have hnodup := hl.nodup
  rw [hpipe, List.map_cons, List.nodup_cons] at hnodup
  rw [Client.onResponse_answer hans]
  rcases Client.commonResponse_kept (c := { l.client with outstanding := l.client.outstanding.erase rid }) cid resp with
    ⟨hout, huuids, hsent⟩
  generalize hclient : { l.client with outstanding := l.client.outstanding.erase rid }.commonResponse cid resp = client
    at hout huuids hsent
  have hout : client.outstanding = l.client.outstanding.erase rid := hout
  have hkept : ∀ x ∈ l.pipe reqs resps, client.outstanding.lookup x.2.1 = l.client.outstanding.lookup x.2.1 := by
    intro x hx
    have hmem := List.mem_map_of_mem (f := fun x : Bool × String × String => x.2.1) hx
    have hne : x.2.1 ≠ rid := by
      intro heq
      rw [heq] at hmem
      exact hnodup.1 hmem
    rw [hout, UMap.lookup_erase, if_neg hne]
  constructor
  · refine ⟨hl.flow, hl.up, rfl, hl.connected, hl.idle, hl.shut, ?_, ?_, hnodup.2, ?_, ?_, hl.covered⟩
    · intro r hr
      have hmem : r.ask ∈ l.pipe reqs resps := List.mem_append_right _ (List.mem_append_right _ (List.mem_map_of_mem hr))
      have hsame : client.outstanding.lookup r.rid = l.client.outstanding.lookup r.rid := hkept r.ask hmem
      exact hsame.trans (hl.requested r hr)
    · intro x hx
      rw [hkept x hx]
      exact hl.asked x (hpipe ▸ List.mem_cons_of_mem _ hx)
    · intro rid' hrid'
      rw [hout] at hrid'
      rw [huuids]
      exact hl.uuids rid' (AList.mem_erase.mp hrid').2
    · intro r hr
      rcases hl.granted r hr with ⟨huuid, hahead, hanswered⟩
      rw [huuids]
      exact ⟨huuid, hahead, fun resp' hresp' => hanswered resp' (List.mem_cons_of_mem _ hresp')⟩
  · have hgranted : ∀ r ∈ (l.seen registered (resp :: resps)).registered, r.rid = req.rid →
        resp = .basicCommonResponse req.rid req.cid true := by
      intro r hr heq
      have hids : resp.answers = some (query, r.rid, req.cid) := by
        rw [hans, heq, show rid = req.rid from congrArg (fun x : Bool × String × String => x.2.1) hask.symm,
          show cid = req.cid from congrArg (fun x : Bool × String × String => x.2.2) hask.symm]
      rw [← heq]
      exact (hl.granted r hr).2.2 resp List.mem_cons_self query req.cid hids
    rcases Client.exists_responseTo (hans.trans (congrArg some hask.symm)) hgranted with ⟨ok, body, hresp⟩
    refine ⟨[.response rid ok body], ?_⟩
    have hlookup : (l.seen registered (resp :: resps)).outstanding.lookup rid = some req := hreq
    have hcid : req.cid = cid := congrArg (fun x : Bool × String × String => x.2.2) hask
    have hnone : ∀ n, Client.pushesFrom n (resp :: resps) = Client.pushesFrom n resps := by
      intro n
      cases resp with
      | basicConsumeResponse => cases hans
      | _ => rfl
    have hstep : (l.seen registered (resp :: resps)).step (.response rid ok body) =
        some (client.withServer registered (Client.pushesFrom client.sent.length resps)) := by
      simp only [Client.step, hlookup, hresp, hcid, Option.some.injEq]
      rw [← hclient, ← Client.commonResponse_withServer, hclient, hsent, seen, hnone]
      rfl
    rw [Lib.run_cons hstep, Lib.run, seen]

/-- The client does something and sends nothing. -/
theorem joined_quiet {client : Client} (hl : l.Joined registered reqs resps) (hout : client.outstanding = l.client.outstanding)
    (huuids : ∀ rid ∈ l.client.uuids, rid ∈ client.uuids) : Joined { l with client } registered reqs resps := by
  refine ⟨hl.flow, hl.up, hl.down, hl.connected, hl.idle, hl.shut, ?_, ?_, hl.nodup, ?_, ?_, hl.covered⟩
  · rw [hout]
    exact hl.requested
  · rw [hout]
    exact hl.asked
  · rw [hout]
    exact fun rid hrid => huuids rid (hl.uuids rid hrid)
  · intro r hr
    rcases hl.granted r hr with ⟨huuid, hrest⟩
    exact ⟨huuids _ huuid, hrest⟩

/-- The client sends a request under a fresh id. -/
theorem joined_sent {client : Client} {req : Request} (hl : l.Joined registered reqs resps) (hconnected : l.connected = true)
    (hout : client.outstanding = l.client.outstanding.insert req.rid req) (hfresh : req.rid ∉ l.client.uuids)
    (hknown : req.rid ∈ client.uuids) (huuids : ∀ rid ∈ l.client.uuids, rid ∈ client.uuids) :
    Joined { l with client, up := l.up ++ [req.frame] } registered (reqs ++ [req]) resps := by
  have hpipe : pipe { l with client, up := l.up ++ [req.frame] } (reqs ++ [req]) resps = l.pipe reqs resps ++ [req.ask] := by
    rw [pipe, pipe, List.map_append, List.map_singleton, List.append_assoc, List.append_assoc]
  have hnew : ∀ rid ∈ l.client.outstanding, rid ≠ req.rid := by
    rintro rid hrid rfl
    exact hfresh (hl.uuids _ hrid)
  have hold : ∀ rid ∈ l.client.outstanding, client.outstanding.lookup rid = l.client.outstanding.lookup rid := by
    intro rid hrid
    rw [hout, UMap.lookup_insert, if_neg (hnew rid hrid)]
  have hself : client.outstanding.lookup req.rid = some req := by
    rw [hout, UMap.lookup_insert, if_pos rfl]
  have hasked : ∀ x ∈ l.pipe reqs resps, x.2.1 ∈ l.client.outstanding := by
    intro x hx
    rcases hl.asked x hx with ⟨r, hr, -⟩
    exact UMap.mem_of_lookup hr
  refine ⟨hl.flow, ?_, hl.down, hl.connected, ?_, hl.shut, ?_, ?_, ?_, ?_, ?_, hl.covered⟩
  · rw [hl.up, List.map_append, List.map_singleton]
  · intro hnot
    rw [hconnected] at hnot
    cases hnot
  · intro r hr
    rcases List.mem_append.mp hr with hr | hr
    · have hlookup := hl.requested r hr
      rw [hold r.rid (UMap.mem_of_lookup hlookup)]
      exact hlookup
    · rw [List.mem_singleton.mp hr]
      exact hself
  · intro x hx
    rw [hpipe] at hx
    rcases List.mem_append.mp hx with hx | hx
    · rw [hold x.2.1 (hasked x hx)]
      exact hl.asked x hx
    · rw [List.mem_singleton.mp hx]
      exact ⟨req, hself, rfl⟩
  · rw [hpipe, List.map_append, List.map_singleton]
    refine List.nodup_append.mpr ⟨hl.nodup, List.nodup_singleton _, fun rid hrid rid' hrid' heq => ?_⟩
    rcases List.mem_map.mp hrid with ⟨x, hx, rfl⟩
    rw [List.mem_singleton.mp hrid'] at heq
    exact hnew _ (hasked x hx) heq
  · intro rid hrid
    rw [hout] at hrid
    rcases (AList.mem_insert _).mp hrid with rfl | hrid
    · exact hknown
    · exact huuids rid (hl.uuids rid hrid)
  · intro r hr
    rcases hl.granted r hr with ⟨huuid, hahead, hanswered⟩
    refine ⟨huuids _ huuid, fun x hx => ?_, hanswered⟩
    rw [List.map_append, List.map_singleton, ← List.append_assoc] at hx
    rcases List.mem_append.mp hx with hx | hx
    · exact hahead x hx
    · rw [List.mem_singleton.mp hx]
      rintro heq
      have heq : req.rid = r.rid := heq
      exact hfresh (heq ▸ huuid)

/-- The client does something by itself. -/
theorem joined_client {act : ClientAct} {client : Client} (hl : l.Joined registered reqs resps) (hconnected : l.connected = true)
    (hown : act.own = true) (hstep : l.client.step act = some client) :
    Joined { l with client, up := l.up ++ ((l.client.sends act).map Request.frame).toList } registered
        (reqs ++ (l.client.sends act).toList) resps ∧
      l.Follows { l with client, up := l.up ++ ((l.client.sends act).map Request.frame).toList } registered registered
        resps resps := by
  rcases Client.step_own hown hstep with ⟨hsent, huuids, hsends⟩
  constructor
  · rcases hsends with ⟨hnone, hout⟩ | ⟨req, hsome, hfresh, hknown, hout⟩
    · simp only [hnone, Option.map_none, Option.toList_none, List.append_nil]
      exact joined_quiet hl hout huuids
    · rw [hsome, Option.map_some, Option.toList_some, Option.toList_some]
      exact joined_sent hl hconnected hout hfresh hknown huuids
  · refine ⟨[act], ?_⟩
    have hown := Client.step_withServer (c := l.client) registered (Client.pushesFrom l.client.sent.length resps) hown
    rw [hstep, Option.map_some] at hown
    rw [seen, Lib.run_cons hown, Lib.run, seen, hsent]

theorem joined_step (hl : l.Joined registered reqs resps) {act : LinkAct} (hstep : l.step pb act = some l') :
    ∃ registered' reqs' resps', l'.Joined registered' reqs' resps' ∧ l.Follows l' registered registered' resps resps' := by
  cases act with
  | connect =>
    simp only [step, Option.ite_none_left_eq_some, Option.map_eq_some_iff] at hstep
    rcases hstep with ⟨hconnected, l₁, hl₁, rfl⟩
    have hact : Act.connect l.conn ≠ .restart := by
      intro h
      cases h
    have hidle := hl.idle (Bool.eq_false_iff.mpr hconnected)
    rcases serverStep_eq hl₁ hact hl.flow with ⟨flow, new, hflow, -, -, -, rfl⟩
    have hconn : l.conn ∈ flow.sys.broker.conns := by
      have hsys := (Flow.step_eq hflow hact).1
      simp only [Sys.step, Option.ite_none_left_eq_some, Option.some.injEq] at hsys
      rw [← hsys.2]
      exact UMap.mem_emplace.mpr (Or.inl rfl)
    rcases joined_apart hl hact (fun _ _ h => Act.noConfusion h) hl₁ (fun _ => hconn) (fun _ => hidle) with ⟨resps', hjoined, hfollows⟩
    refine ⟨registered, reqs, resps', ?_, hfollows⟩
    exact { hjoined with connected := fun _ => hconn, idle := fun h => Bool.noConfusion h }
  | client act =>
    simp only [step, Option.ite_none_right_eq_some, Bool.and_eq_true, Option.map_eq_some_iff] at hstep
    rcases hstep with ⟨⟨hconnected, hown⟩, client, hclient, rfl⟩
    rcases joined_client hl hconnected hown hclient with ⟨hjoined, hfollows⟩
    exact ⟨registered, _, resps, hjoined, hfollows⟩
  | server act =>
    simp only [step, Option.ite_none_right_eq_some] at hstep
    rcases hstep with ⟨hapart, hl₁⟩
    have hact : act ≠ .restart := by
      rintro rfl
      cases hapart
    have hrequest : ∀ conn req, act = .request conn req → conn ≠ l.conn := by
      rintro conn req rfl
      exact of_decide_eq_true hapart
    have hkept : act ≠ .disconnect l.conn := by
      rintro rfl
      exact of_decide_eq_true hapart rfl
    rcases serverStep_eq hl₁ hact hl.flow with ⟨flow, new, hflow, -, -, -, rfl⟩
    have hconn := fun h => Sys.conns_step (Flow.step_eq hflow hact).1 hact (hl.connected h) hkept
    rcases joined_apart hl hact hrequest hl₁ hconn hl.idle with ⟨resps', hjoined, hfollows⟩
    exact ⟨registered, reqs, resps', hjoined, hfollows⟩
  | serve =>
    simp only [step, hl.up] at hstep
    cases reqs with
    | nil => cases hstep
    | cons req reqs =>
      have hconnected : l.connected = true := by
        by_contra hnot
        exact List.cons_ne_nil _ _ (hl.idle (Bool.eq_false_iff.mpr hnot))
      rcases req.parse_frame with ⟨req', hparse, hsame⟩
      simp only [List.map_cons, serve, hparse, if_pos (hl.connected hconnected)] at hstep
      rcases joined_request hl hsame hstep with ⟨resps', hjoined, hfollows⟩
      exact ⟨_, reqs, resps', hjoined, hfollows⟩
  | hear =>
    simp only [step, hl.down] at hstep
    cases resps with
    | nil => cases hstep
    | cons resp resps =>
      simp only [List.map_cons, hear, resp.parse_frame, Option.some.injEq] at hstep
      rw [← hstep]
      cases resp with
      | basicConsumeResponse cid consumerTag body properties =>
        rcases joined_message hl with ⟨hjoined, hfollows⟩
        exact ⟨registered, reqs, resps, hjoined, hfollows⟩
      | _ =>
        rcases joined_answer rfl hl with ⟨hjoined, hfollows⟩
        exact ⟨registered, reqs, resps, hjoined, hfollows⟩

theorem joined_start {basedir : String} {d : Disk} {db : Db} {s : Sys} (hboot : Sys.boot pb basedir d db = some s)
    (conn : ConnRef) : (start s conn).Joined [] [] [] := by
  have hdue : s.due = [] := by
    rw [Sys.due, (Sys.boot_registry hboot).2.2.1]
    rfl
  have hpipe : (start s conn).pipe [] [] = [] := by
    rw [pipe, start, Flow.start, hdue]
    rfl
  refine ⟨Flow.start_sound hboot, rfl, rfl, fun h => Bool.noConfusion h, fun _ => rfl, rfl, List.forall_mem_nil _, ?_, ?_, fun rid hrid => ?_,
    List.forall_mem_nil _, List.forall_mem_nil _⟩
  · rw [hpipe]
    exact List.forall_mem_nil _
  · rw [hpipe]
    exact List.nodup_nil
  · exact absurd hrid (AList.notMem_empty rid)

/-- The client as its model may have it. -/
def Shown (l : Link) (c : Client) : Prop :=
  ∃ registered reqs resps, l.Joined registered reqs resps ∧ c = l.seen registered resps

theorem shown_step (l : Link) (act : LinkAct) (l' : Link) (c : Client) (hc : l.Shown c) (hstep : l.step pb act = some l') :
    ∃ acts c', Lib.run Client.step c acts = some c' ∧ l'.Shown c' := by
  rcases hc with ⟨registered, reqs, resps, hjoined, rfl⟩
  rcases joined_step hjoined hstep with ⟨registered', reqs', resps', hjoined', acts, hacts⟩
  exact ⟨acts, _, hacts, registered', reqs', resps', hjoined', rfl⟩

theorem run_joined {basedir : String} {d : Disk} {db : Db} {s : Sys} {conn : ConnRef} {acts : List LinkAct}
    (hboot : Sys.boot pb basedir d db = some s) (hrun : Lib.run (step pb) (start s conn) acts = some l) :
    ∃ registered reqs resps, l.Joined registered reqs resps ∧
      ∃ acts', Lib.run Client.step {} acts' = some (l.seen registered resps) := by
  have hstart : Shown (start s conn) {} := ⟨[], [], [], joined_start hboot conn, rfl⟩
  rcases Lib.run_simulated shown_step hstart hrun with ⟨acts', c, hacts, registered, reqs, resps, hjoined, rfl⟩
  exact ⟨registered, reqs, resps, hjoined, acts', hacts⟩

/-- Every run of the client with this server is, on the side of the client, a run of the client with a server of which
    only this is known: it answers a request at most once, and pushes to consumers that it has registered. No message on
    the connection is one that the other side does not know. -/
theorem run_follows {basedir : String} {d : Disk} {db : Db} {s : Sys} {conn : ConnRef} {acts : List LinkAct}
    (hboot : Sys.boot pb basedir d db = some s) (hrun : Lib.run (step pb) (start s conn) acts = some l) :
    l.shut = false ∧ ∃ registered inFlight acts', Lib.run Client.step {} acts' =
      some { l.client with registered, inFlight, sent := l.client.sent ++ inFlight } := by
  rcases run_joined hboot hrun with ⟨registered, reqs, resps, hjoined, acts', hacts⟩
  exact ⟨hjoined.shut, registered, _, acts', hacts⟩

/-- A method is called, and gets its response. -/
def answering (rid : String) (method : ClientCall) : List LinkAct :=
  [.client (.call 0 rid method), .serve, .hear, .client (.wait rid), .client (.finish rid)]

/-- The client subscribes to a queue and publishes a message, which the server passes to its callback. -/
def linked : List LinkAct :=
  [.connect, .client (.openChannel "c" "1"), .client (.wait "1"), .serve, .hear, .client (.wait "1"),
    .client (.finish "1")] ++
  answering "2" (.declareExchange "e" .direct true false ∅) ++ answering "3" (.declareQueue "q" true false false ∅) ++
  answering "4" (.bind "e" "q" "q") ++ answering "5" (.basicConsume "t" "q" true 7) ++
  [.client (.call 0 "6" (.basicPublish "e" (some ⟨"m", .durable, "q"⟩) "x")), .serve, .server (.publish "u"),
    .server (.publish ""), .server (.publish ""), .server .work, .server .work, .server .work, .server .work,
    .server .work, .hear, .hear, .client .work, .client .work, .client (.wait "6")]

theorem run_linked : ∃ (s : Sys) (l : Link), Sys.boot protobuf "data" Store.vacant {} = some s ∧
    Lib.run (step protobuf) (start s 1) linked = some l ∧ l.client.returned.length = 6 ∧ l.client.consumed.length = 1 := by
  have hrun : (Sys.boot protobuf "data" Store.vacant {}).any (fun s => (Lib.run (step protobuf) (start s 1) linked).any fun l =>
      decide (l.client.returned.length = 6) && decide (l.client.consumed.length = 1)) = true := by
    decide +kernel
  rcases (Option.any_eq_true _ _).mp hrun with ⟨s, hboot, hs⟩
  rcases (Option.any_eq_true _ _).mp hs with ⟨l, hl, hend⟩
  rcases (Bool.and_eq_true _ _).mp hend with ⟨hreturned, hconsumed⟩
  exact ⟨s, l, hboot, hl, of_decide_eq_true hreturned, of_decide_eq_true hconsumed⟩

theorem run_follows_linked : ∃ (s : Sys) (l : Link), Sys.boot protobuf "data" Store.vacant {} = some s ∧
    Lib.run (step protobuf) (start s 1) linked = some l ∧ l.client.consumed.length = 1 ∧ l.shut = false ∧
    ∃ registered inFlight acts', Lib.run Client.step {} acts' =
      some { l.client with registered, inFlight, sent := l.client.sent ++ inFlight } := by
  rcases run_linked with ⟨s, l, hboot, hl, -, hconsumed⟩
  exact ⟨s, l, hboot, hl, hconsumed, run_follows hboot hl⟩

end Link
end HareMQ
