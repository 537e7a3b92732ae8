import HareMQ.Theorems.Answers
import HareMQ.Theorems.Command
import HareMQ.Theorems.Integrity
import HareMQ.Theorems.Serving
import HareMQ.Theorems.Truth

/-! # A server that is set up from a file

A configuration file is run against this server, which serves nobody else meanwhile. Every line gets its response, and the
exchanges, queues and bindings become what the lines say. -/

namespace HareMQ
open Lib

/-! ### What the lines say -/

/-- The operation on the metadata that a method asks for. -/
def ClientCall.hostOp : ClientCall → Option HostOp
  | .declareExchange name type durable autoDelete args => some (.declareExchange name type durable autoDelete args)
  | .deleteExchange name => some (.deleteExchange name)
  | .declareQueue qname qdurable qexclusive qautoDelete qargs =>
    some (.declareQueue qname qdurable qexclusive qautoDelete qargs)
  | .deleteQueue name => some (.deleteQueue name)
  | .bind ename qname key => some (.bind ename qname key)
  | .unbind ename qname => some (.unbind ename qname)
  | _ => none

/-- A binding needs its exchange and its queue. Nothing else is refused when the statements are clean. -/
def HostOp.granted (c : Metadata) : HostOp → Bool
  | .bind ename qname _ => (c.objects (.exchange ename)).isSome && (c.objects (.queue qname)).isSome
  | _ => true

def ClientCall.plan (c : Metadata) (method : ClientCall) : Except Halt (Bool × Metadata) :=
  match method.hostOp with
  | some op => .ok (op.granted c, op.effect c)
  | none => .ok (true, c)

/-! ### The server behind a terminal -/

/-- A method on a channel of the connection. It waits for ever when the server aborts, and when the request leads to no
    response at once. -/
def Sys.answer (pb : PayloadCodec) (conn : ConnRef) (ch : ClientChannel) (rid : String) (s : Sys) (method : ClientCall) :
    Except Halt (Bool × Sys) :=
  match ch.request rid method with
  | none => .ok (false, s)
  | some req =>
    match s.step pb (.request conn req) with
    | none => .error .hang
    | some s' =>
      match (s'.broker.sent.drop s.broker.sent.length).find? fun e =>
          e.1 = conn ∧ e.2.answers = some (req.isQuery, req.rid, req.cid) with
      | none => .error .hang
      | some e => .ok (Client.accepted e.2, s')

/-! ### Requests -/

namespace VirtualHost
variable {h : VirtualHost}

theorem Mirrored.getBinding_bind (hm : h.Mirrored) {ename qname key : String}
    (hgranted : HostOp.granted h.catalog (.bind ename qname key) = true) :
    ((h.bind ename qname key).2.bmp.getBinding ename qname).isSome = true := by
  have hcat : (h.bind ename qname key).2.bmp.getBinding ename qname =
      (h.catalog.link (.exchange ename) (.queue qname) ⟨ename, qname, key⟩).links (.exchange ename) (.queue qname) :=
    congrArg (fun c => c.links (.exchange ename) (.queue qname)) (hm.bind ename qname key).1
  rw [HostOp.granted, Bool.and_eq_true] at hgranted
  rw [hcat, Catalog.link]
  dsimp only
  rw [if_pos ⟨rfl, rfl, hgranted⟩, Option.isSome_or, Option.isSome_some, Bool.or_true]

theorem granted_bind (ename qname key : String) : HostOp.granted h.catalog (.bind ename qname key) =
    ((h.emp.selectExchange ename).isSome && (h.mqmp.selectQueue qname).isSome) := by
  rw [HostOp.granted, catalog, Option.isSome_map, Option.isSome_map]
  rfl

theorem bind_granted (hm : h.Mirrored) (ename qname key : String) :
    (h.bind ename qname key).1 = HostOp.granted h.catalog (.bind ename qname key) := by
  cases hgranted : HostOp.granted h.catalog (.bind ename qname key) with
  | false => rw [bind_missing key (granted_bind ename qname key ▸ hgranted)]
  | true =>
    have hlink := hm.getBinding_bind hgranted
    rw [granted_bind, Bool.and_eq_true, Option.isSome_iff_exists, Option.isSome_iff_exists] at hgranted
    rcases hgranted with ⟨⟨ep, hep⟩, mqp, hmqp⟩
    simp only [VirtualHost.bind, hep, hmqp, BindingManager.bind] at hlink ⊢
    cases hexists : h.bmp.exists? ename qname with
    | true => rfl
    | false =>
      cases hdurable : ep.durable && mqp.durable with
      | false => rfl
      | true =>
        rcases hinsert : BindingMapper.insert ⟨ename, qname, key⟩ h.db with ⟨ok, db⟩
        cases ok with
        | true => rfl
        | false =>
          -- a failed insertion would leave no binding
          simp only [hexists, hdurable, hinsert, Bool.false_eq_true, if_false, if_true] at hlink
          exact absurd (hexists.symm.trans hlink) Bool.false_ne_true

end VirtualHost

namespace Sys
variable {pb : PayloadCodec} {s s' : Sys} {basedir cid rid : String} {conn : ConnRef} {self : ChannelRef} {ch : ClientChannel}
  {c : Metadata} {method : ClientCall} {req : Request} {op : HostOp}

/-- A request that asks for an operation is served at once: the host makes the operation, and the response says whether it
    was granted. Nothing else changes that a request depends on. -/
structure Settled (pb : PayloadCodec) (basedir : String) (s : Sys) (ref : ChannelRef) (req : Request) (op : HostOp)
    (s' : Sys) : Prop where
  host : s.broker.host.step pb basedir (basedir ++ "/meta.db") op = some s'.broker.host
  sent : s'.broker.sent = s.broker.sent ++
    [((s.broker.channels ref).conn, .basicCommonResponse req.rid req.cid (op.granted s.broker.host.catalog))]
  conns : s'.broker.conns = s.broker.conns
  channels : s'.broker.channels = s.broker.channels
  loop : s'.loop = s.loop

variable (pb) in
theorem onChannel_settled (hm : s.broker.host.Mirrored) (hh : s.broker.host.Housed basedir) (self : ChannelRef)
    (hop : req.hostOp = some op) : ∃ s', s.onChannel pb self req = some s' ∧ s.Settled pb basedir self req op s' := by
  cases req with
  | declareExchange req =>
    cases hop
    have hok : (s.broker.host.declareExchange req.exchangeName req.exchangeType req.durable req.autoDelete req.args).1 =
        true := by
      unfold VirtualHost.declareExchange ExchangeManager.declareExchange
      dsimp only
      split <;> rfl
    have hsent : (s.broker.declareExchange self req).sent =
        s.broker.sent ++ [((s.broker.channels self).conn, .basicCommonResponse req.rid req.cid true)] := by
      rw [← hok]
      rfl
    exact ⟨_, rfl, rfl, hsent, rfl, rfl, rfl⟩
  | deleteExchange req =>
    cases hop
    exact ⟨_, rfl, rfl, rfl, rfl, rfl, rfl⟩
  | declareQueue req =>
    cases hop
    rcases VirtualHost.step_of_housed pb (basedir ++ "/meta.db") hm hh
      (.declareQueue req.queueName req.durable req.exclusive req.autoDelete req.args) with ⟨host, hstep, -⟩
    rcases Option.map_eq_some_iff.mp hstep with ⟨⟨ok, h₁⟩, hdecl, rfl⟩
    obtain rfl := declareQueue_ok hm hdecl
    refine ⟨_, by rw [onChannel, Broker.declareQueue, hdecl]; rfl, ?_⟩
    unfold noteDeclared
    split
    · exact ⟨hstep, rfl, rfl, rfl, rfl⟩
    · exact ⟨hstep, rfl, rfl, rfl, rfl⟩
  | deleteQueue req =>
    cases hop
    refine ⟨_, rfl, ?_⟩
    unfold noteDeleted
    split
    · exact ⟨rfl, rfl, rfl, rfl, rfl⟩
    · exact ⟨rfl, rfl, rfl, rfl, rfl⟩
  | bind req =>
    cases hop
    refine ⟨_, rfl, rfl, ?_, rfl, rfl, rfl⟩
    rw [← VirtualHost.bind_granted hm]
    rfl
  | unbind req =>
    cases hop
    exact ⟨_, rfl, rfl, rfl, rfl, rfl, rfl⟩
  | _ => cases hop

/-- The server is between two requests, its directory exists, and the channel is open. -/
structure Attends (basedir : String) (conn : ConnRef) (cid : String) (s : Sys) (c : Metadata) : Prop where
  catalog : s.broker.host.catalog = c
  mirrored : s.broker.host.Mirrored
  sturdy : s.broker.host.Sturdy basedir
  loop : s.loop = none
  channel : ∃ channels self, s.broker.conns.lookup conn = some channels ∧ channels.lookup cid = some self ∧
    (s.broker.channels self).conn = conn ∧ (s.broker.channels self).cid = cid

theorem request_of_hostOp (ch : ClientChannel) (rid : String) (hop : method.hostOp = some op) :
    ∃ req, ch.request rid method = some req ∧ req.hostOp = some op ∧ req.cid = ch.cid ∧ req.isQuery = false := by
  cases method <;> cases hop <;> exact ⟨_, rfl, rfl, rfl, rfl⟩

theorem onRequest_of_hostOp {channels : ChannelManager} (hconn : s.broker.conns.lookup conn = some channels)
    (hself : channels.lookup req.cid = some self) (hop : req.hostOp = some op) :
    s.onRequest pb conn req = s.onChannel pb self req := by
  rw [onRequest, hconn]
  dsimp only
  cases req with
  | openChannel req => cases hop
  | closeChannel req => cases hop
  | _ =>
    dsimp only
    rw [hself]

/-- A method returns with the response to its request. -/
theorem answer_of_sent {resp : Response} (hreq : ch.request rid method = some req)
    (hstep : s.step pb (.request conn req) = some s') (hsent : s'.broker.sent = s.broker.sent ++ [(conn, resp)])
    (hanswers : resp.answers = some (req.isQuery, req.rid, req.cid)) :
    s.answer pb conn ch rid method = .ok (Client.accepted resp, s') := by
  rw [answer, hreq]
  dsimp only
  rw [hstep]
  dsimp only
  rw [hsent, List.drop_left, List.find?_cons_of_pos]
  exact decide_eq_true ⟨rfl, hanswers⟩

variable (pb) (rid) in
/-- A method that asks for an operation. -/
theorem answer_of_hostOp (hs : s.Attends basedir conn ch.cid c) (hop : method.hostOp = some op) :
    ∃ s', s.answer pb conn ch rid method = .ok (op.granted c, s') ∧ s'.Attends basedir conn ch.cid (op.effect c) := by
  rcases hs.channel with ⟨channels, self, hconn, hself, hconnSelf, hcidSelf⟩
  rcases request_of_hostOp ch rid hop with ⟨req, hreq, hreqop, hcid, hquery⟩
  rcases onChannel_settled pb hs.mirrored hs.sturdy.housed self hreqop with ⟨s', hserve, hsettled⟩
  have hstep : s.step pb (.request conn req) = some s' := by
    rw [step, hs.loop, Option.isSome_none, if_neg Bool.false_ne_true,
      onRequest_of_hostOp hconn (hcid.symm ▸ hself) hreqop, hserve]
  have hsent := hsettled.sent
  rw [hconnSelf, hs.catalog] at hsent
  have hanswers : (Response.basicCommonResponse req.rid req.cid (op.granted c)).answers =
      some (req.isQuery, req.rid, req.cid) := by
    rw [hquery]
    rfl
  rcases VirtualHost.step_mirrored hs.mirrored hsettled.host with ⟨hcat, hmirrored⟩
  rcases VirtualHost.step_of_housed pb (basedir ++ "/meta.db") hs.mirrored hs.sturdy.housed op with ⟨h', hstep', hhoused⟩
  have hsame : h' = s'.broker.host := Option.some.inj (hstep'.symm.trans hsettled.host)
  have hact : s.broker.host.act pb basedir (basedir ++ "/meta.db") (.op op) = some s'.broker.host := hsettled.host
  refine ⟨s', answer_of_sent hreq hstep hsent hanswers, hs.catalog ▸ hcat, hmirrored,
    ⟨hsame ▸ hhoused, VirtualHost.act_filed hs.sturdy.filed hact⟩, hsettled.loop.trans hs.loop, ?_⟩
  rw [hsettled.conns, hsettled.channels]
  exact ⟨channels, self, hconn, hself, hconnSelf, hcidSelf⟩

variable (pb) (rid) in
theorem answer_basicQuery (hs : s.Attends basedir conn ch.cid c) :
    ∃ s', s.answer pb conn ch rid .basicQuery = .ok (false, s') ∧ s'.Attends basedir conn ch.cid c := by
  rcases hs.channel with ⟨channels, self, hconn, hself, hconnSelf, hcidSelf⟩
  rcases VirtualHost.basicQuery_of_filed hs.sturdy.filed with ⟨body, hbody⟩
  have hstep : s.step pb (.request conn (.basicQuery ⟨rid, ch.cid⟩)) =
      some (s.handle (s.broker.send conn (.basicQueryResponse rid ch.cid body))) := by
    rw [step, hs.loop, Option.isSome_none, if_neg Bool.false_ne_true, onRequest, hconn]
    dsimp only
    rw [show channels.lookup (Request.cid (.basicQuery ⟨rid, ch.cid⟩)) = some self from hself]
    simp only [onChannel, Broker.basicQuery, hbody, hconnSelf, hcidSelf]
    rfl
  exact ⟨_, answer_of_sent rfl hstep rfl rfl, hs.catalog, hs.mirrored, hs.sturdy, hs.loop, channels, self, hconn, hself,
    hconnSelf, hcidSelf⟩

/-- Every method that has a line is answered, and its outcome is the one that the line says. -/
theorem answer_agree (ch : ClientChannel) {words : List String} (hs : s.Attends basedir conn ch.cid c)
    (hwords : method.words = some words) :
    Agree (Attends basedir conn ch.cid) (Terminal.obey (answer pb conn ch rid) s method) (method.plan c) := by
  rw [Terminal.obey, ClientCall.plan]
  cases hop : method.hostOp with
  | some op =>
    rcases answer_of_hostOp pb rid hs hop with ⟨s', hanswer, hs'⟩
    have hdemands : (op.granted c || !method.demands) = op.granted c := by
      cases method <;> cases hop <;> simp [HostOp.granted, ClientCall.demands]
    rw [hanswer]
    dsimp only
    rw [hdemands]
    exact .ok _ hs'
  | none =>
    cases method with
    | basicQuery =>
      rcases answer_basicQuery pb rid hs with ⟨s', hanswer, hs'⟩
      rw [hanswer]
      exact .ok true hs'
    | closeServerChannel => cases hwords
    | basicPublish => cases hwords
    | basicAck => cases hwords
    | basicConsume => cases hwords
    | basicCancel => cases hwords
    | _ => cases hop

/-! ### Runs -/

variable {s₀ : Sys} {acts : List Act} {names : List String} {d : Disk}

/-- The channels know their names in every run. -/
theorem run_named (hs : s.broker.registry.Sound ∧ s.broker.registry.Named) (hrun : s.run pb acts = some s') :
    s'.broker.registry.Sound ∧ s'.broker.registry.Named := by
  rw [run_eq_run] at hrun
  induction acts generalizing s with
  | nil =>
    cases hrun
    exact hs
  | cons act acts ih =>
    rcases Lib.run_cons_eq_some hrun with ⟨s₁, hstep, hrun⟩
    refine ih ⟨step_registry_sound hs.1 hstep, ?_⟩ hrun
    by_cases hact : act = .restart
    · subst hact
      exact (boot_prompt hstep).named
    · rw [registry_step hstep hact]
      exact hs.2.apply hs.1 _

theorem run_attends (hblank : Blank basedir names d) (hdir : d.isDir (MessageMapper.directory basedir) = true)
    (hnames : Separate basedir names) (hboot : boot pb basedir d {} = some s₀)
    (hf : s₀.broker.host.Fits pb basedir names [] (s₀.hostActs pb acts)) (hrun : s₀.run pb acts = some s)
    (hloop : s.loop = none) (hself : s.broker.registry.channelAt conn cid = some self) :
    s.Attends basedir conn cid s.broker.host.catalog := by
  have hnamed := (run_named ⟨(boot_registry hboot).1, (boot_prompt hboot).named⟩ hrun).2 hself
  rw [run_eq_run] at hrun
  have hnew := host_boot hboot
  have hs₀ := VirtualHost.new_stocks hblank hnew
  have hhost := (host_run (boot_basedir hboot) hrun).2
  have hs := VirtualHost.run_stocks hnames hf hs₀ hhost
  have hh := VirtualHost.run_sturdy hnames hf hs₀ ⟨VirtualHost.new_housed hdir hnew, VirtualHost.new_filed hnew⟩ hhost
  rcases Option.bind_eq_some_iff.mp hself with ⟨channels, hconn, hlookup⟩
  exact ⟨rfl, hs.mirrored, hh, hloop, channels, self, hconn, hlookup, hnamed.1, hnamed.2⟩

end Sys

namespace Terminal
variable {pb : PayloadCodec} {s₀ s : Sys} {acts : List Act} {basedir cid : String} {conn : ConnRef} {self : ChannelRef}
  {names : List String} {d : Disk} {uuids : Nat → String}

/-- At whatever point of a run a channel is open, a configuration file whose statements are clean makes the exchanges,
    queues and bindings of the server what its lines say, until a binding lacks its exchange or its queue. Every line gets
    its response. -/
theorem runConfig_sets_up (hblank : Blank basedir names d)
    (hdir : d.isDir (MessageMapper.directory basedir) = true) (hnames : Separate basedir names)
    (hboot : Sys.boot pb basedir d {} = some s₀) (hf : s₀.broker.host.Fits pb basedir names [] (s₀.hostActs pb acts))
    (hrun : s₀.run pb acts = some s) (hloop : s.loop = none) (hself : s.broker.registry.channelAt conn cid = some self)
    {methods : List ClientCall} {lines : List String} (h : List.Forall₂ ClientCall.Writes methods lines)
    (_hclean : ∀ op ∈ methods.filterMap ClientCall.hostOp, ∀ st ∈ op.statements, st.Clean)
    (t : Terminal Sys) (hserver : t.server = s) (rid : String) :
    Agree (fun (t : Terminal Sys) c => t.server.broker.host.catalog = c)
      (t.runConfig (Sys.answer pb conn { cid } rid) uuids (some lines))
      (perform ClientCall.plan s.broker.host.catalog methods) := by
  subst hserver
  have hs := Sys.run_attends hblank hdir hnames hboot hf hrun hloop hself
  have hwrites : List.Forall₂ (fun method method' => method = method' ∧ ∃ words, ClientCall.words method = some words)
      methods methods := by
    clear _hclean
    induction h with
    | nil => exact .nil
    | cons hline _ ih =>
      rcases hline with ⟨words, hwords, -⟩
      exact .cons ⟨rfl, words, hwords⟩ ih
  have hserve : Agree (Sys.Attends basedir conn cid) (perform (obey (Sys.answer pb conn { cid } rid)) t.server methods)
      (perform ClientCall.plan t.server.broker.host.catalog methods) := by
    refine perform_agree (fun method method' hmethod s c hs => ?_) hwrites hs
    rcases hmethod with ⟨rfl, words, hwords⟩
    exact Sys.answer_agree { cid } hs hwords
  refine ((t.runConfig_writes h).trans hserve).mono ?_
  rintro t c ⟨s', hs', hattends⟩
  rw [hs']
  exact hattends.catalog

/-- A client that has opened a channel, and a file with a durable exchange, two queues and their bindings. -/
theorem runConfig_sets_up_forTest : ∃ s₀ s : Sys, Sys.boot protobuf "data" Store.vacant {} = some s₀ ∧
    s₀.run protobuf [.connect 0, .request 0 (.openChannel ⟨"rid", "cid"⟩)] = some s ∧
    Agree (fun (t : Terminal Sys) c => t.server.broker.host.catalog = c)
      (runConfig (Sys.answer protobuf 0 { cid := "cid" } "rid") (fun _ => "") ⟨s, "cid", [], []⟩ (some forTest))
      (perform ClientCall.plan s.broker.host.catalog forTestMethods) := by
  have hall := @Sys.exists_fits [.connect 0, .request 0 (.openChannel ⟨"rid", "cid"⟩)]
    (fun s => s.loop.isNone && decide (s.broker.registry.channelAt 0 "cid" = some 0)) (by decide +kernel)
  rcases hall with ⟨s₀, s, hboot, hf, hrun, hs⟩
  rw [Bool.and_eq_true, decide_eq_true_eq, Option.isNone_iff_eq_none] at hs
  exact ⟨s₀, s, hboot, hrun, runConfig_sets_up VirtualHost.vacant_blank (by decide +kernel) VirtualHost.separate_data hboot hf
    hrun hs.1 hs.2 writes_forTest (by decide +kernel) ⟨s, "cid", [], []⟩ rfl "rid"⟩

end Terminal
end HareMQ
