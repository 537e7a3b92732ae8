import HareMQ.Theorems.Link

/-! # From the publisher to the callback

What the server passes to the consumers of a connection goes through the connection, the event loop of the client and its
pool to the callbacks. Nothing on this way changes the order. A message is dropped at one place only: where the worker of
the client finds no subscription for it. -/

namespace HareMQ
open Lib Wire Conveyor

/-- The response that a pushed message came in. -/
def Push.response (p : Push) : Response := .basicConsumeResponse p.cid p.consumerTag p.body p.properties

/-! ### The client -/

namespace Client
variable {c c' : Client} {act : ClientAct}

/-- The tasks in the pool, oldest first. -/
def tasks (c : Client) : List ConsumeTask := c.pool.tmp ++ c.pool.taskQueue

/-- What has come to callbacks, and then what waits in the pool. -/
def received (c : Client) : List Push := c.consumed.map Consumed.resp ++ c.tasks.map ConsumeTask.resp

structure Receives (c : Client) : Prop where
  tied : c.Tied
  order : c.received.Sublist c.sent
  tasks : ∀ task ∈ c.tasks, ∀ ch, task.channel = some ch → ch < c.next ∧ (c.channels ch).cid = task.resp.cid
  own : ∀ x ∈ c.consumed, x.consumer.tag = x.resp.consumerTag ∧ x.channel < c.next ∧
    (c.channels x.channel).cid = x.resp.cid

theorem Quiet.receives (h : c.Quiet c') (hc : c.Receives) (ht : c'.Tied) : c'.Receives where
  tied := ht
  order := by
    rw [received, Client.tasks, h.consumed, h.pool, h.sent]
    exact hc.order
  tasks task htask ch hch := by
    rw [Client.tasks, h.pool] at htask
    rcases hc.tasks task htask ch hch with ⟨hlt, hcid⟩
    exact ⟨hlt.trans_le h.next, (h.cids ch hlt).trans hcid⟩
  own x hx := by
    rw [h.consumed] at hx
    rcases hc.own x hx with ⟨htag, hlt, hcid⟩
    exact ⟨htag, hlt.trans_le h.next, (h.cids _ hlt).trans hcid⟩

theorem Quiet.received (h : c.Quiet c') : c'.received = c.received := by
  rw [Client.received, Client.received, Client.tasks, Client.tasks, h.consumed, h.pool]

theorem tasks_swap {pool : ThreadPool ConsumeTask} (htmp : c.pool.tmp = []) (hpool : c.pool.swap = some pool) :
    { c with pool }.tasks = c.tasks := by
  unfold ThreadPool.swap at hpool
  split at hpool
  · cases hpool
  · cases hpool
    rw [tasks, tasks, htmp, List.append_nil, List.nil_append]

theorem tasks_cons {task : ConsumeTask} {tmp : List ConsumeTask} (htmp : c.pool.tmp = task :: tmp) :
    c.tasks = task :: { c with pool := { c.pool with tmp } }.tasks := by
  rw [tasks, tasks, htmp, List.cons_append]

/-- The worker takes the oldest task. It drops the message if the subscription is not there. -/
theorem receives_work (hc : c.Receives) (hwork : c.work = some c') :
    c'.Receives ∧ c'.sent = c.sent ∧ (c.attended .work = true → c'.received = c.received) := by
  cases work_does hwork with
  | @swap pool htmp hpool =>
    have htasks := tasks_swap htmp hpool
    have hreceived : { c with pool }.received = c.received := by rw [received, received, htasks]
    refine ⟨⟨hc.tied.apart .., ?_, ?_, hc.own⟩, rfl, fun _ => hreceived⟩
    · rw [hreceived]
      exact hc.order
    · rw [htasks]
      exact hc.tasks
  | @drop task tmp ch htmp hch hconsumer =>
    have htasks := tasks_cons htmp
    refine ⟨⟨hc.tied.apart .., ?_, fun task' htask' => ?_, hc.own⟩, rfl, fun hattended => ?_⟩
    · refine List.Sublist.trans ?_ hc.order
      rw [received, received, htasks, List.map_cons]
      exact (List.Sublist.refl _).append (List.sublist_cons_self _ _)
    · exact hc.tasks task' (htasks ▸ List.mem_cons_of_mem _ htask')
    · rw [attended_work htmp hch, hconsumer] at hattended
      cases hattended
  | @consume task tmp ch consumer htmp hch hconsumer =>
    have htasks := tasks_cons htmp
    have hreceived : received { c with
        pool := { c.pool with tmp }
        calling := true
        consumed := c.consumed ++ [⟨ch, consumer, task.resp⟩] } = c.received := by
      rw [received, received, htasks, List.map_append, List.map_singleton, List.map_cons, List.append_assoc]
      rfl
    refine ⟨⟨hc.tied.apart .., ?_, fun task' htask' => ?_, fun x hx => ?_⟩, rfl, fun _ => hreceived⟩
    · rw [hreceived]
      exact hc.order
    · exact hc.tasks task' (htasks ▸ List.mem_cons_of_mem _ htask')
    · rcases List.mem_append.mp hx with hx | hx
      · exact hc.own x hx
      · rw [List.mem_singleton.mp hx]
        rcases hc.tasks task (htasks ▸ List.mem_cons_self) ch hch with ⟨hlt, hcid⟩
        exact ⟨(ClientChannel.consume_eq_some_iff.mp hconsumer).2, hlt, hcid⟩

/-- What the client does by itself. -/
theorem receives_own (hc : c.Receives) (hown : act.own = true) (hstep : c.step act = some c') :
    c'.Receives ∧ c'.sent = c.sent ∧ (c.attended act = true → c'.received = c.received) := by
  rcases step_quiet hstep with hquiet | ⟨req, properties, body, rfl⟩ | ⟨i, rfl⟩ | rfl
  · exact ⟨hquiet.receives hc (hc.tied.step hstep), hquiet.sent, fun _ => hquiet.received⟩
  · cases hown
  · cases hown
  · simp only [step, Option.ite_none_left_eq_some] at hstep
    exact receives_work hc hstep.2

theorem tasks_consumeResponse (message : Push) :
    (c.consumeResponse message).tasks = c.tasks ++ [⟨c.manager.lookup message.cid, message⟩] :=
  (List.append_assoc ..).symm

theorem quiet_onResponse {resp : Response} {ask : Bool × String × String} (h : resp.answers = some ask) :
    c.Quiet (c.onResponse resp) := by
  rw [onResponse_answer h]
  exact quiet_commonResponse _ h

/-- What the client receives. -/
theorem receives_onResponse (hc : c.Receives) (resp : Response) :
    (c.onResponse resp).Receives ∧
      (c.onResponse resp).sent.map Push.response = c.sent.map Push.response ++ [resp].filter Response.isPush ∧
      (c.received = c.sent → (c.onResponse resp).received = (c.onResponse resp).sent) := by
  cases hans : resp.answers with
  | some ask =>
    have hquiet := quiet_onResponse (c := c) hans
    have hpush : [resp].filter Response.isPush = [] := by
      cases resp with
      | basicConsumeResponse => cases hans
      | _ => rfl
    refine ⟨hquiet.receives hc ?_, ?_, fun h => ?_⟩
    · rw [onResponse_answer hans]
      exact hc.tied.commonResponse _ hans
    · rw [hquiet.sent, hpush, List.append_nil]
    · rw [hquiet.received, hquiet.sent, h]
  | none =>
    cases resp with
    | basicConsumeResponse cid consumerTag body properties =>
      let message : Push := { seq := c.sent.length, cid, consumerTag, properties, body }
      have htasks : (c.onResponse (.basicConsumeResponse cid consumerTag body properties)).tasks =
          c.tasks ++ [⟨c.manager.lookup cid, message⟩] := tasks_consumeResponse message
      have hreceived : (c.onResponse (.basicConsumeResponse cid consumerTag body properties)).received =
          c.received ++ [message] := by
        rw [received, htasks, List.map_append, ← List.append_assoc]
        rfl
      have hsent : (c.onResponse (.basicConsumeResponse cid consumerTag body properties)).sent = c.sent ++ [message] := rfl
      refine ⟨⟨hc.tied.apart .., ?_, fun task htask ch hch => ?_, hc.own⟩, ?_, fun h => ?_⟩
      · rw [hreceived, hsent]
        exact hc.order.append (List.Sublist.refl _)
      · rw [htasks] at htask
        rcases List.mem_append.mp htask with htask | htask
        · exact hc.tasks task htask ch hch
        · rw [List.mem_singleton.mp htask] at hch ⊢
          exact hc.tied.managed cid ch hch
      · rw [hsent, List.map_append]
        rfl
      · rw [hreceived, hsent, h]
    | _ => cases hans

end Client

/-! ### Both sides -/

namespace Link
variable {pb : PayloadCodec} {l l' : Link} {registered : List BasicConsumeRequest} {reqs : List Request}
  {resps : List Response} {act : LinkAct}

/-- What is on its way to the client. -/
def arriving (l : Link) : List Response := l.down.filterMap fun frame => Response.parse frame.1 frame.2

theorem arriving_eq (hdown : l.down = resps.map Response.frame) : l.arriving = resps := by
  have hparse : (fun resp : Response => Response.parse resp.frame.1 resp.frame.2) = some := funext Response.parse_frame
  rw [arriving, hdown, List.filterMap_map, Function.comp_def, hparse, List.filterMap_some]

/-- What is on its way to the server, as it will be read there. -/
def requests (l : Link) : List Request := l.up.filterMap fun frame => Request.parse frame.1 frame.2

/-- What was passed to consumers of the connection. -/
def here (l : Link) : List Delivery := l.flow.passed.filter (·.conn = l.conn)

/-- What the server does in an act. -/
def serverAct (l : Link) : LinkAct → Option Act
  | .connect => some (.connect l.conn)
  | .server act => some act
  | .serve => l.requests.head?.map (.request l.conn)
  | _ => none

/-- The side on which a step is made. -/
inductive Side (pb : PayloadCodec) (l : Link) : LinkAct → Link → Prop
  | apart {act : LinkAct} {sact : Act} {connected : Bool} {l₁ : Link} (hclient : ∀ act', act ≠ .client act')
      (hsact : l.serverAct act = some sact) (hrestart : sact ≠ .restart)
      (hrequest : ∀ conn req, sact = .request conn req → conn ≠ l.conn) (hkept : sact ≠ .disconnect l.conn)
      (hstep : l.serverStep pb sact = some l₁) : Side pb l act { l₁ with connected }
  | serve {req : Request} {up : List Frame} {l' : Link} (hrequests : l.requests = req :: requests { l with up })
      (hstep : serverStep pb { l with up } (.request l.conn req) = some l') : Side pb l .serve l'
  | client {act : ClientAct} {client : Client} (hown : act.own = true) (hclient : l.client.step act = some client) :
    Side pb l (.client act) { l with client, up := l.up ++ ((l.client.sends act).map Request.frame).toList }
  | hear {resp : Response} {down : List Frame} (harriving : l.arriving = resp :: arriving { l with down }) :
    Side pb l .hear { l with down, client := l.client.onResponse resp }

theorem step_side (hl : l.Joined registered reqs resps) (hstep : l.step pb act = some l') : l.Side pb act l' := by
  cases act with
  | connect =>
    simp only [step, Option.ite_none_left_eq_some, Option.map_eq_some_iff] at hstep
    rcases hstep with ⟨-, l₁, hl₁, rfl⟩
    exact .apart (fun _ h => LinkAct.noConfusion h) rfl (fun h => Act.noConfusion h) (fun _ _ h => Act.noConfusion h)
      (fun h => Act.noConfusion h) hl₁
  | client act' =>
    simp only [step, Option.ite_none_right_eq_some, Bool.and_eq_true, Option.map_eq_some_iff] at hstep
    rcases hstep with ⟨⟨-, hown⟩, client, hclient, rfl⟩
    exact .client hown hclient
  | server sact =>
    simp only [step, Option.ite_none_right_eq_some] at hstep
    rcases hstep with ⟨hapart, hl₁⟩
    refine .apart (fun _ h => LinkAct.noConfusion h) rfl ?_ ?_ ?_ hl₁
    · rintro rfl
      cases hapart
    · rintro conn req rfl
      exact of_decide_eq_true hapart
    · rintro rfl
      exact of_decide_eq_true hapart rfl
  | serve =>
    cases reqs with
    | nil =>
      simp only [step, hl.up] at hstep
      cases hstep
    | cons req reqs =>
      have hup : l.up = req.frame :: reqs.map Request.frame := hl.up
      have hconnected : l.connected = true := by
        by_contra hnot
        exact List.cons_ne_nil _ _ (hl.idle (Bool.eq_false_iff.mpr hnot))
      rcases req.parse_frame with ⟨req', hparse, -⟩
      simp only [step, hup, serve, hparse, if_pos (hl.connected hconnected)] at hstep
      refine .serve ?_ hstep
      rw [requests, hup, List.filterMap_cons, hparse]
      rfl
  | hear =>
    simp only [step, hl.down] at hstep
    cases resps with
    | nil => cases hstep
    | cons resp resps =>
      simp only [List.map_cons, hear, resp.parse_frame, Option.some.injEq] at hstep
      rw [← hstep]
      refine .hear ?_
      rw [arriving_eq hl.down, arriving_eq (l := { l with down := resps.map Response.frame }) rfl]

/-- What the server sends on the connection is on its way. -/
theorem serverStep_arriving {sact : Act} {up : List Frame} (hl : l.Joined registered reqs resps)
    (hstep : serverStep pb { l with up } sact = some l') (hrestart : sact ≠ .restart) :
    ∃ flow down new, l.flow.step pb sact = some flow ∧ flow.sys.broker.sent = l.flow.sys.broker.sent ++ new ∧
      (of l.conn new).filterMap Response.answers ++ of l.conn flow.sys.due =
        of l.conn l.flow.sys.due ++ of l.conn (if l.flow.sys.serves sact then l.flow.sys.asks sact else []) ∧
      l' = { l with flow, up, down } ∧ l'.arriving = l.arriving ++ of l.conn new := by
  rcases serverStep_eq hstep hrestart hl.flow with ⟨flow, new, hflow, hsent, -, hasked, rfl⟩
  refine ⟨flow, _, new, hflow, hsent, hasked, rfl, ?_⟩
  rw [arriving_eq hl.down]
  refine arriving_eq ?_
  rw [List.map_append, ← hl.down]

/-- Every message that was pushed on the connection has come to the client or is on its way. -/
structure Carries (l : Link) : Prop where
  client : l.client.Receives
  pushed : of l.conn l.flow.sys.pushes = l.client.sent.map Push.response ++ l.arriving.filter Response.isPush

theorem carries_server {sact : Act} {up : List Frame} (hl : l.Joined registered reqs resps) (hc : l.Carries)
    (hstep : serverStep pb { l with up } sact = some l') (hrestart : sact ≠ .restart) : l'.Carries := by
  rcases serverStep_arriving hl hstep hrestart with ⟨flow, down, new, -, hsent, -, rfl, harriving⟩
  refine ⟨hc.client, ?_⟩
  have hpushes : flow.sys.pushes = l.flow.sys.pushes ++ new.filter fun e => e.2.isPush := by
    rw [Sys.pushes, hsent, List.filter_append, Sys.pushes]
  rw [harriving, List.filter_append, ← List.append_assoc, ← hc.pushed, ← of_filter, ← of_append]
  exact congrArg (of l.conn) hpushes

theorem carries_step (hl : l.Joined registered reqs resps) (hc : l.Carries) (hstep : l.step pb act = some l') : l'.Carries := by
  cases step_side hl hstep with
  | apart _ _ hrestart _ _ hl₁ =>
    rcases carries_server hl hc hl₁ hrestart with ⟨hreceives, hpushed⟩
    exact ⟨hreceives, hpushed⟩
  | serve _ hl₁ => exact carries_server hl hc hl₁ fun h => Act.noConfusion h
  | client hown hclient =>
    rcases Client.receives_own hc.client hown hclient with ⟨hreceives, hsent, -⟩
    refine ⟨hreceives, ?_⟩
    have hpushed := hc.pushed
    rw [← hsent] at hpushed
    exact hpushed
  | @hear resp down harriving =>
    rcases Client.receives_onResponse hc.client resp with ⟨hreceives, hsent, -⟩
    refine ⟨hreceives, ?_⟩
    have hpushed := hc.pushed
    rw [harriving] at hpushed
    dsimp only
    rw [hsent, hpushed, List.append_assoc, ← List.singleton_append, List.filter_append]
    rfl

theorem carries_start {basedir : String} {d : Disk} {db : Db} {s : Sys} (hboot : Sys.boot pb basedir d db = some s)
    (conn : ConnRef) : (start s conn).Carries := by
  refine ⟨⟨Client.tied_start, List.Sublist.refl _, List.forall_mem_nil _, List.forall_mem_nil _⟩, ?_⟩
  have hnone : of conn s.pushes = [] := by rw [(Flow.boot_pushes hboot).1, of_nil]
  exact hnone

/-- A step keeps what a run keeps. -/
theorem held_step (h : (∃ registered reqs resps, l.Joined registered reqs resps) ∧ l.Carries)
    (hstep : l.step pb act = some l') : (∃ registered reqs resps, l'.Joined registered reqs resps) ∧ l'.Carries := by
  rcases h with ⟨⟨registered, reqs, resps, hl⟩, hc⟩
  rcases joined_step hl hstep with ⟨registered', reqs', resps', hl', -⟩
  exact ⟨⟨registered', reqs', resps', hl'⟩, carries_step hl hc hstep⟩

theorem carries_run {basedir : String} {d : Disk} {db : Db} {s : Sys} {conn : ConnRef} {acts : List LinkAct}
    (hboot : Sys.boot pb basedir d db = some s) (hrun : Lib.run (step pb) (start s conn) acts = some l) :
    (∃ registered reqs resps, l.Joined registered reqs resps) ∧ l.Carries :=
  Lib.run_induct (fun _ _ _ => held_step) ⟨⟨[], [], [], joined_start hboot conn⟩, carries_start hboot conn⟩ hrun

/-- What was passed on the connection has come to the client or is on its way, in this order. -/
theorem here_eq (hl : l.Joined registered reqs resps) (hc : l.Carries) : l.here.map (fun d => d.response.2) =
    l.client.sent.map Push.response ++ l.arriving.filter Response.isPush := by
  rw [← hc.pushed, hl.flow.pushed, of, List.filter_map, List.map_map]
  rfl

/-- In every run the callbacks of the client are called with messages that the server passed to consumers of this
    connection, in the order in which it passed them and each at most once. Each comes to the channel that it names, whose
    subscription has its tag, and out of every queue they come in the order in which they were put in. -/
theorem run_delivers {basedir : String} {d : Disk} {db : Db} {s : Sys} {conn : ConnRef} {acts : List LinkAct}
    (hboot : Sys.boot pb basedir d db = some s) (hrun : Lib.run (step pb) (start s conn) acts = some l) :
    (∀ x ∈ l.client.consumed, x.consumer.tag = x.resp.consumerTag ∧ (l.client.channels x.channel).cid = x.resp.cid) ∧
      ∃ ds : List Delivery, ds.Sublist l.flow.passed ∧
        (∀ d ∈ ds, d.conn = l.conn ∧ (d.conn, d.cid, d.consumer) ∈ l.flow.subscribed) ∧
        l.client.consumed.map (fun x => x.resp.response) = ds.map (fun d => d.response.2) ∧
        ∀ qname, (of qname (ds.map Delivery.item)).Sublist (of qname l.flow.entered) := by
  rcases carries_run hboot hrun with ⟨⟨registered, reqs, resps, hl⟩, hc⟩
  refine ⟨fun x hx => ⟨(hc.client.own x hx).1, (hc.client.own x hx).2.2⟩, ?_⟩
  have hconsumed : (l.client.consumed.map fun x => x.resp.response).Sublist (l.here.map fun d => d.response.2) := by
    have hsent := ((List.sublist_append_left _ _).trans hc.client.order).map Push.response
    rw [List.map_map] at hsent
    rw [here_eq hl hc]
    exact hsent.trans (List.sublist_append_left _ _)
  rcases List.sublist_map_iff.mp hconsumed with ⟨ds, hds, heq⟩
  have hpassed : ds.Sublist l.flow.passed := hds.trans List.filter_sublist
  refine ⟨ds, hpassed, fun d hd => ?_, heq, fun qname => ?_⟩
  · exact ⟨of_decide_eq_true (List.mem_filter.mp (hds.subset hd)).2, hl.flow.follows d (hpassed.subset hd)⟩
  · refine List.Sublist.trans ?_ (hl.flow.sublist qname)
    refine List.Sublist.trans ?_ (List.sublist_append_left _ _)
    exact ((hpassed.map _).filter _).map _

/-- The worker of the client finds the subscription of its message. -/
def attends (l : Link) : LinkAct → Bool
  | .client act => l.client.attended act
  | _ => true

/-- Nothing of the queue is lost in the server, and no message at the client. -/
def keeps (qname : String) (l : Link) (act : LinkAct) : Bool :=
  ((l.serverAct act).all fun sact => l.flow.sys.loses sact != some qname) && l.attends act

/-- What came into a queue is passed to consumers, in the hands of the worker, or pending, and what was passed on the
    connection is with a callback, in the pool of the client, or on its way. -/
structure Keeps (l : Link) (qname : String) : Prop where
  entered : of qname l.flow.entered = of qname (l.flow.passed.map Delivery.item) ++
    (of qname l.flow.sys.worker.carries.toList ++ l.flow.sys.broker.host.mmp.contents qname)
  passed : l.here.map (fun d => d.response.2) =
    l.client.consumed.map (fun x => x.resp.response) ++ (l.client.tasks.map (fun task => task.resp.response) ++
      l.arriving.filter Response.isPush)

theorem line_server {qname : String} {sact : Act} {up : List Frame} (hl : l.Joined registered reqs resps)
    (hkeeps : keeps qname l act = true) (hsact : l.serverAct act = some sact)
    (hline : (l.flow.sys.conveyor l.flow.passed).line qname = of qname l.flow.entered)
    (hstep : serverStep pb { l with up } sact = some l') (hrestart : sact ≠ .restart) :
    (l'.flow.sys.conveyor l'.flow.passed).line qname = of qname l'.flow.entered ∧ l'.client = l.client := by
  rw [keeps, hsact, Option.all_some, Bool.and_eq_true] at hkeeps
  rcases serverStep_arriving hl hstep hrestart with ⟨flow, down, new, hflow, -, -, rfl, -⟩
  refine ⟨?_, rfl⟩
  rw [(Flow.step_conveyor hl.flow hflow hrestart).line_eq (bne_iff_ne.mp hkeeps.1), hline,
    (Flow.step_eq hflow hrestart).2.1, of_append]

theorem keeps_step {qname : String} (hl : l.Joined registered reqs resps) (hc : l.Carries) (hkeeps : keeps qname l act = true)
    (hline : (l.flow.sys.conveyor l.flow.passed).line qname = of qname l.flow.entered)
    (hreceived : l.client.received = l.client.sent) (hstep : l.step pb act = some l') :
    (l'.flow.sys.conveyor l'.flow.passed).line qname = of qname l'.flow.entered ∧ l'.client.received = l'.client.sent := by
  cases step_side hl hstep with
  | apart _ hsact hrestart _ _ hl₁ =>
    rcases line_server hl hkeeps hsact hline hl₁ hrestart with ⟨hline', hclient⟩
    exact ⟨hline', (congrArg Client.received hclient).trans (hreceived.trans (congrArg Client.sent hclient).symm)⟩
  | @serve req up _ hrequests hl₁ =>
    have hsact : l.serverAct .serve = some (.request l.conn req) := by
      rw [serverAct, hrequests]
      rfl
    rcases line_server hl hkeeps hsact hline hl₁ (fun h => Act.noConfusion h) with ⟨hline', hclient⟩
    exact ⟨hline', (congrArg Client.received hclient).trans (hreceived.trans (congrArg Client.sent hclient).symm)⟩
  | client hown hclient =>
    rcases Client.receives_own hc.client hown hclient with ⟨-, hsent, hattended⟩
    rw [keeps, Bool.and_eq_true] at hkeeps
    exact ⟨hline, (hattended hkeeps.2).trans (hreceived.trans hsent.symm)⟩
  | hear _ => exact ⟨hline, (Client.receives_onResponse hc.client _).2.2 hreceived⟩

/-- While nothing of a queue is lost in the server and each message finds its subscription at the client, no message is
    lost from the publisher to the callback. -/
theorem run_lossless {basedir : String} {d : Disk} {db : Db} {s : Sys} {conn : ConnRef} {acts : List LinkAct} {qname : String}
    (hboot : Sys.boot pb basedir d db = some s) (hkeeps : Lib.always (step pb) (keeps qname) (start s conn) acts = true)
    (hrun : Lib.run (step pb) (start s conn) acts = some l) : l.Keeps qname := by
  have hkeep : ∀ l act l', (((∃ registered reqs resps, l.Joined registered reqs resps) ∧ l.Carries) ∧
      (l.flow.sys.conveyor l.flow.passed).line qname = of qname l.flow.entered ∧ l.client.received = l.client.sent) →
      l.step pb act = some l' → keeps qname l act = true →
      ((∃ registered reqs resps, l'.Joined registered reqs resps) ∧ l'.Carries) ∧
      (l'.flow.sys.conveyor l'.flow.passed).line qname = of qname l'.flow.entered ∧ l'.client.received = l'.client.sent := by
    rintro l act l' ⟨hheld, hline, hreceived⟩ hstep hkeeps
    have hheld' := held_step hheld hstep
    rcases hheld with ⟨⟨registered, reqs, resps, hl⟩, hc⟩
    exact ⟨hheld', keeps_step hl hc hkeeps hline hreceived hstep⟩
  have hend := Lib.run_induct_of_always hkeep
    ⟨⟨⟨[], [], [], joined_start hboot conn⟩, carries_start hboot conn⟩, Flow.start_line s hboot qname, rfl⟩
    hkeeps acts l (List.prefix_refl _) hrun
  rcases hend with ⟨⟨⟨registered, reqs, resps, hl⟩, hc⟩, hline, hreceived⟩
  refine ⟨hline.symm, ?_⟩
  rw [here_eq hl hc, ← hreceived, Client.received, List.map_append, List.map_map, List.map_map, List.append_assoc]
  rfl

theorem run_delivers_linked : ∃ (s : Sys) (l : Link), Sys.boot protobuf "data" Store.vacant {} = some s ∧
    Lib.run (step protobuf) (start s 1) linked = some l ∧ l.client.consumed.length = 1 ∧
    (∀ x ∈ l.client.consumed, x.consumer.tag = x.resp.consumerTag ∧ (l.client.channels x.channel).cid = x.resp.cid) ∧
    ∃ ds : List Delivery, ds.Sublist l.flow.passed ∧
      (∀ d ∈ ds, d.conn = l.conn ∧ (d.conn, d.cid, d.consumer) ∈ l.flow.subscribed) ∧
      l.client.consumed.map (fun x => x.resp.response) = ds.map (fun d => d.response.2) ∧
      ∀ qname, (of qname (ds.map Delivery.item)).Sublist (of qname l.flow.entered) := by
  rcases run_linked with ⟨s, l, hboot, hl, -, hconsumed⟩
  exact ⟨s, l, hboot, hl, hconsumed, run_delivers hboot hl⟩

theorem run_lossless_linked : ∃ (s : Sys) (l : Link), Sys.boot protobuf "data" Store.vacant {} = some s ∧
    Lib.run (step protobuf) (start s 1) linked = some l ∧ l.Keeps "q" := by
  have hkeeps : (Sys.boot protobuf "data" Store.vacant {}).all (fun s =>
      Lib.always (step protobuf) (keeps "q") (start s 1) linked) = true := by
    decide +kernel
  rcases run_linked with ⟨s, l, hboot, hl, -, -⟩
  rw [hboot, Option.all_some] at hkeeps
  exact ⟨s, l, hboot, hl, run_lossless hboot hkeeps hl⟩

end Link
end HareMQ
