import HareMQ.Theorems.Reception

/-! # What the methods of the client return

Each method that sends a request returns with a response that this server has sent on this connection, to this request
and to no other, and the server has sent no second one. -/

namespace HareMQ
open Lib Wire Conveyor

/-! ### The client -/

namespace Client
variable {c c' : Client} {act : ClientAct} {sent : List Response}

/-- Which responses lie in the maps and which were returned. -/
structure Holds (c : Client) (sent : List Response) : Prop where
  filed : ∀ ch query rid resp, ((c.channels ch).box query).lookup rid = some resp →
    resp ∈ sent ∧ ∃ cid, resp.answers = some (query, rid, cid)
  returned : ∀ x ∈ c.returned, x.2 ∈ sent ∧ ∃ query cid, x.2.answers = some (query, x.1.rid, cid)
  once : (c.returned.map fun x => x.1.rid).Nodup
  taken : ∀ x ∈ c.returned, x.1.rid ∈ c.uuids ∧
    ∀ caller, c.callers.lookup x.1.rid = some caller → ∃ resp, caller.phase = .answered resp

namespace Holds

theorem mono (h : c.Holds sent) {sent' : List Response} (hsent : ∀ resp ∈ sent, resp ∈ sent') : c.Holds sent' where
  filed ch query rid resp hresp := ⟨hsent _ (h.filed ch query rid resp hresp).1, (h.filed ch query rid resp hresp).2⟩
  returned x hx := ⟨hsent _ (h.returned x hx).1, (h.returned x hx).2⟩
  once := h.once
  taken := h.taken

theorem send (h : c.Holds sent) {ch : ChannelPtr} {req : Request} {cb : Nat} (hfresh : req.rid ∉ c.uuids) :
    (c.send ch req cb).Holds sent := by
  refine ⟨h.filed, h.returned, h.once, fun x hx => ?_⟩
  rcases h.taken x hx with ⟨huuid, hanswered⟩
  refine ⟨List.mem_cons_of_mem _ huuid, fun caller hcaller => hanswered caller ?_⟩
  rw [show (c.send ch req cb).callers = c.callers.insert req.rid _ from rfl, UMap.lookup_insert, if_neg] at hcaller
  · exact hcaller
  · intro heq
    exact hfresh (heq ▸ huuid)

theorem createChannel (h : c.Holds sent) (cid : String) : (c.createChannel cid).Holds sent := by
  refine ⟨fun ch query rid resp hresp => ?_, h.returned, h.once, fun x hx => ?_⟩
  · by_cases hch : ch = c.next
    · subst hch
      simp only [Client.createChannel, Function.update_self] at hresp
      cases query with
      | false => cases hresp
      | true => cases hresp
    · refine h.filed ch query rid resp ?_
      rw [← hresp]
      simp only [Client.createChannel, Function.update_of_ne hch]
  · exact ⟨List.mem_cons_of_mem _ (h.taken x hx).1, (h.taken x hx).2⟩

/-- A thread that is not answered goes to another phase. -/
theorem phase (h : c.Holds sent) {rid : String} {caller : Caller} (hcaller : c.callers.lookup rid = some caller)
    (hphase : ∀ resp, caller.phase ≠ .answered resp) (phase : Phase) :
    { c with callers := c.callers.insert rid { caller with phase } }.Holds sent := by
  refine ⟨h.filed, h.returned, h.once, fun x hx => ?_⟩
  rcases h.taken x hx with ⟨huuid, hanswered⟩
  refine ⟨huuid, fun caller' hcaller' => hanswered caller' ?_⟩
  have hne : x.1.rid ≠ rid := by
    intro heq
    rcases hanswered caller (heq ▸ hcaller) with ⟨resp, hresp⟩
    exact hphase resp hresp
  rwa [UMap.lookup_insert, if_neg hne] at hcaller'

/-- The thread finds its response. -/
theorem wait (h : c.Holds sent) (ht : c.Tied) {rid : String} {caller : Caller} (hcaller : c.callers.lookup rid = some caller)
    (hphase : caller.phase = .checking) : (c.wait caller).Holds sent := by
  have hchecking : ∀ resp, caller.phase ≠ .answered resp := by
    intro resp heq
    rw [hphase] at heq
    cases heq
  rcases ht.callers rid caller hcaller with ⟨hrid, -, -, hknown⟩
  cases hfound : c.found caller with
  | none =>
    rw [wait_none hfound, hrid]
    exact h.phase hcaller hchecking .asleep
  | some resp =>
    rw [wait_some hfound, hrid]
    rcases h.filed _ _ _ resp hfound with ⟨hsent, cid, hanswers⟩
    refine ⟨fun ch query rid' resp' hresp' => ?_, fun x hx => ?_, ?_, fun x hx => ?_⟩
    · rw [← hrid, box_setChannel _ _ _ (ch, query)] at hresp'
      split at hresp'
      · next heq =>
        cases heq
        exact h.filed _ _ _ resp' (UMap.lookup_erase_eq_some hresp').2
      · exact h.filed ch query rid' resp' hresp'
    · rcases List.mem_append.mp hx with hx | hx
      · exact h.returned x hx
      · rw [List.mem_singleton.mp hx]
        exact ⟨hsent, _, cid, hanswers⟩
    · rw [List.map_append, List.map_singleton]
      refine List.nodup_append.mpr ⟨h.once, List.nodup_singleton _, fun rid' hrid' rid'' hrid'' heq => ?_⟩
      rcases List.mem_map.mp hrid' with ⟨x, hx, rfl⟩
      have heq : x.1.rid = rid := heq.trans ((List.mem_singleton.mp hrid'').trans hrid)
      rcases (h.taken x hx).2 caller (heq ▸ hcaller) with ⟨resp', hresp'⟩
      exact hchecking resp' hresp'
    · rcases List.mem_append.mp hx with hx | hx
      · refine ⟨(h.taken x hx).1, fun caller' hcaller' => ?_⟩
        have hcaller' : (c.callers.insert rid { caller with phase := .answered resp }).lookup x.1.rid = some caller' := hcaller'
        rw [UMap.lookup_insert] at hcaller'
        split at hcaller'
        · cases hcaller'
          exact ⟨resp, rfl⟩
        · exact (h.taken x hx).2 caller' hcaller'
      · rw [List.mem_singleton.mp hx]
        refine ⟨hrid ▸ hknown, fun caller' hcaller' => ?_⟩
        have hcaller' : (c.callers.insert rid { caller with phase := .answered resp }).lookup caller.request.rid = some caller' :=
          hcaller'
        rw [hrid, UMap.lookup_insert, if_pos rfl] at hcaller'
        cases hcaller'
        exact ⟨resp, rfl⟩

/-- What the client does by itself. -/
theorem own (h : c.Holds sent) (ht : c.Tied) (hown : act.own = true) (hstep : c.step act = some c') : c'.Holds sent := by
  cases step_does hstep with
  | @openChannel cid rid hcid hrid hne =>
    refine (h.createChannel cid).send ?_
    exact fun hmem => (List.mem_cons.mp hmem).elim hne hrid
  | @call ch rid method hch hrid =>
    rcases step_request c ch rid method with hsame | ⟨req, cb, hsend, hreq, -⟩
    · rw [hsame]
      exact h
    · rw [hsend]
      exact h.send (hreq ▸ hrid)
  | wait hcaller hphase => exact h.wait ht hcaller hphase
  | @spurious rid caller hcaller hphase =>
    refine h.phase hcaller (fun resp heq => ?_) .checking
    rw [hphase] at heq
    cases heq
  | @finish rid caller resp hcaller hphase =>
    have hf := finish_finished (c := c) caller resp
    refine ⟨fun ch query rid' resp' hresp' => ?_, ?_, ?_, fun x hx => ?_⟩
    · rw [hf.boxes] at hresp'
      exact h.filed ch query rid' resp' hresp'
    · rw [hf.returned]
      exact h.returned
    · rw [hf.returned]
      exact h.once
    · rw [hf.returned] at hx
      rw [hf.uuids, hf.callers]
      exact ⟨(h.taken x hx).1, fun caller' hcaller' => (h.taken x hx).2 caller' (UMap.lookup_erase_eq_some hcaller').2⟩
  | register => cases hown
  | response => cases hown
  | push => cases hown
  | arrive => cases hown
  | _ => exact ⟨h.filed, h.returned, h.once, h.taken⟩

/-- A response that the server has sent arrives. -/
theorem onResponse (h : c.Holds sent) {resp : Response} (hsent : resp ∈ sent) : (c.onResponse resp).Holds sent := by
  cases hans : resp.answers with
  | none =>
    cases resp with
    | basicConsumeResponse => exact ⟨h.filed, h.returned, h.once, h.taken⟩
    | _ => cases hans
  | some ask =>
    rcases ask with ⟨query, rid, cid⟩
    rw [onResponse_answer hans]
    unfold commonResponse
    split
    · exact ⟨h.filed, h.returned, h.once, h.taken⟩
    · next ch hch =>
      rw [pushBasicResponse_eq hans]
      refine ⟨fun ch' query' rid' resp' hresp' => ?_, h.returned, h.once, fun x hx => ?_⟩
      · rw [box_setChannel ch query _ (ch', query')] at hresp'
        split at hresp'
        · next heq =>
          cases heq
          rcases UMap.lookup_emplace_eq_some hresp' with hresp' | ⟨rfl, -, rfl⟩
          · exact h.filed ch query rid' resp' hresp'
          · exact ⟨hsent, cid, hans⟩
        · exact h.filed ch' query' rid' resp' hresp'
      · refine ⟨(h.taken x hx).1, fun caller hcaller => ?_⟩
        have hcaller : (c.callers.mapValues (Caller.notify ch)).lookup x.1.rid = some caller := hcaller
        rw [UMap.lookup_mapValues] at hcaller
        rcases Option.map_eq_some_iff.mp hcaller with ⟨old, hold, rfl⟩
        rcases (h.taken x hx).2 old hold with ⟨resp', hresp'⟩
        refine ⟨resp', ?_⟩
        rw [Caller.notify, if_neg]
        · exact hresp'
        · rintro ⟨-, hasleep⟩
          rw [hresp'] at hasleep
          cases hasleep

theorem start : ({} : Client).Holds [] := by
  refine ⟨fun ch query rid resp hresp => ?_, fun x hx => absurd hx List.not_mem_nil, List.nodup_nil,
    fun x hx => absurd hx List.not_mem_nil⟩
  cases query with
  | false => cases hresp
  | true => cases hresp

end Holds
end Client

/-! ### Both sides -/

namespace Link
variable {pb : PayloadCodec} {l l' : Link} {registered : List BasicConsumeRequest} {reqs : List Request}
  {resps : List Response} {act : LinkAct}

/-- All that the server has sent on the connection. -/
def sent (l : Link) : List Response := of l.conn l.flow.sys.broker.sent

/-- The requests that are answered, that the server works on, and that are on their way. -/
def asked (l : Link) : List (Bool × String × String) :=
  l.sent.filterMap Response.answers ++ (of l.conn l.flow.sys.due ++ l.requests.map Request.ask)

structure Returns (l : Link) : Prop where
  client : l.client.Holds l.sent
  arriving : ∀ resp ∈ l.arriving, resp ∈ l.sent
  nodup : (l.asked.map fun x => x.2.1).Nodup
  known : ∀ x ∈ l.asked, x.2.1 ∈ l.client.uuids

theorem requests_append (l : Link) (reqs : List Request) (client : Client) :
    (requests { l with client, up := l.up ++ reqs.map Request.frame }).map Request.ask =
      l.requests.map Request.ask ++ reqs.map Request.ask := by
  rw [requests, List.filterMap_append, List.map_append, requests]
  congr 1
  induction reqs with
  | nil => rfl
  | cons req reqs ih =>
    rcases req.parse_frame with ⟨req', hparse, hsame⟩
    rw [List.map_cons, List.filterMap_cons, hparse, List.map_cons, ih, hsame.ask, List.map_cons]

/-- The server answers or loses a request. -/
theorem returns_server {sact : Act} {up : List Frame} (hl : l.Joined registered reqs resps) (hr : l.Returns)
    (hasks : (of l.conn (if l.flow.sys.serves sact then l.flow.sys.asks sact else []) ++
      (requests { l with up }).map Request.ask).Sublist (l.requests.map Request.ask))
    (hstep : serverStep pb { l with up } sact = some l') (hrestart : sact ≠ .restart) : l'.Returns := by
  rcases serverStep_arriving hl hstep hrestart with ⟨flow, down, new, -, hsent, hasked, rfl, harriving⟩
  have hsent' : sent { l with flow, up, down } = l.sent ++ of l.conn new := by
    rw [sent, sent, ← of_append, ← hsent]
  have hsub : (asked { l with flow, up, down }).Sublist l.asked := by
    rw [asked, hsent', List.filterMap_append, List.append_assoc, ← List.append_assoc (List.filterMap _ (of l.conn new))]
    dsimp only
    rw [hasked, asked, List.append_assoc]
    exact (List.Sublist.refl _).append ((List.Sublist.refl _).append hasks)
  refine ⟨?_, fun resp hresp => ?_, (hsub.map _).nodup hr.nodup, fun x hx => hr.known x (hsub.subset hx)⟩
  · rw [hsent']
    exact hr.client.mono fun resp hresp => List.mem_append_left _ hresp
  · rw [hsent']
    rw [harriving] at hresp
    rcases List.mem_append.mp hresp with hresp | hresp
    · exact List.mem_append_left _ (hr.arriving resp hresp)
    · exact List.mem_append_right _ hresp

theorem returns_step (hl : l.Joined registered reqs resps) (ht : l.client.Tied) (hr : l.Returns)
    (hstep : l.step pb act = some l') : l'.Returns := by
  cases step_side hl hstep with
  | @apart _ sact connected l₁ _ _ hrestart hrequest _ hl₁ =>
    have hnone : of l.conn (if l.flow.sys.serves sact then l.flow.sys.asks sact else []) = [] := by
      split
      · exact Sys.of_asks_ne hrequest
      · rfl
    have hl₁ : serverStep pb { l with up := l.up } sact = some l₁ := hl₁
    have hl₁ := returns_server hl hr (by rw [hnone, List.nil_append]) hl₁ hrestart
    exact ⟨hl₁.client, hl₁.arriving, hl₁.nodup, hl₁.known⟩
  | @serve req up l' hrequests hl₁ =>
    refine returns_server hl hr ?_ hl₁ fun h => Act.noConfusion h
    rw [hrequests, List.map_cons]
    split
    · rw [Sys.asks]
      split
      · rw [of_cons_self, of_nil]
        rfl
      · exact List.sublist_cons_self _ _
    · exact List.sublist_cons_self _ _
  | @client act' client hown hclient =>
    rcases Client.step_own hown hclient with ⟨-, huuids, hsends⟩
    have hup := requests_append l (l.client.sends act').toList client
    have hmap : (l.client.sends act').toList.map Request.frame = ((l.client.sends act').map Request.frame).toList := by
      cases l.client.sends act' with
      | none => rfl
      | some req => rfl
    have hasked : asked { l with client, up := l.up ++ ((l.client.sends act').map Request.frame).toList } =
        l.asked ++ (l.client.sends act').toList.map Request.ask := by
      rw [asked, ← hmap, hup, asked, List.append_assoc, List.append_assoc]
      rfl
    have hclient' := hr.client.own ht hown hclient
    rcases hsends with ⟨hnone, -⟩ | ⟨req, hsome, hfresh, hknown, -⟩
    · rw [hnone, Option.toList_none, List.map_nil, List.append_nil] at hasked
      refine ⟨hclient', hr.arriving, ?_, fun x hx => huuids _ (hr.known x ?_)⟩
      · rw [hnone, hasked]
        exact hr.nodup
      · rwa [hnone, hasked] at hx
    · rw [hsome, Option.toList_some, List.map_singleton] at hasked
      refine ⟨hclient', hr.arriving, ?_, fun x hx => ?_⟩
      · rw [hsome, hasked, List.map_append, List.map_singleton]
        refine List.nodup_append.mpr ⟨hr.nodup, List.nodup_singleton _, fun rid hrid rid' hrid' heq => ?_⟩
        rcases List.mem_map.mp hrid with ⟨x, hx, rfl⟩
        rw [List.mem_singleton.mp hrid'] at heq
        have heq : x.2.1 = req.rid := heq
        exact hfresh (heq ▸ hr.known x hx)
      · rw [hsome, hasked] at hx
        rcases List.mem_append.mp hx with hx | hx
        · exact huuids _ (hr.known x hx)
        · rw [List.mem_singleton.mp hx]
          exact hknown
  | @hear resp down harriving =>
    have hsent : resp ∈ l.sent := hr.arriving resp (harriving ▸ List.mem_cons_self)
    refine ⟨hr.client.onResponse hsent, fun resp' hresp' => ?_, hr.nodup, fun x hx => ?_⟩
    · exact hr.arriving resp' (harriving ▸ List.mem_cons_of_mem _ hresp')
    · have huuids : (l.client.onResponse resp).uuids = l.client.uuids := by
        cases hans : resp.answers with
        | some ask =>
          rw [Client.onResponse_answer hans]
          exact (Client.commonResponse_kept _ _).2.1
        | none =>
          cases resp with
          | basicConsumeResponse => rfl
          | _ => cases hans
      rw [huuids]
      exact hr.known x hx

theorem returns_start {basedir : String} {d : Disk} {db : Db} {s : Sys} (hboot : Sys.boot pb basedir d db = some s)
    (conn : ConnRef) : (start s conn).Returns := by
  have hdue : s.due = [] := by
    rw [Sys.due, (Sys.boot_registry hboot).2.2.1]
    rfl
  have hsent : s.broker.sent = [] := by
    unfold Sys.boot at hboot
    split at hboot
    · cases hboot
    · cases hboot
      rfl
  have hsent' : (start s conn).sent = [] := by
    rw [sent, start, Flow.start, hsent, of_nil]
  have hasked : (start s conn).asked = [] := by
    rw [asked, hsent', start, Flow.start, hdue]
    rfl
  refine ⟨?_, List.forall_mem_nil _, ?_, ?_⟩
  · rw [hsent']
    exact Client.Holds.start
  · rw [hasked]
    exact List.nodup_nil
  · rw [hasked]
    exact List.forall_mem_nil _

/-- In every run each method returns at most once, with a response that this server has sent on this connection to the
    request of the method, and the server sends on a connection at most one response to a request. -/
theorem run_returns {basedir : String} {d : Disk} {db : Db} {s : Sys} {conn : ConnRef} {acts : List LinkAct}
    (hboot : Sys.boot pb basedir d db = some s) (hrun : Lib.run (step pb) (start s conn) acts = some l) :
    (∀ x ∈ l.client.returned, (l.conn, x.2) ∈ l.flow.sys.broker.sent ∧ x.2.answers = some x.1.ask) ∧
      (l.client.returned.map fun x => x.1.rid).Nodup ∧
      ((l.sent.filterMap Response.answers).map fun x => x.2.1).Nodup := by
  have hkeep : ∀ (l : Link) (act : LinkAct) (l' : Link), (((∃ registered reqs resps, l.Joined registered reqs resps) ∧ l.Carries) ∧ l.Returns) →
      l.step pb act = some l' → ((∃ registered reqs resps, l'.Joined registered reqs resps) ∧ l'.Carries) ∧ l'.Returns := by
    rintro l act l' ⟨hheld, hr⟩ hstep
    have hheld' := held_step hheld hstep
    rcases hheld with ⟨⟨registered, reqs, resps, hl⟩, hc⟩
    exact ⟨hheld', returns_step hl hc.client.tied hr hstep⟩
  have hend := Lib.run_induct hkeep
    ⟨⟨⟨[], [], [], joined_start hboot conn⟩, carries_start hboot conn⟩, returns_start hboot conn⟩ hrun
  rcases hend with ⟨⟨-, hc⟩, hr⟩
  refine ⟨fun x hx => ?_, hr.client.once, ?_⟩
  · rcases hr.client.returned x hx with ⟨hsent, query, cid, hanswers⟩
    rcases hc.client.tied.returned x hx with ⟨rid', hanswers'⟩
    refine ⟨mem_of.mp hsent, ?_⟩
    rw [hanswers'] at hanswers
    cases hanswers
    exact hanswers'
  · have hnodup := hr.nodup
    rw [asked, List.map_append] at hnodup
    exact (List.nodup_append.mp hnodup).1

theorem run_returns_linked : ∃ (s : Sys) (l : Link), Sys.boot protobuf "data" Store.vacant {} = some s ∧
    Lib.run (step protobuf) (start s 1) linked = some l ∧ l.client.returned.length = 6 ∧
    (∀ x ∈ l.client.returned, (l.conn, x.2) ∈ l.flow.sys.broker.sent ∧ x.2.answers = some x.1.ask) ∧
    (l.client.returned.map fun x => x.1.rid).Nodup ∧
    ((l.sent.filterMap Response.answers).map fun x => x.2.1).Nodup := by
  rcases run_linked with ⟨s, l, hboot, hl, hreturned, -⟩
  exact ⟨s, l, hboot, hl, hreturned, run_returns hboot hl⟩

end Link
end HareMQ
