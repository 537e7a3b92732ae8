import HareMQ.Link
import HareMQ.Theorems.Flow
import HareMQ.Theorems.ProtocolWire
import HareMQ.Theorems.Pushed

/-! # The client and another server

What the client does by itself, what it receives, and what the server of its model does, apart from each other. -/

namespace HareMQ
open Lib Wire

/-! ### Messages on the connection -/

theorem Request.parse_frame (req : Request) :
    ∃ req', parse req.frame.1 req.frame.2 = some req' ∧ req'.Same req :=
  parse_encode ⟨Schema.legal_pairs _, fun _ _ => List.Perm.refl _⟩

theorem Response.parse_frame (resp : Response) : parse resp.frame.1 resp.frame.2 = some resp :=
  parse_encode ⟨Schema.legal_pairs _, fun _ _ => List.Perm.refl _⟩

/-- What the answer to a request repeats of it. -/
def Request.ask (req : Request) : Bool × String × String := (req.isQuery, req.rid, req.cid)

theorem Request.Same.ask {req req' : Request} (h : req'.Same req) : req'.ask = req.ask := by
  cases req' with
  | declareExchange r' =>
    cases req with
    | declareExchange r =>
      rw [h.1]
      rfl
    | _ => cases h
  | declareQueue r' =>
    cases req with
    | declareQueue r =>
      rw [h.1]
      rfl
    | _ => cases h
  | _ =>
    cases h
    rfl

theorem Request.Same.basicConsume {req' : Request} {r : BasicConsumeRequest} (h : req'.Same (.basicConsume r)) :
    req' = .basicConsume r := by
  cases req' with
  | _ => exact h

/-! ### The client between its server and this one -/

namespace Client
variable (c : Client) (registered : List BasicConsumeRequest) (inFlight : List Push)

/-- The client as its model has it, which knows what the server has registered, and what it has pushed that has not
    arrived. -/
def withServer : Client := { c with registered, inFlight, sent := c.sent ++ inFlight }

theorem commonResponse_withServer (cid : String) (resp : Response) :
    (c.withServer registered inFlight).commonResponse cid resp = (c.commonResponse cid resp).withServer registered inFlight := by
  unfold commonResponse
  have hmanager : (c.withServer registered inFlight).manager = c.manager := rfl
  rw [hmanager]
  cases c.manager.lookup cid with
  | none => rfl
  | some ch => rfl

theorem wait_withServer (caller : Caller) :
    (c.withServer registered inFlight).wait caller = (c.wait caller).withServer registered inFlight := by
  unfold wait
  have hchannels : (c.withServer registered inFlight).channels = c.channels := rfl
  rw [hchannels]
  cases (c.channels caller.channel).await caller.request with
  | none => rfl
  | some found => rfl

theorem finish_withServer (caller : Caller) (resp : Response) :
    (c.withServer registered inFlight).finish caller resp = (c.finish caller resp).withServer registered inFlight := by
  unfold finish
  cases caller.request with
  | openChannel req =>
    dsimp only
    split
    · rfl
    · rfl
  | basicConsume req =>
    dsimp only
    split
    · rfl
    · rfl
  | _ => rfl

theorem call_withServer (ch : ChannelPtr) (rid : String) (method : ClientCall) :
    (c.withServer registered inFlight).call ch rid method = (c.call ch rid method).withServer registered inFlight := by
  unfold call
  have hchannels : (c.withServer registered inFlight).channels = c.channels := rfl
  rw [hchannels]
  cases (c.channels ch).request rid method with
  | none => rfl
  | some req =>
    cases method with
    | _ => rfl

theorem work_withServer :
    (c.withServer registered inFlight).work = c.work.map (·.withServer registered inFlight) := by
  unfold work
  have hpool : (c.withServer registered inFlight).pool = c.pool := rfl
  have hchannels : (c.withServer registered inFlight).channels = c.channels := rfl
  rw [hpool, hchannels]
  cases c.pool.tmp with
  | nil =>
    dsimp only
    cases c.pool.swap with
    | none => rfl
    | some pool => rfl
  | cons task tmp =>
    dsimp only
    cases task.channel with
    | none => rfl
    | some ch =>
      dsimp only
      cases (c.channels ch).consume task.resp with
      | none => rfl
      | some consumer => rfl

/-- What the client does by itself has nothing to do with the server. -/
theorem step_withServer {act : ClientAct} (hown : act.own = true) :
    (c.withServer registered inFlight).step act = (c.step act).map (·.withServer registered inFlight) := by
  have huuids : (c.withServer registered inFlight).uuids = c.uuids := rfl
  have hopened : (c.withServer registered inFlight).opened = c.opened := rfl
  have hcallers : (c.withServer registered inFlight).callers = c.callers := rfl
  have hcalling : (c.withServer registered inFlight).calling = c.calling := rfl
  cases act with
  | openChannel cid rid =>
    simp only [step, huuids]
    split
    · rfl
    · rfl
  | call ch rid method =>
    simp only [step, huuids, hopened, call_withServer]
    split
    · rfl
    · rfl
  | wait rid =>
    simp only [step, hcallers]
    cases c.callers.lookup rid with
    | none => rfl
    | some caller =>
      dsimp only
      split
      · rw [wait_withServer]
        rfl
      · rfl
  | spurious rid =>
    simp only [step, hcallers]
    cases c.callers.lookup rid with
    | none => rfl
    | some caller =>
      dsimp only
      split
      · rfl
      · rfl
  | finish rid =>
    simp only [step, hcallers]
    cases c.callers.lookup rid with
    | none => rfl
    | some caller =>
      dsimp only
      cases caller.phase with
      | answered resp => exact congrArg some (finish_withServer ..)
      | _ => rfl
  | work =>
    simp only [step, hcalling, work_withServer]
    split
    · rfl
    · rfl
  | callbackReturns =>
    simp only [step, hcalling]
    split
    · rfl
    · rfl
  | _ => cases hown

variable {c} {c' : Client} {act : ClientAct}

/-- What the client does by itself: at most it sends a request, under an id that it has not used. -/
theorem step_own (hown : act.own = true) (hstep : c.step act = some c') :
    c'.sent = c.sent ∧ (∀ id ∈ c.uuids, id ∈ c'.uuids) ∧
      ((c.sends act = none ∧ c'.outstanding = c.outstanding) ∨
        ∃ req, c.sends act = some req ∧ req.rid ∉ c.uuids ∧ req.rid ∈ c'.uuids ∧
          c'.outstanding = c.outstanding.insert req.rid req) := by
  have hsilent : c.sends act = none → c'.sent = c.sent → c'.uuids = c.uuids → c'.outstanding = c.outstanding →
      c'.sent = c.sent ∧ (∀ id ∈ c.uuids, id ∈ c'.uuids) ∧ ((c.sends act = none ∧ c'.outstanding = c.outstanding) ∨
        ∃ req, c.sends act = some req ∧ req.rid ∉ c.uuids ∧ req.rid ∈ c'.uuids ∧
          c'.outstanding = c.outstanding.insert req.rid req) :=
    fun hsends hsent huuids hout => ⟨hsent, fun _ h => huuids ▸ h, Or.inl ⟨hsends, hout⟩⟩
  cases step_does hstep with
  | @openChannel cid rid hcid hrid hne =>
    exact ⟨rfl, fun id h => List.mem_cons_of_mem _ (List.mem_cons_of_mem _ h),
      Or.inr ⟨_, rfl, hrid, List.mem_cons_self, rfl⟩⟩
  | @call ch rid method hch hrid =>
    cases hreq : (c.channels ch).request rid method with
    | none =>
      have hcall : c.call ch rid method = c := by
        unfold call
        rw [hreq]
      rw [hcall] at hsilent ⊢
      exact hsilent hreq rfl rfl rfl
    | some req =>
      rcases ClientChannel.request_ids _ hreq with ⟨rfl, -⟩
      have hcall : ∃ cb, c.call ch req.rid method = c.send ch req cb := by
        unfold call
        rw [hreq]
        cases method with
        | _ => exact ⟨_, rfl⟩
      rcases hcall with ⟨cb, hcall⟩
      rw [hcall]
      exact ⟨rfl, fun id h => List.mem_cons_of_mem _ h, Or.inr ⟨req, hreq, hrid, List.mem_cons_self, rfl⟩⟩
  | @wait rid caller =>
    refine hsilent rfl (quiet_wait caller).sent ?_ ?_
    · unfold wait
      split <;> rfl
    · unfold wait
      split <;> rfl
  | spurious => exact hsilent rfl rfl rfl rfl
  | @finish rid caller resp =>
    have hf := finish_finished (c := c) caller resp
    exact hsilent rfl (pushes_finish caller resp).2.2.2 hf.uuids hf.outstanding
  | swap => exact hsilent rfl rfl rfl rfl
  | drop => exact hsilent rfl rfl rfl rfl
  | consume => exact hsilent rfl rfl rfl rfl
  | callbackReturns => exact hsilent rfl rfl rfl rfl
  | register => cases hown
  | response => cases hown
  | push => cases hown
  | arrive => cases hown

/-! ### What the server pushes -/

/-- The pushed messages among responses, numbered from `n`. -/
def pushesFrom : Nat → List Response → List Push
  | _, [] => []
  | n, .basicConsumeResponse cid consumerTag body properties :: resps =>
    { seq := n, cid, consumerTag, properties, body } :: pushesFrom (n + 1) resps
  | n, _ :: resps => pushesFrom n resps

theorem pushesFrom_append (resps' : List Response) : ∀ (resps : List Response) (n : Nat),
    pushesFrom n (resps ++ resps') = pushesFrom n resps ++ pushesFrom (n + (pushesFrom n resps).length) resps'
  | [], n => rfl
  | .basicConsumeResponse .. :: resps, n => by
    rw [List.cons_append, pushesFrom, pushesFrom, pushesFrom_append resps' resps, List.cons_append, List.length_cons,
      Nat.add_assoc, Nat.add_comm 1]
  | .basicCommonResponse .. :: resps, n => pushesFrom_append resps' resps n
  | .basicQueryResponse .. :: resps, n => pushesFrom_append resps' resps n

/-- The consumer of a pushed message is registered. -/
def Known (registered : List BasicConsumeRequest) : Response → Prop
  | .basicConsumeResponse cid consumerTag _ _ => ∃ req ∈ registered, req.cid = cid ∧ req.consumerTag = consumerTag
  | _ => True

variable {registered}

/-- The server pushes. -/
theorem run_pushes : ∀ (resps : List Response) (inFlight : List Push), (∀ resp ∈ resps, Known registered resp) →
    ∃ acts, Lib.run step (c.withServer registered inFlight) acts =
      some (c.withServer registered (inFlight ++ pushesFrom (c.sent.length + inFlight.length) resps))
  | [], inFlight, _ => ⟨[], by rw [pushesFrom, List.append_nil]; rfl⟩
  | .basicConsumeResponse cid consumerTag body properties :: resps, inFlight, hknown => by
    rw [List.forall_mem_cons] at hknown
    rcases hknown.1 with ⟨req, hreq, rfl, rfl⟩
    let message : Push :=
      { seq := c.sent.length + inFlight.length, cid := req.cid, consumerTag := req.consumerTag, properties, body }
    rcases run_pushes resps (inFlight ++ [message]) hknown.2 with ⟨acts, hacts⟩
    refine ⟨.push req properties body :: acts, ?_⟩
    have hstep : (c.withServer registered inFlight).step (.push req properties body) =
        some (c.withServer registered (inFlight ++ [message])) := by
      have hmem : req ∈ (c.withServer registered inFlight).registered := hreq
      simp only [step, if_pos hmem]
      simp only [withServer, List.length_append, List.append_assoc, message]
    rw [Lib.run_cons hstep, hacts, List.append_assoc, List.length_append]
    rfl
  | .basicCommonResponse .. :: resps, inFlight, hknown => run_pushes resps inFlight (List.forall_mem_cons.mp hknown).2
  | .basicQueryResponse .. :: resps, inFlight, hknown => run_pushes resps inFlight (List.forall_mem_cons.mp hknown).2

variable (registered) in
/-- The server registers consumers. -/
theorem run_registers (rs : List BasicConsumeRequest)
    (hrs : ∀ r ∈ rs, c.outstanding.lookup r.rid = some (.basicConsume r)) :
    ∃ acts, Lib.run step (c.withServer registered inFlight) acts = some (c.withServer (rs ++ registered) inFlight) := by
  induction rs with
  | nil => exact ⟨[], rfl⟩
  | cons r rs ih =>
    rw [List.forall_mem_cons] at hrs
    rcases ih hrs.2 with ⟨acts, hacts⟩
    have hlookup : (c.withServer (rs ++ registered) inFlight).outstanding.lookup r.rid = some (.basicConsume r) := hrs.1
    have hstep : (c.withServer (rs ++ registered) inFlight).step (.register r.rid) =
        some (c.withServer (r :: rs ++ registered) inFlight) := by
      simp only [step, hlookup]
      rfl
    exact ⟨acts ++ [.register r.rid], (Lib.run_append hacts).trans (Lib.run_cons hstep)⟩

/-! ### What the client receives -/

theorem onResponse_answer {resp : Response} {query : Bool} {rid cid : String} (h : resp.answers = some (query, rid, cid)) :
    c.onResponse resp = { c with outstanding := c.outstanding.erase rid }.commonResponse cid resp := by
  cases resp with
  | basicConsumeResponse => cases h
  | _ =>
    cases h
    rfl

theorem commonResponse_kept (cid : String) (resp : Response) :
    (c.commonResponse cid resp).outstanding = c.outstanding ∧ (c.commonResponse cid resp).uuids = c.uuids ∧
      (c.commonResponse cid resp).sent = c.sent := by
  unfold commonResponse
  split
  · exact ⟨rfl, rfl, rfl⟩
  · exact ⟨rfl, rfl, rfl⟩

/-- Every response with the ids of a request is one that the model of the client knows, if a subscription that the server
    has made is granted. -/
theorem exists_responseTo {req : Request} {resp : Response} (hanswers : resp.answers = some req.ask)
    (hgranted : ∀ r ∈ c.registered, r.rid = req.rid → resp = .basicCommonResponse req.rid req.cid true) :
    ∃ ok body, c.responseTo ok body req = resp := by
  cases resp with
  | basicCommonResponse rid cid ok =>
    have hask : req.ask = (false, rid, cid) := (Option.some.inj hanswers).symm
    cases req with
    | basicQuery r => cases hask
    | basicConsume r =>
      cases hask
      refine ⟨ok, "", ?_⟩
      cases hany : c.registered.any fun r' => decide (r'.rid = r.rid) with
      | false =>
        rw [responseTo, hany, Bool.or_false]
        rfl
      | true =>
        rcases List.any_eq_true.mp hany with ⟨r', hr', heq⟩
        have htrue := hgranted r' hr' (of_decide_eq_true heq)
        cases htrue
        rw [responseTo, Bool.true_or]
        rfl
    | _ =>
      cases hask
      exact ⟨ok, "", rfl⟩
  | basicQueryResponse rid cid body =>
    have hask : req.ask = (true, rid, cid) := (Option.some.inj hanswers).symm
    cases req with
    | basicQuery r =>
      cases hask
      exact ⟨true, body, rfl⟩
    | _ => cases hask
  | basicConsumeResponse => cases hanswers

end Client

end HareMQ
