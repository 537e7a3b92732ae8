import HareMQ.Theorems.Returns

/-! # Orderly use of the channels

The server does not answer a request on a channel that it does not know, and the client throws a response away whose
channel is not in its manager. Neither happens if no method of a channel is called after another thread has begun to close
it: the connection keeps the order, so that a channel is opened at the server before its requests come, and the response
to `closeChannel` comes after all others. Then a thread that sleeps is waiting for something that is still to come. -/

namespace HareMQ
open Lib Wire Conveyor

/-! ### Opening and closing -/

namespace Request

def opens : Request → Bool
  | .openChannel _ => true
  | _ => false

def closes : Request → Bool
  | .closeChannel _ => true
  | _ => false

theorem Same.opens {req req' : Request} (h : req'.Same req) : req'.opens = req.opens ∧ req'.closes = req.closes := by
  cases req' with
  | declareExchange r' =>
    cases req with
    | declareExchange r => exact ⟨rfl, rfl⟩
    | _ => cases h
  | declareQueue r' =>
    cases req with
    | declareQueue r => exact ⟨rfl, rfl⟩
    | _ => cases h
  | _ =>
    cases h
    exact ⟨rfl, rfl⟩

end Request

/-- A channel is opened only where it is made. -/
theorem ClientChannel.request_opens {ch : ClientChannel} {rid : String} {method : ClientCall} {req : Request}
    (h : ch.request rid method = some req) : req.opens = false := by
  cases method with
  | basicAck msgid =>
    rcases Option.map_eq_some_iff.mp h with ⟨c, -, rfl⟩
    rfl
  | basicCancel =>
    rcases Option.map_eq_some_iff.mp h with ⟨c, -, rfl⟩
    rfl
  | basicConsume consumerTag queueName autoAck cb =>
    simp only [request] at h
    split at h
    · cases h
    · cases h
      rfl
  | _ =>
    cases h
    rfl

/-! ### The client -/

namespace Client
variable {c c' : Client} {flight flight' : List (Bool × String × String)} {reqs reqs' : List Request}
  {live live' : String → Prop}

/-- A thread is closing the channel. -/
def closing (c : Client) (ch : ChannelPtr) : Bool :=
  c.callers.entries.any fun e => decide (e.2.channel = ch) && e.2.request.closes

theorem not_closing {ch : ChannelPtr} (h : c.closing ch = false) {rid : String} {caller : Caller}
    (hcaller : c.callers.lookup rid = some caller) (hcloses : caller.request.closes = true) : caller.channel ≠ ch := by
  rintro rfl
  refine Bool.false_ne_true (h.symm.trans (List.any_eq_true.mpr ⟨⟨rid, caller⟩, UMap.mem_entries_iff.mpr hcaller, ?_⟩))
  rw [Bool.and_eq_true]
  exact ⟨decide_eq_true rfl, hcloses⟩

theorem closing_eq_false {ch : ChannelPtr}
    (h : ∀ rid caller, c.callers.lookup rid = some caller → caller.request.closes = true → caller.channel ≠ ch) :
    c.closing ch = false := by
  rw [closing, List.any_eq_false]
  rintro ⟨rid, caller⟩ hmem hcloses
  rw [Bool.and_eq_true] at hcloses
  exact h rid caller (UMap.mem_entries_iff.mp hmem) hcloses.2 (of_decide_eq_true hcloses.1)

/-- `flight` are the requests whose responses are to come, in their order, `reqs` those that the server has not received,
    and `live` the channels that the server knows. -/
structure Orderly (c : Client) (flight : List (Bool × String × String)) (reqs : List Request) (live : String → Prop) :
    Prop where
  sound : c.rendezvous.Sound Answers
  awaited : ∀ rid ∈ c.outstanding, ∃ x ∈ flight, x.2.1 = rid
  listed : ∀ x ∈ flight, (c.manager.lookup x.2.2).isSome
  /-- Nothing on a channel comes after the request that closes it. -/
  last : ∀ rid caller, c.callers.lookup rid = some caller → caller.request.closes = true →
    ∀ pre x post, flight = pre ++ x :: post → x.2.2 = caller.request.cid → ∃ y ∈ x :: post, y.2.1 = rid
  opened : ∀ rid caller, c.callers.lookup rid = some caller → (caller.request.opens = false ↔ caller.channel ∈ c.opened)
  single : ∀ rid caller rid' caller', c.callers.lookup rid = some caller → c.callers.lookup rid' = some caller' →
    caller.request.opens = true → caller'.request.opens = true → caller.channel = caller'.channel → rid = rid'
  ready : ∀ req ∈ reqs, req.opens = false → req.closes = false → live req.cid
  alive : ∀ ch ∈ c.opened, (c.manager.lookup (c.channels ch).cid).isSome → c.closing ch = false → live (c.channels ch).cid
  opening : ∀ rid caller, c.callers.lookup rid = some caller → caller.request.opens = true → (∀ req ∈ reqs, req.rid ≠ rid) →
    live caller.request.cid

/-- What of a thread stays the same until it returns. -/
def made (caller : Caller) : Request × ChannelPtr := (caller.request, caller.channel)

theorem exists_made {x y : Option Caller} (h : x.map made = y.map made) {caller : Caller} (hx : x = some caller) :
    ∃ old, y = some old ∧ caller.request = old.request ∧ caller.channel = old.channel := by
  rw [hx, Option.map_some] at h
  rcases Option.map_eq_some_iff.mp h.symm with ⟨old, hold, heq⟩
  rw [made, made, Prod.mk.injEq] at heq
  exact ⟨old, hold, heq.1.symm, heq.2.symm⟩

theorem made_phase {rid : String} {caller : Caller} (hcaller : c.callers.lookup rid = some caller) (phase : Phase)
    (k : String) : ((c.callers.insert rid { caller with phase }).lookup k).map made = (c.callers.lookup k).map made := by
  rw [UMap.lookup_insert]
  split
  · next heq =>
    rw [heq, hcaller]
    rfl
  · rfl

theorem made_notify (ch : ChannelPtr) (k : String) :
    ((c.callers.mapValues (Caller.notify ch)).lookup k).map made = (c.callers.lookup k).map made := by
  rw [UMap.lookup_mapValues, Option.map_map]
  congr 1
  funext caller
  exact Prod.ext (caller.request_notify ch) (caller.channel_notify ch)

namespace Orderly

/-- Neither channels nor requests are made, and no thread returns. -/
theorem update (h : c.Orderly flight reqs live) (hsound : c'.rendezvous.Sound Answers) (hmanager : c'.manager = c.manager)
    (hopened : c'.opened = c.opened) (hcids : ∀ ch, (c'.channels ch).cid = (c.channels ch).cid)
    (hmade : ∀ rid, (c'.callers.lookup rid).map made = (c.callers.lookup rid).map made)
    (hawaited : ∀ rid ∈ c'.outstanding, ∃ x ∈ flight', x.2.1 = rid) (hflight : ∃ pre, flight = pre ++ flight') :
    c'.Orderly flight' reqs live := by
  rcases hflight with ⟨pre₀, rfl⟩
  refine ⟨hsound, hawaited, fun x hx => ?_, fun rid caller hcaller hcloses pre x post heq hcid => ?_,
    fun rid caller hcaller => ?_, fun rid caller rid' caller' hcaller hcaller' hopens hopens' heq => ?_, h.ready,
    fun ch hch hlisted hclosing => ?_, fun rid caller hcaller hopens hreqs => ?_⟩
  · rw [hmanager]
    exact h.listed x (List.mem_append_right _ hx)
  · rcases exists_made (hmade rid) hcaller with ⟨old, hold, hrequest, -⟩
    rw [hrequest] at hcloses hcid
    exact h.last rid old hold hcloses (pre₀ ++ pre) x post (by rw [heq, List.append_assoc]) hcid
  · rcases exists_made (hmade rid) hcaller with ⟨old, hold, hrequest, hchannel⟩
    rw [hrequest, hchannel, hopened]
    exact h.opened rid old hold
  · rcases exists_made (hmade rid) hcaller with ⟨old, hold, hrequest, hchannel⟩
    rcases exists_made (hmade rid') hcaller' with ⟨old', hold', hrequest', hchannel'⟩
    rw [hrequest] at hopens
    rw [hrequest'] at hopens'
    rw [hchannel, hchannel'] at heq
    exact h.single rid old rid' old' hold hold' hopens hopens' heq
  · rw [hopened] at hch
    rw [hmanager, hcids] at hlisted
    rw [hcids]
    refine h.alive ch hch hlisted (closing_eq_false fun rid old hold hcloses => ?_)
    rcases exists_made (hmade rid).symm hold with ⟨caller, hcaller, hrequest, hchannel⟩
    rw [hchannel]
    exact not_closing hclosing hcaller (hrequest ▸ hcloses)
  · rcases exists_made (hmade rid) hcaller with ⟨old, hold, hrequest, -⟩
    rw [hrequest] at hopens ⊢
    exact h.opening rid old hold hopens hreqs

/-- The server does something that does not concern the connection. -/
theorem mono (h : c.Orderly flight reqs live) (hlive : ∀ cid, live cid → live' cid) : c.Orderly flight reqs live' :=
  ⟨h.sound, h.awaited, h.listed, h.last, h.opened, h.single,
    fun req hreq hopens hcloses => hlive _ (h.ready req hreq hopens hcloses),
    fun ch hch hlisted hclosing => hlive _ (h.alive ch hch hlisted hclosing),
    fun rid caller hcaller hopens hreqs => hlive _ (h.opening rid caller hcaller hopens hreqs)⟩

/-- The server receives a request. -/
theorem served {req : Request} (h : c.Orderly flight (req :: reqs) live) (ht : c.Tied) {caller : Caller}
    (hcaller : c.callers.lookup req.rid = some caller) (hcid : caller.request.cid = req.cid)
    (hkind : caller.request.opens = req.opens ∧ caller.request.closes = req.closes)
    (pre : List (Bool × String × String)) (hflight : flight = pre ++ (req :: reqs).map Request.ask)
    (hnodup : (flight.map fun x => x.2.1).Nodup) (hlive : ∀ cid, live cid → req.closes = false ∨ cid ≠ req.cid → live' cid)
    (hopens : req.opens = true → live' req.cid) : c.Orderly flight reqs live' := by
  rcases ht.callers _ caller hcaller with ⟨-, hlt, hown, -⟩
  refine ⟨h.sound, h.awaited, h.listed, h.last, h.opened, h.single, fun r hr hropens hrcloses => ?_,
    fun ch hch hlisted hclosing => ?_, fun rid caller' hcaller' hopens' hreqs => ?_⟩
  · refine hlive _ (h.ready r (List.mem_cons_of_mem _ hr) hropens hrcloses) (Bool.eq_false_or_eq_true _ |>.symm.imp_right ?_)
    -- The request that closes the channel would be the last one on it.
    intro hcloses heq
    rcases List.append_of_mem hr with ⟨reqs₁, reqs₂, rfl⟩
    have hsplit : flight = (pre ++ (req :: reqs₁).map Request.ask) ++ r.ask :: reqs₂.map Request.ask := by
      rw [hflight, List.append_assoc, List.map_cons, List.map_append, List.map_cons, List.map_cons, List.cons_append]
    rcases h.last _ caller hcaller (hkind.2.trans hcloses) _ _ _ hsplit (heq.trans hcid.symm) with ⟨y, hy, hyrid⟩
    rw [hsplit, List.map_append, List.nodup_append] at hnodup
    refine hnodup.2.2 req.rid ?_ y.2.1 (List.mem_map_of_mem hy) hyrid.symm
    exact List.mem_map.mpr ⟨req.ask, List.mem_append_right _ List.mem_cons_self, rfl⟩
  · refine hlive _ (h.alive ch hch hlisted hclosing) (Bool.eq_false_or_eq_true _ |>.symm.imp_right fun hcloses heq => ?_)
    refine not_closing hclosing hcaller (hkind.2.trans hcloses) (ht.distinct _ _ hlt (ht.opened ch hch) ?_)
    rw [← hown, hcid, heq]
  · by_cases hrid : req.rid = rid
    · rw [← hrid, hcaller] at hcaller'
      cases hcaller'
      rw [hcid]
      exact hopens (hkind.1.symm.trans hopens')
    · refine hlive _ (h.opening rid caller' hcaller' hopens' (List.forall_mem_cons.mpr ⟨hrid, hreqs⟩))
        (Bool.eq_false_or_eq_true _ |>.symm.imp_right fun hcloses heq => ?_)
      -- A channel that is being opened is not closed.
      rcases ht.callers _ caller' hcaller' with ⟨-, hlt', hown', -⟩
      have hsame : caller'.channel = caller.channel := by
        refine ht.distinct _ _ hlt' hlt ?_
        rw [← hown', ← hown, heq, hcid]
      have hnot : caller.request.opens = false := by
        have hcloses := hkind.2.trans hcloses
        cases hreq : caller.request with
        | closeChannel => rfl
        | _ =>
          rw [hreq] at hcloses
          cases hcloses
      have hmem := (h.opened _ caller hcaller).mp hnot
      rw [← hsame, ← h.opened _ caller' hcaller', hopens'] at hmem
      cases hmem

/-- One more request in flight: it is the last, and what is before it has been in flight. -/
theorem snoc_split {pre post : List (Bool × String × String)} {x y : Bool × String × String}
    (h : flight ++ [y] = pre ++ x :: post) :
    post = [] ∧ y = x ∨ ∃ post', post = post' ++ [y] ∧ flight = pre ++ x :: post' := by
  rcases List.eq_nil_or_concat post with rfl | ⟨post', z, rfl⟩
  · rcases List.append_inj' h rfl with ⟨-, hx⟩
    exact Or.inl ⟨rfl, List.singleton_inj.mp hx⟩
  · rw [List.concat_eq_append] at h ⊢
    have h : flight ++ [y] = (pre ++ x :: post') ++ [z] := by rw [h, List.append_assoc, List.cons_append]
    rcases List.append_inj' h rfl with ⟨hflight, hz⟩
    rw [List.singleton_inj.mp hz]
    exact Or.inr ⟨post', rfl, hflight⟩

/-- A caller that is there now has just been made, or was there before. -/
theorem lookup_made {rid k : String} {made caller : Caller} (hcallers : c'.callers = c.callers.insert rid made)
    (hcaller : c'.callers.lookup k = some caller) : k = rid ∧ caller = made ∨ c.callers.lookup k = some caller := by
  rw [hcallers, UMap.lookup_insert] at hcaller
  split at hcaller
  · next heq =>
    cases hcaller
    exact Or.inl ⟨heq, rfl⟩
  · exact Or.inr hcaller

/-- A caller with a fresh id leaves the others. -/
theorem lookup_kept (ht : c.Tied) {rid k : String} {made caller : Caller} (hrid : rid ∉ c.uuids)
    (hcallers : c'.callers = c.callers.insert rid made) (hcaller : c.callers.lookup k = some caller) :
    c'.callers.lookup k = some caller := by
  rw [hcallers, UMap.lookup_insert, if_neg]
  · exact hcaller
  · rintro rfl
    rw [ht.callers_of_fresh hrid] at hcaller
    cases hcaller

/-- A request is sent on a channel that is open and stays open. -/
theorem send (h : c.Orderly flight reqs live) (ht : c.Tied) {ch : ChannelPtr} {req req' : Request} {cb : Nat}
    (hch : ch ∈ c.opened) (hlisted : (c.manager.lookup (c.channels ch).cid).isSome) (hclosing : c.closing ch = false)
    (hfresh : req.rid ∉ c.uuids) (hcid : req.cid = (c.channels ch).cid) (hopens : req.opens = false) (hsame : req'.Same req)
    (hsound : (c.send ch req cb).rendezvous.Sound Answers) :
    (c.send ch req cb).Orderly (flight ++ [req.ask]) (reqs ++ [req']) live := by
  have hlookup : ∀ rid caller, (c.send ch req cb).callers.lookup rid = some caller →
      (rid = req.rid ∧ caller.request = req ∧ caller.channel = ch) ∨ c.callers.lookup rid = some caller :=
    fun rid caller hcaller => (lookup_made rfl hcaller).imp_left fun ⟨hrid, hmade⟩ => ⟨hrid, hmade ▸ rfl, hmade ▸ rfl⟩
  have hkept : ∀ rid caller, c.callers.lookup rid = some caller → (c.send ch req cb).callers.lookup rid = some caller :=
    fun rid caller hcaller => lookup_kept ht hfresh rfl hcaller
  have hask : req'.ask = req.ask := hsame.ask
  refine ⟨hsound, fun rid hrid => ?_, fun x hx => ?_, fun rid caller hcaller hcloses pre x post heq hxcid => ?_,
    fun rid caller hcaller => ?_, fun rid caller rid' caller' hcaller hcaller' hopens₁ hopens₂ heq => ?_,
    fun r hr hropens hrcloses => ?_, fun ch' hch' hlisted' hclosing' => ?_, fun rid caller hcaller hopens' hreqs => ?_⟩
  · rcases (AList.mem_insert _).mp hrid with rfl | hrid
    · exact ⟨req.ask, List.mem_append_right _ List.mem_cons_self, rfl⟩
    · rcases h.awaited rid hrid with ⟨x, hx, hxrid⟩
      exact ⟨x, List.mem_append_left _ hx, hxrid⟩
  · rcases List.mem_append.mp hx with hx | hx
    · exact h.listed x hx
    · rw [List.mem_singleton.mp hx]
      have hlisted : (c.manager.lookup req.cid).isSome := hcid ▸ hlisted
      exact hlisted
  · rcases hlookup rid caller hcaller with ⟨rfl, hrequest, -⟩ | hold
    · -- The request itself is the last.
      have hmem : req.ask ∈ x :: post := by
        have hlast := congrArg List.getLast? heq
        rw [List.getLast?_concat, List.getLast?_append_cons] at hlast
        exact List.mem_of_getLast? hlast.symm
      exact ⟨req.ask, hmem, rfl⟩
    · rcases snoc_split heq with ⟨-, rfl⟩ | ⟨post, rfl, hflight⟩
      · rcases ht.callers rid caller hold with ⟨-, hlt, hown, -⟩
        refine absurd ?_ (not_closing hclosing hold hcloses)
        refine ht.distinct _ _ hlt (ht.opened ch hch) ?_
        rw [← hown, ← hxcid]
        exact hcid
      · rcases h.last rid caller hold hcloses pre x post hflight hxcid with ⟨z, hz, hzrid⟩
        exact ⟨z, (List.mem_cons.mp hz).elim (fun hz => hz ▸ List.mem_cons_self)
          (fun hz => List.mem_cons_of_mem _ (List.mem_append_left _ hz)), hzrid⟩
  · rcases hlookup rid caller hcaller with ⟨rfl, hrequest, hchannel⟩ | hold
    · rw [hrequest, hchannel]
      exact ⟨fun _ => hch, fun _ => hopens⟩
    · exact h.opened rid caller hold
  · rcases hlookup rid caller hcaller with ⟨rfl, hrequest, -⟩ | hold
    · rw [hrequest, hopens] at hopens₁
      cases hopens₁
    · rcases hlookup rid' caller' hcaller' with ⟨rfl, hrequest, -⟩ | hold'
      · rw [hrequest, hopens] at hopens₂
        cases hopens₂
      · exact h.single rid caller rid' caller' hold hold' hopens₁ hopens₂ heq
  · rcases List.mem_append.mp hr with hr | hr
    · exact h.ready r hr hropens hrcloses
    · rw [List.mem_singleton.mp hr]
      have hrcid : req'.cid = (c.channels ch).cid :=
        (congrArg (fun x : Bool × String × String => x.2.2) hask).trans hcid
      rw [hrcid]
      exact h.alive ch hch hlisted hclosing
  · refine h.alive ch' hch' hlisted' (closing_eq_false fun rid caller hcaller hcloses => ?_)
    exact not_closing hclosing' (hkept rid caller hcaller) hcloses
  · rcases hlookup rid caller hcaller with ⟨rfl, hrequest, -⟩ | hold
    · rw [hrequest, hopens] at hopens'
      cases hopens'
    · exact h.opening rid caller hold hopens' fun r hr => hreqs r (List.mem_append_left _ hr)

/-- A channel is made, and the request to open it sent. -/
theorem openChannel (h : c.Orderly flight reqs live) (ht : c.Tied) {cid rid : String} {req : Request} (hcid : cid ∉ c.uuids)
    (hrid : rid ∉ c.uuids) (hsame : req.Same (.openChannel ⟨rid, cid⟩))
    (hsound : (c.openChannel cid rid).rendezvous.Sound Answers) :
    (c.openChannel cid rid).Orderly (flight ++ [(false, rid, cid)]) (reqs ++ [req]) live := by
  have hlookup : ∀ k caller, (c.openChannel cid rid).callers.lookup k = some caller →
      (k = rid ∧ caller = { channel := c.next, request := .openChannel ⟨rid, cid⟩ }) ∨ c.callers.lookup k = some caller :=
    fun k caller hcaller => lookup_made rfl hcaller
  have hkept : ∀ k caller, c.callers.lookup k = some caller → (c.openChannel cid rid).callers.lookup k = some caller :=
    fun k caller hcaller => lookup_kept ht hrid rfl hcaller
  have hold : ∀ ch, ch < c.next → (c.openChannel cid rid).channels ch = c.channels ch := fun ch hch =>
    Function.update_of_ne (Nat.ne_of_lt hch) ..
  have hlisted : ∀ cid', (c.manager.lookup cid').isSome → ((c.openChannel cid rid).manager.lookup cid').isSome := by
    intro cid' hcid'
    exact AList.lookup_isSome.mpr (UMap.mem_emplace.mpr (Or.inr (AList.lookup_isSome.mp hcid')))
  refine ⟨hsound, fun k hk => ?_, fun x hx => ?_, fun k caller hcaller hcloses pre x post heq hxcid => ?_,
    fun k caller hcaller => ?_, fun k caller k' caller' hcaller hcaller' hopens hopens' heq => ?_,
    fun r hr hropens hrcloses => ?_, fun ch hch hlisted' hclosing => ?_, fun k caller hcaller hopens hreqs => ?_⟩
  · rcases (AList.mem_insert _).mp hk with rfl | hk
    · exact ⟨_, List.mem_append_right _ List.mem_cons_self, rfl⟩
    · rcases h.awaited k hk with ⟨x, hx, hxrid⟩
      exact ⟨x, List.mem_append_left _ hx, hxrid⟩
  · rcases List.mem_append.mp hx with hx | hx
    · exact hlisted _ (h.listed x hx)
    · rw [List.mem_singleton.mp hx]
      exact AList.lookup_isSome.mpr (UMap.mem_emplace.mpr (Or.inl rfl))
  · rcases hlookup k caller hcaller with ⟨-, rfl⟩ | hcaller
    · cases hcloses
    · rcases snoc_split heq with ⟨-, rfl⟩ | ⟨post, rfl, hflight⟩
      · rcases ht.callers k caller hcaller with ⟨-, hlt, hown, -⟩
        have hxcid : cid = caller.request.cid := hxcid
        exact absurd (ht.cids _ hlt) (by rwa [← hown, ← hxcid])
      · rcases h.last k caller hcaller hcloses pre x post hflight hxcid with ⟨z, hz, hzrid⟩
        exact ⟨z, (List.mem_cons.mp hz).elim (fun hz => hz ▸ List.mem_cons_self)
          (fun hz => List.mem_cons_of_mem _ (List.mem_append_left _ hz)), hzrid⟩
  · rcases hlookup k caller hcaller with ⟨-, rfl⟩ | hcaller
    · refine ⟨fun h => Bool.noConfusion h, fun hmem => ?_⟩
      exact absurd (ht.opened _ hmem) (Nat.lt_irrefl _)
    · exact h.opened k caller hcaller
  · rcases hlookup k caller hcaller with ⟨rfl, rfl⟩ | hcaller
    · rcases hlookup k' caller' hcaller' with ⟨rfl, -⟩ | hcaller'
      · rfl
      · have heq : c.next = caller'.channel := heq
        exact absurd (heq ▸ (ht.callers k' caller' hcaller').2.1) (Nat.lt_irrefl _)
    · rcases hlookup k' caller' hcaller' with ⟨-, rfl⟩ | hcaller'
      · have heq : caller.channel = c.next := heq
        exact absurd (heq ▸ (ht.callers k caller hcaller).2.1) (Nat.lt_irrefl _)
      · exact h.single k caller k' caller' hcaller hcaller' hopens hopens' heq
  · rcases List.mem_append.mp hr with hr | hr
    · exact h.ready r hr hropens hrcloses
    · rw [List.mem_singleton.mp hr, hsame.opens.1] at hropens
      cases hropens
  · have hlt := ht.opened ch hch
    rw [hold ch hlt] at hlisted' ⊢
    refine h.alive ch hch ?_ (closing_eq_false fun k caller hcaller hcloses => ?_)
    · rw [AList.lookup_isSome] at hlisted' ⊢
      refine (UMap.mem_emplace.mp hlisted').resolve_left ?_
      rintro heq
      exact hcid (heq ▸ ht.cids ch hlt)
    · exact not_closing hclosing (hkept k caller hcaller) hcloses
  · rcases hlookup k caller hcaller with ⟨rfl, -⟩ | hcaller
    · have hreq := hreqs req (List.mem_append_right _ List.mem_cons_self)
      exact absurd (congrArg (fun x : Bool × String × String => x.2.1) hsame.ask) hreq
    · exact h.opening k caller hcaller hopens fun r hr => hreqs r (List.mem_append_left _ hr)

section Finish
variable {rid : String} {caller : Caller}

/-- The thread that returns has closed its channel, and the channel is dropped, or no channel is. -/
theorem finish_manager (hown : caller.request.cid = (c.channels caller.channel).cid) (resp : Response) :
    (c.finish caller resp).manager = c.manager ∧ caller.request.closes = false ∨
      (c.finish caller resp).manager = c.manager.erase caller.request.cid ∧ caller.request.closes = true := by
  unfold Client.finish
  split
  · next heq =>
    rw [heq]
    split
    · exact Or.inl ⟨rfl, rfl⟩
    · exact Or.inl ⟨rfl, rfl⟩
  · next heq =>
    rw [hown, heq]
    exact Or.inr ⟨rfl, rfl⟩
  · next heq =>
    rw [heq]
    split
    · exact Or.inl ⟨rfl, rfl⟩
    · exact Or.inl ⟨rfl, rfl⟩
  · next heq =>
    rw [heq]
    exact Or.inl ⟨rfl, rfl⟩
  · next hopen hclose hconsume hcancel =>
    refine Or.inl ⟨rfl, ?_⟩
    cases hreq : caller.request with
    | closeChannel r => exact absurd hreq (hclose r)
    | _ => rfl

/-- The thread that returns has opened its channel, or no channel counts as opened that did not before. -/
theorem finish_opened (caller : Caller) (resp : Response) :
    (c.finish caller resp).opened = c.opened ∨
      (c.finish caller resp).opened = caller.channel :: c.opened ∧ caller.request.opens = true := by
  unfold Client.finish
  split
  · next heq =>
    rw [heq]
    split
    · exact Or.inr ⟨rfl, rfl⟩
    · exact Or.inl rfl
  · exact Or.inl rfl
  · split
    · exact Or.inl rfl
    · exact Or.inl rfl
  · exact Or.inl rfl
  · exact Or.inl rfl

variable {resp : Response}

theorem finish_lookup (hcallers : (c.finish caller resp).callers = c.callers.erase rid) {k : String} {x : Caller}
    (hx : (c.finish caller resp).callers.lookup k = some x) :
    k ≠ rid ∧ c.callers.lookup k = some x := by
  rw [hcallers] at hx
  exact UMap.lookup_erase_eq_some hx

/-- A channel that no other thread is closing is not being closed, unless the thread that returns has closed it. -/
theorem finish_closing (hcaller : c.callers.lookup rid = some caller)
    (hcallers : (c.finish caller resp).callers = c.callers.erase rid) {ch : ChannelPtr}
    (hclosing : (c.finish caller resp).closing ch = false)
    (hself : caller.channel ≠ ch ∨ caller.request.closes = false) : c.closing ch = false := by
  refine closing_eq_false fun k x hx hcloses => ?_
  by_cases hk : k = rid
  · rw [hk, hcaller] at hx
    cases hx
    rw [hcloses] at hself
    exact hself.resolve_right fun h => Bool.noConfusion h
  · have hkept : (c.finish caller resp).callers.lookup k = some x := by
      rw [hcallers, UMap.lookup_erase, if_neg hk]
      exact hx
    exact not_closing hclosing hkept hcloses

/-- The channels of what is in flight stay listed: whatever comes on a channel comes before the response to its closing. -/
theorem finish_listed (h : c.Orderly flight reqs live) (hcaller : c.callers.lookup rid = some caller)
    (hown : caller.request.cid = (c.channels caller.channel).cid)
    (hanswered : ∀ x ∈ flight, x.2.1 ≠ rid) :
    ∀ x ∈ flight, ((c.finish caller resp).manager.lookup x.2.2).isSome := by
  intro x hx
  rcases finish_manager hown resp with ⟨hmanager, -⟩ | ⟨hmanager, hcloses⟩
  · rw [hmanager]
    exact h.listed x hx
  · rw [hmanager, UMap.lookup_erase, if_neg]
    · exact h.listed x hx
    · intro heq
      rcases List.append_of_mem hx with ⟨pre, post, hsplit⟩
      rcases h.last rid caller hcaller hcloses pre x post hsplit heq with ⟨y, hy, hyrid⟩
      exact hanswered y (hsplit ▸ List.mem_append_right _ hy) hyrid

/-- The other threads open their channels or have opened them as before. -/
theorem finish_opens (h : c.Orderly flight reqs live) (hcaller : c.callers.lookup rid = some caller)
    (hcallers : (c.finish caller resp).callers = c.callers.erase rid)
    {k : String} {x : Caller}
    (hx : (c.finish caller resp).callers.lookup k = some x) :
    x.request.opens = false ↔ x.channel ∈ (c.finish caller resp).opened := by
  rcases finish_lookup hcallers hx with ⟨hne, hx⟩
  rcases finish_opened caller resp with hopened | ⟨hopened, hopens⟩
  · rw [hopened]
    exact h.opened k x hx
  · rw [hopened, h.opened k x hx, List.mem_cons]
    refine ⟨Or.inr, fun hmem => hmem.resolve_left fun heq => ?_⟩
    have hopens' : x.request.opens = true := by
      by_contra hnot
      have hmem := (h.opened k x hx).mp (Bool.eq_false_iff.mpr hnot)
      rw [heq, ← h.opened rid caller hcaller, hopens] at hmem
      cases hmem
    exact hne (h.single k x rid caller hx hcaller hopens' hopens heq)

/-- The channel of the thread that returns is alive at the server, when it is listed still. -/
theorem finish_alive_self (h : c.Orderly flight reqs live) (hcaller : c.callers.lookup rid = some caller)
    (hcallers : (c.finish caller resp).callers = c.callers.erase rid)
    (hown : caller.request.cid = (c.channels caller.channel).cid)
    (hreqs : ∀ req ∈ reqs, req.rid ≠ rid)
    (hlisted : ((c.finish caller resp).manager.lookup (c.channels caller.channel).cid).isSome)
    (hclosing : (c.finish caller resp).closing caller.channel = false) : live (c.channels caller.channel).cid := by
  rcases finish_manager hown resp with ⟨hmanager, hcloses⟩ | ⟨hmanager, -⟩
  · rw [hmanager] at hlisted
    cases hopens : caller.request.opens with
    | true =>
      rw [← hown]
      exact h.opening rid caller hcaller hopens hreqs
    | false =>
      have hmem := (h.opened rid caller hcaller).mp hopens
      exact h.alive _ hmem hlisted (finish_closing hcaller hcallers hclosing (Or.inr hcloses))
  · rw [hmanager, ← hown, UMap.lookup_erase, if_pos rfl] at hlisted
    cases hlisted

/-- The other channels are alive at the server as before. -/
theorem finish_alive_other (h : c.Orderly flight reqs live) (hcaller : c.callers.lookup rid = some caller)
    (hcallers : (c.finish caller resp).callers = c.callers.erase rid)
    (hown : caller.request.cid = (c.channels caller.channel).cid)
    {ch : ChannelPtr} (hself : ch ≠ caller.channel) (hch : ch ∈ (c.finish caller resp).opened)
    (hlisted : ((c.finish caller resp).manager.lookup (c.channels ch).cid).isSome)
    (hclosing : (c.finish caller resp).closing ch = false) : live (c.channels ch).cid := by
  have hch : ch ∈ c.opened := by
    rcases finish_opened caller resp with hopened | ⟨hopened, -⟩
    · rwa [hopened] at hch
    · rw [hopened, List.mem_cons] at hch
      exact hch.resolve_left hself
  refine h.alive ch hch ?_ (finish_closing hcaller hcallers hclosing (Or.inl fun heq => hself heq.symm))
  rcases finish_manager hown resp with ⟨hmanager, -⟩ | ⟨hmanager, -⟩
  · rwa [hmanager] at hlisted
  · rw [hmanager, UMap.lookup_erase] at hlisted
    split at hlisted
    · cases hlisted
    · exact hlisted

end Finish

/-- A thread that has its response returns. -/
theorem finish (h : c.Orderly flight reqs live) (ht : c.Tied) {rid : String} {caller : Caller} {resp : Response}
    (hcaller : c.callers.lookup rid = some caller) (hanswered : ∀ x ∈ flight, x.2.1 ≠ rid)
    (hreqs : ∀ req ∈ reqs, req.rid ≠ rid) (hsound : (c.finish caller resp).rendezvous.Sound Answers) :
    (c.finish caller resp).Orderly flight reqs live := by
  have hf := finish_finished (c := c) caller resp
  rcases ht.callers rid caller hcaller with ⟨hrid, -, hown, -⟩
  have hcallers : (c.finish caller resp).callers = c.callers.erase rid := hrid ▸ hf.callers
  have hlookup : ∀ k x, (c.finish caller resp).callers.lookup k = some x → c.callers.lookup k = some x :=
    fun k x hx => (finish_lookup hcallers hx).2
  refine ⟨hsound, fun k hk => h.awaited k (hf.outstanding ▸ hk), finish_listed h hcaller hown hanswered,
    fun k x hx => h.last k x (hlookup k x hx), fun k x hx => finish_opens h hcaller hcallers hx,
    fun k x k' x' hx hx' => h.single k x k' x' (hlookup k x hx) (hlookup k' x' hx'), h.ready,
    fun ch hch hlisted hclosing => ?_, fun k x hx => h.opening k x (hlookup k x hx)⟩
  rw [hf.cids] at hlisted ⊢
  by_cases hself : ch = caller.channel
  · subst hself
    exact finish_alive_self h hcaller hcallers hown hreqs hlisted hclosing
  · exact finish_alive_other h hcaller hcallers hown hself hch hlisted hclosing

end Orderly

/-- A method is called on a channel that is not closed, and that no thread is closing. -/
def orderly (c : Client) : ClientAct → Bool
  | .call ch _ _ => (c.manager.lookup (c.channels ch).cid).isSome && !c.closing ch
  | _ => true

namespace Orderly
variable {act : ClientAct}

/-- What the client does by itself. -/
theorem own (h : c.Orderly flight reqs live) (ht : c.Tied) (hown : act.own = true) (horderly : c.orderly act = true)
    (hstep : c.step act = some c') (hflight : ∀ x ∈ flight, x.2.1 ∈ c.outstanding)
    (hreqs : ∀ req ∈ reqs, req.rid ∈ c.outstanding) (hnew : List.Forall₂ Request.Same reqs' (c.sends act).toList) :
    c'.Orderly (flight ++ (c.sends act).toList.map Request.ask) (reqs ++ reqs') live := by
  have hlisted : c.listed act = true := by
    cases act with
    | response => cases hown
    | _ => rfl
  have hsound := h.sound.step (step_rendezvous ht h.sound hstep hlisted)
  have hquiet : c.sends act = none → c'.Orderly flight reqs live →
      c'.Orderly (flight ++ (c.sends act).toList.map Request.ask) (reqs ++ reqs') live := by
    intro hnone hc'
    rw [hnone, Option.toList_none] at hnew ⊢
    cases hnew
    rw [List.map_nil, List.append_nil, List.append_nil]
    exact hc'
  cases step_does hstep with
  | @openChannel cid rid hcid hrid hne =>
    rcases List.forall₂_cons_right_iff.mp hnew with ⟨req, reqs₁, hsame, hnil, rfl⟩
    cases hnil
    exact h.openChannel ht hcid hrid hsame hsound
  | @call ch rid method hch hrid =>
    simp only [orderly, Bool.and_eq_true, Bool.not_eq_true'] at horderly
    cases hreq : (c.channels ch).request rid method with
    | none =>
      have hcall : c.call ch rid method = c := by
        unfold call
        rw [hreq]
      rw [hcall] at hquiet ⊢
      exact hquiet hreq h
    | some req =>
      rcases ClientChannel.request_ids _ hreq with ⟨rfl, hcid⟩
      have hcall : ∃ cb, c.call ch req.rid method = c.send ch req cb := by
        unfold call
        rw [hreq]
        cases method with
        | _ => exact ⟨_, rfl⟩
      rcases hcall with ⟨cb, hcall⟩
      have hsends : c.sends (.call ch req.rid method) = some req := hreq
      rw [hsends, Option.toList_some] at hnew ⊢
      rcases List.forall₂_cons_right_iff.mp hnew with ⟨req', reqs₁, hsame, hnil, rfl⟩
      cases hnil
      rw [hcall] at hsound ⊢
      exact h.send ht hch horderly.1 horderly.2 hrid hcid (ClientChannel.request_opens hreq) hsame hsound
  | @wait rid caller hcaller hphase =>
    refine hquiet rfl ?_
    have hrid := (ht.callers rid caller hcaller).1
    cases hfound : c.found caller with
    | none =>
      rw [wait_none hfound, hrid] at hsound ⊢
      exact h.update hsound rfl rfl (fun _ => rfl) (made_phase hcaller .asleep) h.awaited ⟨[], rfl⟩
    | some resp =>
      rw [wait_some hfound, hrid] at hsound ⊢
      exact h.update hsound rfl rfl (cid_setChannel _ _ _) (made_phase hcaller (.answered resp)) h.awaited ⟨[], rfl⟩
  | @spurious rid caller hcaller hphase =>
    exact hquiet rfl (h.update hsound rfl rfl (fun _ => rfl) (made_phase hcaller .checking) h.awaited ⟨[], rfl⟩)
  | @finish rid caller resp hcaller hphase =>
    -- The request of the thread is answered.
    have hdone : rid ∉ c.outstanding := by
      intro hout
      rcases h.sound.pending rid hout with ⟨b, hb⟩
      rw [waiting_of_lookup hcaller, Caller.waitsAt, hphase] at hb
      cases hb
    refine hquiet rfl (h.finish ht hcaller (fun x hx heq => ?_) (fun req hreq heq => ?_) hsound)
    · exact hdone (heq ▸ hflight x hx)
    · exact hdone (heq ▸ hreqs req hreq)
  | register => cases hown
  | response => cases hown
  | push => cases hown
  | arrive => cases hown
  | _ => exact hquiet rfl (h.update hsound rfl rfl (fun _ => rfl) (fun _ => rfl) h.awaited ⟨[], rfl⟩)

/-- The next response arrives. -/
theorem heard {query : Bool} {rid cid : String} (h : c.Orderly ((query, rid, cid) :: flight) reqs live) (ht : c.Tied)
    {req : Request} (hreq : c.outstanding.lookup rid = some req) (hask : req.ask = (query, rid, cid)) {resp : Response}
    (hans : resp.answers = some (query, rid, cid)) : (c.onResponse resp).Orderly flight reqs live := by
  rcases ht.caller_of_outstanding h.sound hreq with ⟨caller, hcaller, hrequest, -, hwaiting⟩
  rcases ht.callers rid caller hcaller with ⟨-, hlt, hown, -⟩
  rcases Option.isSome_iff_exists.mp (h.listed _ List.mem_cons_self) with ⟨ch, hch⟩
  have hch : c.manager.lookup cid = some ch := hch
  rcases ht.managed cid ch hch with ⟨hlt', hcid'⟩
  have hquery : req.isQuery = query := congrArg (fun x : Bool × String × String => x.1) hask
  have hrid : req.rid = rid := congrArg (fun x : Bool × String × String => x.2.1) hask
  have hcid : req.cid = cid := congrArg (fun x : Bool × String × String => x.2.2) hask
  have hsame : ch = caller.channel := by
    refine ht.distinct ch caller.channel hlt' hlt ?_
    rw [hcid', ← hown, hrequest, hcid]
  have hsound : (c.onResponse resp).rendezvous.Sound Answers := by
    rw [onResponse_answer hans, commonResponse]
    dsimp only
    rw [hch, ← hrid]
    have hout : req.rid ∈ c.outstanding := hrid ▸ UMap.mem_of_lookup hreq
    refine h.sound.step (step_rendezvous_push h.sound hout ?_ ?_)
    · rw [hrid, hwaiting, hsame]
    · rw [hans, hquery, hrid, hcid]
  have heq : c.onResponse resp = { c with outstanding := c.outstanding.erase rid }.pushBasicResponse ch resp := by
    rw [onResponse_answer hans, commonResponse]
    dsimp only
    rw [hch]
  rw [heq, pushBasicResponse_eq hans] at hsound ⊢
  refine h.update hsound rfl rfl (cid_setChannel _ _ _) (made_notify ch) (fun k hk => ?_) ⟨[(query, rid, cid)], rfl⟩
  rcases AList.mem_erase.mp hk with ⟨hne, hk⟩
  rcases h.awaited k hk with ⟨x, hx, hxrid⟩
  rcases List.mem_cons.mp hx with rfl | hx
  · exact absurd hxrid.symm hne
  · exact ⟨x, hx, hxrid⟩

/-- A pushed message arrives. -/
theorem pushed (h : c.Orderly flight reqs live) {resp : Response} (hans : resp.answers = none) :
    (c.onResponse resp).Orderly flight reqs live := by
  cases resp with
  | basicConsumeResponse cid consumerTag body properties =>
    exact h.update h.sound rfl rfl (fun _ => rfl) (fun _ => rfl) h.awaited ⟨[], rfl⟩
  | _ => cases hans

theorem start : ({} : Client).Orderly [] [] live := by
  refine ⟨sound_start, ?_, ?_, ?_, ?_, ?_, ?_, ?_, ?_⟩
  · exact fun rid hrid => absurd hrid (AList.notMem_empty rid)
  · exact fun x hx => absurd hx List.not_mem_nil
  · intro rid caller hcaller
    cases hcaller
  · intro rid caller hcaller
    cases hcaller
  · intro rid caller rid' caller' hcaller
    cases hcaller
  · exact fun req hreq => absurd hreq List.not_mem_nil
  · exact fun ch hch => absurd hch List.not_mem_nil
  · intro rid caller hcaller
    cases hcaller

end Orderly
end Client

/-! ### The channels of one connection at the server -/

theorem Registry.channelAt_kept {r : Registry} {op : RegistryOp} {conn : ConnRef} {cid : String}
    (hdisconnect : op ≠ .disconnect conn) (hopen : ∀ cid', op ≠ .openChannel conn cid')
    (hclose : op ≠ .closeChannel conn cid) : (r.apply op).channelAt conn cid = r.channelAt conn cid := by
  rw [channelAt_apply]
  cases op with
  | disconnect conn' =>
    refine if_neg ?_
    rintro rfl
    exact hdisconnect rfl
  | openChannel conn' cid' =>
    refine if_neg ?_
    rintro ⟨rfl, -⟩
    exact hopen cid' rfl
  | closeChannel conn' cid' =>
    refine if_neg ?_
    rintro ⟨rfl, rfl⟩
    exact hclose rfl
  | _ => rfl

namespace Sys
variable {pb : PayloadCodec} {s s' : Sys} {act : Act} {conn : ConnRef} {req : Request} {cid : String}

variable (pb s conn) in
/-- A request on a channel makes or closes no channel. -/
theorem registryOp_request (hopens : req.opens = false) (hcloses : req.closes = false) (conn' : ConnRef) :
    s.registryOp pb (.request conn' req) ≠ .disconnect conn ∧
      (∀ cid', s.registryOp pb (.request conn' req) ≠ .openChannel conn cid') ∧
      ∀ cid', s.registryOp pb (.request conn' req) ≠ .closeChannel conn cid' := by
  cases req with
  | openChannel req => cases hopens
  | closeChannel req => cases hcloses
  | declareQueue req =>
    simp only [registryOp, channelOp]
    split
    · refine ⟨fun h => ?_, fun _ h => ?_, fun _ h => ?_⟩ <;> cases h
    · split <;> refine ⟨fun h => ?_, fun _ h => ?_, fun _ h => ?_⟩ <;> cases h
  | basicConsume req =>
    simp only [registryOp, channelOp]
    split
    · refine ⟨fun h => ?_, fun _ h => ?_, fun _ h => ?_⟩ <;> cases h
    · split <;> refine ⟨fun h => ?_, fun _ h => ?_, fun _ h => ?_⟩ <;> cases h
  | _ =>
    simp only [registryOp, channelOp]
    split <;> refine ⟨fun h => ?_, fun _ h => ?_, fun _ h => ?_⟩ <;> cases h

/-- What happens on other connections leaves the channels of this one as they are. -/
theorem channelAt_apart (hstep : s.step pb act = some s') (hrestart : act ≠ .restart)
    (hrequest : ∀ conn' req, act = .request conn' req → conn' ≠ conn) (hkept : act ≠ .disconnect conn) :
    s'.broker.registry.channelAt conn cid = s.broker.registry.channelAt conn cid := by
  rw [registry_step hstep hrestart]
  cases act with
  | disconnect conn' =>
    refine Registry.channelAt_kept (fun heq => ?_) (fun _ heq => ?_) fun heq => ?_
    · cases heq
      exact hkept rfl
    · cases heq
    · cases heq
  | request conn' req =>
    have hne := hrequest conn' req rfl
    cases hopens : req.opens with
    | true =>
      cases req with
      | openChannel req =>
        refine Registry.channelAt_kept (fun heq => ?_) (fun cid' heq => ?_) fun heq => ?_
        · cases heq
        · cases heq
          exact hne rfl
        · cases heq
      | _ => cases hopens
    | false =>
      cases hcloses : req.closes with
      | true =>
        cases req with
        | closeChannel req =>
          refine Registry.channelAt_kept (fun heq => ?_) (fun _ heq => ?_) fun heq => ?_
          · cases heq
          · cases heq
          · cases heq
            exact hne rfl
        | _ => cases hcloses
      | false =>
        rcases registryOp_request pb s conn hopens hcloses conn' with ⟨h₁, h₂, h₃⟩
        exact Registry.channelAt_kept h₁ h₂ (h₃ cid)
  | work =>
    simp only [registryOp]
    split <;> refine Registry.channelAt_kept (fun h => ?_) (fun _ h => ?_) (fun h => ?_) <;> cases h
  | _ => refine Registry.channelAt_kept (fun h => ?_) (fun _ h => ?_) (fun h => ?_) <;> cases h

/-- A request closes at most the channel that it names. -/
theorem channelAt_request (hstep : s.step pb (.request conn req) = some s')
    (hlive : (s.broker.registry.channelAt conn cid).isSome) (hcid : req.closes = false ∨ cid ≠ req.cid) :
    (s'.broker.registry.channelAt conn cid).isSome := by
  rw [registry_step hstep fun h => Act.noConfusion h]
  cases hopens : req.opens with
  | true =>
    cases req with
    | openChannel req =>
      rw [Registry.channelAt_apply, registryOp]
      dsimp only
      split
      · rfl
      · exact hlive
    | _ => cases hopens
  | false =>
    cases hcloses : req.closes with
    | true =>
      cases req with
      | closeChannel req =>
        rw [Registry.channelAt_apply, registryOp]
        dsimp only
        rw [if_neg]
        · exact hlive
        · rintro ⟨-, heq⟩
          rw [hcloses] at hcid
          exact hcid.resolve_left (fun h => Bool.noConfusion h) heq
      | _ => cases hcloses
    | false =>
      rcases registryOp_request pb s conn hopens hcloses conn with ⟨h₁, h₂, h₃⟩
      rw [Registry.channelAt_kept h₁ h₂ (h₃ cid)]
      exact hlive

theorem channelAt_open (hstep : s.step pb (.request conn req) = some s') (hconn : conn ∈ s.broker.conns)
    (hopens : req.opens = true) : (s'.broker.registry.channelAt conn req.cid).isSome := by
  rw [registry_step hstep fun h => Act.noConfusion h]
  cases req with
  | openChannel req =>
    rw [Registry.channelAt_apply, registryOp]
    dsimp only
    split
    · rfl
    · next hnot =>
      have hconn : conn ∈ s.broker.registry.conns := hconn
      rw [Option.isSome_iff_ne_none]
      exact fun hnone => hnot ⟨rfl, rfl, hconn, hnone⟩
  | _ => cases hopens

end Sys

/-! ### Both sides -/

namespace Link
variable {pb : PayloadCodec} {l l' : Link} {registered : List BasicConsumeRequest} {reqs : List Request}
  {resps : List Response} {act : LinkAct}

/-- Of the user only this is asked: no method of a channel is called that is closed or that a thread is closing. -/
def orderly (l : Link) : LinkAct → Bool
  | .client act => l.client.orderly act
  | _ => true

/-- The requests whose responses are to come, in the order of the responses. -/
def flight (l : Link) : List (Bool × String × String) :=
  l.arriving.filterMap Response.answers ++ (of l.conn l.flow.sys.due ++ l.requests.map Request.ask)

/-- The server knows the channel. -/
def live (l : Link) (cid : String) : Prop := (l.flow.sys.broker.registry.channelAt l.conn cid).isSome

def InOrder (l : Link) : Prop := l.client.Orderly l.flight l.requests l.live

theorem forall₂_requests (reqs : List Request) :
    List.Forall₂ Request.Same ((reqs.map Request.frame).filterMap fun frame => Request.parse frame.1 frame.2) reqs := by
  induction reqs with
  | nil => exact .nil
  | cons req reqs ih =>
    rcases req.parse_frame with ⟨req', hparse, hsame⟩
    rw [List.map_cons, List.filterMap_cons, hparse]
    exact .cons hsame ih

theorem map_ask {reqs reqs' : List Request} (h : List.Forall₂ Request.Same reqs reqs') :
    reqs.map Request.ask = reqs'.map Request.ask := by
  induction h with
  | nil => rfl
  | cons hsame _ ih => rw [List.map_cons, hsame.ask, ih, List.map_cons]

theorem Joined.same (hl : l.Joined registered reqs resps) : List.Forall₂ Request.Same l.requests reqs := by
  rw [requests, hl.up]
  exact forall₂_requests reqs

theorem Joined.flight_eq (hl : l.Joined registered reqs resps) : l.flight = l.pipe reqs resps := by
  rw [flight, pipe, arriving_eq hl.down, map_ask hl.same]

theorem Joined.mem_outstanding (hl : l.Joined registered reqs resps) {x : Bool × String × String} (hx : x ∈ l.flight) :
    x.2.1 ∈ l.client.outstanding := by
  rw [hl.flight_eq] at hx
  rcases hl.asked x hx with ⟨req, hreq, -⟩
  exact UMap.mem_of_lookup hreq

theorem inOrder_serve {req : Request} {up : List Frame} (hl : l.Joined registered reqs resps) (ht : l.client.Tied)
    (ho : l.InOrder) (hrequests : l.requests = req :: requests { l with up })
    (hstep : serverStep pb { l with up } (.request l.conn req) = some l') : l'.InOrder := by
  have hsame := hl.same
  rw [hrequests] at hsame
  rcases List.forall₂_cons_left_iff.mp hsame with ⟨sent, reqs, hsent, -, rfl⟩
  have hask : req.ask = sent.ask := hsent.ask
  have hrid : req.rid = sent.rid := congrArg (fun x : Bool × String × String => x.2.1) hask
  have hcid : req.cid = sent.cid := congrArg (fun x : Bool × String × String => x.2.2) hask
  rcases ht.caller_of_outstanding ho.sound (hl.requested sent List.mem_cons_self) with ⟨caller, hcaller, hrequest, -, -⟩
  have hconn : l.conn ∈ l.flow.sys.broker.conns := by
    refine hl.connected ?_
    by_contra hnot
    exact List.cons_ne_nil _ _ (hl.idle (Bool.eq_false_iff.mpr hnot))
  rcases serverStep_arriving hl hstep (fun h => Act.noConfusion h) with ⟨flow, down, new, hflow, -, hasked, rfl, harriving⟩
  have hsys := (Flow.step_eq hflow fun h => Act.noConfusion h).1
  have hdue : of l.conn l.flow.sys.due = [] := by
    have hloop := hsys
    simp only [Sys.step, Option.ite_none_left_eq_some] at hloop
    rw [Sys.due, Option.not_isSome_iff_eq_none.mp hloop.1]
    rfl
  have hready : req.opens = false → req.closes = false → (l.flow.sys.broker.registry.channelAt l.conn req.cid).isSome :=
    ho.ready req (hrequests ▸ List.mem_cons_self)
  have hserves : l.flow.sys.serves (.request l.conn req) = true := by
    cases req with
    | openChannel req => rfl
    | closeChannel req => rfl
    | _ =>
      simp only [Sys.serves, Bool.or_eq_true]
      exact Or.inr (hready rfl rfl)
  have hasks : of l.conn (if l.flow.sys.serves (.request l.conn req) then l.flow.sys.asks (.request l.conn req) else []) =
      [req.ask] := by
    rw [if_pos hserves, Sys.asks, if_pos hconn, of_cons_self, of_nil]
    rfl
  rw [hdue, hasks, List.nil_append] at hasked
  have hflight : flight { l with flow, up, down } = l.flight := by
    rw [flight, harriving, List.filterMap_append, List.append_assoc, ← List.append_assoc (List.filterMap _ (of l.conn new))]
    dsimp only
    rw [hasked, flight, hdue, hrequests, List.nil_append, List.map_cons, List.singleton_append]
    rfl
  rw [InOrder, hflight]
  have hnodup := hl.nodup
  rw [← hl.flight_eq] at hnodup
  have hbefore : l.client.Orderly l.flight (req :: requests { l with up }) l.live := hrequests ▸ ho
  have hcaller : l.client.callers.lookup req.rid = some caller := hrid ▸ hcaller
  refine hbefore.served ht hcaller ?_ ?_ (l.arriving.filterMap Response.answers) ?_ hnodup
    (fun cid hlive hne => Sys.channelAt_request hsys hlive hne) (fun hopens => Sys.channelAt_open hsys hconn hopens)
  · rw [hrequest, hcid]
  · rw [hrequest]
    exact ⟨hsent.opens.1.symm, hsent.opens.2.symm⟩
  · rw [flight, hdue, hrequests, List.nil_append]

theorem inOrder_step (hl : l.Joined registered reqs resps) (ht : l.client.Tied) (ho : l.InOrder)
    (horderly : l.orderly act = true) (hstep : l.step pb act = some l') : l'.InOrder := by
  cases step_side hl hstep with
  | @apart _ sact connected l₁ _ _ hrestart hrequest hkept hl₁ =>
    have hl₁ : serverStep pb { l with up := l.up } sact = some l₁ := hl₁
    rcases serverStep_arriving hl hl₁ hrestart with ⟨flow, down, new, hflow, -, hasked, rfl, harriving⟩
    have hnone : of l.conn (if l.flow.sys.serves sact then l.flow.sys.asks sact else []) = [] := by
      split
      · exact Sys.of_asks_ne hrequest
      · rfl
    rw [hnone, List.append_nil] at hasked
    have hflight : flight { l with flow, connected, down } = l.flight := by
      have harriving : arriving { l with flow, connected, down } = l.arriving ++ of l.conn new := harriving
      rw [flight, harriving, List.filterMap_append, List.append_assoc, ← List.append_assoc (List.filterMap _ (of l.conn new))]
      dsimp only
      rw [hasked]
      rfl
    rw [InOrder, hflight]
    refine ho.mono fun cid hlive => ?_
    have hlive : (l.flow.sys.broker.registry.channelAt l.conn cid).isSome := hlive
    rw [← Sys.channelAt_apart (Flow.step_eq hflow hrestart).1 hrestart hrequest hkept] at hlive
    exact hlive
  | serve hrequests hl₁ => exact inOrder_serve hl ht ho hrequests hl₁
  | @client act' client hown hclient =>
    have hnew := forall₂_requests (l.client.sends act').toList
    have hmap : (l.client.sends act').toList.map Request.frame = ((l.client.sends act').map Request.frame).toList := by
      cases l.client.sends act' with
      | none => rfl
      | some req => rfl
    have hreqs : ∀ req ∈ l.requests, req.rid ∈ l.client.outstanding := fun req hreq =>
      hl.mem_outstanding (List.mem_append_right _ (List.mem_append_right _ (List.mem_map_of_mem hreq)))
    have hclient' := ho.own ht hown horderly hclient (fun x hx => hl.mem_outstanding hx) hreqs hnew
    have hrequests : requests { l with client, up := l.up ++ ((l.client.sends act').map Request.frame).toList } =
        l.requests ++ ((l.client.sends act').toList.map Request.frame).filterMap fun frame =>
          Request.parse frame.1 frame.2 := by
      rw [requests, List.filterMap_append, hmap, requests]
    have hflight : flight { l with client, up := l.up ++ ((l.client.sends act').map Request.frame).toList } =
        l.flight ++ (l.client.sends act').toList.map Request.ask := by
      rw [flight, hrequests, List.map_append, map_ask hnew, flight, List.append_assoc, List.append_assoc]
      rfl
    rw [InOrder, hflight, hrequests]
    exact hclient'
  | @hear resp down harriving =>
    cases hans : resp.answers with
    | none =>
      have hflight : flight { l with down, client := l.client.onResponse resp } = l.flight := by
        rw [flight, flight, harriving, List.filterMap_cons_none hans]
        rfl
      rw [InOrder, hflight]
      exact ho.pushed hans
    | some ask =>
      rcases ask with ⟨query, rid, cid⟩
      have hflight : l.flight = (query, rid, cid) :: flight { l with down, client := l.client.onResponse resp } := by
        rw [flight, harriving, List.filterMap_cons_some hans]
        rfl
      rcases hl.asked (query, rid, cid) (hl.flight_eq ▸ hflight ▸ List.mem_cons_self) with ⟨req, hreq, hask⟩
      have hbefore : l.client.Orderly ((query, rid, cid) :: flight { l with down, client := l.client.onResponse resp })
          l.requests l.live := hflight ▸ ho
      exact hbefore.heard ht hreq hask hans

/-- What holds in every state of an orderly run. -/
structure Sane (l : Link) : Prop where
  joined : ∃ registered reqs resps, l.Joined registered reqs resps
  carries : l.Carries
  inOrder : l.InOrder

theorem sane_step (hl : l.Sane) (horderly : l.orderly act = true) (hstep : l.step pb act = some l') : l'.Sane := by
  rcases hl.joined with ⟨registered, reqs, resps, hjoined⟩
  rcases joined_step hjoined hstep with ⟨registered', reqs', resps', hjoined', -⟩
  exact ⟨⟨registered', reqs', resps', hjoined'⟩, carries_step hjoined hl.carries hstep,
    inOrder_step hjoined hl.carries.client.tied hl.inOrder horderly hstep⟩

theorem sane_start {basedir : String} {d : Disk} {db : Db} {s : Sys} (hboot : Sys.boot pb basedir d db = some s)
    (conn : ConnRef) : (start s conn).Sane := by
  refine ⟨⟨[], [], [], joined_start hboot conn⟩, carries_start hboot conn, ?_⟩
  have hdue : s.due = [] := by
    rw [Sys.due, (Sys.boot_registry hboot).2.2.1]
    rfl
  have hflight : (start s conn).flight = [] := by
    rw [flight, start, Flow.start, hdue]
    rfl
  rw [InOrder, hflight]
  exact Client.Orderly.start

theorem sane_run {basedir : String} {d : Disk} {db : Db} {s : Sys} {conn : ConnRef} {acts : List LinkAct}
    (hboot : Sys.boot pb basedir d db = some s) (horderly : Lib.always (step pb) orderly (start s conn) acts = true)
    (hrun : Lib.run (step pb) (start s conn) acts = some l) : l.Sane :=
  Lib.run_induct_of_always (fun _ _ _ hl hstep horderly => sane_step hl horderly hstep) (sane_start hboot conn) horderly acts l
    (List.prefix_refl _) hrun

theorem Sane.asleep (hl : l.Sane) {rid : String} {caller : Caller} (hcaller : l.client.callers.lookup rid = some caller)
    (hasleep : caller.phase = .asleep) : ∃ x ∈ l.flight, x.2.1 = rid := by
  refine hl.inOrder.awaited rid ?_
  by_contra hout
  have hmatched := Client.matched_of_sound hl.carries.client.tied hl.inOrder.sound
  have hphase := (hmatched.served rid caller hcaller (fun resp heq => ?_) hout).1
  · rw [hasleep] at hphase
    cases hphase
  · rw [hasleep] at heq
    cases heq

/-- If no method is called on a channel that is closed or being closed, each thread gets the response to its own request
    and finds it when it has come, and a thread that sleeps waits for a response that is on its way, or that the server
    owes, or whose request is on its way. -/
theorem run_orderly {basedir : String} {d : Disk} {db : Db} {s : Sys} {conn : ConnRef} {acts : List LinkAct}
    (hboot : Sys.boot pb basedir d db = some s) (horderly : Lib.always (step pb) orderly (start s conn) acts = true)
    (hrun : Lib.run (step pb) (start s conn) acts = some l) :
    l.client.Matched ∧ ∀ rid caller, l.client.callers.lookup rid = some caller → caller.phase = .asleep →
      ∃ x ∈ l.flight, x.2.1 = rid := by
  have hl := sane_run hboot horderly hrun
  exact ⟨Client.matched_of_sound hl.carries.client.tied hl.inOrder.sound, fun rid caller => hl.asleep⟩

/-! ### Nobody sleeps for ever -/

/-- The acts that move a message on. -/
def moves : LinkAct → Bool
  | .serve => true
  | .hear => true
  | .server (.publish _) => true
  | _ => false

theorem orderly_of_moves (hmoves : moves act = true) : l.orderly act = true := by
  cases act with
  | client act => cases hmoves
  | _ => rfl

/-- A run of such acts. -/
def Drains (pb : PayloadCodec) (l l' : Link) : Prop :=
  ∃ acts, Lib.run (step pb) l acts = some l' ∧ ∀ act ∈ acts, moves act = true

namespace Drains

theorem refl (l : Link) : Drains pb l l := ⟨[], rfl, List.forall_mem_nil _⟩

theorem cons {l₁ : Link} (hmoves : moves act = true) (hstep : l.step pb act = some l₁) (h : Drains pb l₁ l') :
    Drains pb l l' := by
  rcases h with ⟨acts, hrun, hall⟩
  exact ⟨act :: acts, (Lib.run_cons hstep).trans hrun, List.forall_mem_cons.mpr ⟨hmoves, hall⟩⟩

theorem trans {l₁ : Link} (h₁ : Drains pb l l₁) (h : Drains pb l₁ l') : Drains pb l l' := by
  rcases h₁ with ⟨acts₁, hrun₁, hall₁⟩
  rcases h with ⟨acts, hrun, hall⟩
  refine ⟨acts₁ ++ acts, (Lib.run_append hrun₁).trans hrun, fun act hact => ?_⟩
  exact (List.mem_append.mp hact).elim (hall₁ act) (hall act)

theorem sane (h : Drains pb l l') (hl : l.Sane) : l'.Sane := by
  rcases h with ⟨acts, hrun, hall⟩
  induction acts generalizing l with
  | nil =>
    cases hrun
    exact hl
  | cons act acts ih =>
    rw [List.forall_mem_cons] at hall
    rcases Lib.run_cons_eq_some hrun with ⟨l₁, hstep, hrun⟩
    exact ih (sane_step hl (orderly_of_moves hall.1) hstep) hrun hall.2

end Drains

variable (pb) in
theorem exists_publish {p : Publishing} (hloop : l.flow.sys.loop = some p) : ∃ l', l.step pb (.server (.publish "")) = some l' ∧
    l'.flow.sys = l.flow.sys.publishStep pb p "" ∧ l'.up = l.up := by
  have hsys : l.flow.sys.step pb (.publish "") = some (l.flow.sys.publishStep pb p "") := by
    rw [Sys.step, hloop, Option.map_some]
  simp only [step, apart, if_true, serverStep, Flow.step, hsys]
  exact ⟨_, rfl, rfl, rfl⟩

variable (pb) in
/-- The server comes to the end of the loop of `basic_publish`. -/
theorem drains_loop : ∀ (n : Nat) (l : Link),
    (∀ p, l.flow.sys.loop = some p → 2 * p.rest.length + (!p.stored).toNat < n) →
    ∃ l', Drains pb l l' ∧ l'.flow.sys.loop = none ∧ l'.up = l.up := by
  intro n
  induction n with
  | zero =>
    intro l hn
    refine ⟨l, .refl l, Option.eq_none_iff_forall_ne_some.mpr fun p hp => ?_, rfl⟩
    exact absurd (hn p hp) (Nat.not_lt_zero _)
  | succ n ih =>
    intro l hn
    cases hloop : l.flow.sys.loop with
    | none => exact ⟨l, .refl l, hloop, rfl⟩
    | some p =>
      have hlt := hn p hloop
      rcases exists_publish pb hloop with ⟨l₁, hstep, hsys, hup⟩
      have hless : ∀ p₁, l₁.flow.sys.loop = some p₁ → 2 * p₁.rest.length + (!p₁.stored).toNat < n := by
        intro p₁ hp₁
        rw [hsys, Sys.publishStep] at hp₁
        cases hrest : p.rest with
        | nil =>
          rw [hrest] at hp₁
          cases hp₁
        | cons qname rest =>
          rw [hrest, List.length_cons] at hlt
          simp only [hrest] at hp₁
          cases hstored : p.stored with
          | true =>
            rw [hstored] at hlt hp₁
            cases hp₁
            simp only [Bool.not_true, Bool.not_false, Bool.toNat_true, Bool.toNat_false] at hlt ⊢
            omega
          | false =>
            rw [hstored] at hlt hp₁
            cases hp₁
            simp only [Bool.not_true, Bool.not_false, Bool.toNat_true, Bool.toNat_false, List.length_cons] at hlt ⊢
            omega
      rcases ih l₁ hless with ⟨l', hdrains, hloop', hup'⟩
      exact ⟨l', .cons rfl hstep hdrains, hloop', hup'.trans hup⟩

variable (pb) in
/-- Everything that is on its way to the client arrives. -/
theorem drains_down : ∀ (down : List Frame) (l : Link), l.down = down →
    ∃ l', Drains pb l l' ∧ l'.down = [] ∧ l'.up = l.up ∧ l'.flow = l.flow := by
  intro down
  induction down with
  | nil => exact fun l hdown => ⟨l, .refl l, hdown, rfl, rfl⟩
  | cons frame down ih =>
    intro l hdown
    have hhear : ∃ l₁, l.step pb .hear = some l₁ ∧ l₁.down = down ∧ l₁.up = l.up ∧ l₁.flow = l.flow := by
      simp only [step, hdown, hear]
      cases Response.parse frame.1 frame.2 with
      | none => exact ⟨_, rfl, rfl, rfl, rfl⟩
      | some resp => exact ⟨_, rfl, rfl, rfl, rfl⟩
    rcases hhear with ⟨l₁, hstep, hdown₁, hup, hflow⟩
    rcases ih l₁ hdown₁ with ⟨l', hdrains, hdown', hup', hflow'⟩
    exact ⟨l', .cons rfl hstep hdrains, hdown', hup'.trans hup, hflow'.trans hflow⟩

/-- The server aborts in the next request of the connection. -/
def Aborts (pb : PayloadCodec) (l : Link) : Prop :=
  ∃ req rest, l.requests = req :: rest ∧ l.flow.sys.loop = none ∧ l.flow.sys.step pb (.request l.conn req) = none

theorem aborts_of_step (hl : l.Joined registered reqs resps) (hup : l.up ≠ []) (hloop : l.flow.sys.loop = none)
    (hstep : l.step pb .serve = none) : l.Aborts pb := by
  cases reqs with
  | nil => exact absurd hl.up hup
  | cons req reqs =>
    have hup : l.up = req.frame :: reqs.map Request.frame := hl.up
    have hconnected : l.connected = true := by
      by_contra hnot
      exact List.cons_ne_nil _ _ (hl.idle (Bool.eq_false_iff.mpr hnot))
    rcases req.parse_frame with ⟨req', hparse, -⟩
    refine ⟨req', requests { l with up := reqs.map Request.frame }, ?_, hloop, ?_⟩
    · rw [requests, hup, List.filterMap_cons, hparse]
      rfl
    · simp only [step, hup, serve, hparse, if_pos (hl.connected hconnected), serverStep, Flow.step] at hstep
      split at hstep
      · next hnone =>
        split at hnone
        · assumption
        · cases hnone
      · cases hstep

theorem up_serve {frame : Frame} (h : l.serve pb frame = some l') : l'.up = l.up := by
  have hserver : ∀ act, l.serverStep pb act = some l' → l'.up = l.up := by
    intro act hact
    unfold serverStep at hact
    split at hact
    · cases hact
    · cases hact
      rfl
  unfold serve at h
  split at h
  · cases h
    rfl
  · split at h
    · exact hserver _ h
    · cases h
      rfl

variable (pb) in
/-- Everything that is under way comes to its end, unless the server aborts. -/
theorem drains_up : ∀ (n : Nat) (l : Link), l.up.length < n → l.Sane →
    ∃ l', Drains pb l l' ∧ ((l'.up = [] ∧ l'.flow.sys.loop = none ∧ l'.down = []) ∨ l'.Aborts pb) := by
  intro n
  induction n with
  | zero => exact fun l hn => absurd hn (Nat.not_lt_zero _)
  | succ n ih =>
    intro l hn hl
    have hsize : ∃ size, ∀ p, l.flow.sys.loop = some p → 2 * p.rest.length + (!p.stored).toNat < size := by
      cases l.flow.sys.loop with
      | none =>
        refine ⟨0, fun _ h => ?_⟩
        cases h
      | some p =>
        refine ⟨2 * p.rest.length + (!p.stored).toNat + 1, fun p' hp' => ?_⟩
        cases hp'
        exact Nat.lt_succ_self _
    rcases hsize with ⟨size, hsize⟩
    rcases drains_loop pb size l hsize with ⟨l₁, hdrains₁, hloop₁, hup₁⟩
    have hl₁ := hdrains₁.sane hl
    cases hup : l₁.up with
    | nil =>
      rcases drains_down pb l₁.down l₁ rfl with ⟨l₂, hdrains₂, hdown₂, hup₂, hflow₂⟩
      refine ⟨l₂, hdrains₁.trans hdrains₂, Or.inl ⟨hup₂.trans hup, ?_, hdown₂⟩⟩
      rw [hflow₂]
      exact hloop₁
    | cons frame up =>
      cases hstep : l₁.step pb .serve with
      | none =>
        rcases hl₁.joined with ⟨registered, reqs, resps, hjoined⟩
        exact ⟨l₁, hdrains₁, Or.inr (aborts_of_step hjoined (hup ▸ List.cons_ne_nil _ _) hloop₁ hstep)⟩
      | some l₂ =>
        have hup₂ : l₂.up = up := by
          simp only [step, hup] at hstep
          exact up_serve hstep
        have hshorter : l₂.up.length < n := by
          rw [← hup₁, hup, List.length_cons] at hn
          rw [hup₂]
          omega
        rcases ih l₂ hshorter (sane_step hl₁ rfl hstep) with ⟨l', hdrains, hend⟩
        exact ⟨l', hdrains₁.trans (.cons rfl hstep hdrains), hend⟩

/-- If no method is called on a channel that is closed or being closed, no thread sleeps for ever: the messages that are
    under way need only be moved on, unless the server aborts in one of the requests. -/
theorem run_drains {basedir : String} {d : Disk} {db : Db} {s : Sys} {conn : ConnRef} {acts : List LinkAct}
    (hboot : Sys.boot pb basedir d db = some s) (horderly : Lib.always (step pb) orderly (start s conn) acts = true)
    (hrun : Lib.run (step pb) (start s conn) acts = some l) :
    ∃ l', Drains pb l l' ∧ (l'.Aborts pb ∨
      ∀ rid caller, l'.client.callers.lookup rid = some caller → caller.phase ≠ .asleep) := by
  have hl := sane_run hboot horderly hrun
  rcases drains_up pb _ l (Nat.lt_succ_self _) hl with ⟨l', hdrains, ⟨hup, hloop, hdown⟩ | haborts⟩
  · refine ⟨l', hdrains, Or.inr fun rid caller hcaller hasleep => ?_⟩
    rcases (hdrains.sane hl).asleep hcaller hasleep with ⟨x, hx, -⟩
    have hflight : l'.flight = [] := by
      rw [flight, arriving, requests, hup, hdown, Sys.due, hloop]
      rfl
    rw [hflight] at hx
    cases hx
  · exact ⟨l', hdrains, Or.inl haborts⟩

theorem run_orderly_linked : ∃ (s : Sys) (l : Link), Sys.boot protobuf "data" Store.vacant {} = some s ∧
    Lib.run (step protobuf) (start s 1) linked = some l ∧ l.client.returned.length = 6 ∧ l.client.Matched ∧
    ∀ rid caller, l.client.callers.lookup rid = some caller → caller.phase = .asleep → ∃ x ∈ l.flight, x.2.1 = rid := by
  have horderly : (Sys.boot protobuf "data" Store.vacant {}).all (fun s =>
      Lib.always (step protobuf) orderly (start s 1) linked) = true := by
    decide +kernel
  rcases run_linked with ⟨s, l, hboot, hl, hreturned, -⟩
  rw [hboot, Option.all_some] at horderly
  exact ⟨s, l, hboot, hl, hreturned, run_orderly hboot horderly hl⟩

/-- A thread has asked for the queues and sleeps, and another closes the channel. -/
def sleeping : List LinkAct :=
  [.connect, .client (.openChannel "c" "1"), .serve, .hear, .client (.wait "1"), .client (.finish "1"),
    .client (.call 0 "2" .basicQuery), .client (.wait "2"), .client (.call 0 "3" .closeServerChannel)]

theorem run_drains_sleeping : ∃ (s : Sys) (l l' : Link), Sys.boot protobuf "data" Store.vacant {} = some s ∧
    Lib.run (step protobuf) (start s 1) sleeping = some l ∧
    (∃ caller, l.client.callers.lookup "2" = some caller ∧ caller.phase = .asleep) ∧ Drains protobuf l l' ∧
    (l'.Aborts protobuf ∨ ∀ rid caller, l'.client.callers.lookup rid = some caller → caller.phase ≠ .asleep) := by
  have hrun : (Sys.boot protobuf "data" Store.vacant {}).any (fun s =>
      Lib.always (step protobuf) orderly (start s 1) sleeping &&
      (Lib.run (step protobuf) (start s 1) sleeping).any fun l =>
        (l.client.callers.lookup "2").any fun caller => decide (caller.phase = .asleep)) = true := by
    decide +kernel
  rcases (Option.any_eq_true _ _).mp hrun with ⟨s, hboot, hs⟩
  rcases (Bool.and_eq_true _ _).mp hs with ⟨horderly, hs⟩
  rcases (Option.any_eq_true _ _).mp hs with ⟨l, hl, hend⟩
  rcases (Option.any_eq_true _ _).mp hend with ⟨caller, hcaller, hasleep⟩
  rcases run_drains hboot horderly hl with ⟨l', hdrains, hawake⟩
  exact ⟨s, l, l', hboot, hl, ⟨caller, hcaller, of_decide_eq_true hasleep⟩, hdrains, hawake⟩

end Link
end HareMQ
