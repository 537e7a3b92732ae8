import HareMQ.ProtocolWire

/-! # What is sent arrives

A request or a response is read back as it was written, in whatever order its fields arrive, and with any fields of
other versions of the protocol between them. -/

namespace HareMQ
open Lib Wire

/-! ### Messages of one type -/

section
variable {σ μ : Type} {schema : Schema σ} {make : σ → μ} {s : σ} {ps : List Pair}

/-- Legal values, among which those of the message stand in some order. -/
def Carries (schema : Schema σ) (s : σ) (ps : List Pair) : Prop :=
  (∀ p ∈ ps, p.Legal) ∧ ∀ f ∈ schema.fields, (valuesOf f.number ps).Perm (valuesOf f.number (schema.pairs s))

theorem received_encode (hps : Carries schema s ps) :
    ∃ t, received schema make (encodePairs ps) = some (make t) ∧ ∀ f ∈ schema.fields, f.codec.Same (f.get t) (f.get s) := by
  have hvalues : ∀ f ∈ schema.fields, (valuesOf f.number ps).Perm (f.codec.values (f.get s)) := by
    intro f hf
    rw [← Schema.valuesOf_pairs hf s]
    exact hps.2 f hf
  rcases Schema.parse_encode hps.1 hvalues with ⟨t, hparse, hsame⟩
  refine ⟨t, ?_, hsame⟩
  rw [received, hparse]

/-- A message without a map is read back as it was. -/
theorem received_plain (hplain : ∀ f ∈ schema.fields, f.codec.Same = Eq) (hps : Carries schema s ps) :
    received schema make (encodePairs ps) = some (make s) := by
  obtain ⟨t, hreceived, hsame⟩ : ∃ t, received schema make (encodePairs ps) = some (make t) ∧
      ∀ f ∈ schema.fields, f.codec.Same (f.get t) (f.get s) := received_encode hps
  have hts : t = s := schema.ext t s fun f hf => by
    have heq := hsame f hf
    rwa [hplain f hf] at heq
  rw [hreceived, hts]

end

/-- Only the values under the numbers of the fields matter, and not their order. -/
theorem carries_of_perm {σ : Type} {schema : Schema σ} {s : σ} {ps foreign : List Pair}
    (hperm : ps.Perm (schema.pairs s ++ foreign))
    (hforeign : ∀ p ∈ foreign, p.Legal ∧ p.1 ∉ schema.fields.map Field.number) : Carries schema s ps := by
  constructor
  · intro p hp
    rcases List.mem_append.mp (hperm.mem_iff.mp hp) with hp | hp
    · exact Schema.legal_pairs s p hp
    · exact (hforeign p hp).1
  · intro f hf
    have hnone : foreign.filter (·.1 = f.number) = [] := by
      rw [List.filter_eq_nil_iff]
      intro p hp heq
      exact (hforeign p hp).2 (List.mem_map.mpr ⟨f, hf, (of_decide_eq_true heq).symm⟩)
    have hfilter := hperm.filter (·.1 = f.number)
    rw [List.filter_append, hnone, List.append_nil] at hfilter
    exact hfilter.map _

/-! ### Requests -/

namespace Request
variable {req : Request} {ps : List Pair}

theorem parse_encode (hps : Carries req.packed.schema req.packed.value ps) :
    ∃ req', parse req.typeName (encodePairs ps) = some req' ∧ req'.Same req := by
  cases req with
  | declareExchange req =>
    obtain ⟨t, hreceived, hsame⟩ : ∃ t, received DeclareExchangeRequest.schema declareExchange (encodePairs ps) = some (declareExchange t) ∧
        ∀ f ∈ DeclareExchangeRequest.schema.fields, f.codec.Same (f.get t) (f.get req) := received_encode hps
    refine ⟨.declareExchange t, hreceived, ?_⟩
    cases t
    simp only [DeclareExchangeRequest.schema, List.forall_mem_cons, same_stringCodec, same_boolCodec, same_exchangeTypeCodec,
      same_argsCodec] at hsame
    simp [Same, hsame]
  | declareQueue req =>
    obtain ⟨t, hreceived, hsame⟩ : ∃ t, received DeclareQueueRequest.schema declareQueue (encodePairs ps) = some (declareQueue t) ∧
        ∀ f ∈ DeclareQueueRequest.schema.fields, f.codec.Same (f.get t) (f.get req) := received_encode hps
    refine ⟨.declareQueue t, hreceived, ?_⟩
    cases t
    simp only [DeclareQueueRequest.schema, List.forall_mem_cons, same_stringCodec, same_boolCodec, same_argsCodec] at hsame
    simp [Same, hsame]
  | openChannel req => exact ⟨_, received_plain (by simp [OpenChannelRequest.schema]) hps, rfl⟩
  | closeChannel req => exact ⟨_, received_plain (by simp [CloseChannelRequest.schema]) hps, rfl⟩
  | deleteExchange req => exact ⟨_, received_plain (by simp [DeleteExchangeRequest.schema]) hps, rfl⟩
  | deleteQueue req => exact ⟨_, received_plain (by simp [DeleteQueueRequest.schema]) hps, rfl⟩
  | bind req => exact ⟨_, received_plain (by simp [BindRequest.schema]) hps, rfl⟩
  | unbind req => exact ⟨_, received_plain (by simp [UnbindRequest.schema]) hps, rfl⟩
  | basicPublish req => exact ⟨_, received_plain (by simp [BasicPublishRequest.schema]) hps, rfl⟩
  | basicAck req => exact ⟨_, received_plain (by simp [BasicAckRequest.schema]) hps, rfl⟩
  | basicConsume req => exact ⟨_, received_plain (by simp [BasicConsumeRequest.schema]) hps, rfl⟩
  | basicCancel req => exact ⟨_, received_plain (by simp [BasicCancelRequest.schema]) hps, rfl⟩
  | basicQuery req => exact ⟨_, received_plain (by simp [BasicQueryRequest.schema]) hps, rfl⟩

/-- The server gets the request that the client has sent. -/
theorem request_arrives (req : Request) : ∃ req', parse req.typeName req.serialize = some req' ∧ req'.Same req :=
  parse_encode ⟨Schema.legal_pairs _, fun _ _ => List.Perm.refl _⟩

/-- It gets it also when the fields and the entries of a map come in another order, and when fields of other numbers
    stand among them. -/
theorem request_arrives_shuffled {foreign : List Pair} (hperm : ps.Perm (req.pairs ++ foreign))
    (hforeign : ∀ p ∈ foreign, p.Legal ∧ p.1 ∉ req.numbers) :
    ∃ req', parse req.typeName (encodePairs ps) = some req' ∧ req'.Same req :=
  parse_encode (carries_of_perm hperm hforeign)

/-- A binding whose fields come backwards, after two that the server does not know. -/
theorem request_arrives_shuffled_bind : ∃ req', parse (bind ⟨"1", "c", "e", "q", "a.#"⟩).typeName
    (encodePairs ([(9, .fixed32 [1, 2, 3, 4]), (12, .number 5)] ++ (bind ⟨"1", "c", "e", "q", "a.#"⟩).pairs.reverse)) = some req' ∧
      req'.Same (bind ⟨"1", "c", "e", "q", "a.#"⟩) := by
  have hperm : List.Perm ([(9, .fixed32 [1, 2, 3, 4]), (12, .number 5)] ++ (bind ⟨"1", "c", "e", "q", "a.#"⟩).pairs.reverse)
      ((bind ⟨"1", "c", "e", "q", "a.#"⟩).pairs ++ [(9, .fixed32 [1, 2, 3, 4]), (12, .number 5)]) :=
    List.perm_append_comm.trans ((List.reverse_perm _).append_right _)
  refine request_arrives_shuffled hperm ?_
  rw [List.forall_mem_cons, List.forall_mem_singleton]
  exact ⟨⟨⟨Nat.zero_lt_succ _, rfl⟩, by decide⟩, ⟨⟨Nat.zero_lt_succ _, trivial⟩, by decide⟩⟩

end Request

/-! ### Responses -/

namespace Response

theorem parse_encode {resp : Response} {ps : List Pair} (hps : Carries resp.packed.schema resp.packed.value ps) :
    parse resp.typeName (encodePairs ps) = some resp := by
  cases resp with
  | basicCommonResponse rid cid ok =>
    have hcommon : Carries BasicCommonResponse.schema ⟨rid, cid, ok⟩ ps := hps
    exact received_plain (by simp [BasicCommonResponse.schema]) hcommon
  | basicQueryResponse rid cid body =>
    have hquery : Carries BasicQueryResponse.schema ⟨rid, cid, body⟩ ps := hps
    exact received_plain (by simp [BasicQueryResponse.schema]) hquery
  | basicConsumeResponse cid consumerTag body properties =>
    have hconsume : Carries BasicConsumeResponse.schema ⟨cid, consumerTag, body, properties⟩ ps := hps
    exact received_plain (by simp [BasicConsumeResponse.schema]) hconsume

/-- The client gets the response that the server has sent. -/
theorem response_arrives (resp : Response) : parse resp.typeName resp.serialize = some resp :=
  parse_encode ⟨Schema.legal_pairs _, fun _ _ => List.Perm.refl _⟩

end Response
end HareMQ
