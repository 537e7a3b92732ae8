import HareMQ.Codec
import HareMQ.Lib.Record
import HareMQ.Protocol

/-! # Requests and responses on the wire (`mqcommon/protocol.pb.cc`)

The schemas of the generated messages. The entries of a map are messages of their own, in which the key and the value
are always written. -/

namespace HareMQ
open Lib Wire

/-! ### Enums -/

namespace ExchangeType

/-- The enum as the 64-bit number of the wire: a negative one is sign-extended. -/
def toWire : ExchangeType → Nat
  | unknowType => 0
  | direct => 1
  | fanout => 2
  | topic => 3
  | unrecognized value _ => if value.toNat < 2 ^ 31 then value.toNat else value.toNat + (2 ^ 64 - 2 ^ 32)

/-- The cast of the number to the enum, which keeps 32 bits. -/
def ofWire (n : Nat) : ExchangeType :=
  let value := UInt32.ofNat n
  if h : 4 ≤ value then unrecognized value h
  else if value = 0 then unknowType else if value = 1 then direct else if value = 2 then fanout else topic

theorem ofWire_toWire (type : ExchangeType) : ofWire type.toWire = type := by
  cases type with
  | unknowType => rfl
  | direct => rfl
  | fanout => rfl
  | topic => rfl
  | unrecognized value out =>
    have hvalue : UInt32.ofNat (toWire (unrecognized value out)) = value := by
      apply UInt32.toNat_inj.mp
      have := value.toNat_lt
      rw [UInt32.toNat_ofNat']
      simp only [toWire]
      split <;> omega
    unfold ofWire
    simp only [hvalue, out, dif_pos]

end ExchangeType

/-! ### Codecs -/

/-- A string is written unless it is empty, and is read if it is UTF-8. -/
def stringCodec : Wire.Codec String where
  blank := ""
  values s := if s = "" then [] else [.bytes (utf8 s)]
  read
    | s, .bytes bs => readString s bs id
    | s, _ => (true, s)
  sized s v hv := by
    split at hv
    · cases hv
    · rw [List.mem_singleton.mp hv]
      trivial
  restores s vs hvs := by
    by_cases he : s = ""
    · rw [if_pos he, List.perm_nil] at hvs
      exact ⟨"", hvs ▸ rfl, he.symm⟩
    · rw [if_neg he, List.perm_singleton] at hvs
      exact ⟨s, by simp [hvs, readAll, readString, fromUtf8_utf8], rfl⟩

def boolCodec : Wire.Codec Bool where
  blank := false
  values b := if b then [.number 1] else []
  read
    | _, .number n => (true, n ≠ 0)
    | b, _ => (true, b)
  sized b v hv := by
    cases b with
    | false => cases hv
    | true =>
      rw [List.mem_singleton.mp hv]
      trivial
  restores b vs hvs := by
    cases b with
    | false => exact ⟨false, List.perm_nil.mp hvs ▸ rfl, rfl⟩
    | true => exact ⟨true, List.perm_singleton.mp hvs ▸ rfl, rfl⟩

def exchangeTypeCodec : Wire.Codec ExchangeType where
  blank := .unknowType
  values type := if type.toWire = 0 then [] else [.number type.toWire]
  read
    | _, .number n => (true, ExchangeType.ofWire n)
    | type, _ => (true, type)
  sized type v hv := by
    split at hv
    · cases hv
    · rw [List.mem_singleton.mp hv]
      trivial
  restores type vs hvs := by
    by_cases hzero : type.toWire = 0
    · have htype : type = .unknowType := by rw [← type.ofWire_toWire, hzero]; rfl
      rw [if_pos hzero, List.perm_nil] at hvs
      exact ⟨.unknowType, hvs ▸ rfl, htype.symm⟩
    · rw [if_neg hzero, List.perm_singleton] at hvs
      exact ⟨type, by simp [hvs, readAll, ExchangeType.ofWire_toWire], rfl⟩

/-- A submessage is read into the one that is there. -/
def propertiesCodec : Wire.Codec (Option BasicProperties) where
  blank := none
  values bp := bp.toList.map fun bp => .bytes bp.serialize
  read
    | bp, .bytes bs =>
      match (bp.getD {}).parseInto bs with
      | (ok, bp) => (ok, some bp)
    | bp, _ => (true, bp)
  sized bp v hv := by
    rcases List.mem_map.mp hv with ⟨bp, -, rfl⟩
    trivial
  restores bp vs hvs := by
    cases bp with
    | none => exact ⟨none, List.perm_nil.mp hvs ▸ rfl, rfl⟩
    | some bp =>
      have hone : vs = [.bytes bp.serialize] := List.perm_singleton.mp hvs
      exact ⟨some bp, by simp [hone, readAll, BasicProperties.parseInto_serialize], rfl⟩

/-! ### Maps -/

namespace ArgsEntry

/-- The key and the value are written in any case. -/
def serialize (key value : String) : Bytes := bytesField 1 (utf8 key) ++ bytesField 2 (utf8 value)

def readField (entry : String × String) : Nat → Value → Bool × String × String
  | 1, .bytes bs => readString entry bs fun key => (key, entry.2)
  | 2, .bytes bs => readString entry bs fun value => (entry.1, value)
  | _, _ => (true, entry)

def parse (bs : Bytes) : Bool × String × String := readMessage readField bs.length ("", "") bs

theorem parse_serialize (key value : String) : parse (serialize key value) = (true, key, value) := by
  have hlegal : ∀ p ∈ [(1, Value.bytes (utf8 key)), (2, Value.bytes (utf8 value))], Pair.Legal p := by
    intro p hp
    simp only [List.mem_cons, List.not_mem_nil, or_false] at hp
    rcases hp with rfl | rfl <;> exact ⟨Nat.succ_pos _, trivial⟩
  have hencode : serialize key value = encodePairs [(1, .bytes (utf8 key)), (2, .bytes (utf8 value))] := by
    simp [serialize, encodePairs, Value.encode]
  rw [parse, hencode, readMessage_encode readField hlegal (Nat.le_refl _)]
  simp [readAll, readField, readString, fromUtf8_utf8]

end ArgsEntry

/-- A map that is filled with entries, in their order. -/
def refilled (entries : List (Sigma fun _ : String => String)) (m : UMap String String) : UMap String String :=
  entries.foldl (fun m e => m.insert e.1 e.2) m

theorem entries_refilled {entries : List (Sigma fun _ : String => String)} (hnodup : entries.NodupKeys) :
    ∀ {m : UMap String String}, (∀ e ∈ entries, e.1 ∉ m) → (refilled entries m).entries = entries.reverse ++ m.entries := by
  induction entries with
  | nil =>
    intro m _
    rfl
  | cons e entries ih =>
    intro m hfree
    rw [List.nodupKeys_cons] at hnodup
    have hnext : ∀ e' ∈ entries, e'.1 ∉ m.insert e.1 e.2 := by
      intro e' he' hmem
      rcases (AList.mem_insert _).mp hmem with heq | hmem
      · exact hnodup.1 (heq ▸ List.mem_keys_of_mem he')
      · exact hfree e' (List.mem_cons_of_mem _ he') hmem
    have hinsert : (m.insert e.1 e.2).entries = e :: m.entries :=
      AList.entries_insert_of_notMem (hfree e List.mem_cons_self)
    rw [refilled, List.foldl_cons, ← refilled, ih hnodup.2 hnext, hinsert, List.reverse_cons, List.append_assoc]
    rfl

/-- A map that is filled with the entries of another in some order holds the same entries. -/
theorem perm_refilled {m : UMap String String} {entries : List (Sigma fun _ : String => String)}
    (hperm : entries.Perm m.entries) : (refilled entries ∅).entries.Perm m.entries := by
  have hnodup : entries.NodupKeys := (List.perm_nodupKeys hperm).mpr m.nodupKeys
  rw [entries_refilled hnodup fun e _ => AList.notMem_empty e.1]
  have hempty : (∅ : UMap String String).entries = [] := rfl
  rw [hempty, List.append_nil]
  exact (List.reverse_perm _).trans hperm

def argValue (e : Sigma fun _ : String => String) : Value := .bytes (ArgsEntry.serialize e.1 e.2)

/-- A key that arrives again replaces its value. -/
def readArg (m : UMap String String) : Value → Bool × UMap String String
  | .bytes bs =>
    match ArgsEntry.parse bs with
    | (ok, key, value) => (ok, if ok then m.insert key value else m)
  | _ => (true, m)

theorem readAll_readArg (entries : List (Sigma fun _ : String => String)) :
    ∀ m, readAll readArg m (entries.map argValue) = (true, refilled entries m) := by
  induction entries with
  | nil => exact fun _ => rfl
  | cons e entries ih =>
    intro m
    have hread : readArg m (argValue e) = (true, m.insert e.1 e.2) := by
      simp only [readArg, argValue, ArgsEntry.parse_serialize, if_true]
    rw [List.map_cons, readAll, hread]
    exact ih (m.insert e.1 e.2)

/-- The order of the entries is not kept. -/
def argsCodec : Wire.Codec (UMap String String) where
  blank := ∅
  values m := m.entries.map argValue
  read := readArg
  Same m m' := m.entries.Perm m'.entries
  sized m v hv := by
    rcases List.mem_map.mp hv with ⟨e, -, rfl⟩
    trivial
  restores m vs hvs := by
    have hcomp : (Relation.Comp (fun vs es => vs = List.map argValue es) (fun es es' => es.Perm es')) vs m.entries := by
      rw [List.eq_map_comp_perm]
      exact hvs
    rcases hcomp with ⟨es, rfl, hperm⟩
    exact ⟨_, readAll_readArg es ∅, perm_refilled hperm⟩

@[simp] theorem blank_stringCodec : stringCodec.blank = "" := rfl

@[simp] theorem blank_boolCodec : boolCodec.blank = false := rfl

@[simp] theorem blank_exchangeTypeCodec : exchangeTypeCodec.blank = .unknowType := rfl

@[simp] theorem blank_propertiesCodec : propertiesCodec.blank = none := rfl

@[simp] theorem blank_argsCodec : argsCodec.blank = ∅ := rfl

@[simp] theorem same_stringCodec : stringCodec.Same = Eq := rfl

@[simp] theorem same_boolCodec : boolCodec.Same = Eq := rfl

@[simp] theorem same_exchangeTypeCodec : exchangeTypeCodec.Same = Eq := rfl

@[simp] theorem same_propertiesCodec : propertiesCodec.Same = Eq := rfl

@[simp] theorem same_argsCodec : argsCodec.Same = fun m m' => m.entries.Perm m'.entries := rfl

/-! ### Requests -/

def OpenChannelRequest.schema : Schema OpenChannelRequest where
  fields := [
    ⟨1, stringCodec, (·.rid), fun v r => { r with rid := v }⟩,
    ⟨2, stringCodec, (·.cid), fun v r => { r with cid := v }⟩]
  empty := ⟨"", ""⟩

def CloseChannelRequest.schema : Schema CloseChannelRequest where
  fields := [
    ⟨1, stringCodec, (·.rid), fun v r => { r with rid := v }⟩,
    ⟨2, stringCodec, (·.cid), fun v r => { r with cid := v }⟩]
  empty := ⟨"", ""⟩

def DeclareExchangeRequest.schema : Schema DeclareExchangeRequest where
  fields := [
    ⟨1, stringCodec, (·.rid), fun v r => { r with rid := v }⟩,
    ⟨2, stringCodec, (·.cid), fun v r => { r with cid := v }⟩,
    ⟨3, stringCodec, (·.exchangeName), fun v r => { r with exchangeName := v }⟩,
    ⟨4, exchangeTypeCodec, (·.exchangeType), fun v r => { r with exchangeType := v }⟩,
    ⟨5, boolCodec, (·.durable), fun v r => { r with durable := v }⟩,
    ⟨6, boolCodec, (·.autoDelete), fun v r => { r with autoDelete := v }⟩,
    ⟨7, argsCodec, (·.args), fun v r => { r with args := v }⟩]
  empty := ⟨"", "", "", .unknowType, false, false, ∅⟩

def DeleteExchangeRequest.schema : Schema DeleteExchangeRequest where
  fields := [
    ⟨1, stringCodec, (·.rid), fun v r => { r with rid := v }⟩,
    ⟨2, stringCodec, (·.cid), fun v r => { r with cid := v }⟩,
    ⟨3, stringCodec, (·.exchangeName), fun v r => { r with exchangeName := v }⟩]
  empty := ⟨"", "", ""⟩

def DeclareQueueRequest.schema : Schema DeclareQueueRequest where
  fields := [
    ⟨1, stringCodec, (·.rid), fun v r => { r with rid := v }⟩,
    ⟨2, stringCodec, (·.cid), fun v r => { r with cid := v }⟩,
    ⟨3, stringCodec, (·.queueName), fun v r => { r with queueName := v }⟩,
    ⟨4, boolCodec, (·.exclusive), fun v r => { r with exclusive := v }⟩,
    ⟨5, boolCodec, (·.durable), fun v r => { r with durable := v }⟩,
    ⟨6, boolCodec, (·.autoDelete), fun v r => { r with autoDelete := v }⟩,
    ⟨7, argsCodec, (·.args), fun v r => { r with args := v }⟩]
  empty := ⟨"", "", "", false, false, false, ∅⟩

def DeleteQueueRequest.schema : Schema DeleteQueueRequest where
  fields := [
    ⟨1, stringCodec, (·.rid), fun v r => { r with rid := v }⟩,
    ⟨2, stringCodec, (·.cid), fun v r => { r with cid := v }⟩,
    ⟨3, stringCodec, (·.queueName), fun v r => { r with queueName := v }⟩]
  empty := ⟨"", "", ""⟩

def BindRequest.schema : Schema BindRequest where
  fields := [
    ⟨1, stringCodec, (·.rid), fun v r => { r with rid := v }⟩,
    ⟨2, stringCodec, (·.cid), fun v r => { r with cid := v }⟩,
    ⟨3, stringCodec, (·.exchangeName), fun v r => { r with exchangeName := v }⟩,
    ⟨4, stringCodec, (·.queueName), fun v r => { r with queueName := v }⟩,
    ⟨5, stringCodec, (·.bindingKey), fun v r => { r with bindingKey := v }⟩]
  empty := ⟨"", "", "", "", ""⟩

def UnbindRequest.schema : Schema UnbindRequest where
  fields := [
    ⟨1, stringCodec, (·.rid), fun v r => { r with rid := v }⟩,
    ⟨2, stringCodec, (·.cid), fun v r => { r with cid := v }⟩,
    ⟨3, stringCodec, (·.exchangeName), fun v r => { r with exchangeName := v }⟩,
    ⟨4, stringCodec, (·.queueName), fun v r => { r with queueName := v }⟩]
  empty := ⟨"", "", "", ""⟩

def BasicPublishRequest.schema : Schema BasicPublishRequest where
  fields := [
    ⟨1, stringCodec, (·.rid), fun v r => { r with rid := v }⟩,
    ⟨2, stringCodec, (·.cid), fun v r => { r with cid := v }⟩,
    ⟨3, stringCodec, (·.exchangeName), fun v r => { r with exchangeName := v }⟩,
    ⟨4, stringCodec, (·.body), fun v r => { r with body := v }⟩,
    ⟨5, propertiesCodec, (·.properties), fun v r => { r with properties := v }⟩]
  empty := ⟨"", "", "", "", none⟩

def BasicAckRequest.schema : Schema BasicAckRequest where
  fields := [
    ⟨1, stringCodec, (·.rid), fun v r => { r with rid := v }⟩,
    ⟨2, stringCodec, (·.cid), fun v r => { r with cid := v }⟩,
    ⟨3, stringCodec, (·.queueName), fun v r => { r with queueName := v }⟩,
    ⟨4, stringCodec, (·.messageId), fun v r => { r with messageId := v }⟩]
  empty := ⟨"", "", "", ""⟩

def BasicConsumeRequest.schema : Schema BasicConsumeRequest where
  fields := [
    ⟨1, stringCodec, (·.rid), fun v r => { r with rid := v }⟩,
    ⟨2, stringCodec, (·.cid), fun v r => { r with cid := v }⟩,
    ⟨3, stringCodec, (·.consumerTag), fun v r => { r with consumerTag := v }⟩,
    ⟨4, stringCodec, (·.queueName), fun v r => { r with queueName := v }⟩,
    ⟨5, boolCodec, (·.autoAck), fun v r => { r with autoAck := v }⟩]
  empty := ⟨"", "", "", "", false⟩

def BasicCancelRequest.schema : Schema BasicCancelRequest where
  fields := [
    ⟨1, stringCodec, (·.rid), fun v r => { r with rid := v }⟩,
    ⟨2, stringCodec, (·.cid), fun v r => { r with cid := v }⟩,
    ⟨3, stringCodec, (·.consumerTag), fun v r => { r with consumerTag := v }⟩,
    ⟨4, stringCodec, (·.queueName), fun v r => { r with queueName := v }⟩]
  empty := ⟨"", "", "", ""⟩

def BasicQueryRequest.schema : Schema BasicQueryRequest where
  fields := [
    ⟨1, stringCodec, (·.rid), fun v r => { r with rid := v }⟩,
    ⟨2, stringCodec, (·.cid), fun v r => { r with cid := v }⟩]
  empty := ⟨"", ""⟩

/-! ### Responses -/

structure BasicConsumeResponse where
  cid : String
  consumerTag : String
  body : String
  properties : Option BasicProperties
deriving DecidableEq, Repr

structure BasicCommonResponse where
  rid : String
  cid : String
  ok : Bool
deriving DecidableEq, Repr

structure BasicQueryResponse where
  rid : String
  cid : String
  body : String
deriving DecidableEq, Repr

def BasicConsumeResponse.schema : Schema BasicConsumeResponse where
  fields := [
    ⟨1, stringCodec, (·.cid), fun v r => { r with cid := v }⟩,
    ⟨2, stringCodec, (·.consumerTag), fun v r => { r with consumerTag := v }⟩,
    ⟨3, stringCodec, (·.body), fun v r => { r with body := v }⟩,
    ⟨4, propertiesCodec, (·.properties), fun v r => { r with properties := v }⟩]
  empty := ⟨"", "", "", none⟩

def BasicCommonResponse.schema : Schema BasicCommonResponse where
  fields := [
    ⟨1, stringCodec, (·.rid), fun v r => { r with rid := v }⟩,
    ⟨2, stringCodec, (·.cid), fun v r => { r with cid := v }⟩,
    ⟨3, boolCodec, (·.ok), fun v r => { r with ok := v }⟩]
  empty := ⟨"", "", false⟩

def BasicQueryResponse.schema : Schema BasicQueryResponse where
  fields := [
    ⟨1, stringCodec, (·.rid), fun v r => { r with rid := v }⟩,
    ⟨2, stringCodec, (·.cid), fun v r => { r with cid := v }⟩,
    ⟨3, stringCodec, (·.body), fun v r => { r with body := v }⟩]
  empty := ⟨"", "", ""⟩

/-! ### Dispatch -/

/-- A message with its schema, and what it is as one of the messages `μ`. -/
structure Packed (μ : Type) where
  {σ : Type}
  schema : Schema σ
  value : σ
  make : σ → μ

/-- What the callback of a message type gets. `none`: the message is malformed. -/
def received {σ μ : Type} (schema : Schema σ) (make : σ → μ) (bs : Bytes) : Option μ :=
  match schema.parse bs with
  | (true, message) => some (make message)
  | (false, _) => none

namespace Request

/-- The full name of the message type, by which the dispatcher finds the callback. -/
def typeName : Request → String
  | .openChannel _ => "hare_mq.openChannelRequest"
  | .closeChannel _ => "hare_mq.closeChannelRequest"
  | .declareExchange _ => "hare_mq.declareExchangeRequest"
  | .deleteExchange _ => "hare_mq.deleteExchangeRequest"
  | .declareQueue _ => "hare_mq.declareQueueRequest"
  | .deleteQueue _ => "hare_mq.deleteQueueRequest"
  | .bind _ => "hare_mq.bindRequest"
  | .unbind _ => "hare_mq.unbindRequest"
  | .basicPublish _ => "hare_mq.basicPublishRequest"
  | .basicAck _ => "hare_mq.basicAckRequest"
  | .basicConsume _ => "hare_mq.basicConsumeRequest"
  | .basicCancel _ => "hare_mq.basicCancelRequest"
  | .basicQuery _ => "hare_mq.basicQueryRequest"

def packed : Request → Packed Request
  | .openChannel req => ⟨OpenChannelRequest.schema, req, .openChannel⟩
  | .closeChannel req => ⟨CloseChannelRequest.schema, req, .closeChannel⟩
  | .declareExchange req => ⟨DeclareExchangeRequest.schema, req, .declareExchange⟩
  | .deleteExchange req => ⟨DeleteExchangeRequest.schema, req, .deleteExchange⟩
  | .declareQueue req => ⟨DeclareQueueRequest.schema, req, .declareQueue⟩
  | .deleteQueue req => ⟨DeleteQueueRequest.schema, req, .deleteQueue⟩
  | .bind req => ⟨BindRequest.schema, req, .bind⟩
  | .unbind req => ⟨UnbindRequest.schema, req, .unbind⟩
  | .basicPublish req => ⟨BasicPublishRequest.schema, req, .basicPublish⟩
  | .basicAck req => ⟨BasicAckRequest.schema, req, .basicAck⟩
  | .basicConsume req => ⟨BasicConsumeRequest.schema, req, .basicConsume⟩
  | .basicCancel req => ⟨BasicCancelRequest.schema, req, .basicCancel⟩
  | .basicQuery req => ⟨BasicQueryRequest.schema, req, .basicQuery⟩

/-- The values that are written of a request, under their field numbers. -/
def pairs (req : Request) : List Pair := req.packed.schema.pairs req.packed.value

def serialize (req : Request) : Bytes := req.packed.schema.serialize req.packed.value

/-- The field numbers of the message type. -/
def numbers (req : Request) : List Nat := req.packed.schema.fields.map Field.number

/-- `registerMessageCallback`, for each type of request. -/
def callbacks : List (String × (Bytes → Option Request)) := [
  ("hare_mq.openChannelRequest", received OpenChannelRequest.schema .openChannel),
  ("hare_mq.closeChannelRequest", received CloseChannelRequest.schema .closeChannel),
  ("hare_mq.declareExchangeRequest", received DeclareExchangeRequest.schema .declareExchange),
  ("hare_mq.deleteExchangeRequest", received DeleteExchangeRequest.schema .deleteExchange),
  ("hare_mq.declareQueueRequest", received DeclareQueueRequest.schema .declareQueue),
  ("hare_mq.deleteQueueRequest", received DeleteQueueRequest.schema .deleteQueue),
  ("hare_mq.bindRequest", received BindRequest.schema .bind),
  ("hare_mq.unbindRequest", received UnbindRequest.schema .unbind),
  ("hare_mq.basicPublishRequest", received BasicPublishRequest.schema .basicPublish),
  ("hare_mq.basicAckRequest", received BasicAckRequest.schema .basicAck),
  ("hare_mq.basicConsumeRequest", received BasicConsumeRequest.schema .basicConsume),
  ("hare_mq.basicCancelRequest", received BasicCancelRequest.schema .basicCancel),
  ("hare_mq.basicQueryRequest", received BasicQueryRequest.schema .basicQuery)]

/-- The request that arrives as a message of a type. `none`: the type is unknown, or the message is malformed. -/
def parse (typeName : String) (bs : Bytes) : Option Request := (callbacks.lookup typeName).bind fun callback => callback bs

/-- The same request, whose arguments may come in another order. -/
def Same : Request → Request → Prop
  | .declareExchange req, .declareExchange req' =>
    req = { req' with args := req.args } ∧ req.args.entries.Perm req'.args.entries
  | .declareQueue req, .declareQueue req' =>
    req = { req' with args := req.args } ∧ req.args.entries.Perm req'.args.entries
  | req, req' => req = req'

end Request

namespace Response

def typeName : Response → String
  | .basicCommonResponse .. => "hare_mq.basicCommonResponse"
  | .basicQueryResponse .. => "hare_mq.basicQueryResponse"
  | .basicConsumeResponse .. => "hare_mq.basicConsumeResponse"

def ofCommon (resp : BasicCommonResponse) : Response := .basicCommonResponse resp.rid resp.cid resp.ok

def ofQuery (resp : BasicQueryResponse) : Response := .basicQueryResponse resp.rid resp.cid resp.body

def ofConsume (resp : BasicConsumeResponse) : Response :=
  .basicConsumeResponse resp.cid resp.consumerTag resp.body resp.properties

def packed : Response → Packed Response
  | .basicCommonResponse rid cid ok => ⟨BasicCommonResponse.schema, ⟨rid, cid, ok⟩, ofCommon⟩
  | .basicQueryResponse rid cid body => ⟨BasicQueryResponse.schema, ⟨rid, cid, body⟩, ofQuery⟩
  | .basicConsumeResponse cid consumerTag body properties =>
    ⟨BasicConsumeResponse.schema, ⟨cid, consumerTag, body, properties⟩, ofConsume⟩

def pairs (resp : Response) : List Pair := resp.packed.schema.pairs resp.packed.value

def serialize (resp : Response) : Bytes := resp.packed.schema.serialize resp.packed.value

def numbers (resp : Response) : List Nat := resp.packed.schema.fields.map Field.number

/-- `registerMessageCallback`, in the constructor of the client's `connection`. -/
def callbacks : List (String × (Bytes → Option Response)) := [
  ("hare_mq.basicCommonResponse", received BasicCommonResponse.schema ofCommon),
  ("hare_mq.basicConsumeResponse", received BasicConsumeResponse.schema ofConsume),
  ("hare_mq.basicQueryResponse", received BasicQueryResponse.schema ofQuery)]

def parse (typeName : String) (bs : Bytes) : Option Response := (callbacks.lookup typeName).bind fun callback => callback bs

end Response
end HareMQ
