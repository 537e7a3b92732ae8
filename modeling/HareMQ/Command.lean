import HareMQ.Client
import HareMQ.Lib.Script
import HareMQ.Sqlite

/-! # Commands (`mqclient/client.cc`)

A command is a line of words. It is checked word by word, and then a method of the channel is called and waited for. What
answers the methods is a parameter. The logo, the prompts and the lines of the logger are left out. -/

namespace HareMQ
open Lib

/-- An assertion fails, or the client waits for ever. -/
inductive Halt
  | abort
  | hang
deriving DecidableEq, Repr

/-- A terminal with its channel. `server` is what answers the methods, and `input` the lines still to be read. -/
structure Terminal (σ : Type) where
  server : σ
  cid : String := ""
  input : List String := []
  printed : List String := []

namespace Terminal
variable {σ : Type}

def print (t : Terminal σ) (line : String) : Terminal σ := { t with printed := t.printed ++ [line] }

end Terminal

/-! ### Texts -/

def redBold : String := "\x1b[1;31m"
def yellowBold : String := "\x1b[1;33m"
def reset : String := "\x1b[0m"

/-- `__valid_cmds`. The order of iteration is not specified. -/
def validCmds : List (String × String) :=
  [("subscribe", "Subcribe a queue and continuous consuming messages from a queue (print to stdout)"),
    ("publish", "Push a message to the specified exchange"),
    ("publish_mode", "Continuous push message to specified exchange"),
    ("svrstat", "View the exchange information, queue information and binding information of the current server, note: This is a blocking interface"),
    ("declare_exchange", "Declare an exchange on the server"),
    ("declare_queue", "Declare a message queue on the server"),
    ("delete_exchange", "Delete an exchange on the server"),
    ("delete_queue", "Delete and queue on the server"),
    ("bind", "Bind an exchange and a queue"),
    ("unbind", "Unbind a binding between an exchagne and a queue"),
    ("cid", "Show current client's channel id"),
    ("cmds", "Show all commands"),
    ("exit", "Quit the client"),
    ("clear", "Clean the terminal"),
    ("logo", "Print the project logo")]

def notFound (cmd : String) : String :=
  redBold ++ cmd ++ ": " ++ reset ++ "command not found, use 'cmds' to show all valid commands"

/-- What `usage` says after its first two lines. -/
def usageText (cmd : String) : String :=
  if cmd = "bind" then "    bind exchange_name queue_name binding_key"
  else if cmd = "unbind" then "    unbind exchange_name queue_name"
  else if cmd = "declare_exchange" then
    "    declare_exchange exchange_name ExchangeType durable auto_delete other_args\n" ++
    "    ExchangeType: TOPIC/FANOUT/DIRECT\n" ++
    "    durable, auto_delete: true/false\n" ++
    "    other_args format: k1=v1&k2=v2&k3=v3..."
  else if cmd = "delete_exchange" then "delete_exchange exchange_name"
  else if cmd = "declare_queue" then
    "    declare_queue queue_name durable exclusive auto_delete other_args\n" ++
    "    durable, exclusive, auto_delete: true/false\n" ++
    "    other_args format: k1=v1&k2=v2&k3=v3..."
  else if cmd = "delete_queue" then "delete_queue queue_name"
  else if cmd = "publish" then
    "    publish exchange_name DURABLE binding_key\n" ++
    "    DURABLE: hare_mq::DeliveryMode::DURABLE/UNDURABLE"
  else if cmd = "publish_mode" then
    "    publish_mode exchange_name DURABLE binding_key\n" ++
    "    DURABLE: hare_mq::DeliveryMode::DURABLE/UNDURABLE"
  else if cmd = "subscribe" then "    subscribe consumer_tag queue_name auto_ack"
  else ""

def usage (cmd : String) : String :=
  yellowBold ++ cmd ++ ": " ++ reset ++ (validCmds.lookup cmd).getD "" ++ "\nusage: \n" ++ usageText cmd

/-! ### Words -/

def ExchangeType.ofWord (word : String) : Option ExchangeType :=
  if word = "FANOUT" then some .fanout
  else if word = "DIRECT" then some .direct
  else if word = "TOPIC" then some .topic
  else none

/-- `UNDURABLE`, which the usage names, is not known. -/
def DeliveryMode.ofWord (word : String) : DeliveryMode :=
  if word = "DURABLE" then .durable
  else if word = "DIRECT" then .undurable
  else .unknowMode

def flagOfWord (word : String) : Option Bool :=
  if word = "true" then some true
  else if word = "false" then some false
  else none

/-! ### Commands -/

namespace Terminal
variable {σ : Type} (call : σ → ClientCall → Except Halt (Bool × σ))

/-- `usage(cmd); return false;` -/
def misused (t : Terminal σ) (cmd : String) : Except Halt (Bool × Terminal σ) := .ok (false, t.print (usage cmd))

/-- A method whose result is not looked at. -/
def invoke (t : Terminal σ) (method : ClientCall) : Except Halt (Bool × Terminal σ) :=
  match call t.server method with
  | .error halt => .error halt
  | .ok (_, server) => .ok (true, { t with server })

def demand (t : Terminal σ) (method : ClientCall) (failure : String) : Except Halt (Bool × Terminal σ) :=
  match call t.server method with
  | .error halt => .error halt
  | .ok (true, server) => .ok (true, { t with server })
  | .ok (false, server) =>
    .ok (false, { t with server }.print (redBold ++ failure ++ reset ++ ", please check the server stats"))

def declareExchange (t : Terminal σ) (name type durable autoDelete args : String) : Except Halt (Bool × Terminal σ) :=
  match ExchangeType.ofWord type, flagOfWord durable, flagOfWord autoDelete, Args.parse args with
  | some type, some durable, some autoDelete, some m =>
    t.demand call (.declareExchange name type durable autoDelete m) "declare_exchange failed"
  | _, _, _, _ => t.misused "declare_exchange"

def declareQueue (t : Terminal σ) (name durable exclusive autoDelete args : String) : Except Halt (Bool × Terminal σ) :=
  match flagOfWord durable, flagOfWord exclusive, flagOfWord autoDelete, Args.parse args with
  | some qdurable, some qexclusive, some qautoDelete, some m =>
    t.demand call (.declareQueue name qdurable qexclusive qautoDelete m) "declare_queue failed"
  | _, _, _, _ => t.misused "declare_queue"

/-- The loop of `publish` and, with `again`, of `publish_mode`. At the end of the input `getline` leaves the message
    empty. -/
def publishLoop (again : Bool) (exchangeName : String) (bp : BasicProperties) (t : Terminal σ) :
    List String → Except Halt (Bool × Terminal σ)
  | [] =>
    match call t.server (.basicPublish exchangeName (some bp) "") with
    | .error halt => .error halt
    | .ok (_, server) => if again then .error .hang else .ok (true, { t with server, input := [] })
  | mesg :: input =>
    if mesg = "quit" then .ok (true, { t with input })
    else
      match call t.server (.basicPublish exchangeName (some bp) mesg) with
      | .error halt => .error halt
      | .ok (_, server) =>
        if again then publishLoop again exchangeName bp { t with server } input
        else .ok (true, { t with server, input })

/-- The thread that reads the input ends at a `quit`. -/
def subscribe (t : Terminal σ) (consumerName queueName autoAck : String) : Except Halt (Bool × Terminal σ) :=
  match flagOfWord autoAck with
  | none => t.misused "subscribe"
  | some autoAck =>
    match t.demand call (.basicConsume consumerName queueName autoAck 0) "subscribe a queue failed" with
    | .error halt => .error halt
    | .ok (_, t) =>
      match t.input.dropWhile (· ≠ "quit") with
      | [] => .error .hang
      | _ :: input => { t with input }.invoke call .basicCancel

/-- `uuid` is what `uuid_helper` returns in it. -/
def runCmd (uuid : String) (t : Terminal σ) (words : List String) : Except Halt (Bool × Terminal σ) :=
  let cmd := words.headD ""
  if cmd = "cmds" then .ok (true, validCmds.foldl (fun t e => t.print ("    " ++ e.1 ++ ": " ++ e.2)) t)
  else if cmd = "cid" then .ok (true, t.print ("current channel id: " ++ t.cid))
  else if cmd = "bind" then
    match words with
    | [_, ename, qname, key] => t.demand call (.bind ename qname key) "bind failed"
    | _ => t.misused "bind"
  else if cmd = "unbind" then
    match words with
    | [_, ename, qname] => t.invoke call (.unbind ename qname)
    | _ => t.misused "unbind"
  else if cmd = "declare_exchange" then
    match words with
    | [_, name, type, durable, autoDelete] => t.declareExchange call name type durable autoDelete ""
    | [_, name, type, durable, autoDelete, args] => t.declareExchange call name type durable autoDelete args
    | _ => t.misused "declare_exchange"
  else if cmd = "delete_exchange" then
    match words with
    | [_, name] => t.invoke call (.deleteExchange name)
    | _ => t.misused "delete_exchange"
  else if cmd = "declare_queue" then
    match words with
    | [_, name, durable, exclusive, autoDelete] => t.declareQueue call name durable exclusive autoDelete ""
    | [_, name, durable, exclusive, autoDelete, args] => t.declareQueue call name durable exclusive autoDelete args
    | _ => t.misused "declare_queue"
  else if cmd = "delete_queue" then
    match words with
    | [_, name] => t.invoke call (.deleteQueue name)
    | _ => t.misused "delete_queue"
  else if cmd = "svrstat" then t.invoke call .basicQuery
  else if cmd = "publish" || cmd = "publish_mode" then
    match words with
    | [_, exchangeName, mode, routingKey] =>
      t.publishLoop call (cmd = "publish_mode") exchangeName ⟨uuid, .ofWord mode, routingKey⟩ t.input
    | _ => t.misused "publish"
  else if cmd = "subscribe" then
    match words with
    | [_, consumerName, queueName, autoAck] => t.subscribe call consumerName queueName autoAck
    | _ => t.misused "subscribe"
  else if cmd = "clear" then .ok (true, t)
  else if cmd = "logo" then .ok (true, t)
  else .error .abort

/-! ### Configuration files -/

/-- The loop body of `run_config`, for a line with its number. -/
def runLine (uuids : Nat → String) (t : Terminal σ) (e : String × Nat) : Except Halt (Bool × Terminal σ) :=
  match split e.1 " " with
  | [] => .ok (true, t)
  | cmd :: words =>
    if (validCmds.lookup cmd).isNone then .ok (false, t.print (notFound cmd))
    else
      match t.runCmd call (uuids e.2) (cmd :: words) with
      | .error halt => .error halt
      | .ok (true, t) => .ok (true, t.print ("[" ++ toString e.2 ++ "] run " ++ e.1 ++ " success"))
      | .ok (false, t) => .ok (false, t.print ("[" ++ toString e.2 ++ "] run " ++ e.1 ++ " failed"))

/-- `none`: the file cannot be opened. -/
def runConfig (uuids : Nat → String) (t : Terminal σ) (file : Option (List String)) : Except Halt (Bool × Terminal σ) :=
  match file with
  | none => .ok (false, t)
  | some lines => perform (runLine call uuids) t (lines.zipIdx 1)

/-! ### The client -/

/-- The loop of `run`. A round reads a line at least, so that `fuel` need only exceed their number; behind the last line
    `getline` returns at once and empty, again and again. -/
def session (uuids : Nat → String) : Nat → Terminal σ → Except Halt (Terminal σ)
  | 0, _ => .error .hang
  | fuel + 1, t =>
    match t.input with
    | [] => .error .hang
    | fullCmd :: input =>
      match split fullCmd " " with
      | [] => session uuids fuel { t with input }
      | cmd :: words =>
        if (validCmds.lookup cmd).isNone then session uuids fuel ({ t with input }.print (notFound cmd))
        else if cmd = "exit" then .ok { t with input }
        else
          match { t with input }.runCmd call (uuids input.length) (cmd :: words) with
          | .error halt => .error halt
          | .ok (_, t) => session uuids fuel t

/-- `run`, with or without a configuration file. -/
def run (uuids : Nat → String) (t : Terminal σ) (config : Option (Option (List String))) : Except Halt (Terminal σ) :=
  match config with
  | none => t.session call uuids (t.input.length + 1)
  | some file =>
    match t.runConfig call uuids file with
    | .error halt => .error halt
    | .ok (false, t) => .ok t
    | .ok (true, t) => t.session call uuids (t.input.length + 1)

end Terminal
end HareMQ
