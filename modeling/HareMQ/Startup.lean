import HareMQ.Lib.Run

/-! # The start of a client (`mqclient/connection.hpp`)

The thread that constructs a `connection` and the event loop that calls `onConnection`: the latch between them, the
pointer `__conn`, and its copies in the channels. A step is a section under the lock of the latch, or one access to
`__conn`. That a request waits for its response only delays the user, and is left out. -/

namespace HareMQ
open Lib

/-- The address of a connection object. -/
abbrev TcpConnection := Nat

/-- `TcpConnectionPtr`; null is `none`. -/
abbrev TcpConnectionPtr := Option TcpConnection

/-- Where the event loop is in `onConnection`. -/
inductive LoopPhase
  | idle
  /-- Next is `__latch.countDown()`. -/
  | called
  /-- Next is `__conn = conn`. -/
  | countedDown
  | stored
deriving DecidableEq, Repr

/-- Where the thread of the user is. -/
inductive UserPhase
  /-- In the constructor, before `__client.connect()`. -/
  | connecting
  /-- In `__latch.wait()`: it holds the lock next and tests the count. -/
  | testing
  | asleep
  /-- The constructor has returned. -/
  | ready
  /-- In `openChannel`, with the new channel: next is `open_server_channel`. -/
  | opening (ch : Nat)
deriving DecidableEq, Repr

structure Startup where
  /-- The count of `__latch`. -/
  latch : Nat := 1
  conn : TcpConnectionPtr := none
  loop : LoopPhase := .idle
  user : UserPhase := .connecting
  /-- What each channel keeps as its `__conn`, in the order of creation. -/
  channels : List TcpConnectionPtr := []
  /-- On which pointer each request was sent. -/
  sent : List TcpConnectionPtr := []
  /-- A null pointer was dereferenced. -/
  dead : Bool := false
deriving DecidableEq, Repr

inductive StartupAct
  /-- `__client.connect()`. -/
  | connect
  /-- The connection is established, and the event loop calls `onConnection`. -/
  | established
  | countDown
  | store
  /-- `onConnection` for a connection that is closed, which logs only. -/
  | disconnected
  /-- The user tests the count of the latch. -/
  | test
  /-- The user wakes without notification. -/
  | spurious
  /-- `create_channel` in `openChannel`. -/
  | openChannel
  /-- `open_server_channel`. -/
  | openServerChannel
  /-- Another request on a channel. -/
  | request (ch : Nat)
deriving DecidableEq, Repr

namespace Startup
variable (s : Startup)

/-- `__codec->send` on the pointer of a channel. -/
def send (ch : Nat) : Option Startup :=
  (s.channels[ch]?).map fun conn => { s with user := .ready, sent := s.sent ++ [conn], dead := conn.isNone }

/-- `countDown`: the thread that sleeps is notified when the count reaches 0. -/
def countDown : Startup :=
  { s with
    latch := s.latch - 1
    loop := .countedDown
    user := if s.latch - 1 = 0 ∧ s.user = .asleep then .testing else s.user }

/-- `none`: the act is not possible. `conn` is the connection that the client gets. -/
def step (conn : TcpConnection) (s : Startup) (a : StartupAct) : Option Startup :=
  if s.dead then none
  else
    match a with
    | .connect => if s.user = .connecting then some { s with user := .testing } else none
    | .established => if s.user ≠ .connecting ∧ s.loop = .idle then some { s with loop := .called } else none
    | .countDown => if s.loop = .called then some s.countDown else none
    | .store => if s.loop = .countedDown then some { s with conn := some conn, loop := .stored } else none
    | .disconnected => if s.loop = .stored then some s else none
    | .test =>
      if s.user = .testing then some { s with user := if 0 < s.latch then .asleep else .ready } else none
    | .spurious => if s.user = .asleep then some { s with user := .testing } else none
    | .openChannel =>
      if s.user = .ready then
        some { s with channels := s.channels ++ [s.conn], user := .opening s.channels.length }
      else none
    | .openServerChannel =>
      match s.user with
      | .opening ch => s.send ch
      | _ => none
    | .request ch => if s.user = .ready then s.send ch else none

end Startup
end HareMQ
