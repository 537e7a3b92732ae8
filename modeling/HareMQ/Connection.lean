import HareMQ.Channel

/-! # Connections (`mqserver/connection.hpp`, and `channel_manager`) -/

namespace HareMQ
open Lib

namespace Broker
variable (b : Broker) (conn : ConnRef)

/-- `connection::open_channel`. -/
def openChannel (channels : ChannelManager) (req : OpenChannelRequest) : Broker :=
  if req.cid ∈ channels then b.send conn (.basicCommonResponse req.rid req.cid false)
  else
    { b with
      channels := Function.update b.channels b.next { cid := req.cid, conn }
      next := b.next + 1
      conns := b.conns.insert conn (channels.insert req.cid b.next) }.send conn (.basicCommonResponse req.rid req.cid true)

/-- `connection::close_channel`: the map owns the channel, so that it is destroyed when it is erased. -/
def closeChannel (channels : ChannelManager) (req : CloseChannelRequest) : Broker :=
  let erased := { b with conns := b.conns.insert conn (channels.erase req.cid) }
  let closed := match channels.lookup req.cid with
    | none => erased
    | some self => erased.destroy self
  closed.send conn (.basicCommonResponse req.rid req.cid true)

def newConnection : Broker := { b with conns := b.conns.emplace conn ∅ }

/-- `delete_connection`: with the connection all its channels are destroyed. -/
def deleteConnection : Broker :=
  match b.conns.lookup conn with
  | none => b
  | some channels => channels.entries.foldl (fun b e => b.destroy e.2) { b with conns := b.conns.erase conn }

end Broker
end HareMQ
