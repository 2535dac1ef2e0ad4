import Switchboard.Error
import Switchboard.Packet
import Switchboard.Peer

namespace Switchboard

/-- What a handler can see of its connection. -/
structure View where
  serverId : String
  listenerId : String
  peer : Peer
  connectionId : String
  /-- Whether replies wait to be sent. -/
  pending : Bool

/-- What a handler asks for. -/
inductive Request where
  /-- Sends a packet to its own connection. -/
  | reply (packet : Packet)
  /-- Makes its connection a member of the room, or no member any more. -/
  | join
  | leave
  /-- Sends a text to all other members of the room. -/
  | say (text : String)

/-- A handler after it was called, what it asks for, and whether it failed. -/
structure Reaction (H : Type) where
  handler : H
  requests : List Request := []
  failure : Option Error := none

/-- A handler after it gave up the packets it had kept for sending, and what it wrote to its own
connection meanwhile. -/
structure Yield (H : Type) where
  handler : H
  packets : List Packet := []
  replies : List Packet := []

/-- What an application attaches to a connection. -/
class Handler (H : Type) where
  name : H → String
  /-- The connection has been made. -/
  active : H → View → Reaction H
  /-- A packet has passed the inspector. -/
  read : H → View → Packet → Reaction H
  /-- Gives up the packets it has kept for sending, one by one until it has none. -/
  takeBuffered : H → View → Yield H
  /-- Whether it keeps packets for sending. -/
  pending : H → Bool
  /-- The connection is being closed. -/
  close : H → View → Reaction H

end Switchboard
