import Switchboard.Bytes
import Switchboard.Host
import Switchboard.Peer

namespace Switchboard

/-- Where a listener is bound. -/
structure Address where
  host : Host
  port : UInt16
  deriving DecidableEq, Repr

/-- What has happened at the socket of a token. -/
structure Readiness where
  token : Nat
  /-- Whether there is something to read, or someone to accept. -/
  readable : Bool

/-- What a socket has received since it was read last. -/
structure Arrival where
  bytes : Bytes
  /-- Whether no more will come, be it that the other end is done or that it is gone. -/
  ended : Bool

/-- The sockets of a host. Those of a server go by tokens that the server chooses. -/
class Network (N : Type) where
  /-- Listens on a port; a port of zero leaves the choice open. Nothing if the port is not free. -/
  bind : N → (token : Nat) → (host : Host) → (port : UInt16) → Option Address × N
  /-- Stops listening. -/
  release : N → (token : Nat) → N
  /-- What has happened at most `limit` sockets. -/
  ready : N → (limit : Nat) → List Readiness × N
  /-- Accepts everyone who waits at a listener; their sockets get tokens from `first` on. -/
  accept : N → (token first : Nat) → List Peer × N
  receive : N → (token : Nat) → Arrival × N
  /-- Takes as many of the bytes as there is room for, and tells how many; nothing if the other
  end is gone. -/
  send : N → (token : Nat) → Bytes → Option Nat × N
  /-- Whether room for sending is to be reported as well. -/
  watchRoom : N → (token : Nat) → Bool → N
  /-- Closes a socket in both directions. -/
  shut : N → (token : Nat) → N

end Switchboard
