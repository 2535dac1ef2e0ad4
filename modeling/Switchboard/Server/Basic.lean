import Switchboard.Hub
import Switchboard.Listener.Stages
import Switchboard.Network
import Switchboard.Server.Config

namespace Switchboard

/-- A listener that is bound. New connections are made from its description. -/
structure Listener where
  config : ListenerConfig
  token : Nat
  address : Address

/-- A server on a network `N` that keeps its listeners as a source `T` wants them and offers what
clients send to handlers `H`. -/
structure Server (N T H : Type) where
  config : ServerConfig
  network : N
  source : T
  registry : HandlerRegistry H
  listeners : Table Listener := .empty
  /-- The ids of the listeners, under their tokens. -/
  tokenIds : List (Nat × String) := []
  hub : Hub BuiltCodec BuiltInspector H := {}
  /-- Bytes that were taken out of a connection and not sent yet, by its token. -/
  unsent : List (Nat × Bytes) := []
  /-- The tokens from here on are free. -/
  nextToken : Nat := 1
  /-- The channel keys from here on are free. -/
  nextKey : Nat := 0
  lastSweep : Time := 0

namespace Server

variable {N T H : Type}

/-- A server that has done nothing yet; the worker that delays output is not running. -/
def new (config : ServerConfig) (network : N) (source : T) (registry : HandlerRegistry H) :
    Server N T H :=
  { config, network, source, registry, hub := { delays := { worker := { running := false } } } }

def now (s : Server N T H) : Time := s.hub.delays.now

/-- Where the listener of an id is bound. -/
def address? (s : Server N T H) (id : String) : Option Address :=
  (s.listeners.get? id).map (·.address)

/-- What new connections of a listener are made from. -/
def definition? (s : Server N T H) (id : String) : Option ListenerConfig :=
  (s.listeners.get? id).map (·.config)

/-- The listener that has a token. -/
def listenerAt? (s : Server N T H) (token : Nat) : Option Listener :=
  (s.tokenIds.lookup token).bind s.listeners.get?

def listenerCount (s : Server N T H) : Nat := s.listeners.size

def connectionCount (s : Server N T H) : Nat := s.hub.connections.length

/-- Time passes, and the worker that delays output does its work. -/
def elapse (s : Server N T H) (microseconds : Nat) : Server N T H :=
  { s with hub := { s.hub with delays := s.hub.delays.advance microseconds } }

end Server

end Switchboard
