import Switchboard.Server.Basic

namespace Switchboard

namespace Server

variable {N T H : Type} [Network N] [Handler H]

/-- Whether a session goes on. -/
inductive Outcome where
  | goesOn
  | isOver
  deriving DecidableEq

/-- Closes a session and forgets it. -/
def closeSession (s : Server N T H) (token : Nat) : Server N T H :=
  match s.hub.drop token with
  | none => s
  | some (hub, _) => { s with
      hub
      unsent := s.unsent.filter fun e => e.1 != token
      network := Network.shut s.network token }

/-- Hands chunks to a connection until one fails. -/
def writeEach (token : Nat) : List Bytes → Hub BuiltCodec BuiltInspector H →
    Outcome × Hub BuiltCodec BuiltInspector H
  | [], h => (.goesOn, h)
  | chunk :: chunks, h => match h.write token chunk with
    | some (.ok _, h, _) => writeEach token chunks h
    | some (.error _, h, _) => (.isOver, h)
    | none => (.isOver, h)

/-- Hands a connection what its socket has received, in chunks of the size of the read buffer. -/
def readSocket (s : Server N T H) (token : Nat) : Outcome × Server N T H :=
  let (arrival, network) := Network.receive s.network token
  let (outcome, hub) :=
    writeEach token (Bytes.pieces arrival.bytes s.config.readBufferSize) s.hub
  (if arrival.ended then .isOver else outcome, { s with network, hub })

/-- What a connection has for sending: what is left of the last chunk, or else the next one. -/
def nextChunk (s : Server N T H) (token : Nat) : Option (Bytes × Server N T H) :=
  match s.unsent.lookup token with
  | some chunk => some (chunk, s)
  | none => match s.hub.read token s.config.readBufferSize with
    | some (.ok chunk, hub) => some (chunk, { s with hub })
    | _ => none

def keepUnsent (s : Server N T H) (token : Nat) (rest : Bytes) : Server N T H :=
  let others := s.unsent.filter fun e => e.1 != token
  { s with unsent := if rest.isEmpty then others else (token, rest) :: others }

/-- Sends chunk after chunk until there is none left or no more room. -/
def sendUpTo (token : Nat) : (fuel : Nat) → Server N T H → Outcome × Server N T H
  | 0, s => (.goesOn, s)
  | fuel + 1, s => match s.nextChunk token with
    | none => (.isOver, s)
    | some (chunk, s) =>
      if chunk.isEmpty then (.goesOn, s)
      else match Network.send s.network token chunk with
        | (none, network) => (.isOver, { s with network })
        | (some n, network) =>
          let s := { s with network }.keepUnsent token (chunk.drop n)
          if n < chunk.length then (.goesOn, s) else sendUpTo token fuel s

/-- Sends all output of a connection that there is room for. -/
def flushSocket (s : Server N T H) (token : Nat) : Outcome × Server N T H :=
  match s.hub.reads token s.config.readBufferSize with
  | some (.ok chunks, _) => sendUpTo token (chunks.length + 2) s
  | _ => (.isOver, s)

/-- Reads from a socket if there is something to read, and sends what there is to send. -/
def service (s : Server N T H) (token : Nat) (readable : Bool) : Server N T H :=
  match s.hub.get? token with
  | none => s
  | some _ =>
    let (received, s) := if readable then s.readSocket token else (.goesOn, s)
    let (sent, s) := s.flushSocket token
    if received = .isOver ∨ sent = .isOver then s.closeSession token
    else match s.hub.updateInterest token with
      | none => s
      | some (interest, hub) =>
        let room := interest.wantsWrite || s.unsent.any fun e => e.1 == token
        { s with hub, network := Network.watchRoom s.network token room }

/-- Makes a connection for a client that was accepted under a token. Its worker for delays is
started when its codec is the first to need one. A client whose connection cannot be made is
turned away. -/
def openSession (s : Server N T H) (config : ListenerConfig) (token : Nat) (peer : Peer) :
    Server N T H :=
  let scheduler := config.codec.needsScheduler
  let delays := if scheduler then s.hub.delays.start else s.hub.delays
  let s := { s with hub := { s.hub with delays } }
  match config.stages s.registry peer s.now scheduler s.nextKey with
  | .error _ => { s with network := Network.shut s.network token }
  | .ok (stages, nextKey) =>
    let ctx := Context.new s.config.serverId config.id peer (some token)
    let (hub, _) := s.hub.connect token ctx stages
    { s with hub, nextKey }.service token true

def openEach (config : ListenerConfig) : List Peer → Server N T H → Server N T H
  | [], s => s
  | peer :: peers, s =>
    let token := s.nextToken
    openEach config peers ({ s with nextToken := token + 1 }.openSession config token peer)

/-- Accepts everyone who waits at a listener. -/
def accept (s : Server N T H) (listener : Listener) : Server N T H :=
  let (peers, network) := Network.accept s.network listener.token s.nextToken
  openEach listener.config peers { s with network }

def handle (s : Server N T H) (event : Readiness) : Server N T H :=
  match s.listenerAt? event.token with
  | some listener => s.accept listener
  | none => s.service event.token event.readable

/-- Sends the output of the connections whose wakers were told, or of all of them when there were
more wakes than are kept apart. -/
def serviceWoken (s : Server N T H) : Server N T H :=
  let (wakes, delays) := s.hub.delays.takeWakes
  let s := { s with hub := { s.hub with delays } }
  let woken := if s.config.notifyCapacity < wakes.length then s.hub.tokens
    else s.hub.tokens.filter wakes.contains
  woken.foldl (fun s token => s.service token false) s

/-- Closes a session if its client was silent for too long. -/
def closeIfSilent (s : Server N T H) (token : Nat) : Server N T H :=
  match s.hub.timedOut token with
  | some (true, _) => s.closeSession token
  | some (false, hub) => { s with hub }
  | none => s

/-- Closes the sessions of silent clients, unless that was done a short while ago. -/
def sweep (s : Server N T H) : Server N T H :=
  if s.now - s.lastSweep < s.config.sweepInterval then s
  else { s.hub.tokens.foldl closeIfSilent s with lastSweep := s.now }

end Server

end Switchboard
