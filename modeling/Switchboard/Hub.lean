import Switchboard.Connection
import Switchboard.Table

namespace Switchboard

/-- All connections under their tokens, the room they share, and the worker that delays their
output. The token of a connection is also its waker. -/
structure Hub (C I H : Type) where
  connections : List (Nat × Connection C I H) := []
  /-- The tokens of the members, under the addresses of their peers. -/
  room : Table Nat := .empty
  delays : DelayService := {}

namespace Hub

variable {C I H α : Type}

def get? (h : Hub C I H) (token : Nat) : Option (Connection C I H) := h.connections.lookup token

/-- Puts a connection in its place, or behind all others. -/
def setEntry (token : Nat) (c : Connection C I H) :
    List (Nat × Connection C I H) → List (Nat × Connection C I H)
  | [] => [(token, c)]
  | e :: es => if e.1 = token then (token, c) :: es else e :: setEntry token c es

def set (h : Hub C I H) (token : Nat) (c : Connection C I H) : Hub C I H :=
  { h with connections := setEntry token c h.connections }

def tokens (h : Hub C I H) : List Nat := h.connections.map (·.1)

/-- Tells the waker of a connection that there is output. -/
def refresh (h : Hub C I H) (token : Nat) : Hub C I H :=
  match (h.get? token).bind fun c => c.context.waker with
  | some w => { h with delays := h.delays.wake w }
  | none => h

/-- Queues a packet for a connection. -/
def reply (h : Hub C I H) (token : Nat) (p : Packet) : Hub C I H :=
  match h.get? token with
  | some c => h.set token { c with context := c.context.reply p }
  | none => h

/-- Queues a packet for a connection and tells its waker. -/
def tell (h : Hub C I H) (token : Nat) (p : Packet) : Hub C I H := (h.reply token p).refresh token

/-- What is said in the room: the sender's id stands in front of the text. -/
def spoken (sender text : String) : Packet := ⟨sender, .text (sender ++ ": " ++ text)⟩

/-- Does what the handlers of one connection ask of the room. Members go by the address of their
peer, so a text reaches all but those at the sender's address. -/
def carryOut (token : Nat) (peer : Peer) (h : Hub C I H) : RoomRequest → Hub C I H
  | .join => { h with room := h.room.insert peer.text token }
  | .leave => { h with room := h.room.erase peer.text }
  | .say sender text =>
    h.room.entries.foldl
      (fun h m => if m.1 = peer.text then h else h.tell m.2 (spoken sender text)) h

/-- The hub after a connection has done something. -/
def settle (h : Hub C I H) (token : Nat) (c : Connection C I H) (s : DelayService)
    (requests : List RoomRequest) : Hub C I H :=
  requests.foldl (carryOut token c.context.peer) { h.set token c with delays := s }

/-- Lets one connection do something. -/
def act (h : Hub C I H) (token : Nat)
    (f : Connection C I H → DelayService → α × Connection C I H × DelayService × Log H) :
    Option (α × Hub C I H × List (Call H)) :=
  (h.get? token).map fun c =>
    let (result, c, s, log) := f c h.delays
    (result, h.settle token c s log.requests, log.calls)

variable [Codec C] [Inspector I] [Handler H]

/-- Adds a connection under a token that is not in use. -/
def connect (h : Hub C I H) (token : Nat) (ctx : Context) (stages : Stages C I H) :
    Hub C I H × List (Call H) :=
  let (c, log) := Connection.new ctx stages.codec stages.inspector stages.handlers
  (h.settle token c h.delays log.requests, log.calls)

def write (h : Hub C I H) (token : Nat) (bytes : Bytes) :
    Option (Except Error Nat × Hub C I H × List (Call H)) :=
  h.act token fun c s => c.write bytes s

def read (h : Hub C I H) (token n : Nat) : Option (Except Error Bytes × Hub C I H) :=
  (h.act token fun c s =>
    let (result, c, s) := c.read n s
    (result, c, s, {})).map fun (result, h, _) => (result, h)

/-- Takes all output of a connection in reads of at most `n` bytes. -/
def reads (h : Hub C I H) (token n : Nat) : Option (Except Error (List Bytes) × Hub C I H) :=
  (h.act token fun c s =>
    let (result, c, s) := c.reads n s
    (result, c, s, {})).map fun (result, h, _) => (result, h)

/-- Closes a connection, which stays in its place. -/
def close (h : Hub C I H) (token : Nat) : Option (Hub C I H × List (Call H)) :=
  (h.act token fun c s => ((), c.close s)).map (·.2)

/-- Closes a connection and forgets it. -/
def drop (h : Hub C I H) (token : Nat) : Option (Hub C I H × List (Call H)) :=
  (h.close token).map fun (h, calls) =>
    ({ h with connections := h.connections.filter fun e => e.1 != token }, calls)

/-- Computes and keeps what a connection waits for. -/
def updateInterest (h : Hub C I H) (token : Nat) : Option (Interest × Hub C I H) :=
  (h.get? token).map fun c =>
    let c := c.updateInterest h.delays
    (c.interest, h.set token c)

/-- Whether a connection is to be given up. -/
def timedOut (h : Hub C I H) (token : Nat) : Option (Bool × Hub C I H) :=
  (h.get? token).map fun c =>
    let (late, c) := c.timedOut h.delays.now
    (late, h.set token c)

end Hub

end Switchboard
