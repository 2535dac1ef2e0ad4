import Switchboard.Network

namespace Switchboard

/-- A port that someone listens on. -/
structure BoundPort where
  token : Nat
  address : Address

/-- A stream between a client and the server. -/
structure Socket where
  /-- The client's end. -/
  peer : Peer
  /-- The listener the client has called. -/
  listener : Nat
  /-- The server's end, once it is accepted. -/
  token : Option Nat := none
  /-- What the server has not read yet. -/
  inbound : Bytes := []
  /-- Whether the client sends no more. -/
  ended : Bool := false
  /-- What the client has not read yet. -/
  outbound : Bytes := []
  /-- Whether the server has closed its end. -/
  shut : Bool := false

/-- A host whose clients are on the host itself; streams have room for everything. -/
structure Loopback where
  /-- Whether the host has a route to itself. -/
  routed : Bool := true
  /-- Ports that others use. -/
  occupied : List UInt16 := []
  ports : List BoundPort := []
  sockets : List Socket := []

/-- Why a client could not call a listener. -/
inductive DialError where
  | unreachable
  | refused
  deriving DecidableEq, Repr

def DialError.message : DialError → String
  | unreachable => "Network is unreachable (os error 101)"
  | refused => "Connection refused (os error 111)"

namespace Loopback

def isFree (n : Loopback) (port : UInt16) : Bool :=
  !n.occupied.contains port && n.ports.all fun p => p.address.port != port

/-- The ports from which one is chosen when the choice is open. -/
def ephemeralPorts : List UInt16 := (List.range 16384).map fun i => UInt16.ofNat (49152 + i)

/-- The port to listen on, if there is one. -/
def choose (n : Loopback) (port : UInt16) : Option UInt16 :=
  if port = 0 then ephemeralPorts.find? n.isFree
  else if n.isFree port then some port
  else none

def bind (n : Loopback) (token : Nat) (host : Host) (port : UInt16) :
    Option Address × Loopback :=
  match n.choose port with
  | none => (none, n)
  | some port => (some ⟨host, port⟩, { n with ports := n.ports ++ [⟨token, host, port⟩] })

/-- Clients that were not accepted are turned away. -/
def release (n : Loopback) (token : Nat) : Loopback :=
  { n with
    ports := n.ports.filter fun p => p.token != token
    sockets := n.sockets.map fun s =>
      if s.listener = token ∧ s.token = none then { s with shut := true } else s }

def hasWork (s : Socket) : Bool := !s.shut && (!s.inbound.isEmpty || s.ended)

def waits (token : Nat) (s : Socket) : Bool :=
  s.listener == token && s.token.isNone && !s.shut

def ready (n : Loopback) (limit : Nat) : List Readiness :=
  let listeners := n.ports.filter fun p => n.sockets.any (waits p.token)
  let streams := n.sockets.filterMap fun s => if hasWork s then s.token else none
  ((listeners.map (·.token) ++ streams).map fun t => ⟨t, true⟩).take limit

/-- Gives the waiting clients of a listener their tokens. -/
def acceptEach (token : Nat) : (first : Nat) → List Socket → List Peer × List Socket
  | _, [] => ([], [])
  | first, s :: ss =>
    if waits token s then
      let (peers, ss) := acceptEach token (first + 1) ss
      (s.peer :: peers, { s with token := some first } :: ss)
    else
      let (peers, ss) := acceptEach token first ss
      (peers, s :: ss)

def modify (n : Loopback) (token : Nat) (f : Socket → Socket) : Loopback :=
  { n with sockets := n.sockets.map fun s => if s.token = some token then f s else s }

def socket? (n : Loopback) (token : Nat) : Option Socket :=
  n.sockets.find? fun s => s.token == some token

instance : Network Loopback where
  bind := bind
  release := release
  ready n limit := (n.ready limit, n)
  accept n token first :=
    let (peers, sockets) := acceptEach token first n.sockets
    (peers, { n with sockets })
  receive n token :=
    match n.socket? token with
    | none => (⟨[], true⟩, n)
    | some s => (⟨s.inbound, s.ended⟩, n.modify token fun s => { s with inbound := [] })
  send n token bytes :=
    match n.socket? token with
    | none => (none, n)
    | some _ =>
      (some bytes.length, n.modify token fun s => { s with outbound := s.outbound ++ bytes })
  watchRoom n _ _ := n
  shut n token := n.modify token fun s => { s with shut := true }

/-! What clients do -/

def client? (n : Loopback) (peer : Peer) : Option Socket :=
  n.sockets.find? fun s => s.peer.text == peer.text

def modifyClient (n : Loopback) (peer : Peer) (f : Socket → Socket) : Loopback :=
  { n with sockets := n.sockets.map fun s => if s.peer.text = peer.text then f s else s }

/-- Calls the listener at an address. -/
def dial (n : Loopback) (address : Address) (peer : Peer) : Except DialError Loopback :=
  if !n.routed then .error .unreachable
  else match n.ports.find? fun p => p.address == address with
    | none => .error .refused
    | some p => .ok { n with sockets := n.sockets ++ [{ peer, listener := p.token }] }

/-- Sends bytes to the server; `last` ends the client's side. -/
def submit (n : Loopback) (peer : Peer) (bytes : Bytes) (last : Bool) : Loopback :=
  n.modifyClient peer fun s =>
    if s.ended then s else { s with inbound := s.inbound ++ bytes, ended := last }

/-- Reads what the server has sent, and tells whether the server is done. -/
def collect (n : Loopback) (peer : Peer) : Arrival × Loopback :=
  match n.client? peer with
  | none => (⟨[], true⟩, n)
  | some s => (⟨s.outbound, s.shut⟩, n.modifyClient peer fun s => { s with outbound := [] })

/-- The client is gone. -/
def hangUp (n : Loopback) (peer : Peer) : Loopback :=
  n.modifyClient peer fun s => { s with ended := true, outbound := [] }

end Loopback

end Switchboard
