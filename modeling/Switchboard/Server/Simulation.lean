import Switchboard.Network.Loopback
import Switchboard.Server.Iteration

namespace Switchboard

/-- A client of a simulated server. -/
structure Client where
  name : String
  peer : Peer
  codec : Option BuiltCodec := none
  /-- How many bytes it has received. -/
  received : Nat := 0
  /-- What it has received and nobody has looked at. -/
  fresh : Bytes := []
  /-- Whether the server is done with it. -/
  ended : Bool := false
  endSeen : Bool := false

/-- What has become of a client since somebody looked at it. -/
structure News where
  /-- Whether it has seen the end. -/
  ended : Bool
  bytes : Bytes
  /-- The packets in the bytes, if there are any and the client has a codec. -/
  packets : Option (Except Error (List Packet)) := none

namespace Client

def new (name : String) (peer : Peer) (codec : Option CodecConfig) : Except Error Client := do
  match codec with
  | none => return { name, peer }
  | some config =>
    let (codec, _) ← BuiltCodec.build config false 0
    return { name, peer, codec := some codec }

/-- The bytes for a packet, if the client has a codec. -/
def encode (c : Client) (p : Packet) : Option (Bytes × Client) :=
  c.codec.map fun codec =>
    let (_, codec, s) := Codec.encode codec p {}
    let (bytes, codec, _) := Codec.drain codec s
    (bytes, { c with codec := some codec })

def takeNews (c : Client) : News × Client :=
  let ended := c.ended && !c.endSeen
  let seen := { c with fresh := [], endSeen := c.ended }
  match c.codec, c.fresh with
  | some codec, _ :: _ =>
    let (result, codec) := Codec.decode codec "peer" c.fresh
    (⟨ended, c.fresh, some result⟩, { seen with codec := some codec })
  | _, bytes => (⟨ended, bytes, none⟩, seen)

end Client

/-- A server and its clients on one host. -/
structure Simulation (T H : Type) where
  server : Server Loopback T H
  clients : List Client := []
  /-- How many clients there were so far. -/
  calls : Nat := 0

namespace Simulation

variable {T H : Type}

def setServer (r : Simulation T H) (server : Server Loopback T H) : Simulation T H :=
  { r with server }

def setNetwork (r : Simulation T H) (network : Loopback) : Simulation T H :=
  { r with server := { r.server with network } }

def client? (r : Simulation T H) (name : String) : Option Client :=
  r.clients.find? fun c => c.name == name

def setClient (r : Simulation T H) (c : Client) : Simulation T H :=
  { r with clients := r.clients.map fun d => if d.name = c.name then c else d }

/-- Lets a client read what has arrived. -/
def collectFor (r : Simulation T H) (c : Client) : Simulation T H :=
  let (arrival, network) := r.server.network.collect c.peer
  (r.setNetwork network).setClient { c with
    fresh := c.fresh ++ arrival.bytes
    received := c.received + arrival.bytes.length
    ended := arrival.ended }

def collect (r : Simulation T H) : Simulation T H := r.clients.foldl collectFor r

variable [ListenerSource T] [Handler H]

/-- One round of the server after some waiting, then the clients read. -/
def iterate (r : Simulation T H) : Simulation T H :=
  collect { r with server := (r.server.elapse r.server.config.pollTimeout).iterate }

def iterations : (rounds : Nat) → Simulation T H → Simulation T H
  | 0, r => r
  | n + 1, r => iterations n r.iterate

/-- What the clients have received, and how many have seen the end. -/
def progress (r : Simulation T H) : Nat × Nat :=
  (r.clients.foldr (fun c n => c.received + n) 0, (r.clients.filter (·.ended)).length)

/-- More rounds than anything awaited takes. -/
def patience : Nat := 100000

def pumpUpTo : (fuel quiet : Nat) → Simulation T H → Simulation T H
  | 0, _, r => r
  | fuel + 1, quiet, r =>
    let next := r.iterate
    if next.progress ≠ r.progress then pumpUpTo fuel 0 next
    else if quiet = 3 then next
    else pumpUpTo fuel (quiet + 1) next

/-- Goes on until the clients have received nothing for several rounds. -/
def pump (r : Simulation T H) : Simulation T H := pumpUpTo patience 0 r

def untilUpTo (done : Client → Bool) (name : String) : (fuel : Nat) → Simulation T H →
    Simulation T H
  | 0, r => r
  | fuel + 1, r =>
    if (r.client? name).all done then r else untilUpTo done name fuel r.iterate

/-- Goes on until something is true of a client, and then until nothing moves. -/
def pumpUntil (r : Simulation T H) (name : String) (done : Client → Bool) : Simulation T H :=
  (untilUpTo done name patience r).pump

/-- A client calls the listener at an address. -/
def connect (r : Simulation T H) (address : Address) (client : Client) :
    Except DialError (Simulation T H) := do
  let network ← r.server.network.dial address client.peer
  return { r.setNetwork network with
    clients := client :: r.clients
    calls := r.calls + 1 }.pump

/-- A client sends bytes; `last` ends its side. -/
def send (r : Simulation T H) (client : Client) (bytes : Bytes) (last : Bool) : Simulation T H :=
  (r.setNetwork (r.server.network.submit client.peer bytes last)).pump

/-- The server shuts down, and the clients read what is left. -/
def shutdown (r : Simulation T H) : Simulation T H := (r.setServer r.server.shutdown).collect

/-- A client goes away and is forgotten. -/
def hangUp (r : Simulation T H) (client : Client) : Simulation T H :=
  { r.setNetwork (r.server.network.hangUp client.peer) with
    clients := r.clients.filter fun c => c.name != client.name }.pump

end Simulation

end Switchboard
