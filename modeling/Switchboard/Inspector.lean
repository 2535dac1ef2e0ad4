import Switchboard.Delay.Queue
import Switchboard.Error
import Switchboard.Packet
import Switchboard.Peer
import Switchboard.Text.Blank
import Switchboard.Utf8

namespace Switchboard

/-- What becomes of an inspected packet. -/
inductive Verdict where
  /-- The handlers see this packet. -/
  | pass (packet : Packet)
  | filter
  | reject (failure : AuthenticationFailure)

/-- Sees every packet of a connection before the handlers do, and says who is connected. -/
class Inspector (I : Type) where
  id : I → String
  inspect : I → (now : Time) → Packet → Verdict × I
  timedOut : I → (now : Time) → Bool × I
  pending : I → Bool
  close : I → I

/-- Tells how long a connection has been silent; without a limit it never expires. -/
structure IdleTimer where
  id : String
  /-- In microseconds. -/
  limit : Option Nat
  lastSeen : Time

namespace IdleTimer

/-- A limit of zero is no limit. -/
def new (peer : Peer) (milliseconds : Option Nat) (now : Time) : IdleTimer where
  id := peer.text
  limit := (milliseconds.filter (0 < ·)).map (· * 1000)
  lastSeen := now

def expired (t : IdleTimer) (now : Time) : Bool :=
  match t.limit with
  | some limit => limit < now - t.lastSeen
  | none => false

end IdleTimer

/-- Lets a connection in once its first packet is `user:secret`. -/
structure TokenGate where
  idle : IdleTimer
  peer : Peer
  secret : String
  authenticated : Bool := false

namespace TokenGate

/-- The text a packet offers as credentials, without the blanks around it. -/
def credentials : Payload → Option String
  | .text t => some (Text.trim t)
  | .raw bytes => (Utf8.decode? bytes).map Text.trim
  | .value (.str s) => some (Text.trim s)
  | .value _ => none

/-- What stands in front of the first colon, and what behind it. -/
def splitAtColon (cs : List Char) : Option (List Char × List Char) :=
  match cs.span (· != ':') with
  | (user, _ :: secret) => some (user, secret)
  | (_, []) => none

/-- The user that credentials name, if they hold the secret. -/
def user? (secret : String) (payload : Payload) : Option String :=
  match splitAtColon ((credentials payload).getD "").toList with
  | some (user, given) =>
    if user ≠ [] ∧ String.ofList given = secret then some (String.ofList user) else none
  | none => none

def identity (user : String) (peer : Peer) : String := user ++ "@" ++ peer.text

def inspect (g : TokenGate) (now : Time) (p : Packet) : Verdict × TokenGate :=
  let g := { g with idle := { g.idle with lastSeen := now } }
  if g.authenticated then (.pass (p.withSource g.idle.id), g)
  else match user? g.secret p.payload with
    | some user =>
      (.filter, { g with authenticated := true, idle := { g.idle with id := identity user g.peer } })
    | none => (.reject ⟨g.peer.text, "invalid credentials"⟩, g)

end TokenGate

/-- The inspectors a listener can be configured with. -/
inductive BuiltInspector where
  | passThrough (id : String)
  | idleTimeout (timer : IdleTimer)
  | tokenAuth (gate : TokenGate)

namespace BuiltInspector

def id : BuiltInspector → String
  | passThrough id => id
  | idleTimeout t => t.id
  | tokenAuth g => g.idle.id

def inspect : BuiltInspector → Time → Packet → Verdict × BuiltInspector
  | passThrough id, _, p => (.pass p, passThrough id)
  | idleTimeout t, now, p => (.pass p, idleTimeout { t with lastSeen := now })
  | tokenAuth g, now, p =>
    let (v, g) := g.inspect now p
    (v, tokenAuth g)

def expired (now : Time) : BuiltInspector → Bool
  | passThrough _ => false
  | idleTimeout t => t.expired now
  | tokenAuth g => g.idle.expired now

instance : Inspector BuiltInspector where
  id := id
  inspect := inspect
  timedOut i now := (i.expired now, i)
  pending _ := false
  close i := i

end BuiltInspector

end Switchboard
