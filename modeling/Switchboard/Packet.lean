import Switchboard.Bytes.Hex
import Switchboard.Json.Printer

namespace Switchboard

/-- What a packet carries. -/
inductive Payload where
  | raw (bytes : Bytes)
  | text (text : String)
  | value (value : Json)
  deriving Repr

namespace Payload

def asText : Payload → Option String
  | text t => some t
  | _ => none

def asValue : Payload → Option Json
  | value v => some v
  | _ => none

def isRaw : Payload → Bool
  | raw _ => true
  | _ => false

def same : Payload → Payload → Bool
  | raw a, raw b => a == b
  | text a, text b => a == b
  | value a, value b => a == b
  | _, _ => false

instance : BEq Payload := ⟨same⟩

/-- The kind of a payload and what it holds, for messages. -/
def describe : Payload → String
  | raw bytes => "raw " ++ Bytes.toHex bytes
  | text t => "text " ++ t
  | value v => "value " ++ v.toText

end Payload

/-- A unit of application data and the id of the connection it came from or goes to. -/
structure Packet where
  source : String
  payload : Payload
  deriving Repr

namespace Packet

def withPayload (p : Packet) (payload : Payload) : Packet := { p with payload }

def withSource (p : Packet) (source : String) : Packet := { p with source }

def describe (p : Packet) : String := p.source ++ " " ++ p.payload.describe

end Packet

end Switchboard
