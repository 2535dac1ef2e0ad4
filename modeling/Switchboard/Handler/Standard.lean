import Switchboard.Handler
import Switchboard.Text.Uppercase
import Switchboard.Utf8

namespace Switchboard

/-- The handlers that come with the server. -/
inductive StandardHandler where
  /-- Sends every packet back. -/
  | echo
  /-- Sends every text back in capitals, with `opening` in front. -/
  | uppercase (opening : String)
  /-- Tells everything to the others in the room. -/
  | chat
  deriving DecidableEq, Repr

namespace StandardHandler

def name : StandardHandler → String
  | echo => "EchoHandler"
  | uppercase _ => "UppercaseHandler"
  | chat => "ChatHandler"

/-- A payload as a line of talk. -/
def spoken : Payload → String
  | .text t => t
  | .value v => v.toText
  | .raw bytes => Utf8.decodeReplacing bytes

def requests (p : Packet) : StandardHandler → List Request
  | echo => [.reply p]
  | uppercase opening => match p.payload with
    | .text t => [.reply (p.withPayload (.text (opening ++ Text.uppercase t)))]
    | _ => []
  | chat => [.say (spoken p.payload)]

instance : Handler StandardHandler where
  name := name
  active h _ := { handler := h, requests := if h = chat then [.join] else [] }
  read h _ p := { handler := h, requests := h.requests p }
  takeBuffered h _ := { handler := h }
  pending _ := false
  close h _ := { handler := h, requests := if h = chat then [.leave] else [] }

end StandardHandler

end Switchboard
