import Switchboard.Inspector
import Switchboard.Json.Parser
import Switchboard.Json.Reader

namespace Switchboard

/-- The description of an inspector; times are in milliseconds, and zero means no limit. -/
inductive InspectorConfig where
  | passThrough
  | idleTimeout (timeout : UInt64)
  | tokenAuth (secret : String) (timeout : UInt64)
  deriving DecidableEq, Repr

namespace InspectorConfig

instance : Inhabited InspectorConfig := ⟨passThrough⟩

def tags : List String := ["pass_through", "idle_timeout", "token_auth"]

def tag : InspectorConfig → String
  | passThrough => "pass_through"
  | idleTimeout _ => "idle_timeout"
  | tokenAuth .. => "token_auth"

def build (c : InspectorConfig) (peer : Peer) (now : Time) : BuiltInspector :=
  match c with
  | passThrough => .passThrough peer.text
  | idleTimeout ms => .idleTimeout (.new peer (some ms.toNat) now)
  | tokenAuth secret ms => .tokenAuth { idle := .new peer (some ms.toNat) now, peer, secret }

def toJson : InspectorConfig → Json
  | passThrough => .ofFields [("type", .str "pass_through")]
  | idleTimeout ms => .ofFields [("type", .str "idle_timeout"), ("timeout_ms", .num (.natural ms))]
  | tokenAuth secret ms => .ofFields
      [("type", .str "token_auth"), ("secret", .str secret), ("timeout_ms", .num (.natural ms))]

def read? (room : Nat) (d : Document) : Option InspectorConfig := do
  let (place, rest) ← d.tagged? false tags room
  match place with
  | 0 => match rest with
    | .arr (_ :: _) => none
    | _ => some passThrough
  | 1 => match ← rest.slots? ["timeout_ms"] with
    | [ms] => (Document.orElse? ms Document.uint64? 0).map idleTimeout
    | _ => none
  | 2 => match ← rest.slots? ["secret", "timeout_ms"] with
    | [some secret, ms] =>
      return tokenAuth (← secret.text?) (← Document.orElse? ms Document.uint64? 0)
    | _ => none
  | _ => none

def ofText? (s : String) : Option InspectorConfig :=
  (Document.ofText? s).bind (read? Document.nestingLimit)

end InspectorConfig

end Switchboard
