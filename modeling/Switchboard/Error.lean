import Switchboard.Bytes.Hex
import Switchboard.Charset.Basic
import Switchboard.Json.Printer

namespace Switchboard

/-- Why bytes are no text or no packets. -/
inductive DecodeError where
  | nonAscii (octet : UInt8)
  | malformedUtf8 (octets : Nat) (index : Nat)
  | truncatedUtf8 (index : Nat)
  | corruptDeflate
  deriving DecidableEq, Repr

inductive EncodeError where
  | unrepresentable (char : Char) (charset : Charset)
  | schedulerStopped
  deriving DecidableEq, Repr

/-- A packet was refused and its connection with it. -/
structure AuthenticationFailure where
  connectionId : String
  reason : String
  deriving DecidableEq, Repr

inductive ConfigError where
  | emptyDelimiter
  | emptyLineDelimiter
  | zeroLineLength
  | deflateLevel (level : UInt32)
  | emptyListenerId
  | emptyHandlerKind (listener : String) (config : Json)
  | inListener (listener : String) (cause : ConfigError)
  | foreignUpdate (update live : String)
  | alreadyBound (listener : String)
  deriving Repr

inductive Error where
  | io
  | closed
  | decode (cause : DecodeError)
  | encode (cause : EncodeError)
  | authentication (failure : AuthenticationFailure)
  | unchangeable (listener property : String)
  | unknownListener (listener : String)
  | construction (component tag reason : String)
  | config (cause : ConfigError)
  deriving Repr

def DecodeError.message : DecodeError → String
  | nonAscii b => "non-ascii byte 0x" ++ Bytes.toHex [b]
  | malformedUtf8 n i =>
    "invalid utf-8 sequence of " ++ toString n ++ " bytes from index " ++ toString i
  | truncatedUtf8 i => "incomplete utf-8 byte sequence from index " ++ toString i
  | corruptDeflate => "deflate decompression error"

def EncodeError.message : EncodeError → String
  | unrepresentable c charset => Text.quotedChar c ++ " cannot be encoded as " ++ charset.title
  | schedulerStopped => "delay scheduler is stopped"

def AuthenticationFailure.message (f : AuthenticationFailure) : String :=
  "authentication failed for " ++ f.connectionId ++ ": " ++ f.reason

/-- What every message about a configuration starts with. -/
def configHeading : String := "invalid configuration: "

def ConfigError.message : ConfigError → String
  | emptyDelimiter => "delimiter must not be empty"
  | emptyLineDelimiter => "line delimiter must not be empty"
  | zeroLineLength => "max_line_length must be positive"
  | deflateLevel level => "deflate level " ++ toString level.toNat ++ " is outside 0..=9"
  | emptyListenerId => "listener id must not be empty"
  | emptyHandlerKind id config =>
    "listener " ++ id ++ ": handler type must not be empty (" ++ config.describe ++ ")"
  | inListener id cause => "listener " ++ id ++ ": " ++ configHeading ++ cause.message
  | foreignUpdate update live => "update for " ++ update ++ " applied to listener " ++ live
  | alreadyBound id => "listener " ++ id ++ " is already bound"

def Error.message : Error → String
  | io => "io error"
  | closed => "connection is closed"
  | decode cause => "decode error: " ++ cause.message
  | encode cause => "encode error: " ++ cause.message
  | authentication failure => failure.message
  | unchangeable id property =>
    "listener " ++ id ++ ": property `" ++ property ++ "` cannot be changed without rebinding"
  | unknownListener id => "unknown listener " ++ id
  | construction component tag reason =>
    "failed to construct " ++ component ++ " `" ++ tag ++ "`: " ++ reason
  | config cause => configHeading ++ cause.message

theorem bind_eq_ok {ε α β : Type} {x : Except ε α} {f : α → Except ε β} {b : β} :
    x >>= f = .ok b ↔ ∃ a, x = .ok a ∧ f a = .ok b := by
  cases x <;> simp [bind, Except.bind]

end Switchboard
