import Switchboard.Error
import Switchboard.Json.Reader

namespace Switchboard

/-- The settings of a codec for records that end in a delimiter. -/
structure LineConfig where
  charset : Charset := .utf8
  errorPolicy : ErrorPolicy := .replace
  /-- Written with `charset` on the wire. -/
  delimiter : String := "\n"
  /-- The most bytes an open record may have between two chunks. -/
  maxLineLength : Option UInt64 := none
  /-- Whether a carriage return in front of the delimiter is dropped. -/
  stripCarriageReturn : Bool := false
  deriving DecidableEq, Repr

namespace LineConfig

def validate (c : LineConfig) : Except ConfigError Unit :=
  if c.delimiter.isEmpty then .error .emptyLineDelimiter
  else if c.maxLineLength = some 0 then .error .zeroLineLength
  else .ok ()

def fields (c : LineConfig) : List (String × Json) :=
  [("charset", .str c.charset.name),
   ("delimiter", .str c.delimiter),
   ("error_policy", .str c.errorPolicy.name),
   ("max_line_length", match c.maxLineLength with
     | some n => .num (.natural n)
     | none => .null),
   ("strip_carriage_return", .bool c.stripCarriageReturn)]

def toJson (c : LineConfig) : Json := .ofFields c.fields

end LineConfig

def Charset.names : List (String × Charset) :=
  [("utf8", .utf8), ("utf-8", .utf8), ("ascii", .ascii), ("us-ascii", .ascii),
   ("latin1", .latin1), ("iso-8859-1", .latin1)]

def ErrorPolicy.names : List (String × ErrorPolicy) :=
  [("replace", .replace), ("ignore", .ignore), ("strict", .strict)]

def Charset.read? (inner : Bool) (d : Document) : Option Charset := d.constant? inner names

def ErrorPolicy.read? (inner : Bool) (d : Document) : Option ErrorPolicy :=
  d.constant? inner names

/-- The settings in a document; `inner` tells that it is part of a tagged object. -/
def LineConfig.read? (inner : Bool) (d : Document) : Option LineConfig := do
  match ← d.slots? ["charset", "error_policy", "delimiter", "max_line_length",
      "strip_carriage_return"] with
  | [charset, policy, delimiter, limit, strip] =>
    let standard : LineConfig := {}
    let charset ← Document.orElse? charset (Charset.read? inner) standard.charset
    let errorPolicy ← Document.orElse? policy (ErrorPolicy.read? inner) standard.errorPolicy
    let delimiter ← Document.orElse? delimiter Document.text? standard.delimiter
    let maxLineLength ← Document.orElse? limit (Document.optional? Document.uint64?) none
    let stripCarriageReturn ← Document.orElse? strip Document.flag? false
    return { charset, errorPolicy, delimiter, maxLineLength, stripCarriageReturn }
  | _ => none

end Switchboard
