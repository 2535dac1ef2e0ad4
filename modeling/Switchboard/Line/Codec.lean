import Switchboard.Charset
import Switchboard.Codec
import Switchboard.Framer
import Switchboard.Json.Parser
import Switchboard.Line.Config
import Switchboard.Outbox
import Switchboard.Text.Blank

namespace Switchboard

/-- What becomes of one line from a source; nothing drops the line. -/
abbrev LineHook := (source line : String) → Option Payload

namespace LineHook

/-- Every line is a text. -/
def text : LineHook := fun _ line => some (.text line)

/-- Every line is a JSON text; blank lines and other texts are dropped. -/
def json : LineHook := fun _ line =>
  if line.toList.all Text.isBlank then none else (Json.ofText? line).map .value

end LineHook

/-- A codec for records that end in a delimiter. -/
structure LineCodec where
  config : LineConfig
  hook : LineHook
  framer : Framer
  output : Outbox := .empty

namespace LineCodec

def new (config : LineConfig) (hook : LineHook) : Except Error LineCodec := do
  match config.validate with
  | .error cause => throw (.config cause)
  | .ok () => pure ()
  let delimiter ← config.charset.encode .strict config.delimiter
  let framer ← Framer.new delimiter
  let framer := match config.maxLineLength with
    | some limit => framer.withLimit limit.toNat
    | none => framer
  return { config, hook, framer }

def delimiter (c : LineCodec) : Bytes := c.framer.delimiter

/-- The record without the carriage return at its end, if that is to be dropped. -/
def stripped (config : LineConfig) (record : Bytes) : Bytes :=
  if config.stripCarriageReturn ∧ record.getLast? = some 0x0D then record.dropLast else record

/-- The packet a record stands for; one that is no text under the policy stands for none. -/
def decodeRecord (config : LineConfig) (hook : LineHook) (source : String) (record : Bytes) :
    Option Packet :=
  match config.charset.decode config.errorPolicy (stripped config record) with
  | .ok line => (hook source line).map fun payload => ⟨source, payload⟩
  | .error _ => none

def decode (c : LineCodec) (source : String) (bytes : Bytes) : List Packet × LineCodec :=
  let (packets, framer) :=
    c.framer.frame (fun record => (decodeRecord c.config c.hook source record).toList) bytes
  (packets, { c with framer })

/-- The bytes of a payload, without the delimiter. -/
def payloadBytes (config : LineConfig) : Payload → Except Error Bytes
  | .raw bytes => .ok bytes
  | .text text => config.charset.encode config.errorPolicy text
  | .value value => config.charset.encode config.errorPolicy value.toText

/-- Queues the packet and the delimiter, or neither. -/
def encode (c : LineCodec) (p : Packet) : Except Error LineCodec := do
  let bytes ← payloadBytes c.config p.payload
  return { c with output := (c.output.push bytes).push c.delimiter }

def read (c : LineCodec) (n : Nat) : Bytes × LineCodec :=
  let (bytes, output) := c.output.read n
  (bytes, { c with output })

def pending (c : LineCodec) : Bool := !c.output.isEmpty

def close (c : LineCodec) : LineCodec := { c with framer := c.framer.clear, output := .empty }

def drain (c : LineCodec) : Bytes × LineCodec :=
  (c.output.toBytes, { c with output := .empty })

instance instCodec : Codec LineCodec where
  decode c source bytes :=
    let (packets, c) := c.decode source bytes
    (.ok packets, c)
  encode c p s := match c.encode p with
    | .ok c => (.ok (), c, s)
    | .error e => (.error e, c, s)
  read c n s :=
    let (bytes, c) := c.read n
    (bytes, c, s)
  drain c s :=
    let (bytes, c) := c.drain
    (bytes, c, s)
  pending c _ := c.pending
  setWaker c _ := c
  close c s := (c.close, s)
  release _ s := s

end LineCodec

end Switchboard
