import Switchboard.Json.Parser
import Switchboard.Line.Config

namespace Switchboard

/-- The description of a codec, which may be made of others. -/
inductive CodecConfig where
  /-- Records are texts. -/
  | line (config : LineConfig)
  /-- Records are JSON texts. -/
  | json (config : LineConfig)
  | deflate (level : UInt32) (inner : CodecConfig)
  | delay (milliseconds : UInt64) (inner : CodecConfig)
  | split (decoder encoder : CodecConfig)
  deriving DecidableEq, Repr

namespace CodecConfig

def standard : CodecConfig := .line {}

instance : Inhabited CodecConfig := ⟨standard⟩

/-- The kinds of codecs, by the names they are configured by. -/
def tags : List String := ["line", "json", "deflate", "delay", "split"]

def tag : CodecConfig → String
  | line _ => "line"
  | json _ => "json"
  | deflate .. => "deflate"
  | delay .. => "delay"
  | split .. => "split"

def greatestLevel : UInt32 := 9

theorem min_greatestLevel (level : UInt32) : (min level greatestLevel).toNat ≤ 9 := by
  show (if level ≤ 9 then level else 9).toNat ≤ 9
  split
  next h => exact UInt32.le_iff_toNat_le.mp h
  next => decide

def validate : CodecConfig → Except ConfigError Unit
  | line c => c.validate
  | json c => c.validate
  | deflate level inner =>
    if greatestLevel < level then .error (.deflateLevel level) else inner.validate
  | delay _ inner => inner.validate
  | split decoder encoder => do
    decoder.validate
    encoder.validate

/-- Whether a codec of this kind holds packets back. -/
def needsScheduler : CodecConfig → Bool
  | line _ => false
  | json _ => false
  | delay .. => true
  | deflate _ inner => inner.needsScheduler
  | split decoder encoder => decoder.needsScheduler || encoder.needsScheduler

def standardLevel : UInt32 := 6

def toJson : CodecConfig → Json
  | line c => .ofFields (("type", .str "line") :: c.fields)
  | json c => .ofFields (("type", .str "json") :: c.fields)
  | deflate level inner => .ofFields
      [("type", .str "deflate"), ("level", .ofNat level.toNat), ("inner", inner.toJson)]
  | delay ms inner => .ofFields
      [("type", .str "delay"), ("delay_ms", .num (.natural ms)), ("inner", inner.toJson)]
  | split decoder encoder => .ofFields
      [("type", .str "split"), ("decoder", decoder.toJson), ("encoder", encoder.toJson)]

/-- The description in a document; `inner` tells that it is itself part of a tagged object. -/
def read? (inner : Bool) : (room : Nat) → Document → Option CodecConfig
  | 0, _ => none
  | room + 1, d => do
    let (place, rest) ← d.tagged? inner tags (room + 1)
    match place with
    | 0 => (LineConfig.read? true rest).map line
    | 1 => (LineConfig.read? true rest).map json
    | 2 => match ← rest.slots? ["level", "inner"] with
      | [level, some codec] =>
        let level ← Document.orElse? level Document.uint32? standardLevel
        return deflate level (← read? true room codec)
      | _ => none
    | 3 => match ← rest.slots? ["delay_ms", "inner"] with
      | [some ms, some codec] => return delay (← ms.uint64?) (← read? true room codec)
      | _ => none
    | 4 => match ← rest.slots? ["decoder", "encoder"] with
      | [some decoder, some encoder] =>
        return split (← read? true room decoder) (← read? true room encoder)
      | _ => none
    | _ => none

/-- The description a JSON value holds. -/
def ofJson? (j : Json) : Option CodecConfig := read? false j.depth (.ofJson j)

def ofText? (s : String) : Option CodecConfig :=
  (Document.ofText? s).bind (read? false Document.nestingLimit)

end CodecConfig

end Switchboard
