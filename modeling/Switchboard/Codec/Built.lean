import Switchboard.Codec.Config
import Switchboard.Codec.Split
import Switchboard.Deflate.Codec
import Switchboard.Delay.Codec
import Switchboard.Line.Codec

namespace Switchboard

open Deflate

/-- The state of a codec that was built from a description, with compressors of one kind. -/
def CodecState (K : Type) [Compressor K] : CodecConfig → Type
  | .line _ => LineCodec
  | .json _ => LineCodec
  | .deflate _ inner => Deflated K (CodecState K inner)
  | .delay _ inner => Delayed (CodecState K inner)
  | .split decoder encoder => Split (CodecState K decoder) (CodecState K encoder)

namespace CodecState

variable {K : Type} [Compressor K]

instance codec : (c : CodecConfig) → Codec (CodecState K c)
  | .line _ => LineCodec.instCodec
  | .json _ => LineCodec.instCodec
  | .deflate _ inner => @Deflated.instCodec _ _ _ (codec inner)
  | .delay _ inner => @Delayed.instCodec _ (codec inner)
  | .split decoder encoder => @Split.instCodec _ _ (codec decoder) (codec encoder)

/-- Builds a codec, taking channel keys from `key` on; `scheduler` tells whether there is a worker
that can hold packets back. -/
def build (scheduler : Bool) : (c : CodecConfig) → (key : Nat) →
    Except Error (CodecState K c × Nat)
  | .line config, key => do return (← LineCodec.new config LineHook.text, key)
  | .json config, key => do return (← LineCodec.new config LineHook.json, key)
  | .deflate level inner, key => do
    let (inner, key) ← build scheduler inner key
    return ({ inner, level := (min level CodecConfig.greatestLevel).toNat }, key)
  | .delay ms inner, key =>
    if scheduler then do
      let (inner, next) ← build scheduler inner (key + 1)
      return ({ inner, delay := ms.toNat * 1000, key }, next)
    else .error (.construction "codec" "delay" "no delay scheduler is running")
  | .split decoder encoder, key => do
    let (decoder, key) ← build scheduler decoder key
    let (encoder, key) ← build scheduler encoder key
    return (⟨decoder, encoder⟩, key)

end CodecState

/-- A codec of any kind. -/
structure BuiltCodec where
  config : CodecConfig
  state : CodecState StoredBlocks config

namespace BuiltCodec

def build (config : CodecConfig) (scheduler : Bool) (key : Nat) :
    Except Error (BuiltCodec × Nat) := do
  let (state, key) ← CodecState.build scheduler config key
  return (⟨config, state⟩, key)

instance : Codec BuiltCodec where
  decode c source bytes :=
    let (result, state) := Codec.decode c.state source bytes
    (result, { c with state })
  encode c p s :=
    let (result, state, s) := Codec.encode c.state p s
    (result, { c with state }, s)
  read c n s :=
    let (bytes, state, s) := Codec.read c.state n s
    (bytes, { c with state }, s)
  drain c s :=
    let (bytes, state, s) := Codec.drain c.state s
    (bytes, { c with state }, s)
  pending c s := Codec.pending c.state s
  setWaker c w := { c with state := Codec.setWaker c.state w }
  close c s :=
    let (state, s) := Codec.close c.state s
    ({ c with state }, s)
  release c s := Codec.release c.state s

end BuiltCodec

end Switchboard
