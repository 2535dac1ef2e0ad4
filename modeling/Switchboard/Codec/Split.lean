import Switchboard.Codec

namespace Switchboard

/-- One codec for what comes in and another for what goes out. -/
structure Split (D E : Type) where
  decoder : D
  encoder : E

namespace Split

variable {D E : Type} [Codec D] [Codec E]

instance instCodec : Codec (Split D E) where
  decode c source bytes :=
    let (result, decoder) := Codec.decode c.decoder source bytes
    (result, { c with decoder })
  encode c p s :=
    let (result, encoder, s) := Codec.encode c.encoder p s
    (result, { c with encoder }, s)
  read c n s :=
    let (bytes, encoder, s) := Codec.read c.encoder n s
    (bytes, { c with encoder }, s)
  drain c s :=
    let (bytes, encoder, s) := Codec.drain c.encoder s
    (bytes, { c with encoder }, s)
  pending c s := Codec.pending c.encoder s
  setWaker c w := { c with encoder := Codec.setWaker c.encoder w }
  close c s :=
    let (decoder, s) := Codec.close c.decoder s
    let (encoder, s) := Codec.close c.encoder s
    (⟨decoder, encoder⟩, s)
  release c s := Codec.release c.encoder (Codec.release c.decoder s)

end Split

end Switchboard
