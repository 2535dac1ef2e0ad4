import Switchboard.Codec

namespace Switchboard

/-- A codec whose packets are changed after they were decoded. -/
structure Mapped (C : Type) where
  inner : C
  change : Packet → Packet

namespace Mapped

variable {C : Type} [Codec C]

instance instCodec : Codec (Mapped C) where
  decode c source bytes :=
    let (result, inner) := Codec.decode c.inner source bytes
    (result.map fun ps => ps.map c.change, { c with inner })
  encode c p s :=
    let (result, inner, s) := Codec.encode c.inner p s
    (result, { c with inner }, s)
  read c n s :=
    let (bytes, inner, s) := Codec.read c.inner n s
    (bytes, { c with inner }, s)
  drain c s :=
    let (bytes, inner, s) := Codec.drain c.inner s
    (bytes, { c with inner }, s)
  pending c s := Codec.pending c.inner s
  setWaker c w := { c with inner := Codec.setWaker c.inner w }
  close c s :=
    let (inner, s) := Codec.close c.inner s
    ({ c with inner }, s)
  release c s := Codec.release c.inner s

end Mapped

end Switchboard
