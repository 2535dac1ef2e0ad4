import Switchboard.Codec

namespace Switchboard

/-- Another codec that sees every packet for output only after a delay; input is not delayed. -/
structure Delayed (C : Type) where
  inner : C
  /-- In microseconds. -/
  delay : Nat
  /-- The key of the channel on which the packets come back. -/
  key : Nat
  waker : Option Waker := none

namespace Delayed

variable {C : Type} [Codec C]

/-- Encodes the packets whose delay is over. -/
def takeDue (c : Delayed C) (s : DelayService) : Delayed C × DelayService :=
  let (due, s) := s.takeDue c.key
  let (inner, s) := Codec.encodeEach due c.inner s
  ({ c with inner }, s)

instance instCodec : Codec (Delayed C) where
  decode c source bytes :=
    let (result, inner) := Codec.decode c.inner source bytes
    (result, { c with inner })
  encode c p s :=
    let (accepted, s) := s.submit c.delay p ⟨c.key, c.waker⟩
    (if accepted then .ok () else .error (.encode .schedulerStopped), c, s)
  read c n s :=
    let (c, s) := c.takeDue s
    let (bytes, inner, s) := Codec.read c.inner n s
    (bytes, { c with inner }, s)
  drain c s :=
    let (c, s) := c.takeDue s
    let (bytes, inner, s) := Codec.drain c.inner s
    (bytes, { c with inner }, s)
  pending c s := s.hasDue c.key || Codec.pending c.inner s
  setWaker c w := { c with inner := Codec.setWaker c.inner w, waker := some w }
  close c s :=
    let (_, s) := s.takeDue c.key
    let (inner, s) := Codec.close c.inner s
    ({ c with inner }, s)
  release c s := Codec.release c.inner (s.disconnect c.key)

end Delayed

end Switchboard
