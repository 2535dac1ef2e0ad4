import Switchboard.Delay.Service
import Switchboard.Error

namespace Switchboard

/-- What stands between the bytes of a connection and its packets: bytes become packets at once,
packets become bytes that wait until they are taken. -/
class Codec (C : Type) where
  /-- Takes bytes of a source and gives the packets they complete. -/
  decode : C → (source : String) → Bytes → Except Error (List Packet) × C
  /-- Queues a packet for output. -/
  encode : C → Packet → DelayService → Except Error Unit × C × DelayService
  /-- Takes at most `n` bytes of output. -/
  read : C → (n : Nat) → DelayService → Bytes × C × DelayService
  /-- Takes all output there is. -/
  drain : C → DelayService → Bytes × C × DelayService
  /-- Whether output waits, as bytes or as packets about to become bytes. -/
  pending : C → DelayService → Bool
  /-- Sets who is told of output that becomes available later. -/
  setWaker : C → Waker → C
  /-- Drops what is buffered. -/
  close : C → DelayService → C × DelayService
  /-- The codec is given up: nothing can reach it any more. -/
  release : C → DelayService → DelayService

namespace Codec

variable {C : Type} [Codec C]

/-- Reads of at most `n` bytes each, until one yields nothing. -/
def readsUpTo (n : Nat) : (fuel : Nat) → C → DelayService → List Bytes × C × DelayService
  | 0, c, s => ([], c, s)
  | fuel + 1, c, s =>
    let (bytes, c, s) := read c n s
    if bytes.isEmpty then ([], c, s)
    else
      let (more, c, s) := readsUpTo n fuel c s
      (bytes :: more, c, s)

/-- Takes all output in reads of at most `n` bytes; every read but the last takes a byte. -/
def reads (n : Nat) (c : C) (s : DelayService) : List Bytes × C × DelayService :=
  readsUpTo n ((drain c s).1.length + 1) c s

/-- Encodes packets in turn; one that cannot be encoded is dropped. -/
def encodeEach : List Packet → C → DelayService → C × DelayService
  | [], c, s => (c, s)
  | p :: ps, c, s =>
    let (_, c, s) := encode c p s
    encodeEach ps c s

/-- Decodes chunks in turn; the first error ends it. -/
def decodeChunks (source : String) : List Bytes → C → Except Error (List Packet) × C
  | [], c => (.ok [], c)
  | chunk :: chunks, c =>
    match decode c source chunk with
    | (.error e, c) => (.error e, c)
    | (.ok packets, c) => match decodeChunks source chunks c with
      | (.error e, c) => (.error e, c)
      | (.ok more, c) => (.ok (packets ++ more), c)

end Codec

end Switchboard
