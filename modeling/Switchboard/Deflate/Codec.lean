import Switchboard.Codec
import Switchboard.Deflate.Compressor

namespace Switchboard

open Deflate

/-- Another codec behind raw DEFLATE: input is inflated for it, its output is compressed. -/
structure Deflated (K C : Type) [Compressor K] where
  inner : C
  level : Nat
  compressor : K := Compressor.start level
  inflater : Inflater := {}
  output : Outbox := .empty

namespace Deflated

variable {K C : Type} [Compressor K] [Codec C]

/-- Gives plain octets to the inner codec, if there are any. -/
def decodePlain (source : String) (inner : C) (plain : Bytes) : Except Error (List Packet) × C :=
  if plain.isEmpty then (.ok [], inner) else Codec.decode inner source plain

/-- Inflates the input block by block and gives each block to the inner codec, with the packets so
far in reverse. A stream that ends is followed by the next one; an error loses the packets and the
rest of the input. -/
def inflateAll (source : String) (c : Deflated K C) (input : Bytes) (packets : List Packet) :
    Except Error (List Packet) × Deflated K C :=
  match h : c.inflater.nextBlock input with
  | none => (.error (.decode .corruptDeflate), { c with inflater := { stage := .corrupt } })
  | some block =>
    match decodePlain source c.inner block.plain with
    | (.error e, inner) =>
      (.error e, { c with inner, inflater := if block.ended then {} else block.inflater })
    | (.ok more, inner) =>
      let packets := more.reverseAux packets
      if hended : block.ended then
        let c := { c with inner, inflater := {} }
        if block.input.isEmpty then (.ok packets.reverse, c)
        else
          have := Inflater.nextBlock_ended h hended
          inflateAll source c block.input packets
      else
        let c := { c with inner, inflater := block.inflater }
        if block.plain.length < Inflater.blockSize ∧ block.input.isEmpty then
          (.ok packets.reverse, c)
        else if hstuck : block.plain.isEmpty ∧ block.input.length = input.length then
          (.ok packets.reverse, c)
        else
          have := Inflater.nextBlock_moved h hstuck
          inflateAll source c block.input packets
termination_by c.inflater.outlook input

def decode (c : Deflated K C) (source : String) (bytes : Bytes) :
    Except Error (List Packet) × Deflated K C :=
  c.inflateAll source bytes []

/-- Compresses what the inner codec gives, read by read, until a read gives nothing or a call of
the compressor fails; tells whether there was anything to compress, and nothing when one failed. -/
def compressReads : (fuel : Nat) → Deflated K C → DelayService →
    Option Bool × Deflated K C × DelayService
  | 0, c, s => (some false, c, s)
  | fuel + 1, c, s =>
    let (plain, inner, s) := Codec.read c.inner Inflater.blockSize s
    if plain.isEmpty then (some false, { c with inner }, s)
    else match deflateInto c.compressor plain .none c.output with
      | (false, compressor, output) => (none, { c with inner, compressor, output }, s)
      | (true, compressor, output) =>
        let (result, c, s) := compressReads fuel { c with inner, compressor, output } s
        (result.map fun _ => true, c, s)

/-- Compresses all output of the inner codec and flushes the compressor behind it. Every read but
the last takes an octet of the output. -/
def collect (c : Deflated K C) (s : DelayService) : Deflated K C × DelayService :=
  match c.compressReads ((Codec.drain c.inner s).1.length + 1) s with
  | (some true, c, s) =>
    let (_, compressor, output) := deflateInto c.compressor [] .sync c.output
    ({ c with compressor, output }, s)
  | (_, c, s) => (c, s)

instance instCodec : Codec (Deflated K C) where
  decode := decode
  encode c p s :=
    let (result, inner, s) := Codec.encode c.inner p s
    (result, { c with inner }, s)
  read c n s :=
    let (c, s) := c.collect s
    let (bytes, output) := c.output.read n
    (bytes, { c with output }, s)
  drain c s :=
    let (c, s) := c.collect s
    (c.output.toBytes, { c with output := .empty }, s)
  pending c s := !c.output.isEmpty || Codec.pending c.inner s
  setWaker c w := { c with inner := Codec.setWaker c.inner w }
  close c s :=
    let (inner, s) := Codec.close c.inner s
    ({ inner, level := c.level }, s)
  release c s := Codec.release c.inner s

end Deflated

end Switchboard
