import Switchboard.Error
import Switchboard.Framer.Border

namespace Switchboard

/-- Cuts a byte stream into records, each ended by the delimiter. The bytes of the record that is
still open are held with the last byte first, and `depth` of them may begin a delimiter. -/
structure Framer where
  borders : BorderTable UInt8
  limit : Option Nat := none
  held : List UInt8 := []
  depth : Nat := 0

namespace Framer

def new (delimiter : Bytes) : Except Error Framer :=
  if delimiter.isEmpty then .error (.config .emptyDelimiter)
  else .ok { borders := .ofPattern delimiter }

/-- Drops an open record of more than `limit` bytes. -/
def withLimit (f : Framer) (limit : Nat) : Framer := { f with limit := some limit }

def delimiter (f : Framer) : Bytes := f.borders.pattern.toList

/-- The bytes of the open record. -/
def residual (f : Framer) : Bytes := f.held.reverse

def clear (f : Framer) : Framer := { f with held := [], depth := 0 }

/-- Takes one byte, and gives the record it ends, if it ends one. -/
def push (f : Framer) (b : UInt8) : Framer × Option Bytes :=
  let held := b :: f.held
  let depth := f.borders.advance f.depth b
  if depth = f.borders.pattern.size then
    (f.clear, some (held.drop f.borders.pattern.size).reverse)
  else ({ f with held, depth }, none)

/-- Takes one byte in front of records given with the last one first. -/
def pushOnto (s : Framer × List Bytes) (b : UInt8) : Framer × List Bytes :=
  let r := s.1.push b
  (r.1, match r.2 with
    | some record => record :: s.2
    | none => s.2)

def exceedsLimit (f : Framer) : Bool :=
  match f.limit with
  | some limit => limit < f.held.length
  | none => false

/-- Takes a chunk of bytes and gives the records it ends. -/
def split (f : Framer) (bytes : Bytes) : List Bytes × Framer :=
  let (g, records) := bytes.foldl pushOnto (f, [])
  (records.reverse, if g.exceedsLimit then g.clear else g)

/-- Takes a chunk of bytes and gives what the records it ends stand for. -/
def frame {α : Type} (f : Framer) (decode : Bytes → List α) (bytes : Bytes) : List α × Framer :=
  let (records, f) := f.split bytes
  (records.flatMap decode, f)

end Framer

end Switchboard
