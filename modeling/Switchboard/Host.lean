import Switchboard.Bytes.Hex
import Switchboard.Text.Quoted

namespace Switchboard

/-- The address of a network interface: four octets, or eight groups of sixteen bits. -/
inductive Host where
  | v4 (a b c d : UInt8)
  | v6 (groups : Vector UInt16 8)
  deriving DecidableEq, Repr

namespace Host

/-- All interfaces. -/
def unspecified : Host := v4 0 0 0 0

/-- The host itself. -/
def loopback : Host := v4 127 0 0 1

/-! Reading -/

/-- One to three decimal digits, the first of several not a zero. -/
def octet? (s : String) : Option UInt8 :=
  let cs := s.toList
  if cs.isEmpty || 3 < cs.length || !cs.all Char.isDigit then none
  else if 1 < cs.length ∧ cs.head? = some '0' then none
  else
    let n := cs.foldl (fun n c => 10 * n + (c.toNat - '0'.toNat)) 0
    if n < 256 then some (UInt8.ofNat n) else none

/-- Four octets with points between them. -/
def octets? (s : String) : Option (UInt8 × UInt8 × UInt8 × UInt8) := do
  match ← (s.splitOn ".").mapM octet? with
  | [a, b, c, d] => return (a, b, c, d)
  | _ => none

/-- One to four hexadecimal digits. -/
def group? (s : String) : Option UInt16 := do
  let digits ← s.toList.mapM Bytes.digitValue?
  if digits.isEmpty || 4 < digits.length then none
  else return UInt16.ofNat (digits.foldl (fun n d => 16 * n + d) 0)

/-- Sixteen bits from two octets, the high one first. -/
def pair (high low : UInt8) : UInt16 := UInt16.ofNat (256 * high.toNat + low.toNat)

/-- Groups with colons between them; nothing is no group. -/
def leadingGroups? (s : String) : Option (List UInt16) :=
  if s.isEmpty then some [] else (s.splitOn ":").mapM group?

/-- Groups at the end of an address, where four octets may stand for the last two. -/
def closingGroups? (s : String) : Option (List UInt16) :=
  if s.isEmpty then some []
  else
    let parts := s.splitOn ":"
    match parts.getLast?.bind octets? with
    | some (a, b, c, d) => do return (← parts.dropLast.mapM group?) ++ [pair a b, pair c d]
    | none => parts.mapM group?

/-- Eight groups; two colons stand for all that are left out, and for one at least. -/
def groups? (s : String) : Option (List UInt16) := do
  match s.splitOn "::" with
  | [all] => closingGroups? all
  | [front, back] =>
    let front ← leadingGroups? front
    let back ← closingGroups? back
    if front.length + back.length < 8 then
      return front ++ List.replicate (8 - front.length - back.length) 0 ++ back
    else none
  | _ => none

def ofText? (s : String) : Option Host :=
  match octets? s with
  | some (a, b, c, d) => some (v4 a b c d)
  | none => do
    let groups ← groups? s
    if h : groups.length = 8 then return v6 ⟨groups.toArray, by simpa using h⟩ else none

/-! Writing -/

def dotted (a b c d : UInt8) : String :=
  ".".intercalate ([a, b, c, d].map fun n => toString n.toNat)

def joinGroups (groups : List UInt16) : String :=
  ":".intercalate (groups.map fun g => Text.hexDigits g.toNat)

/-- Where the first of the longest runs of zeros begins, and its length. -/
def longestZeros (groups : List UInt16) : Nat × Nat :=
  (List.range groups.length).foldl
    (fun best i =>
      let n := ((groups.drop i).takeWhile (· == 0)).length
      if best.2 < n then (i, n) else best)
    (0, 0)

/-- Groups in small digits, the longest run of two or more zeros as two colons. -/
def compressed (groups : List UInt16) : String :=
  let (first, count) := longestZeros groups
  if 1 < count then
    joinGroups (groups.take first) ++ "::" ++ joinGroups (groups.drop (first + count))
  else joinGroups groups

/-- The one form in which an address is written; four octets that were made into groups are written
as octets again. -/
def toText : Host → String
  | v4 a b c d => dotted a b c d
  | v6 groups =>
    match groups.toList with
    | [0, 0, 0, 0, 0, 0xFFFF, g, h] =>
      "::ffff:" ++ dotted (UInt8.ofNat (g.toNat / 256)) (UInt8.ofNat g.toNat)
        (UInt8.ofNat (h.toNat / 256)) (UInt8.ofNat h.toNat)
    | gs => compressed gs

end Host

end Switchboard
