import Switchboard.Bytes

namespace Switchboard

namespace Bytes

/-- The value of a hexadecimal digit of either case. -/
def digitValue? (c : Char) : Option Nat :=
  if '0' ≤ c ∧ c ≤ '9' then some (c.toNat - '0'.toNat)
  else if 'a' ≤ c ∧ c ≤ 'f' then some (c.toNat - 'a'.toNat + 10)
  else if 'A' ≤ c ∧ c ≤ 'F' then some (c.toNat - 'A'.toNat + 10)
  else none

/-- Two small digits for each octet. -/
def toHex (bytes : Bytes) : String :=
  String.ofList (bytes.flatMap fun b => [Nat.digitChar (b.toNat / 16), Nat.digitChar (b.toNat % 16)])

def ofHexDigits? : List Char → Option Bytes
  | [] => some []
  | a :: b :: rest => do
    let high ← digitValue? a
    let low ← digitValue? b
    return UInt8.ofNat (high * 16 + low) :: (← ofHexDigits? rest)
  | [_] => none

def ofHex? (s : String) : Option Bytes := ofHexDigits? s.toList

end Bytes

end Switchboard
