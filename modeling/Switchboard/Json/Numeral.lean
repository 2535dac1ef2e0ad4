import Switchboard.Json.Basic

namespace Switchboard

/-- The spelling of a number: digits are given by their values. -/
structure Numeral where
  negative : Bool
  whole : List Nat
  fraction : Option (List Nat)
  /-- Whether the exponent has a minus sign, and its digits. -/
  exponent : Option (Bool × List Nat)

namespace Numeral

/-- Takes digits into a 64-bit significand until one does not fit, and returns what is left. -/
def accumulate : (significand : Nat) → List Nat → Nat × List Nat
  | s, [] => (s, [])
  | s, d :: ds => if s * 10 + d < UInt64.size then accumulate (s * 10 + d) ds else (s, d :: ds)

/-- The powers of ten a double can be scaled by in one step. -/
def tenTo (k : Nat) : Binary64 := (Binary64.ofNat? (Nat.pow 10 k)).getD .zero

/-- Scales by at most `10 ^ 308` at a time, rounding after each step; nothing when the result is
past the greatest double. -/
def scaleByTen : (fuel : Nat) → Binary64 → Int → Option Binary64
  | 0, x, _ => some x
  | fuel + 1, x, e =>
    if 308 < e.natAbs then
      if x.isZero then some x
      else if 0 ≤ e then none
      else (x.div? (tenTo 308)).bind fun y => scaleByTen fuel y (e + 308)
    else if 0 ≤ e then x.mul? (tenTo e.natAbs)
    else x.div? (tenTo e.natAbs)

/-- `significand * 10 ^ e` as two roundings give it: one of the significand, one of each scaling. -/
def magnitude (significand : Nat) (e : Int) : Option Binary64 :=
  (Binary64.ofNat? significand).bind fun x => scaleByTen 8 x e

def signed (negative : Bool) (x : Binary64) : Binary64 :=
  if negative then x.neg else x

/-- A whole number without fraction or exponent stays exact where 64 bits hold it; minus zero is a
double. -/
def ofWhole (negative : Bool) (n : Nat) : Option JsonNumber :=
  if !negative then some (.natural (UInt64.ofNat n))
  else match n with
    | 0 => some (.double Binary64.zero.neg)
    | k + 1 =>
      if h : k < 9223372036854775808 then some (.negative ⟨k, h⟩)
      else (magnitude n 0).map fun x => .double x.neg

/-- The exponent of ten written after the digits, unless it has too many digits to matter. -/
def writtenExponent : List Nat → Option Nat
  | ds => ds.foldl (fun acc d => acc.bind fun e =>
      if e * 10 + d < Nat.pow 2 31 then some (e * 10 + d) else none) (some 0)

/-- The number spelled, or nothing when it is past the greatest double. -/
def value? (n : Numeral) : Option JsonNumber :=
  let (s, unread) := accumulate 0 n.whole
  match n.fraction, n.exponent, unread with
  | none, none, [] => ofWhole n.negative s
  | fraction, exponent, unread =>
    let digits := fraction.getD []
    let (s, skipped) := accumulate s digits
    let e : Int := unread.length - (digits.length - skipped.length : Nat)
    match exponent with
    | none => (magnitude s e).map fun x => .double (signed n.negative x)
    | some (minus, ds) => match writtenExponent ds with
      | none =>
        if s ≠ 0 ∧ !minus then none else some (.double (signed n.negative .zero))
      | some k =>
        (magnitude s (if minus then e - k else e + k)).map fun x => .double (signed n.negative x)

end Numeral

end Switchboard
