import Switchboard.Bytes.Hex
import Switchboard.Json.Document
import Switchboard.Json.Numeral

namespace Switchboard.Document

def isSpace (c : Char) : Bool := c == ' ' || c == '\n' || c == '\t' || c == '\r'

def skipSpace (cs : List Char) : List Char := cs.dropWhile isSpace

def digitValue (c : Char) : Nat := c.toNat - '0'.toNat

def hexQuad? (a b c d : Char) : Option Nat := do
  let a ← Bytes.digitValue? a
  let b ← Bytes.digitValue? b
  let c ← Bytes.digitValue? c
  let d ← Bytes.digitValue? d
  return ((a * 16 + b) * 16 + c) * 16 + d

/-- One element of a string: a character, or sixteen bits given by a `\u` escape. -/
inductive StringUnit where
  | char (c : Char)
  | code (n : Nat)

def isHighHalf (n : Nat) : Bool := 0xD800 ≤ n && n < 0xDC00

def isLowHalf (n : Nat) : Bool := 0xDC00 ≤ n && n < 0xE000

/-- Joins surrogate halves that stand side by side; nothing when a half stands alone. -/
def joinUnits : List StringUnit → Option (List Char)
  | [] => some []
  | .char c :: us => (joinUnits us).map (c :: ·)
  | .code n :: us =>
    if isHighHalf n then match us with
      | .code m :: us =>
        if isLowHalf m then
          (joinUnits us).map (Char.ofNat ((n - 0xD800) * 0x400 + (m - 0xDC00) + 0x10000) :: ·)
        else none
      | _ => none
    else if isLowHalf n then none
    else (joinUnits us).map (Char.ofNat n :: ·)

def simpleEscape? : Char → Option Char
  | '"' => some '"'
  | '\\' => some '\\'
  | '/' => some '/'
  | 'b' => some '\x08'
  | 'f' => some '\x0c'
  | 'n' => some '\n'
  | 'r' => some '\r'
  | 't' => some '\t'
  | _ => none

/-- The units up to the closing quote, and what follows it. -/
def scanString : List Char → Option (List StringUnit × List Char)
  | [] => none
  | '"' :: cs => some ([], cs)
  | '\\' :: 'u' :: a :: b :: c :: d :: cs => do
    let n ← hexQuad? a b c d
    let (us, rest) ← scanString cs
    return (.code n :: us, rest)
  | '\\' :: e :: cs => do
    let c ← simpleEscape? e
    let (us, rest) ← scanString cs
    return (.char c :: us, rest)
  | c :: cs =>
    if c.toNat < 0x20 then none
    else do
      let (us, rest) ← scanString cs
      return (.char c :: us, rest)

def unitsText (us : List StringUnit) : Option String := (joinUnits us).map String.ofList

/-- A non-empty run of digits, and what follows it. -/
def scanDigits (cs : List Char) : Option (List Nat × List Char) :=
  match cs.span Char.isDigit with
  | ([], _) => none
  | (ds, rest) => some (ds.map digitValue, rest)

/-- The whole part of a number, which has no needless zero in front. -/
def scanWhole : List Char → Option (List Nat × List Char)
  | '0' :: cs => match cs with
    | c :: _ => if c.isDigit then none else some ([0], cs)
    | [] => some ([0], [])
  | cs => scanDigits cs

def scanFraction : List Char → Option (Option (List Nat) × List Char)
  | '.' :: cs => (scanDigits cs).map fun r => (some r.1, r.2)
  | cs => some (none, cs)

def scanExponent : List Char → Option (Option (Bool × List Nat) × List Char)
  | c :: cs =>
    if c = 'e' ∨ c = 'E' then
      let (minus, cs) := match cs with
        | '-' :: r => (true, r)
        | '+' :: r => (false, r)
        | r => (false, r)
      (scanDigits cs).map fun r => (some (minus, r.1), r.2)
    else some (none, c :: cs)
  | [] => some (none, [])

def scanNumeral (cs : List Char) : Option (Numeral × List Char) := do
  let (negative, cs) := match cs with
    | '-' :: r => (true, r)
    | r => (false, r)
  let (whole, cs) ← scanWhole cs
  let (fraction, cs) ← scanFraction cs
  let (exponent, cs) ← scanExponent cs
  return (⟨negative, whole, fraction, exponent⟩, cs)

mutual

/-- One value after blanks, and what follows it; two calls use up a character of the text, so
fuel above twice its length is never short. -/
def scanValue : (fuel : Nat) → List Char → Option (Document × List Char)
  | 0, _ => none
  | fuel + 1, cs => match skipSpace cs with
    | 'n' :: 'u' :: 'l' :: 'l' :: cs => some (null, cs)
    | 't' :: 'r' :: 'u' :: 'e' :: cs => some (bool true, cs)
    | 'f' :: 'a' :: 'l' :: 's' :: 'e' :: cs => some (bool false, cs)
    | '"' :: cs => (scanString cs).map fun r => (str (unitsText r.1), r.2)
    | '[' :: cs => match skipSpace cs with
      | ']' :: cs => some (arr [], cs)
      | cs => (scanItems fuel cs).map fun r => (arr r.1, r.2)
    | '{' :: cs => match skipSpace cs with
      | '}' :: cs => some (obj [], cs)
      | cs => (scanFields fuel cs).map fun r => (obj r.1, r.2)
    | cs => (scanNumeral cs).map fun r => (num r.1.value?, r.2)

def scanItems : (fuel : Nat) → List Char → Option (List Document × List Char)
  | 0, _ => none
  | fuel + 1, cs => do
    let (d, cs) ← scanValue fuel cs
    match skipSpace cs with
    | ']' :: cs => return ([d], cs)
    | ',' :: cs =>
      let (ds, cs) ← scanItems fuel cs
      return (d :: ds, cs)
    | _ => none

def scanFields : (fuel : Nat) → List Char → Option (List (Option String × Document) × List Char)
  | 0, _ => none
  | fuel + 1, cs => match skipSpace cs with
    | '"' :: cs => do
      let (us, cs) ← scanString cs
      match skipSpace cs with
      | ':' :: cs =>
        let (d, cs) ← scanValue fuel cs
        match skipSpace cs with
        | '}' :: cs => return ([(unitsText us, d)], cs)
        | ',' :: cs =>
          let (fs, cs) ← scanFields fuel cs
          return ((unitsText us, d) :: fs, cs)
        | _ => none
      | _ => none
    | _ => none

end

/-- The one document a text consists of. -/
def ofChars? (cs : List Char) : Option Document := do
  let (d, rest) ← scanValue (2 * cs.length + 2) cs
  if (skipSpace rest).isEmpty then some d else none

def ofText? (s : String) : Option Document := ofChars? s.toList

end Switchboard.Document

namespace Switchboard

def Json.ofText? (s : String) : Option Json :=
  (Document.ofText? s).bind (·.toJson? Document.nestingLimit)

end Switchboard
