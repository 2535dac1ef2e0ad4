import Switchboard.Binary64.Shortest
import Switchboard.Json.Basic
import Switchboard.Text.Quoted

namespace Switchboard

/-- How a double is laid out: between which places the point stands within or beside the digits;
any other number has one digit before the point and a signed exponent. -/
structure DoubleLayout where
  leastPoint : Int
  greatestPoint : Int

/-- Doubles from `1e-5` up to below `1e16` are positional. -/
def JsonNumber.layout : DoubleLayout := ⟨-4, 16⟩

def zeros (n : Nat) : List Char := List.replicate n '0'

/-- The digits with the point after the first `point` places. -/
def placePoint (digits : List Char) (point : Int) : List Char :=
  if point ≤ 0 then '0' :: '.' :: (zeros (-point).toNat ++ digits)
  else if digits.length ≤ point.toNat then digits ++ zeros (point.toNat - digits.length) ++ ['.', '0']
  else digits.take point.toNat ++ '.' :: digits.drop point.toNat

def scientific (digits : List Char) (point : Int) : List Char :=
  let e := point - 1
  let sign := if e < 0 then '-' else '+'
  let mantissa := match digits with
    | d :: d' :: ds => d :: '.' :: d' :: ds
    | ds => ds
  mantissa ++ 'e' :: sign :: Nat.toDigits 10 e.natAbs

def DoubleLayout.render (layout : DoubleLayout) (x : Binary64) : List Char :=
  let sign := if x.negative then ['-'] else []
  if x.isZero then sign ++ ['0', '.', '0']
  else
    let d := x.shortest
    let digits := Nat.toDigits 10 d.digits
    let point : Int := digits.length + d.exponent
    sign ++ if layout.leastPoint ≤ point ∧ point ≤ layout.greatestPoint then placePoint digits point
      else scientific digits point

def JsonNumber.render : JsonNumber → List Char
  | natural n => Nat.toDigits 10 n.toNat
  | negative k => '-' :: Nat.toDigits 10 (k.val + 1)
  | double x => JsonNumber.layout.render x

namespace Json

def hexPair (n : Nat) : List Char := [Nat.digitChar (n / 16), Nat.digitChar (n % 16)]

def escapeChar (c : Char) : List Char :=
  if c = '"' then ['\\', '"']
  else if c = '\\' then ['\\', '\\']
  else if c = '\x08' then ['\\', 'b']
  else if c = '\x0c' then ['\\', 'f']
  else if c = '\n' then ['\\', 'n']
  else if c = '\r' then ['\\', 'r']
  else if c = '\t' then ['\\', 't']
  else if c.toNat < 0x20 then ['\\', 'u', '0', '0'] ++ hexPair c.toNat
  else [c]

def renderString (s : String) : List Char := '"' :: s.toList.flatMap escapeChar ++ ['"']

mutual

/-- The shortest text of a value: no blanks, fields in their order. -/
def render : Json → List Char
  | null => ['n', 'u', 'l', 'l']
  | bool true => ['t', 'r', 'u', 'e']
  | bool false => ['f', 'a', 'l', 's', 'e']
  | num n => n.render
  | str s => renderString s
  | arr [] => ['[', ']']
  | arr (j :: js) => '[' :: (render j ++ renderItems js)
  | obj [] => ['{', '}']
  | obj ((name, j) :: fs) => '{' :: (renderString name ++ ':' :: (render j ++ renderFields fs))

def renderItems : List Json → List Char
  | [] => [']']
  | j :: js => ',' :: (render j ++ renderItems js)

def renderFields : List (String × Json) → List Char
  | [] => ['}']
  | (name, j) :: fs => ',' :: (renderString name ++ ':' :: (render j ++ renderFields fs))

end

def toText (j : Json) : String := String.ofList (render j)

def commaJoined (parts : List String) : String := String.intercalate ", " parts

mutual

/-- The text of a value with the kind of every part, for messages. -/
def describe : Json → String
  | null => "Null"
  | bool b => "Bool(" ++ (if b then "true" else "false") ++ ")"
  | num n => "Number(" ++ String.ofList n.render ++ ")"
  | str s => "String(" ++ Text.quoted s ++ ")"
  | arr items => "Array [" ++ commaJoined (describeItems items) ++ "]"
  | obj fields => "Object \x7b" ++ commaJoined (describeFields fields) ++ "\x7d"

def describeItems : List Json → List String
  | [] => []
  | j :: js => describe j :: describeItems js

def describeFields : List (String × Json) → List String
  | [] => []
  | (name, j) :: fs => (Text.quoted name ++ ": " ++ describe j) :: describeFields fs

end

end Json

end Switchboard
