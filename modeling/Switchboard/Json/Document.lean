import Switchboard.Json.Basic

namespace Switchboard

/-- A JSON text as it is written: names may repeat, and a number past the greatest double or a
string with half a surrogate pair is held as nothing, so that a reader may pass over it. -/
inductive Document where
  | null
  | bool (b : Bool)
  | num (n : Option JsonNumber)
  | str (s : Option String)
  | arr (items : List Document)
  | obj (fields : List (Option String × Document))

namespace Document

/-- How many arrays and objects may stand inside each other. -/
def nestingLimit : Nat := 127

mutual

/-- The value of a document that nests no deeper than `room`. -/
def toJson? : (room : Nat) → Document → Option Json
  | _, null => some .null
  | _, bool b => some (.bool b)
  | _, num n => n.map .num
  | _, str s => s.map .str
  | 0, arr _ => none
  | room + 1, arr items => (itemsToJson? room items).map .arr
  | 0, obj _ => none
  | room + 1, obj fields => (fieldsToJson? room fields).map Json.ofFields

def itemsToJson? : (room : Nat) → List Document → Option (List Json)
  | _, [] => some []
  | room, d :: ds => do
    let j ← toJson? room d
    let js ← itemsToJson? room ds
    return j :: js

def fieldsToJson? : (room : Nat) → List (Option String × Document) → Option (List (String × Json))
  | _, [] => some []
  | room, (name, d) :: fs => do
    let name ← name
    let j ← toJson? room d
    let rest ← fieldsToJson? room fs
    return (name, j) :: rest

end

mutual

def ofJson : Json → Document
  | .null => null
  | .bool b => bool b
  | .num n => num (some n)
  | .str s => str (some s)
  | .arr items => arr (ofItems items)
  | .obj fields => obj (ofFields fields)

def ofItems : List Json → List Document
  | [] => []
  | j :: js => ofJson j :: ofItems js

def ofFields : List (String × Json) → List (Option String × Document)
  | [] => []
  | (name, j) :: fs => (some name, ofJson j) :: ofFields fs

end

end Document

end Switchboard
