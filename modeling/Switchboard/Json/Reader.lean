import Switchboard.Json.Document

namespace Switchboard

mutual

/-- How deep arrays and objects stand inside each other. -/
def Json.depth : Json → Nat
  | .arr items => Json.depthOfItems items + 1
  | .obj fields => Json.depthOfFields fields + 1
  | _ => 0

def Json.depthOfItems : List Json → Nat
  | [] => 0
  | j :: js => max j.depth (Json.depthOfItems js)

def Json.depthOfFields : List (String × Json) → Nat
  | [] => 0
  | (_, j) :: fs => max j.depth (Json.depthOfFields fs)

end

namespace Document

variable {α : Type}

/-- The one document a name stands for, if any; nothing at all when the name is repeated. -/
def slot? (fields : List (Option String × Document)) (name : String) :
    Option (Option Document) :=
  match fields.filter fun f => f.1 == some name with
  | [] => some none
  | [f] => some (some f.2)
  | _ => none

/-- The documents given for `names`: by name in an object, where other names are passed over, or by
position in an array, where the last ones may be left out. -/
def slots? (names : List String) : Document → Option (List (Option Document))
  | obj fields => if fields.all fun f => f.1.isSome then names.mapM (slot? fields) else none
  | arr items =>
    if items.length ≤ names.length then
      some (items.map some ++ List.replicate (names.length - items.length) none)
    else none
  | _ => none

/-- The place of a name in a list of alternatives. Inside a tagged object a number may stand for
the place itself. -/
def alternative? (inner : Bool) (names : List String) : Document → Option Nat
  | str (some s) => names.idxOf? s
  | num (some (.natural n)) => if inner ∧ n.toNat < names.length then some n.toNat else none
  | _ => none

/-- The name of the field that tells the alternatives of a tagged object apart. -/
def tagName : String := "type"

/-- The alternative a tagged object or array chooses, and its other parts, which must all be
readable. -/
def tagged? (inner : Bool) (names : List String) : (room : Nat) → Document →
    Option (Nat × Document)
  | room + 1, obj fields =>
    match fields.filter fun f => f.1 == some tagName with
    | [tag] => do
      let rest := fields.filter fun f => f.1 != some tagName
      let place ← alternative? inner names tag.2
      let _ ← fieldsToJson? room rest
      return (place, obj rest)
    | _ => none
  | room + 1, arr (tag :: rest) => do
    let place ← alternative? inner names tag
    let _ ← itemsToJson? room rest
    return (place, arr rest)
  | _, _ => none

def text? : Document → Option String
  | str s => s
  | _ => none

def flag? : Document → Option Bool
  | bool b => some b
  | _ => none

/-- A whole number below `bound`. -/
def natural? (bound : Nat) : Document → Option Nat
  | num (some (.natural n)) => if n.toNat < bound then some n.toNat else none
  | _ => none

def uint16? (d : Document) : Option UInt16 := (d.natural? UInt16.size).map UInt16.ofNat

def uint32? (d : Document) : Option UInt32 := (d.natural? UInt32.size).map UInt32.ofNat

def uint64? : Document → Option UInt64
  | num (some (.natural n)) => some n
  | _ => none

/-- A value that may be given as null. -/
def optional? (read : Document → Option α) : Document → Option (Option α)
  | null => some none
  | d => (read d).map some

/-- One of several named constants, written as its name or as an object that maps the name to
null; inside a tagged object also to an empty object. -/
def constant? (inner : Bool) (names : List (String × α)) : Document → Option α
  | str (some s) => names.lookup s
  | obj [(some s, null)] => names.lookup s
  | obj [(some s, obj [])] => if inner then names.lookup s else none
  | _ => none

/-- What a slot holds, or `fallback` when it was left out. -/
def orElse? (slot : Option Document) (read : Document → Option α) (fallback : α) : Option α :=
  match slot with
  | some d => read d
  | none => some fallback

end Document

end Switchboard
