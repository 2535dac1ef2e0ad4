import Switchboard.Json.Printer

namespace Switchboard

/-- Reading the settings of a handler; what does not fit is described in a sentence. -/
abbrev SettingsReader (α : Type) := Json → Except String α

namespace Settings

variable {α : Type}

/-- What a value is, for the reader of a message. -/
def found : Json → String
  | .null => "null"
  | .bool b => "boolean `" ++ (if b then "true" else "false") ++ "`"
  | .num (.double x) => "floating point `" ++ String.ofList (JsonNumber.double x).render ++ "`"
  | .num n => "integer `" ++ String.ofList n.render ++ "`"
  | .str s => "string " ++ Text.quoted s
  | .arr _ => "sequence"
  | .obj _ => "map"

def wrongType (expected : String) (j : Json) : Except String α :=
  .error ("invalid type: " ++ found j ++ ", expected " ++ expected)

def wrongValue (expected : String) (j : Json) : Except String α :=
  .error ("invalid value: " ++ found j ++ ", expected " ++ expected)

def text : SettingsReader String
  | .str s => .ok s
  | j => wrongType "a string" j

def flag : SettingsReader Bool
  | .bool b => .ok b
  | j => wrongType "a boolean" j

def uint32 : SettingsReader UInt32
  | .num (.double x) => wrongType "u32" (.num (.double x))
  | .num (.natural n) =>
    if n.toNat < UInt32.size then .ok n.toUInt32 else wrongValue "u32" (.num (.natural n))
  | .num n => wrongValue "u32" (.num n)
  | j => wrongType "u32" j

/-- Reads a record by setting its parts: those of an object by name, in the order of the names, or
those of an array by position. Nothing at all leaves it as it starts. -/
def record (title : String) (names : List String) (start : α)
    (set : α → String → Json → Except String α) : SettingsReader α
  | .null => .ok start
  | .obj fields => fields.foldlM (fun a f => set a f.1 f.2) start
  | .arr items => do
    let a ← (names.zip items).foldlM (fun a f => set a f.1 f.2) start
    if names.length < items.length then
      .error ("invalid length " ++ toString items.length ++ ", expected fewer elements in array")
    else .ok a
  | j => wrongType ("struct " ++ title) j

end Settings

end Switchboard
