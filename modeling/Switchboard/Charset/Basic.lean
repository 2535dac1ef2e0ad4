namespace Switchboard

/-- The character sets a wire text can be written in. -/
inductive Charset where
  | utf8
  | ascii
  | latin1
  deriving DecidableEq, Repr

/-- What becomes of bytes that are no text, and of characters the charset lacks. -/
inductive ErrorPolicy where
  | replace
  | ignore
  | strict
  deriving DecidableEq, Repr

instance : Inhabited Charset := ⟨.utf8⟩
instance : Inhabited ErrorPolicy := ⟨.replace⟩

/-- The name a charset goes by in messages. -/
def Charset.title : Charset → String
  | .utf8 => "Utf8"
  | .ascii => "Ascii"
  | .latin1 => "Latin1"

/-- The name a charset is configured by. -/
def Charset.name : Charset → String
  | .utf8 => "utf8"
  | .ascii => "ascii"
  | .latin1 => "latin1"

def ErrorPolicy.name : ErrorPolicy → String
  | .replace => "replace"
  | .ignore => "ignore"
  | .strict => "strict"

end Switchboard
