import Switchboard.Text.Printable

namespace Switchboard.Text

def hexDigits (n : Nat) : String :=
  String.ofList (Nat.toDigits 16 n)

/-- One character inside quotes of the kind `quote`. -/
def escape (quote c : Char) : String :=
  if c = '\x00' then "\\0"
  else if c = '\t' then "\\t"
  else if c = '\r' then "\\r"
  else if c = '\n' then "\\n"
  else if c = '\\' then "\\\\"
  else if c = quote then String.ofList ['\\', quote]
  else if isPrintable c then String.singleton c
  else "\\u\x7b" ++ hexDigits c.toNat ++ "\x7d"

/-- The text in double quotes, on one line. -/
def quoted (s : String) : String :=
  "\"" ++ String.join (s.toList.map (escape '"')) ++ "\""

/-- The character in single quotes. -/
def quotedChar (c : Char) : String :=
  "'" ++ escape '\'' c ++ "'"

end Switchboard.Text
