import Switchboard.Error
import Switchboard.Utf8

namespace Switchboard

/-- What a fault is reported as. -/
def Utf8.Fault.error (f : Utf8.Fault) : DecodeError :=
  match f.octets with
  | some n => .malformedUtf8 n f.index
  | none => .truncatedUtf8 f.index

namespace Charset

/-- The text of bytes under a policy; only the strict one can fail. -/
def decode (charset : Charset) (policy : ErrorPolicy) (bytes : Bytes) : Except Error String :=
  match charset, policy with
  | utf8, .replace => .ok (Utf8.decodeReplacing bytes)
  | utf8, .ignore => .ok (Utf8.decodeAround bytes)
  | utf8, .strict => match Utf8.fault? 0 bytes with
    | some fault => .error (.decode fault.error)
    | none => .ok (Utf8.decodeReplacing bytes)
  | ascii, .replace => .ok <| String.ofList <| bytes.map fun b =>
      if b.toNat < 0x80 then Char.ofNat b.toNat else Utf8.replacement
  | ascii, .ignore => .ok <| String.ofList <|
      (bytes.filter fun b => b.toNat < 0x80).map fun b => Char.ofNat b.toNat
  | ascii, .strict => match bytes.find? fun b => ¬ b.toNat < 0x80 with
    | some b => .error (.decode (.nonAscii b))
    | none => .ok <| String.ofList <| bytes.map fun b => Char.ofNat b.toNat
  | latin1, _ => .ok <| String.ofList <| bytes.map fun b => Char.ofNat b.toNat

/-- The characters a charset has. -/
def represents : Charset → Char → Bool
  | utf8, _ => true
  | ascii, c => c.toNat < 0x80
  | latin1, c => c.toNat < 0x100

/-- The bytes of a character the charset has. -/
def encodeChar : Charset → Char → Bytes
  | utf8, c => Utf8.encodeChar c
  | _, c => [UInt8.ofNat c.toNat]

def encodeAll (charset : Charset) (cs : List Char) : Bytes := cs.flatMap charset.encodeChar

/-- The bytes of a text under a policy; only the strict one can fail. -/
def encode (charset : Charset) (policy : ErrorPolicy) (text : String) : Except Error Bytes :=
  let cs := text.toList
  match policy with
  | .replace => .ok (charset.encodeAll (cs.map fun c => if charset.represents c then c else '?'))
  | .ignore => .ok (charset.encodeAll (cs.filter charset.represents))
  | .strict => match cs.find? fun c => !charset.represents c with
    | some c => .error (.encode (.unrepresentable c charset))
    | none => .ok (charset.encodeAll cs)

end Charset

end Switchboard
