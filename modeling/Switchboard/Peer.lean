namespace Switchboard

/-- The characters a socket address is written with: digits, letters of hexadecimal numbers, and
the marks between them. -/
def isAddressChar (c : Char) : Bool :=
  c.isDigit || ('a' ≤ c && c ≤ 'f') || c == '.' || c == ':' || c == '[' || c == ']' || c == '%'

/-- The address of the other end of a connection, as it is written. -/
structure Peer where
  text : String
  wellFormed : text.toList.all isAddressChar

namespace Peer

def ofText? (s : String) : Option Peer :=
  if h : s.toList.all isAddressChar then some ⟨s, h⟩ else none

theorem not_mem_text (p : Peer) {c : Char} (h : isAddressChar c = false) : c ∉ p.text.toList := by
  intro hc
  have := List.all_eq_true.1 p.wellFormed c hc
  simp [h] at this

end Peer

end Switchboard
