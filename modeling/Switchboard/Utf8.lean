import Switchboard.Bytes

namespace Switchboard.Utf8

/-- The octets of one character. -/
def encodeChar (c : Char) : Bytes := String.utf8EncodeChar c

def encode (s : String) : Bytes := s.toList.flatMap encodeChar

/-- What an octet at the start of a character announces: how many octets follow it, between which
bounds the first of them lies, and the bits it carries itself. -/
structure Lead where
  more : Nat
  low : UInt8
  high : UInt8
  bits : Nat

/-- The bounds exclude overlong forms, surrogates and values past the last code point. -/
def lead? (b : UInt8) : Option Lead :=
  let n := b.toNat
  if n < 0xC2 then none
  else if n < 0xE0 then some ⟨1, 0x80, 0xBF, n - 0xC0⟩
  else if n = 0xE0 then some ⟨2, 0xA0, 0xBF, 0⟩
  else if n = 0xED then some ⟨2, 0x80, 0x9F, 13⟩
  else if n < 0xF0 then some ⟨2, 0x80, 0xBF, n - 0xE0⟩
  else if n = 0xF0 then some ⟨3, 0x90, 0xBF, 0⟩
  else if n < 0xF4 then some ⟨3, 0x80, 0xBF, n - 0xF0⟩
  else if n = 0xF4 then some ⟨3, 0x80, 0x8F, 4⟩
  else none

/-- A piece of a byte string: a character, octets that belong to none, or a character whose end is
missing. -/
inductive Segment where
  | scalar (c : Char)
  | malformed (octets : Bytes)
  | truncated (octets : Bytes)
  deriving DecidableEq, Repr

/-- How the octets after a lead went on. -/
inductive Tail where
  | complete (code : Nat) (rest : Bytes)
  | broken (taken : Bytes) (rest : Bytes)
  | missing (taken : Bytes)

/-- Reads `more` further octets, the first of them within the bounds and the others plain
continuation octets. -/
def readTail : (more : Nat) → (low high : UInt8) → (code : Nat) → Bytes → Tail
  | 0, _, _, code, bs => .complete code bs
  | _ + 1, _, _, _, [] => .missing []
  | more + 1, low, high, code, b :: bs =>
    if low ≤ b ∧ b ≤ high then
      match readTail more 0x80 0xBF (code * 64 + (b.toNat - 0x80)) bs with
      | .complete code rest => .complete code rest
      | .broken taken rest => .broken (b :: taken) rest
      | .missing taken => .missing (b :: taken)
    else .broken [] (b :: bs)

theorem readTail_complete_length {more : Nat} {low high : UInt8} {code code' : Nat}
    {bs rest : Bytes} (h : readTail more low high code bs = .complete code' rest) :
    bs.length = more + rest.length := by
  induction more generalizing low high code bs with
  | zero => cases bs <;> simp_all [readTail]
  | succ more ih =>
    cases bs with
    | nil => simp [readTail] at h
    | cons b bs =>
      simp only [readTail] at h
      split at h
      · split at h <;> simp at h
        next hr =>
          obtain ⟨rfl, rfl⟩ := h
          have := ih hr
          simp only [List.length_cons]
          omega
      · simp at h

theorem readTail_broken_append {more : Nat} {low high : UInt8} {code : Nat}
    {bs taken rest : Bytes} (h : readTail more low high code bs = .broken taken rest) :
    taken ++ rest = bs := by
  induction more generalizing low high code bs taken with
  | zero => cases bs <;> simp [readTail] at h
  | succ more ih =>
    cases bs with
    | nil => simp [readTail] at h
    | cons b bs =>
      simp only [readTail] at h
      split at h
      · split at h <;> simp at h
        next hr =>
          obtain ⟨rfl, rfl⟩ := h
          rw [List.cons_append, ih hr]
      · simp only [Tail.broken.injEq] at h
        rw [← h.1, ← h.2, List.nil_append]

theorem readTail_broken_length {more : Nat} {low high : UInt8} {code : Nat}
    {bs taken rest : Bytes} (h : readTail more low high code bs = .broken taken rest) :
    rest.length ≤ bs.length := by
  rw [← readTail_broken_append h, List.length_append]
  exact Nat.le_add_left ..

/-- Cuts a byte string into characters and the shortest pieces that can be none. -/
def segments : Bytes → List Segment
  | [] => []
  | b :: bs =>
    if b.toNat < 0x80 then .scalar (Char.ofNat b.toNat) :: segments bs
    else match lead? b with
      | none => .malformed [b] :: segments bs
      | some l => match h : readTail l.more l.low l.high l.bits bs with
        | .complete code rest =>
          have := readTail_complete_length h
          .scalar (Char.ofNat code) :: segments rest
        | .broken taken rest =>
          have := readTail_broken_length h
          .malformed (b :: taken) :: segments rest
        | .missing taken => [.truncated (b :: taken)]
termination_by bs => bs.length

def Segment.char? : Segment → Option Char
  | .scalar c => some c
  | _ => none

/-- The text of a byte string that is nothing but characters. -/
def decode? (bs : Bytes) : Option String :=
  ((segments bs).mapM Segment.char?).map String.ofList

def replacement : Char := '\uFFFD'

/-- The text with one replacement character for every piece that is no character. -/
def decodeReplacing (bs : Bytes) : String :=
  String.ofList ((segments bs).map fun s => s.char?.getD replacement)

/-- The first piece of a byte string that is no character: how many octets stand in front of it, and
how many it has. A character whose end is missing reaches to the end of the string. -/
structure Fault where
  index : Nat
  octets : Option Nat
  deriving DecidableEq, Repr

/-- The first fault, if `index` octets stand in front of those that are given. -/
def fault? (index : Nat) : Bytes → Option Fault
  | [] => none
  | b :: bs =>
    if b.toNat < 0x80 then fault? (index + 1) bs
    else match lead? b with
      | none => some ⟨index, some 1⟩
      | some l => match h : readTail l.more l.low l.high l.bits bs with
        | .complete _ rest =>
          have := readTail_complete_length h
          fault? (index + (l.more + 1)) rest
        | .broken taken _ => some ⟨index, some (taken.length + 1)⟩
        | .missing _ => some ⟨index, none⟩
termination_by bs => bs.length

/-- A fault is somewhere in the string, and takes an octet. -/
theorem fault?_inside {index : Nat} {bs : Bytes} {f : Fault} (h : fault? index bs = some f) :
    f.index < index + bs.length ∧ f.octets ≠ some 0 := by
  fun_induction fault? index bs with
  | case1 => cases h
  | case2 index b bs _ ih =>
    obtain ⟨inside, takes⟩ := ih h
    rw [List.length_cons]
    exact ⟨by omega, takes⟩
  | case3 => cases h; simp
  | case4 index b bs _ l _ code rest tail length ih =>
    obtain ⟨inside, takes⟩ := ih h
    rw [List.length_cons, length]
    exact ⟨by omega, takes⟩
  | case5 => cases h; simp
  | case6 => cases h; simp

/-- The text around the faults: what stands in front of the first one, and the same again with what
is left behind it. -/
def decodeAround (bs : Bytes) : String :=
  match h : fault? 0 bs with
  | none => decodeReplacing bs
  | some f =>
    have := fault?_inside h
    let rest := bs.drop f.index
    decodeReplacing (bs.take f.index) ++ decodeAround (rest.drop (f.octets.getD rest.length))
termination_by bs.length
decreasing_by
  obtain ⟨_, takes⟩ := fault?_inside h
  simp only [List.length_drop]
  cases octets : f.octets with
  | none => simp only [Option.getD_none]; omega
  | some n =>
    have : n ≠ 0 := fun zero => takes (zero ▸ octets)
    simp only [Option.getD_some]
    omega

end Switchboard.Utf8
