import Switchboard.Deflate.Code

namespace Switchboard.Deflate

/-- What follows the header of a block: octets as they are, or symbols of two codes. -/
inductive BlockBody where
  | stored (length : Nat)
  | coded (literals distances : Code)

structure BlockHeader where
  last : Bool
  body : BlockBody

/-- Literals below 144 have eight bits, the others nine; lengths below 280 seven, the others
eight. -/
def fixedLiterals : Code := Code.ofLengths <|
  List.replicate 144 8 ++ List.replicate 112 9 ++ List.replicate 24 7 ++ List.replicate 8 8

def fixedDistances : Code := Code.ofLengths (List.replicate 32 5)

/-- The order in which the widths of the length code are written. -/
def widthOrder : List Nat := [16, 17, 18, 0, 8, 7, 9, 6, 10, 5, 11, 4, 12, 3, 13, 2, 14, 1, 15]

def readMany {α : Type} (part : Part α) : (count : Nat) → Part (List α)
  | 0 => pure []
  | n + 1 => do
    let a ← part
    let as ← readMany part n
    return a :: as

/-- Reads widths until `total` are there, the last one first; the widths may repeat the one before
them or zero, but not past `total`. -/
def readWidths (code : Code) (total : Nat) : (fuel : Nat) → (widths : List Nat) → Part (List Nat)
  | 0, widths => pure widths
  | fuel + 1, widths =>
    if widths.length = total then pure widths
    else if total < widths.length then Part.fault
    else do
      let symbol ← code.read
      if symbol < 16 then readWidths code total fuel (symbol :: widths)
      else if symbol = 16 then match widths with
        | [] => Part.fault
        | w :: _ => do
          let n ← Part.number 2
          readWidths code total fuel (List.replicate (n + 3) w ++ widths)
      else do
        let n ← if symbol = 17 then Part.number 3 else (· + 8) <$> Part.number 7
        readWidths code total fuel (List.replicate (n + 3) 0 ++ widths)

/-- The two codes of a block that describes its own. -/
def ownCodes : Part BlockBody := do
  let literals ← (· + 257) <$> Part.number 5
  let distances ← (· + 1) <$> Part.number 5
  let given ← (· + 4) <$> Part.number 4
  if 286 < literals ∨ 30 < distances then Part.fault
  else
    let ws ← readMany (Part.number 3) given
    let placed := widthOrder.zip ws
    let lengths := (List.range 19).map fun n => (placed.lookup n).getD 0
    if !Code.isComplete lengths then Part.fault
    else
      let total := literals + distances
      let widths ← readWidths (Code.ofLengths lengths) total (total + 1) []
      if widths.length ≠ total then Part.fault
      else
        let widths := widths.reverse
        let ls := widths.take literals
        let ds := widths.drop literals
        if Code.isUsable ls && Code.isUsable ds then
          return .coded (Code.ofLengths ls) (Code.ofLengths ds)
        else Part.fault

/-- The length of a run of stored octets comes with its complement. -/
def storedLength : Part BlockBody := do
  Part.align
  let n ← Part.number 16
  let m ← Part.number 16
  if n + m = 0xFFFF then return .stored n else Part.fault

/-- What follows the header of a block of a kind. -/
def readBody : (kind : Nat) → Part BlockBody
  | 0 => storedLength
  | 1 => pure (.coded fixedLiterals fixedDistances)
  | 2 => ownCodes
  | _ => Part.fault

def readHeader : Part BlockHeader := do
  let last ← Part.number 1
  let kind ← Part.number 2
  let body ← readBody kind
  return ⟨last == 1, body⟩

/-- One element of a coded block. -/
inductive Token where
  | literal (b : UInt8)
  | copy (length distance : Nat)
  | endOfBlock

/-- The least length and the number of further bits of the symbols from 257 on. -/
def lengthClasses : Array (Nat × Nat) := #[
  (3, 0), (4, 0), (5, 0), (6, 0), (7, 0), (8, 0), (9, 0), (10, 0), (11, 1), (13, 1), (15, 1),
  (17, 1), (19, 2), (23, 2), (27, 2), (31, 2), (35, 3), (43, 3), (51, 3), (59, 3), (67, 4), (83, 4),
  (99, 4), (115, 4), (131, 5), (163, 5), (195, 5), (227, 5), (258, 0)]

/-- The least distance and the number of further bits of every distance symbol. -/
def distanceClasses : Array (Nat × Nat) := #[
  (1, 0), (2, 0), (3, 0), (4, 0), (5, 1), (7, 1), (9, 2), (13, 2), (17, 3), (25, 3), (33, 4),
  (49, 4), (65, 5), (97, 5), (129, 6), (193, 6), (257, 7), (385, 7), (513, 8), (769, 8), (1025, 9),
  (1537, 9), (2049, 10), (3073, 10), (4097, 11), (6145, 11), (8193, 12), (12289, 12), (16385, 13),
  (24577, 13)]

/-- A number of the class a symbol names. -/
def readClass (classes : Array (Nat × Nat)) (symbol : Nat) : Part Nat :=
  match classes[symbol]? with
  | some (least, more) => (least + ·) <$> Part.number more
  | none => Part.fault

def readToken (literals distances : Code) : Part Token := do
  let symbol ← literals.read
  if symbol < 256 then return .literal (UInt8.ofNat symbol)
  else if symbol = 256 then return .endOfBlock
  else
    let length ← readClass lengthClasses (symbol - 257)
    let d ← distances.read
    let distance ← readClass distanceClasses d
    return .copy length distance

open Deflate.Part

theorem readMany_stable {α : Type} {part : Part α} (h : Stable part) (count : Nat) :
    Stable (readMany part count) := by
  induction count with
  | zero => exact .pure []
  | succ n ih => exact h.bind fun _ => ih.bind fun _ => .pure _

theorem readWidths_stable (code : Code) (total fuel : Nat) (widths : List Nat) :
    Stable (readWidths code total fuel widths) := by
  induction fuel generalizing widths with
  | zero => exact .pure widths
  | succ fuel ih =>
    unfold readWidths
    split
    · exact .pure widths
    split
    · exact .failure
    refine code.read_stable.bind fun symbol => ?_
    split
    · exact ih _
    split
    · cases widths with
      | nil => exact .failure
      | cons w ws => exact (Stable.number 2).bind fun _ => ih _
    split
    · exact (Stable.number 3).bind fun _ => ih _
    · exact ((Stable.number 7).map _).bind fun _ => ih _

theorem ownCodes_stable : Stable ownCodes := by
  refine ((Stable.number 5).map _).bind fun literals => ?_
  refine ((Stable.number 5).map _).bind fun distances => ?_
  refine ((Stable.number 4).map _).bind fun given => ?_
  split
  · exact .failure
  refine (readMany_stable (.number 3) given).bind fun ws => ?_
  dsimp only
  split
  · exact .failure
  refine (readWidths_stable ..).bind fun widths => ?_
  split
  · exact .failure
  split
  · exact .pure _
  · exact .failure

theorem storedLength_stable : Stable storedLength := by
  refine Stable.align.bind fun _ => ?_
  refine (Stable.number 16).bind fun n => (Stable.number 16).bind fun m => ?_
  split
  · exact .pure _
  · exact .failure

theorem readBody_stable (kind : Nat) : Stable (readBody kind) := by
  unfold readBody
  split
  · exact storedLength_stable
  · exact .pure _
  · exact ownCodes_stable
  · exact .failure

theorem readHeader_stable : Stable readHeader :=
  (Stable.number 1).bind fun _ => (Stable.number 2).bind fun kind =>
    (readBody_stable kind).bind fun _ => .pure _

theorem readHeader_length {bits rest : Bits} {header : BlockHeader}
    (h : readHeader bits = .ok header rest) : rest.length < bits.length := by
  obtain ⟨_, mid, hlast, h⟩ := bind_eq_ok h
  have one := number_length hlast
  have behind := ((Stable.number 2).bind fun kind =>
    (readBody_stable kind).bind fun _ => .pure _).suffix h
  have := behind.length_le
  omega

theorem readClass_stable (classes : Array (Nat × Nat)) (symbol : Nat) :
    Stable (readClass classes symbol) := by
  unfold readClass
  split
  · exact (Stable.number _).map _
  · exact .failure

theorem readToken_stable (literals distances : Code) : Stable (readToken literals distances) := by
  refine literals.read_stable.bind fun symbol => ?_
  split
  · exact .pure _
  split
  · exact .pure _
  refine (readClass_stable ..).bind fun length => ?_
  exact distances.read_stable.bind fun d => (readClass_stable ..).bind fun distance => .pure _

/-- A copy is no longer than this. -/
def maxCopy : Nat := 258

theorem number_lt {n a : Nat} {bits rest : Bits} (h : number n bits = .ok a rest) :
    a < 1 <<< n := by
  induction n generalizing a bits with
  | zero =>
    cases h
    exact Nat.one_pos
  | succ n ih =>
    obtain ⟨low, mid, _, h⟩ := bind_eq_ok h
    obtain ⟨high, last, hhigh, h⟩ := bind_eq_ok h
    cases h
    have bound := ih hhigh
    have := low.toNat_le
    omega

theorem readClass_le {classes : Array (Nat × Nat)} {most : Nat}
    (small : ∀ c ∈ classes.toList, c.1 + 1 <<< c.2 ≤ most + 1) {symbol n : Nat} {bits rest : Bits}
    (h : readClass classes symbol bits = .ok n rest) : n ≤ most := by
  unfold readClass at h
  cases hclass : classes[symbol]? with
  | none =>
    rw [hclass] at h
    cases h
  | some c =>
    rw [hclass] at h
    obtain ⟨extra, _, hextra, h⟩ := bind_eq_ok h
    cases h
    have bound := small c (Array.mem_toList_iff.mpr (Array.mem_of_getElem? hclass))
    have := number_lt hextra
    show c.1 + extra ≤ most
    omega

/-- A token takes at least a bit and stands for a bounded number of octets. -/
theorem readToken_takes {literals distances : Code} {bits rest : Bits} {token : Token}
    (h : readToken literals distances bits = .ok token rest) :
    rest.length < bits.length ∧
      ∀ length distance, token = .copy length distance → length ≤ maxCopy := by
  obtain ⟨symbol, mid, hsymbol, h⟩ := bind_eq_ok h
  have shorter := Code.read_length hsymbol
  by_cases octet : symbol < 256
  · simp only [octet, if_true] at h
    cases h
    exact ⟨shorter, by simp⟩
  by_cases last : symbol = 256
  · subst last
    cases h
    exact ⟨shorter, by simp⟩
  · simp only [octet, last, if_false] at h
    obtain ⟨length, mid', hlength, h⟩ := bind_eq_ok h
    obtain ⟨d, mid'', hd, h⟩ := bind_eq_ok h
    obtain ⟨distance, last, hdistance, h⟩ := bind_eq_ok h
    cases h
    have h₁ := ((readClass_stable ..).suffix hlength).length_le
    have h₂ := Code.read_length hd
    have h₃ := ((readClass_stable ..).suffix hdistance).length_le
    have small : length ≤ maxCopy := readClass_le (by decide) hlength
    refine ⟨by omega, fun length' distance' heq => ?_⟩
    cases heq
    exact small

end Switchboard.Deflate
