import Switchboard.Proofs.WholeTexts

namespace Switchboard

namespace Utf8

/-- The octets that characters are written with, one row for each length and each range of leads:
from which octet to which octet every place goes. -/
def rows : List (List (UInt8 × UInt8)) :=
  [[(0x00, 0x7F)],
   [(0xC2, 0xDF), (0x80, 0xBF)],
   [(0xE0, 0xE0), (0xA0, 0xBF), (0x80, 0xBF)],
   [(0xE1, 0xEC), (0x80, 0xBF), (0x80, 0xBF)],
   [(0xED, 0xED), (0x80, 0x9F), (0x80, 0xBF)],
   [(0xEE, 0xEF), (0x80, 0xBF), (0x80, 0xBF)],
   [(0xF0, 0xF0), (0x90, 0xBF), (0x80, 0xBF), (0x80, 0xBF)],
   [(0xF1, 0xF3), (0x80, 0xBF), (0x80, 0xBF), (0x80, 0xBF)],
   [(0xF4, 0xF4), (0x80, 0x8F), (0x80, 0xBF), (0x80, 0xBF)]]

/-- Whether octets are as many as a row has places, each in its range. -/
def Fits : List (UInt8 × UInt8) → Bytes → Prop
  | [], [] => True
  | (low, high) :: row, b :: bs => (low.toNat ≤ b.toNat ∧ b.toNat ≤ high.toNat) ∧ Fits row bs
  | _, _ => False

/-- Octets that can be read as characters from end to end. -/
inductive WellFormed : Bytes → Prop
  | nil : WellFormed []
  | cons {row octets rest} : row ∈ rows → Fits row octets → WellFormed rest →
      WellFormed (octets ++ rest)

variable {bs : Bytes} {row : List (UInt8 × UInt8)}

theorem fits_cons {low high : UInt8} (h : Fits ((low, high) :: row) bs) :
    ∃ b bs', bs = b :: bs' ∧ low.toNat ≤ b.toNat ∧ b.toNat ≤ high.toNat ∧ Fits row bs' := by
  cases bs with
  | nil => cases h
  | cons b bs => exact ⟨b, bs, rfl, h.1.1, h.1.2, h.2⟩

theorem fits_nil (h : Fits [] bs) : bs = [] := by
  cases bs with
  | nil => rfl
  | cons => cases h

theorem fits_tailOctet {n : Nat} (h : Fits row bs) :
    Fits ((0x80, 0xBF) :: row) (tailOctet n :: bs) := by
  refine ⟨?_, h⟩
  rw [tailOctet_toNat]
  show 0x80 ≤ _ ∧ _ ≤ 0xBF
  omega

theorem encodeChar_of_three {low high low₁ high₁ : UInt8}
    (bounds : 0xE0 ≤ low.toNat ∧ high.toNat < 0xF0 ∧ 0x80 ≤ low₁.toNat ∧ high₁.toNat ≤ 0xBF ∧
      (low.toNat = 0xE0 → 0xA0 ≤ low₁.toNat) ∧
      (low.toNat ≤ 0xED → 0xED ≤ high.toNat → high₁.toNat ≤ 0x9F))
    (h : Fits [(low, high), (low₁, high₁), (0x80, 0xBF)] bs) : ∃ c, bs = encodeChar c := by
  obtain ⟨least, most, continues, last, overlong, surrogate⟩ := bounds
  obtain ⟨b, _, rfl, hlow, hhigh, h⟩ := fits_cons h
  obtain ⟨b₁, _, rfl, hlow₁, hhigh₁, h⟩ := fits_cons h
  obtain ⟨b₂, _, rfl, hlow₂, hhigh₂, h⟩ := fits_cons h
  obtain rfl := fits_nil h
  refine ⟨_, (encodeChar_three ?_ ?_ ?_ ?_ ?_ ?_ hlow₂ hhigh₂).symm⟩ <;> omega

theorem encodeChar_of_four {low high low₁ high₁ : UInt8}
    (bounds : 0xF0 ≤ low.toNat ∧ high.toNat ≤ 0xF4 ∧ 0x80 ≤ low₁.toNat ∧ high₁.toNat ≤ 0xBF ∧
      (low.toNat = 0xF0 → 0x90 ≤ low₁.toNat) ∧ (high.toNat = 0xF4 → high₁.toNat ≤ 0x8F))
    (h : Fits [(low, high), (low₁, high₁), (0x80, 0xBF), (0x80, 0xBF)] bs) :
    ∃ c, bs = encodeChar c := by
  obtain ⟨least, most, continues, last, overlong, greatest⟩ := bounds
  obtain ⟨b, _, rfl, hlow, hhigh, h⟩ := fits_cons h
  obtain ⟨b₁, _, rfl, hlow₁, hhigh₁, h⟩ := fits_cons h
  obtain ⟨b₂, _, rfl, hlow₂, hhigh₂, h⟩ := fits_cons h
  obtain ⟨b₃, _, rfl, hlow₃, hhigh₃, h⟩ := fits_cons h
  obtain rfl := fits_nil h
  refine ⟨_, (encodeChar_four ?_ ?_ ?_ ?_ ?_ ?_ hlow₂ hhigh₂ hlow₃ hhigh₃).symm⟩ <;> omega

theorem encodeChar_of_fits (hrow : row ∈ rows) (h : Fits row bs) : ∃ c, bs = encodeChar c := by
  simp only [rows, List.mem_cons, List.not_mem_nil, or_false] at hrow
  rcases hrow with rfl | rfl | rfl | rfl | rfl | rfl | rfl | rfl | rfl
  · obtain ⟨b, _, rfl, _, high, h⟩ := fits_cons h
    obtain rfl := fits_nil h
    exact ⟨_, (encodeChar_one (Nat.lt_succ_of_le high)).symm⟩
  · obtain ⟨b, _, rfl, low, high, h⟩ := fits_cons h
    obtain ⟨b₁, _, rfl, low₁, high₁, h⟩ := fits_cons h
    obtain rfl := fits_nil h
    exact ⟨_, (encodeChar_two low (Nat.lt_succ_of_le high) low₁ high₁).symm⟩
  · exact encodeChar_of_three (by decide) h
  · exact encodeChar_of_three (by decide) h
  · exact encodeChar_of_three (by decide) h
  · exact encodeChar_of_three (by decide) h
  · exact encodeChar_of_four (by decide) h
  · exact encodeChar_of_four (by decide) h
  · exact encodeChar_of_four (by decide) h

/-- The lead of a character of three octets tells whether what follows it is limited, so that no
character is written with more octets than it needs and none is a surrogate. -/
theorem fits_three {v : Nat} (least : 0x800 ≤ v) (most : v < 0x10000)
    (valid : v < 0xD800 ∨ 0xDFFF < v) {b : UInt8} (lead : b.toNat = v / 4096 + 0xE0) :
    ∃ row ∈ rows, Fits row [b, tailOctet (v / 64), tailOctet v] := by
  have second := tailOctet_toNat (v / 64)
  have third : Fits [(0x80, 0xBF)] [tailOctet v] := fits_tailOctet trivial
  by_cases zero : v / 4096 = 0
  · refine ⟨[(0xE0, 0xE0), (0xA0, 0xBF), (0x80, 0xBF)], by decide, ?_, ?_, third⟩
    · show 0xE0 ≤ _ ∧ _ ≤ 0xE0
      omega
    · show 0xA0 ≤ _ ∧ _ ≤ 0xBF
      omega
  by_cases few : v / 4096 < 13
  · refine ⟨[(0xE1, 0xEC), (0x80, 0xBF), (0x80, 0xBF)], by decide, ?_, fits_tailOctet third⟩
    show 0xE1 ≤ _ ∧ _ ≤ 0xEC
    omega
  by_cases thirteen : v / 4096 = 13
  · refine ⟨[(0xED, 0xED), (0x80, 0x9F), (0x80, 0xBF)], by decide, ?_, ?_, third⟩
    · show 0xED ≤ _ ∧ _ ≤ 0xED
      omega
    · show 0x80 ≤ _ ∧ _ ≤ 0x9F
      omega
  · refine ⟨[(0xEE, 0xEF), (0x80, 0xBF), (0x80, 0xBF)], by decide, ?_, fits_tailOctet third⟩
    show 0xEE ≤ _ ∧ _ ≤ 0xEF
    omega

theorem fits_four {v : Nat} (least : 0x10000 ≤ v) (most : v < 0x110000) {b : UInt8}
    (lead : b.toNat = v / 262144 + 0xF0) :
    ∃ row ∈ rows, Fits row [b, tailOctet (v / 4096), tailOctet (v / 64), tailOctet v] := by
  have second := tailOctet_toNat (v / 4096)
  have others : Fits [(0x80, 0xBF), (0x80, 0xBF)] [tailOctet (v / 64), tailOctet v] :=
    fits_tailOctet (fits_tailOctet trivial)
  by_cases zero : v / 262144 = 0
  · refine ⟨[(0xF0, 0xF0), (0x90, 0xBF), (0x80, 0xBF), (0x80, 0xBF)], by decide, ?_, ?_, others⟩
    · show 0xF0 ≤ _ ∧ _ ≤ 0xF0
      omega
    · show 0x90 ≤ _ ∧ _ ≤ 0xBF
      omega
  by_cases four : v / 262144 = 4
  · refine ⟨[(0xF4, 0xF4), (0x80, 0x8F), (0x80, 0xBF), (0x80, 0xBF)], by decide, ?_, ?_, others⟩
    · show 0xF4 ≤ _ ∧ _ ≤ 0xF4
      omega
    · show 0x80 ≤ _ ∧ _ ≤ 0x8F
      omega
  · refine ⟨[(0xF1, 0xF3), (0x80, 0xBF), (0x80, 0xBF), (0x80, 0xBF)], by decide, ?_,
      fits_tailOctet others⟩
    show 0xF1 ≤ _ ∧ _ ≤ 0xF3
    omega

theorem fits_encodeChar (c : Char) : ∃ row ∈ rows, Fits row (encodeChar c) := by
  have valid : c.toNat < 0xD800 ∨ 0xDFFF < c.toNat ∧ c.toNat < 0x110000 := c.valid
  rw [encodeChar_eq]
  split
  next one =>
    refine ⟨[(0x00, 0x7F)], by decide, ⟨Nat.zero_le _, ?_⟩, trivial⟩
    rw [UInt8.toNat_ofNat']
    show _ ≤ 0x7F
    omega
  split
  next two =>
    refine ⟨[(0xC2, 0xDF), (0x80, 0xBF)], by decide, ?_, fits_tailOctet trivial⟩
    rw [UInt8.toNat_ofNat']
    show 0xC2 ≤ _ ∧ _ ≤ 0xDF
    omega
  split
  next three =>
    refine fits_three (by omega) (by omega) (by omega) ?_
    rw [UInt8.toNat_ofNat']
    omega
  next four =>
    refine fits_four (by omega) (by omega) ?_
    rw [UInt8.toNat_ofNat']
    omega

/-- The table describes the characters: well-formed octets are those that texts are written with. -/
theorem wellFormed_iff : WellFormed bs ↔ ∃ cs : List Char, bs = cs.flatMap encodeChar := by
  constructor
  · intro h
    induction h with
    | nil => exact ⟨[], rfl⟩
    | cons hrow hfits _ ih =>
      obtain ⟨c, rfl⟩ := encodeChar_of_fits hrow hfits
      obtain ⟨cs, rfl⟩ := ih
      exact ⟨c :: cs, List.flatMap_cons.symm⟩
  · rintro ⟨cs, rfl⟩
    induction cs with
    | nil => exact .nil
    | cons c cs ih =>
      obtain ⟨row, hrow, hfits⟩ := fits_encodeChar c
      rw [List.flatMap_cons]
      exact .cons hrow hfits ih

end Utf8

namespace Charset

variable {charset : Charset} {bytes : Bytes} {text : String}

theorem decode_iff_encode :
    charset.decode .strict bytes = .ok text ↔ charset.encode .strict text = .ok bytes :=
  ⟨encode_of_decode, fun h => decode_encode h .strict⟩

theorem utf8_accepts : (∃ text, utf8.decode .strict bytes = .ok text) ↔ Utf8.WellFormed bytes := by
  rw [Utf8.wellFormed_iff]
  constructor
  · rintro ⟨text, h⟩
    obtain ⟨_, written⟩ := encode_strict_eq_ok.mp (encode_of_decode h)
    exact ⟨text.toList, written⟩
  · rintro ⟨cs, rfl⟩
    refine ⟨.ofList cs, decode_iff_encode.mpr (encode_strict_eq_ok.mpr ⟨fun c _ => rfl, ?_⟩)⟩
    rw [String.toList_ofList]
    rfl

theorem ascii_accepts :
    (∃ text, ascii.decode .strict bytes = .ok text) ↔ ∀ b ∈ bytes, b.toNat < 0x80 := by
  simp only [decode]
  split
  next b hfind =>
    refine iff_of_false (by simp) fun small => ?_
    have large := List.find?_some hfind
    simp [small b (List.mem_of_find?_eq_some hfind)] at large
  next hfind => exact iff_of_true ⟨_, rfl⟩ (by simpa using hfind)

/-- In each charset strict decoding and strict encoding undo each other, and the strict decoder
accepts the well-formed octets in UTF-8, those below 0x80 in ASCII and all of them in Latin-1. -/
theorem strict_inverse (bytes : Bytes) :
    (∀ (charset : Charset) (text : String),
      charset.decode .strict bytes = .ok text ↔ charset.encode .strict text = .ok bytes) ∧
    ((∃ text, utf8.decode .strict bytes = .ok text) ↔ Utf8.WellFormed bytes) ∧
    ((∃ text, ascii.decode .strict bytes = .ok text) ↔ ∀ b ∈ bytes, b.toNat < 0x80) ∧
    ∃ text, latin1.decode .strict bytes = .ok text := by
  have accepts_all := decode_latin1 bytes
  exact ⟨fun _ _ => decode_iff_encode, utf8_accepts, ascii_accepts, _, accepts_all⟩

theorem strict_inverse_of_euro :
    utf8.decode .strict [0xE2, 0x82, 0xAC] = .ok "€" ∧ Utf8.WellFormed [0xE2, 0x82, 0xAC] ∧
    (¬ ∃ text, ascii.decode .strict [0xE2, 0x82, 0xAC] = .ok text) ∧
    -- an overlong form
    ¬ Utf8.WellFormed [0xE0, 0x82, 0xAC] := by
  have written : utf8.encode .strict "€" = .ok [0xE2, 0x82, 0xAC] := rfl
  have refused : utf8.decode .strict [0xE0, 0x82, 0xAC] =
      .error (.decode (.malformedUtf8 1 0)) := by cbv
  obtain ⟨inverse, formed, small, _⟩ := strict_inverse [0xE2, 0x82, 0xAC]
  have read := (inverse utf8 "€").mpr written
  refine ⟨read, formed.mp ⟨_, read⟩, fun h => ?_, fun h => ?_⟩
  · exact absurd (small.mp h 0xE2 (by decide)) (by decide)
  · obtain ⟨text, accepted⟩ := (strict_inverse [0xE0, 0x82, 0xAC]).2.1.mpr h
    rw [refused] at accepted
    cases accepted

end Charset

end Switchboard
