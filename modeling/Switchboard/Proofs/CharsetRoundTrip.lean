import Switchboard.Charset

namespace Switchboard

namespace Utf8

variable {b : UInt8} {bs rest : Bytes} {code : Nat}

theorem segments_one (hb : b.toNat < 0x80) :
    segments (b :: bs) = .scalar (Char.ofNat b.toNat) :: segments bs := by
  rw [segments, if_pos hb]

theorem segments_stray (hb : 0x80 ≤ b.toNat) (hl : lead? b = none) :
    segments (b :: bs) = .malformed [b] :: segments bs := by
  rw [segments, if_neg (by omega)]
  split
  next => rfl
  next l hl' =>
    rw [hl] at hl'
    cases hl'

theorem segments_of_lead {l : Lead} (hb : 0x80 ≤ b.toNat) (hl : lead? b = some l) :
    segments (b :: bs) = match readTail l.more l.low l.high l.bits bs with
      | .complete code rest => .scalar (Char.ofNat code) :: segments rest
      | .broken taken rest => .malformed (b :: taken) :: segments rest
      | .missing taken => [.truncated (b :: taken)] := by
  rw [segments, if_neg (by omega)]
  split
  next hnone =>
    rw [hl] at hnone
    cases hnone
  next l' hl' =>
    obtain rfl : l = l' := Option.some.inj (hl.symm.trans hl')
    split <;> simp_all

theorem segments_complete {l : Lead} (hb : 0x80 ≤ b.toNat) (hl : lead? b = some l)
    (ht : readTail l.more l.low l.high l.bits bs = .complete code rest) :
    segments (b :: bs) = .scalar (Char.ofNat code) :: segments rest := by
  rw [segments_of_lead hb hl, ht]

theorem readTail_cons {more : Nat} {low high : UInt8} {code' : Nat} (hlow : low ≤ b)
    (hhigh : b ≤ high)
    (h : readTail more 0x80 0xBF (code * 64 + (b.toNat - 0x80)) bs = .complete code' rest) :
    readTail (more + 1) low high code (b :: bs) = .complete code' rest := by
  rw [readTail, if_pos ⟨hlow, hhigh⟩, h]

/-- The `n`th octet behind a lead carries six bits. -/
def tailOctet (n : Nat) : UInt8 := UInt8.ofNat (n % 64 + 0x80)

theorem tailOctet_toNat (n : Nat) : (tailOctet n).toNat = n % 64 + 0x80 := by
  rw [tailOctet, UInt8.toNat_ofNat']
  omega

theorem readTail_tailOctet {more n code' : Nat}
    (h : readTail more 0x80 0xBF (code * 64 + n % 64) bs = .complete code' rest) :
    readTail (more + 1) 0x80 0xBF code (tailOctet n :: bs) = .complete code' rest := by
  have value := tailOctet_toNat n
  refine readTail_cons ?_ ?_ ?_
  · rw [UInt8.le_iff_toNat_le, value]
    exact Nat.le_add_left ..
  · rw [UInt8.le_iff_toNat_le, value]
    show n % 64 + 0x80 ≤ 0xBF
    omega
  · rw [value, Nat.add_sub_cancel]
    exact h

theorem encodeChar_eq (c : Char) : encodeChar c =
    if c.toNat ≤ 0x7F then [UInt8.ofNat c.toNat]
    else if c.toNat ≤ 0x7FF then [UInt8.ofNat (c.toNat / 64 % 32 + 0xC0), tailOctet c.toNat]
    else if c.toNat ≤ 0xFFFF then
      [UInt8.ofNat (c.toNat / 4096 % 16 + 0xE0), tailOctet (c.toNat / 64), tailOctet c.toNat]
    else [UInt8.ofNat (c.toNat / 262144 % 8 + 0xF0), tailOctet (c.toNat / 4096),
      tailOctet (c.toNat / 64), tailOctet c.toNat] := rfl

theorem le_of_mem_encodeChar {c : Char} (h : 0x7F < c.toNat) (hb : b ∈ encodeChar c) :
    0x80 ≤ b.toNat := by
  rw [encodeChar_eq, if_neg (by omega)] at hb
  split at hb
  · simp only [List.mem_cons, List.not_mem_nil, or_false] at hb
    rcases hb with rfl | rfl
    · rw [UInt8.toNat_ofNat']
      omega
    · rw [tailOctet_toNat]
      omega
  split at hb
  · simp only [List.mem_cons, List.not_mem_nil, or_false] at hb
    rcases hb with rfl | rfl | rfl
    · rw [UInt8.toNat_ofNat']
      omega
    all_goals
      rw [tailOctet_toNat]
      omega
  · simp only [List.mem_cons, List.not_mem_nil, or_false] at hb
    rcases hb with rfl | rfl | rfl | rfl
    · rw [UInt8.toNat_ofNat']
      omega
    all_goals
      rw [tailOctet_toNat]
      omega

/-- The lead of a character of three octets: its value is none that is written with fewer, and no
surrogate. -/
theorem lead_three {v : Nat} (least : 0x800 ≤ v) (most : v < 0x10000)
    (valid : v < 0xD800 ∨ 0xDFFF < v) (hb : b.toNat = v / 4096 + 0xE0) :
    ∃ l, lead? b = some l ∧ l.more = 2 ∧ l.bits = v / 4096 ∧
      l.low ≤ tailOctet (v / 64) ∧ tailOctet (v / 64) ≤ l.high := by
  have value := tailOctet_toNat (v / 64)
  simp only [UInt8.le_iff_toNat_le, value]
  by_cases zero : v / 4096 = 0
  · refine ⟨⟨2, 0xA0, 0xBF, 0⟩, ?_, rfl, zero.symm, ?_, ?_⟩
    · simp [lead?, hb, zero]
    · show 0xA0 ≤ v / 64 % 64 + 0x80
      omega
    · show v / 64 % 64 + 0x80 ≤ 0xBF
      omega
  by_cases thirteen : v / 4096 = 13
  · refine ⟨⟨2, 0x80, 0x9F, 13⟩, ?_, rfl, thirteen.symm, ?_, ?_⟩
    · simp [lead?, hb, thirteen]
    · exact Nat.le_add_left ..
    · show v / 64 % 64 + 0x80 ≤ 0x9F
      omega
  · refine ⟨⟨2, 0x80, 0xBF, v / 4096⟩, ?_, rfl, rfl, Nat.le_add_left .., ?_⟩
    · have h₁ : ¬ v / 4096 + 0xE0 < 0xC2 := by omega
      have h₂ : ¬ v / 4096 + 0xE0 < 0xE0 := by omega
      have h₃ : ¬ v / 4096 + 0xE0 = 0xE0 := by omega
      have h₄ : ¬ v / 4096 + 0xE0 = 0xED := by omega
      have h₅ : v / 4096 + 0xE0 < 0xF0 := by omega
      simp only [lead?, hb, h₁, h₂, h₃, h₄, h₅, if_true, if_false, Nat.add_sub_cancel]
    · show v / 64 % 64 + 0x80 ≤ 0xBF
      omega

theorem lead_four {v : Nat} (least : 0x10000 ≤ v) (most : v < 0x110000)
    (hb : b.toNat = v / 262144 + 0xF0) :
    ∃ l, lead? b = some l ∧ l.more = 3 ∧ l.bits = v / 262144 ∧
      l.low ≤ tailOctet (v / 4096) ∧ tailOctet (v / 4096) ≤ l.high := by
  have value := tailOctet_toNat (v / 4096)
  simp only [UInt8.le_iff_toNat_le, value]
  by_cases zero : v / 262144 = 0
  · refine ⟨⟨3, 0x90, 0xBF, 0⟩, ?_, rfl, zero.symm, ?_, ?_⟩
    · simp [lead?, hb, zero]
    · show 0x90 ≤ v / 4096 % 64 + 0x80
      omega
    · show v / 4096 % 64 + 0x80 ≤ 0xBF
      omega
  by_cases four : v / 262144 = 4
  · refine ⟨⟨3, 0x80, 0x8F, 4⟩, ?_, rfl, four.symm, ?_, ?_⟩
    · simp [lead?, hb, four]
    · exact Nat.le_add_left ..
    · show v / 4096 % 64 + 0x80 ≤ 0x8F
      omega
  · refine ⟨⟨3, 0x80, 0xBF, v / 262144⟩, ?_, rfl, rfl, Nat.le_add_left .., ?_⟩
    · have h₁ : ¬ v / 262144 + 0xF0 < 0xC2 := by omega
      have h₂ : ¬ v / 262144 + 0xF0 < 0xE0 := by omega
      have h₃ : ¬ v / 262144 + 0xF0 = 0xE0 := by omega
      have h₄ : ¬ v / 262144 + 0xF0 = 0xED := by omega
      have h₅ : ¬ v / 262144 + 0xF0 < 0xF0 := by omega
      have h₆ : ¬ v / 262144 + 0xF0 = 0xF0 := by omega
      have h₇ : v / 262144 + 0xF0 < 0xF4 := by omega
      simp only [lead?, hb, h₁, h₂, h₃, h₄, h₅, h₆, h₇, if_true, if_false, Nat.add_sub_cancel]
    · show v / 4096 % 64 + 0x80 ≤ 0xBF
      omega

theorem segments_two {c : Char} (least : 0x7F < c.toNat) (most : c.toNat ≤ 0x7FF) (rest : Bytes) :
    segments (UInt8.ofNat (c.toNat / 64 % 32 + 0xC0) :: tailOctet c.toNat :: rest) =
      .scalar c :: segments rest := by
  let b := UInt8.ofNat (c.toNat / 64 % 32 + 0xC0)
  have value : b.toNat = c.toNat / 64 + 0xC0 := by
    rw [UInt8.toNat_ofNat']
    omega
  have lead : lead? b = some ⟨1, 0x80, 0xBF, c.toNat / 64⟩ := by
    have h₁ : ¬ c.toNat / 64 + 0xC0 < 0xC2 := by omega
    have h₂ : c.toNat / 64 + 0xC0 < 0xE0 := by omega
    simp only [lead?, value, h₁, h₂, if_true, if_false, Nat.add_sub_cancel]
  have whole : c.toNat / 64 * 64 + c.toNat % 64 = c.toNat := Nat.div_add_mod' ..
  have tail : readTail 1 0x80 0xBF (c.toNat / 64) (tailOctet c.toNat :: rest) =
      .complete c.toNat rest := readTail_tailOctet (by rw [whole]; cases rest <;> rfl)
  have read := segments_complete (by omega) lead tail
  rwa [c.ofNat_toNat] at read

theorem segments_three {c : Char} (least : 0x7FF < c.toNat) (most : c.toNat ≤ 0xFFFF)
    (rest : Bytes) :
    segments (UInt8.ofNat (c.toNat / 4096 % 16 + 0xE0) :: tailOctet (c.toNat / 64) ::
      tailOctet c.toNat :: rest) = .scalar c :: segments rest := by
  have valid : c.toNat < 0xD800 ∨ 0xDFFF < c.toNat ∧ c.toNat < 0x110000 := c.valid
  let b := UInt8.ofNat (c.toNat / 4096 % 16 + 0xE0)
  have value : b.toNat = c.toNat / 4096 + 0xE0 := by
    rw [UInt8.toNat_ofNat']
    omega
  obtain ⟨l, lead, more, bits, low, high⟩ := lead_three (by omega) (by omega) (by omega) value
  have whole : (c.toNat / 4096 * 64 + c.toNat / 64 % 64) * 64 + c.toNat % 64 = c.toNat := by
    omega
  have last : readTail 1 0x80 0xBF (c.toNat / 4096 * 64 + c.toNat / 64 % 64)
      (tailOctet c.toNat :: rest) = .complete c.toNat rest :=
    readTail_tailOctet (by rw [whole]; cases rest <;> rfl)
  have tail : readTail l.more l.low l.high l.bits
      (tailOctet (c.toNat / 64) :: tailOctet c.toNat :: rest) = .complete c.toNat rest := by
    rw [more, bits]
    refine readTail_cons low high ?_
    rwa [tailOctet_toNat, Nat.add_sub_cancel]
  have read := segments_complete (by omega) lead tail
  rwa [c.ofNat_toNat] at read

theorem segments_four {c : Char} (least : 0xFFFF < c.toNat) (rest : Bytes) :
    segments (UInt8.ofNat (c.toNat / 262144 % 8 + 0xF0) :: tailOctet (c.toNat / 4096) ::
      tailOctet (c.toNat / 64) :: tailOctet c.toNat :: rest) = .scalar c :: segments rest := by
  have valid : c.toNat < 0xD800 ∨ 0xDFFF < c.toNat ∧ c.toNat < 0x110000 := c.valid
  let b := UInt8.ofNat (c.toNat / 262144 % 8 + 0xF0)
  have value : b.toNat = c.toNat / 262144 + 0xF0 := by
    rw [UInt8.toNat_ofNat']
    omega
  obtain ⟨l, lead, more, bits, low, high⟩ := lead_four (by omega) (by omega) value
  have whole : ((c.toNat / 262144 * 64 + c.toNat / 4096 % 64) * 64 + c.toNat / 64 % 64) * 64 +
      c.toNat % 64 = c.toNat := by
    omega
  have last : readTail 2 0x80 0xBF (c.toNat / 262144 * 64 + c.toNat / 4096 % 64)
      (tailOctet (c.toNat / 64) :: tailOctet c.toNat :: rest) = .complete c.toNat rest :=
    readTail_tailOctet (readTail_tailOctet (by rw [whole]; cases rest <;> rfl))
  have tail : readTail l.more l.low l.high l.bits
      (tailOctet (c.toNat / 4096) :: tailOctet (c.toNat / 64) :: tailOctet c.toNat :: rest) =
        .complete c.toNat rest := by
    rw [more, bits]
    refine readTail_cons low high ?_
    rwa [tailOctet_toNat, Nat.add_sub_cancel]
  have read := segments_complete (by omega) lead tail
  rwa [c.ofNat_toNat] at read

theorem segments_encodeChar (c : Char) (rest : Bytes) :
    segments (encodeChar c ++ rest) = .scalar c :: segments rest := by
  rw [encodeChar_eq]
  split
  next one =>
    have value : (UInt8.ofNat c.toNat).toNat = c.toNat := by
      rw [UInt8.toNat_ofNat']
      omega
    rw [List.singleton_append, segments, if_pos (by omega), value, c.ofNat_toNat]
  split
  next two => exact segments_two (by omega) two rest
  split
  next three => exact segments_three (by omega) three rest
  next four => exact segments_four (by omega) rest

theorem segments_encode (cs : List Char) :
    segments (cs.flatMap encodeChar) = cs.map .scalar := by
  induction cs with
  | nil => rw [List.flatMap_nil, segments]; rfl
  | cons c cs ih => rw [List.flatMap_cons, segments_encodeChar, ih, List.map_cons]

theorem decodeReplacing_encode (cs : List Char) :
    decodeReplacing (cs.flatMap encodeChar) = String.ofList cs := by
  rw [decodeReplacing, segments_encode, List.map_map]
  exact congrArg String.ofList (List.map_id cs)

theorem scalars_cons {c : Char} {ss : List Segment} :
    (∃ cs : List Char, .scalar c :: ss = cs.map Segment.scalar) ↔
      ∃ cs : List Char, ss = cs.map .scalar := by
  constructor
  · rintro ⟨_ | ⟨d, cs⟩, h⟩
    · cases h
    · exact ⟨cs, (List.cons.inj h).2⟩
  · rintro ⟨cs, rfl⟩
    exact ⟨c :: cs, rfl⟩

theorem not_scalars_cons {s : Segment} {ss : List Segment} (hs : s.char? = none) :
    ¬∃ cs : List Char, s :: ss = cs.map .scalar := by
  rintro ⟨cs, h⟩
  cases cs with
  | nil => cases h
  | cons c cs =>
    obtain ⟨rfl, _⟩ := List.cons.inj h
    cases hs

/-- There is no fault just where all pieces are characters. -/
theorem fault?_eq_none_iff {index : Nat} :
    fault? index bs = none ↔ ∃ cs : List Char, segments bs = cs.map .scalar := by
  fun_induction fault? index bs with
  | case1 => exact iff_of_true rfl ⟨[], by rw [segments]; rfl⟩
  | case2 index b bs hb ih => rw [segments_one hb, scalars_cons, ih]
  | case3 index b bs hb hl =>
    rw [segments_stray (by omega) hl]
    exact iff_of_false (by simp) (not_scalars_cons rfl)
  | case4 index b bs hb l hl code rest ht _ ih =>
    rw [segments_complete (by omega) hl ht, scalars_cons, ih]
  | case5 index b bs hb l hl taken rest ht =>
    rw [segments_of_lead (by omega) hl, ht]
    exact iff_of_false (by simp) (not_scalars_cons rfl)
  | case6 index b bs hb l hl taken ht =>
    rw [segments_of_lead (by omega) hl, ht]
    exact iff_of_false (by simp) (not_scalars_cons rfl)

theorem fault?_encode (cs : List Char) (index : Nat) :
    fault? index (cs.flatMap encodeChar) = none :=
  fault?_eq_none_iff.mpr ⟨cs, segments_encode cs⟩

/-- Without a fault there is nothing to leave out. -/
theorem decodeAround_of_no_fault (h : fault? 0 bs = none) :
    decodeAround bs = decodeReplacing bs := by
  rw [decodeAround]
  split
  next => rfl
  next f hf =>
    rw [h] at hf
    cases hf

end Utf8

namespace Charset

variable {charset : Charset} {text : String} {bytes : Bytes} {cs : List Char}

/-- A text that a charset has is written with its characters alone. -/
theorem encode_strict_eq_ok : charset.encode .strict text = .ok bytes ↔
    (∀ c ∈ text.toList, charset.represents c) ∧ bytes = charset.encodeAll text.toList := by
  simp only [encode]
  split
  next c hfind =>
    have lacks := List.find?_some hfind
    refine iff_of_false (by simp) fun h => ?_
    simp [h.1 c (List.mem_of_find?_eq_some hfind)] at lacks
  next hfind =>
    have has : ∀ c ∈ text.toList, charset.represents c := by simpa using hfind
    constructor
    · intro h
      exact ⟨has, (Except.ok.inj h).symm⟩
    · rintro ⟨_, rfl⟩
      rfl

/-- No policy changes a text that the charset has. -/
theorem encode_of_strict (h : charset.encode .strict text = .ok bytes) (policy : ErrorPolicy) :
    charset.encode policy text = .ok bytes := by
  obtain ⟨has, rfl⟩ := encode_strict_eq_ok.mp h
  cases policy with
  | strict => exact h
  | replace =>
    have same : (text.toList.map fun c => if charset.represents c then c else '?') =
        text.toList :=
      (List.map_congr_left fun c hc => if_pos (has c hc)).trans (List.map_id _)
    rw [encode, same]
  | ignore => rw [encode, List.filter_eq_self.mpr has]

/-- A character of one octet. -/
def octet (c : Char) : UInt8 := UInt8.ofNat c.toNat

theorem flatMap_octet (cs : List Char) : cs.flatMap (fun c => [octet c]) = cs.map octet :=
  (List.map_eq_flatMap ..).symm

theorem toNat_octet {c : Char} (h : c.toNat < 0x100) : (octet c).toNat = c.toNat := by
  rw [octet, UInt8.toNat_ofNat']
  exact Nat.mod_eq_of_lt h

theorem map_octet (h : ∀ c ∈ cs, c.toNat < 0x100) :
    (cs.map octet).map (fun b => Char.ofNat b.toNat) = cs := by
  rw [List.map_map]
  refine (List.map_congr_left fun c hc => ?_).trans (List.map_id cs)
  show Char.ofNat (octet c).toNat = c
  rw [toNat_octet (h c hc), c.ofNat_toNat]

theorem decode_ascii (h : ∀ c ∈ cs, c.toNat < 0x80) (policy : ErrorPolicy) :
    ascii.decode policy (cs.map octet) = .ok (String.ofList cs) := by
  have small : ∀ b ∈ cs.map octet, b.toNat < 0x80 := by
    intro b hb
    obtain ⟨c, hc, rfl⟩ := List.mem_map.mp hb
    have := h c hc
    rwa [toNat_octet (by omega)]
  have back := map_octet fun c hc => Nat.lt_trans (h c hc) (by decide)
  cases policy with
  | replace =>
    have same : (cs.map octet).map (fun b =>
        if b.toNat < 0x80 then Char.ofNat b.toNat else Utf8.replacement) = cs :=
      (List.map_congr_left fun b hb => if_pos (small b hb)).trans back
    rw [decode, same]
  | ignore =>
    have all : (cs.map octet).filter (fun b => b.toNat < 0x80) = cs.map octet :=
      List.filter_eq_self.mpr fun b hb => decide_eq_true (small b hb)
    rw [decode, all, back]
  | strict =>
    have none : (cs.map octet).find? (fun b => ¬ b.toNat < 0x80) = none := by
      simpa using small
    simp only [decode, none, back]

/-- What is written in a charset is read in it under every policy. -/
theorem decode_encode (h : charset.encode .strict text = .ok bytes) (policy : ErrorPolicy) :
    charset.decode policy bytes = .ok text := by
  obtain ⟨has, rfl⟩ := encode_strict_eq_ok.mp h
  cases charset with
  | utf8 =>
    show utf8.decode policy (text.toList.flatMap Utf8.encodeChar) = _
    cases policy with
    | replace => rw [decode, Utf8.decodeReplacing_encode, String.ofList_toList]
    | ignore =>
      rw [decode, Utf8.decodeAround_of_no_fault (Utf8.fault?_encode _ _),
        Utf8.decodeReplacing_encode, String.ofList_toList]
    | strict =>
      simp only [decode, Utf8.fault?_encode, Utf8.decodeReplacing_encode, String.ofList_toList]
  | ascii =>
    show ascii.decode policy (text.toList.flatMap fun c => [octet c]) = _
    rw [flatMap_octet, decode_ascii (fun c hc => of_decide_eq_true (has c hc)) policy,
      String.ofList_toList]
  | latin1 =>
    show latin1.decode policy (text.toList.flatMap fun c => [octet c]) = _
    rw [flatMap_octet, decode, map_octet fun c hc => of_decide_eq_true (has c hc),
      String.ofList_toList]

end Charset

end Switchboard
