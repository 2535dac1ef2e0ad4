import Switchboard.Proofs.CharsetRoundTrip

namespace Switchboard

namespace Utf8

variable {b low high : UInt8} {bs rest : Bytes} {code code' more : Nat} {c : Char}

/-- A lead announces a character of two, three or four octets: none that is written with fewer, no
surrogate and none past the last code point. -/
theorem lead?_cases {l : Lead} (h : lead? b = some l) :
    (l = ⟨1, 0x80, 0xBF, b.toNat - 0xC0⟩ ∧ 0xC2 ≤ b.toNat ∧ b.toNat < 0xE0) ∨
    (∃ low high : UInt8, l = ⟨2, low, high, b.toNat - 0xE0⟩ ∧ 0xE0 ≤ b.toNat ∧ b.toNat < 0xF0 ∧
      0x80 ≤ low.toNat ∧ high.toNat ≤ 0xBF ∧ (b.toNat = 0xE0 → 0xA0 ≤ low.toNat) ∧
      (b.toNat = 0xED → high.toNat ≤ 0x9F)) ∨
    ∃ low high : UInt8, l = ⟨3, low, high, b.toNat - 0xF0⟩ ∧ 0xF0 ≤ b.toNat ∧ b.toNat ≤ 0xF4 ∧
      0x80 ≤ low.toNat ∧ high.toNat ≤ 0xBF ∧ (b.toNat = 0xF0 → 0x90 ≤ low.toNat) ∧
      (b.toNat = 0xF4 → high.toNat ≤ 0x8F) := by
  simp only [lead?] at h
  split at h
  · cases h
  split at h
  next => cases h; exact .inl ⟨rfl, by omega, by omega⟩
  split at h
  next hb => cases h; exact .inr (.inl ⟨0xA0, 0xBF, by simp [hb], by simp [hb]⟩)
  split at h
  next hb => cases h; exact .inr (.inl ⟨0x80, 0x9F, by simp [hb], by simp [hb]⟩)
  split at h
  next =>
    cases h
    exact .inr (.inl ⟨0x80, 0xBF, rfl, by omega, by omega, by decide, by decide, by omega,
      by omega⟩)
  split at h
  next hb => cases h; exact .inr (.inr ⟨0x90, 0xBF, by simp [hb], by simp [hb]⟩)
  split at h
  next =>
    cases h
    exact .inr (.inr ⟨0x80, 0xBF, rfl, by omega, by omega, by decide, by decide, by omega,
      by omega⟩)
  split at h
  next hb => cases h; exact .inr (.inr ⟨0x80, 0x8F, by simp [hb], by simp [hb]⟩)
  · cases h

theorem readTail_zero_complete (h : readTail 0 low high code bs = .complete code' rest) :
    code = code' ∧ bs = rest := by
  cases bs <;> exact ⟨by injection h, by injection h⟩

theorem readTail_succ_complete
    (h : readTail (more + 1) low high code bs = .complete code' rest) :
    ∃ b bs', bs = b :: bs' ∧ low.toNat ≤ b.toNat ∧ b.toNat ≤ high.toNat ∧
      readTail more 0x80 0xBF (code * 64 + (b.toNat - 0x80)) bs' = .complete code' rest := by
  cases bs with
  | nil => cases h
  | cons b bs' =>
    rw [readTail] at h
    split at h
    next bounds =>
      split at h
      next hrest => cases h; exact ⟨b, bs', rfl, bounds.1, bounds.2, hrest⟩
      all_goals cases h
    · cases h

theorem tailOctet_eq {n : Nat} (h : b.toNat = n % 64 + 0x80) : tailOctet n = b :=
  UInt8.toNat_inj.mp ((tailOctet_toNat n).trans h.symm)

theorem ofNat_eq {n : Nat} (h : b.toNat = n) : UInt8.ofNat n = b := by rw [← h, UInt8.ofNat_toNat]

theorem toNat_ofNat (valid : code < 0xD800 ∨ 0xDFFF < code ∧ code < 0x110000) :
    (Char.ofNat code).toNat = code := by
  rw [Char.ofNat, dif_pos valid]
  rfl

theorem encodeChar_one (hb : b.toNat < 0x80) : encodeChar (Char.ofNat b.toNat) = [b] := by
  rw [encodeChar_eq, toNat_ofNat (by omega), if_pos (by omega), ofNat_eq rfl]

theorem encodeChar_two {b b₁ : UInt8} (least : 0xC2 ≤ b.toNat) (most : b.toNat < 0xE0)
    (low : 0x80 ≤ b₁.toNat) (high : b₁.toNat ≤ 0xBF) :
    encodeChar (Char.ofNat ((b.toNat - 0xC0) * 64 + (b₁.toNat - 0x80))) = [b, b₁] := by
  rw [encodeChar_eq, toNat_ofNat (by omega), if_neg (by omega), if_pos (by omega),
    ofNat_eq (b := b) (by omega), tailOctet_eq (b := b₁) (by omega)]

theorem encodeChar_three {b b₁ b₂ : UInt8} (least : 0xE0 ≤ b.toNat) (most : b.toNat < 0xF0)
    (overlong : b.toNat = 0xE0 → 0xA0 ≤ b₁.toNat) (surrogate : b.toNat = 0xED → b₁.toNat ≤ 0x9F)
    (low : 0x80 ≤ b₁.toNat) (high : b₁.toNat ≤ 0xBF) (low₂ : 0x80 ≤ b₂.toNat)
    (high₂ : b₂.toNat ≤ 0xBF) :
    encodeChar (Char.ofNat (((b.toNat - 0xE0) * 64 + (b₁.toNat - 0x80)) * 64 +
      (b₂.toNat - 0x80))) = [b, b₁, b₂] := by
  rw [encodeChar_eq, toNat_ofNat (by omega), if_neg (by omega), if_neg (by omega),
    if_pos (by omega), ofNat_eq (b := b) (by omega), tailOctet_eq (b := b₁) (by omega),
    tailOctet_eq (b := b₂) (by omega)]

theorem encodeChar_four {b b₁ b₂ b₃ : UInt8} (least : 0xF0 ≤ b.toNat) (most : b.toNat ≤ 0xF4)
    (overlong : b.toNat = 0xF0 → 0x90 ≤ b₁.toNat) (last : b.toNat = 0xF4 → b₁.toNat ≤ 0x8F)
    (low : 0x80 ≤ b₁.toNat) (high : b₁.toNat ≤ 0xBF) (low₂ : 0x80 ≤ b₂.toNat)
    (high₂ : b₂.toNat ≤ 0xBF) (low₃ : 0x80 ≤ b₃.toNat) (high₃ : b₃.toNat ≤ 0xBF) :
    encodeChar (Char.ofNat ((((b.toNat - 0xF0) * 64 + (b₁.toNat - 0x80)) * 64 +
      (b₂.toNat - 0x80)) * 64 + (b₃.toNat - 0x80))) = [b, b₁, b₂, b₃] := by
  rw [encodeChar_eq, toNat_ofNat (by omega), if_neg (by omega), if_neg (by omega),
    if_neg (by omega), ofNat_eq (b := b) (by omega), tailOctet_eq (b := b₁) (by omega),
    tailOctet_eq (b := b₂) (by omega), tailOctet_eq (b := b₃) (by omega)]

/-- The octets behind a lead that are read as a character are those it is written with. -/
theorem encodeChar_of_complete {l : Lead} (hl : lead? b = some l)
    (h : readTail l.more l.low l.high l.bits bs = .complete code rest) :
    encodeChar (Char.ofNat code) ++ rest = b :: bs := by
  -- one case for each length; the bounds of the octet behind the lead are the lead's own
  obtain ⟨rfl, least, most⟩ | ⟨low, high, rfl, least, most, hlow, hhigh, overlong, surrogate⟩ |
    ⟨low, high, rfl, least, most, hlow, hhigh, overlong, last⟩ := lead?_cases hl
  · obtain ⟨b₁, _, rfl, low₁, high₁, h⟩ := readTail_succ_complete h
    obtain ⟨rfl, rfl⟩ := readTail_zero_complete h
    exact congrArg (· ++ _) (encodeChar_two least most low₁ high₁)
  · obtain ⟨b₁, _, rfl, low₁, high₁, h⟩ := readTail_succ_complete h
    obtain ⟨b₂, _, rfl, low₂, high₂, h⟩ := readTail_succ_complete h
    obtain ⟨rfl, rfl⟩ := readTail_zero_complete h
    exact congrArg (· ++ _) (encodeChar_three least most
      (fun h => Nat.le_trans (overlong h) low₁) (fun h => Nat.le_trans high₁ (surrogate h))
      (Nat.le_trans hlow low₁) (Nat.le_trans high₁ hhigh) low₂ high₂)
  · obtain ⟨b₁, _, rfl, low₁, high₁, h⟩ := readTail_succ_complete h
    obtain ⟨b₂, _, rfl, low₂, high₂, h⟩ := readTail_succ_complete h
    obtain ⟨b₃, _, rfl, low₃, high₃, h⟩ := readTail_succ_complete h
    obtain ⟨rfl, rfl⟩ := readTail_zero_complete h
    exact congrArg (· ++ _) (encodeChar_four least most
      (fun h => Nat.le_trans (overlong h) low₁) (fun h => Nat.le_trans high₁ (last h))
      (Nat.le_trans hlow low₁) (Nat.le_trans high₁ hhigh) low₂ high₂ low₃ high₃)

theorem segments_scalar {ss : List Segment} (h : segments (b :: bs) = .scalar c :: ss) :
    ∃ rest, encodeChar c ++ rest = b :: bs ∧ segments rest = ss := by
  rw [segments] at h
  split at h
  next one =>
    obtain ⟨rfl, rfl⟩ : Char.ofNat b.toNat = c ∧ segments bs = ss := by simpa using h
    refine ⟨bs, ?_, rfl⟩
    rw [encodeChar_one one]
    rfl
  split at h
  next => cases h
  next l hl =>
    split at h
    next code rest tail =>
      obtain ⟨rfl, rfl⟩ : Char.ofNat code = c ∧ segments rest = ss := by simpa using h
      exact ⟨rest, encodeChar_of_complete hl tail, rfl⟩
    all_goals cases h

theorem eq_of_segments {cs : List Char} (h : segments bs = cs.map .scalar) :
    bs = cs.flatMap encodeChar := by
  induction cs generalizing bs with
  | nil =>
    cases bs with
    | nil => rfl
    | cons b bs =>
      rw [segments] at h
      split at h
      · cases h
      split at h
      · cases h
      split at h <;> cases h
  | cons c cs ih =>
    cases bs with
    | nil => rw [segments] at h; cases h
    | cons b bs =>
      obtain ⟨rest, hrest, hsegments⟩ := segments_scalar h
      rw [← hrest, List.flatMap_cons, ih hsegments]

theorem mapM_char? {ss : List Segment} {cs : List Char} :
    ss.mapM Segment.char? = some cs ↔ ss = cs.map .scalar := by
  induction ss generalizing cs with
  | nil => cases cs <;> simp
  | cons s ss ih =>
    cases cs with
    | nil => cases s <;> simp [Segment.char?, Option.bind_eq_some_iff]
    | cons c cs =>
      cases s with
      | scalar d =>
        have heads : Segment.scalar d :: ss = (c :: cs).map .scalar ↔
            ss = cs.map .scalar ∧ d = c := by simp [and_comm]
        rw [heads]
        simp [Segment.char?, Option.bind_eq_some_iff, ih]
      | malformed => simp [Segment.char?]
      | truncated => simp [Segment.char?]

/-- Octets have a text if and only if they are those it is written with. -/
theorem decode?_eq_some {t : String} : decode? bs = some t ↔ bs = encode t := by
  constructor
  · intro h
    obtain ⟨cs, hcs, rfl⟩ := Option.map_eq_some_iff.mp h
    rw [encode, String.toList_ofList]
    exact eq_of_segments (mapM_char?.mp hcs)
  · rintro rfl
    rw [decode?, encode, mapM_char?.mpr (segments_encode t.toList)]
    exact congrArg some String.ofList_toList

end Utf8

namespace Charset

variable {charset : Charset} {bytes : Bytes} {text : String}

theorem octet_ofNat {b : UInt8} : octet (Char.ofNat b.toNat) = b := by
  have small : b.toNat < 256 := b.toNat_lt
  rw [octet, Utf8.toNat_ofNat (by omega), UInt8.ofNat_toNat]

theorem encodeAll_map_ofNat (charset : Charset) (one : charset.encodeChar = fun c => [octet c])
    (bytes : Bytes) :
    charset.encodeAll (bytes.map fun b => Char.ofNat b.toNat) = bytes := by
  rw [encodeAll, one, flatMap_octet, List.map_map]
  exact (List.map_congr_left fun b _ => octet_ofNat).trans (List.map_id bytes)

/-- Bytes that are a text from end to end are what the text is written with. -/
theorem encode_of_decode (h : charset.decode .strict bytes = .ok text) :
    charset.encode .strict text = .ok bytes := by
  rw [encode_strict_eq_ok]
  cases charset with
  | utf8 =>
    simp only [decode] at h
    split at h
    · cases h
    next whole =>
      obtain ⟨cs, hcs⟩ := Utf8.fault?_eq_none_iff.mp whole
      have hbytes := Utf8.eq_of_segments hcs
      rw [hbytes, Utf8.decodeReplacing_encode] at h
      obtain rfl := Except.ok.inj h
      rw [String.toList_ofList]
      exact ⟨fun c _ => rfl, hbytes⟩
  | ascii =>
    simp only [decode] at h
    split at h
    · cases h
    next none =>
      have small : ∀ b ∈ bytes, b.toNat < 0x80 := by simpa using none
      obtain rfl := Except.ok.inj h
      rw [String.toList_ofList]
      refine ⟨fun c hc => ?_, (encodeAll_map_ofNat ascii rfl bytes).symm⟩
      obtain ⟨b, hb, rfl⟩ := List.mem_map.mp hc
      have := small b hb
      exact decide_eq_true (by rwa [Utf8.toNat_ofNat (by omega)])
  | latin1 =>
    obtain rfl := Except.ok.inj h
    rw [String.toList_ofList]
    refine ⟨fun c hc => ?_, (encodeAll_map_ofNat latin1 rfl bytes).symm⟩
    obtain ⟨b, _, rfl⟩ := List.mem_map.mp hc
    have small : b.toNat < 256 := b.toNat_lt
    exact decide_eq_true (by rwa [Utf8.toNat_ofNat (by omega)])

/-- Every octet is a character of Latin-1. -/
theorem decode_latin1 (bytes : Bytes) :
    latin1.decode .strict bytes = .ok (String.ofList (bytes.map fun b => Char.ofNat b.toNat)) := rfl

end Charset

end Switchboard
