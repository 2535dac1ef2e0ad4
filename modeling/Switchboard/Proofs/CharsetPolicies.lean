import Switchboard.Proofs.WholeTexts

namespace Switchboard

namespace Charset

/-- The octets a piece was read from. -/
def octets (charset : Charset) : Utf8.Segment → Bytes
  | .scalar c => charset.encodeChar c
  | .malformed octets => octets
  | .truncated octets => octets

/-- The pieces of a byte string: characters, and octets that are none. -/
def pieces : Charset → Bytes → List Utf8.Segment
  | utf8, bytes => Utf8.segments bytes
  | ascii, bytes => bytes.map fun b =>
      if b.toNat < 0x80 then .scalar (Char.ofNat b.toNat) else .malformed [b]
  | latin1, bytes => bytes.map fun b => .scalar (Char.ofNat b.toNat)

end Charset

namespace Utf8

variable {low high : UInt8} {bs rest taken : Bytes} {more code index : Nat}

theorem readTail_missing (h : readTail more low high code bs = .missing taken) : taken = bs := by
  induction more generalizing low high code bs taken with
  | zero => cases bs <;> simp [readTail] at h
  | succ more ih =>
    cases bs with
    | nil =>
      simp only [readTail, Tail.missing.injEq] at h
      exact h.symm
    | cons b bs =>
      simp only [readTail] at h
      split at h
      · split at h <;> simp at h
        next hr =>
          obtain rfl := h
          rw [ih hr]
      · simp at h

/-- Behind the characters in front of a fault stands a piece that is none, and behind that the
pieces go on. -/
theorem segments_of_fault {f : Fault} (h : fault? index bs = some f) :
    ∃ (cs : List Char) (s : Segment) (rest : Bytes),
      segments bs = cs.map .scalar ++ s :: segments rest ∧ s.char? = none ∧
      bs = cs.flatMap encodeChar ++ (Charset.utf8.octets s ++ rest) ∧
      f.index = index + (cs.flatMap encodeChar).length ∧
      f.octets.getD (Charset.utf8.octets s ++ rest).length = (Charset.utf8.octets s).length := by
  -- the scan passes a character, which stands in front of the fault, or it is at the fault
  fun_induction fault? index bs with
  | case1 => cases h
  | case2 index b bs hb ih =>
    obtain ⟨cs, s, rest, hsegments, hs, hbs, hindex, hoctets⟩ := ih h
    refine ⟨Char.ofNat b.toNat :: cs, s, rest, ?_, hs, ?_, ?_, hoctets⟩
    · rw [segments_one hb, hsegments]
      rfl
    · rw [List.flatMap_cons, encodeChar_one hb, List.append_assoc, ← hbs]
      rfl
    · rw [List.flatMap_cons, encodeChar_one hb, List.length_append, hindex]
      simp only [List.length_singleton]
      omega
  | case3 index b bs hb hl =>
    obtain rfl := Option.some.inj h
    exact ⟨[], .malformed [b], bs, segments_stray (by omega) hl, rfl, rfl, rfl, rfl⟩
  | case4 index b bs hb l hl code rest₁ ht length ih =>
    obtain ⟨cs, s, rest, hsegments, hs, hbs, hindex, hoctets⟩ := ih h
    have whole := encodeChar_of_complete hl ht
    have width : (encodeChar (Char.ofNat code)).length = l.more + 1 := by
      have := congrArg List.length whole
      rw [List.length_append, List.length_cons, length] at this
      omega
    refine ⟨Char.ofNat code :: cs, s, rest, ?_, hs, ?_, ?_, hoctets⟩
    · rw [segments_complete (by omega) hl ht, hsegments]
      rfl
    · rw [List.flatMap_cons, List.append_assoc, ← hbs, whole]
    · rw [List.flatMap_cons, List.length_append, width, hindex, Nat.add_assoc]
  | case5 index b bs hb l hl taken rest ht =>
    obtain rfl := Option.some.inj h
    refine ⟨[], .malformed (b :: taken), rest, ?_, rfl, ?_, rfl, rfl⟩
    · rw [segments_of_lead (by omega) hl, ht]
      rfl
    · exact congrArg (b :: ·) (readTail_broken_append ht).symm
  | case6 index b bs hb l hl taken ht =>
    obtain rfl := Option.some.inj h
    obtain rfl := readTail_missing ht
    refine ⟨[], .truncated (b :: taken), [], ?_, rfl, ?_, rfl, ?_⟩
    · rw [segments_of_lead (by omega) hl, ht, segments]
      rfl
    · exact (List.append_nil _).symm
    · rw [List.append_nil]
      rfl

theorem filterMap_scalars (cs : List Char) (ss : List Segment) :
    (cs.map Segment.scalar ++ ss).filterMap Segment.char? = cs ++ ss.filterMap Segment.char? := by
  rw [List.filterMap_append, List.filterMap_map]
  exact congrArg (· ++ _) List.filterMap_some

/-- To leave out one fault after the other is to keep the characters of all pieces. -/
theorem decodeAround_eq (bs : Bytes) :
    decodeAround bs = String.ofList ((segments bs).filterMap Segment.char?) := by
  fun_induction decodeAround bs with
  | case1 bs none =>
    obtain ⟨cs, hcs⟩ := fault?_eq_none_iff.mp none
    have whole := filterMap_scalars cs []
    rw [List.append_nil] at whole
    rw [hcs, whole, eq_of_segments hcs, decodeReplacing_encode]
    simp
  | case2 bs f hf _ behind ih =>
    obtain ⟨cs, s, rest, hsegments, hs, hbs, hindex, hoctets⟩ := segments_of_fault hf
    rw [Nat.zero_add] at hindex
    -- three parts: what is kept as it stands, what is left out, and where the loop goes on
    have front : bs.take f.index = cs.flatMap encodeChar := by
      rw [hbs, hindex, List.take_left]
    have back : behind = Charset.utf8.octets s ++ rest := by
      show bs.drop f.index = _
      rw [hbs, hindex, List.drop_left]
    have left : behind.drop (f.octets.getD behind.length) = rest := by
      rw [back, hoctets, List.drop_left]
    rw [left] at ih
    rw [front, left, decodeReplacing_encode, ih, hsegments, filterMap_scalars,
      List.filterMap_cons_none hs, String.ofList_append]

theorem octets_segments (bs : Bytes) : (segments bs).flatMap Charset.utf8.octets = bs := by
  fun_induction segments bs with
  | case1 => rfl
  | case2 b bs hb ih =>
    rw [List.flatMap_cons, ih]
    exact congrArg (· ++ bs) (encodeChar_one hb)
  | case3 b bs hb hl ih =>
    rw [List.flatMap_cons, ih]
    rfl
  | case4 b bs hb l hl code rest ht _ ih =>
    rw [List.flatMap_cons, ih]
    exact encodeChar_of_complete hl ht
  | case5 b bs hb l hl taken rest ht _ ih =>
    rw [List.flatMap_cons, ih]
    exact congrArg (b :: ·) (readTail_broken_append ht)
  | case6 b bs hb l hl taken ht =>
    rw [readTail_missing ht]
    exact List.append_nil _

/-- What is left without the marks is the same whether the other pieces were marked or dropped. -/
theorem filter_marked (ss : List Segment) :
    (ss.map fun s => s.char?.getD replacement).filter (· ≠ replacement) =
      (ss.filterMap Segment.char?).filter (· ≠ replacement) := by
  induction ss with
  | nil => rfl
  | cons s ss ih =>
    rw [List.map_cons]
    cases hs : s.char? with
    | none =>
      rw [List.filterMap_cons_none hs, List.filter_cons_of_neg (by simp), ih]
    | some c =>
      rw [List.filterMap_cons_some hs, List.filter_cons, List.filter_cons, ih]
      rfl

end Utf8

namespace Charset

variable {charset : Charset} {bytes : Bytes} {text : String}

theorem flatMap_map_piece {piece : UInt8 → Utf8.Segment}
    (one : ∀ b, charset.octets (piece b) = [b]) (bytes : Bytes) :
    (bytes.map piece).flatMap charset.octets = bytes := by
  rw [List.flatMap_map]
  simp only [one]
  exact List.flatMap_singleton' bytes

/-- Every octet belongs to one piece. -/
theorem flatMap_pieces (charset : Charset) (bytes : Bytes) :
    (charset.pieces bytes).flatMap charset.octets = bytes := by
  cases charset with
  | utf8 => exact Utf8.octets_segments bytes
  | ascii =>
    refine flatMap_map_piece (fun b => ?_) bytes
    split
    · exact congrArg (fun o => [o]) octet_ofNat
    · rfl
  | latin1 =>
    have one (b : UInt8) : latin1.octets (.scalar (Char.ofNat b.toNat)) = [b] :=
      congrArg (fun o => [o]) octet_ofNat
    exact flatMap_map_piece one bytes

/-- A character cut short, an octet that belongs to none, and the end of the string inside a
character. -/
example : utf8.pieces [0x61, 0xE2, 0x82, 0xFF, 0x62, 0xF0, 0x9F] =
    [.scalar 'a', .malformed [0xE2, 0x82], .malformed [0xFF], .scalar 'b',
      .truncated [0xF0, 0x9F]] := by
  cbv

theorem decode_replace (charset : Charset) (bytes : Bytes) :
    charset.decode .replace bytes = .ok (.ofList
      ((charset.pieces bytes).map fun s => s.char?.getD Utf8.replacement)) := by
  cases charset with
  | utf8 => rfl
  | ascii =>
    have each (b : UInt8) : ((if b.toNat < 0x80 then .scalar (Char.ofNat b.toNat)
        else .malformed [b] : Utf8.Segment).char?.getD Utf8.replacement) =
        if b.toNat < 0x80 then Char.ofNat b.toNat else Utf8.replacement := by
      split <;> rfl
    simp only [decode, pieces, List.map_map, Function.comp_def, each]
  | latin1 =>
    simp only [decode, pieces, List.map_map, Function.comp_def, Utf8.Segment.char?, Option.getD_some]

theorem decode_ignore (charset : Charset) (bytes : Bytes) :
    charset.decode .ignore bytes =
      .ok (.ofList ((charset.pieces bytes).filterMap Utf8.Segment.char?)) := by
  cases charset with
  | utf8 => rw [decode, Utf8.decodeAround_eq, pieces]
  | ascii =>
    have each (b : UInt8) : (if b.toNat < 0x80 then .scalar (Char.ofNat b.toNat)
        else .malformed [b] : Utf8.Segment).char? =
        if b.toNat < 0x80 then some (Char.ofNat b.toNat) else none := by
      split <;> rfl
    have kept : (bytes.filter fun b => b.toNat < 0x80).map (fun b => Char.ofNat b.toNat) =
        bytes.filterMap fun b => if b.toNat < 0x80 then some (Char.ofNat b.toNat) else none := by
      rw [← List.filterMap_eq_map, List.filterMap_filter]
      simp only [decide_eq_true_eq, Function.comp_def]
    simp only [decode, kept, pieces, List.filterMap_map, Function.comp_def, each]
  | latin1 =>
    simp only [decode, pieces, List.filterMap_map, Function.comp_def, Utf8.Segment.char?,
      List.filterMap_eq_map']

/-- The characters a charset has are those it has a text of. -/
theorem represents_iff (c : Char) : charset.represents c = true ↔
    ∃ bytes, charset.encode .strict (.singleton c) = .ok bytes := by
  simp only [encode_strict_eq_ok, exists_and_left, exists_eq, and_true, String.toList_singleton,
    List.mem_singleton, forall_eq]

theorem represents_question (charset : Charset) : charset.represents '?' = true := by
  cases charset <;> rfl

/-- The decoders agree: replacing and ignoring always succeed and differ in nothing but the marks,
which stand for octets that ignoring leaves out, and a text that the strict decoder finds is found by
all. The encoders agree likewise about the characters that the charset lacks. -/
theorem policies_agree (charset : Charset) :
    (∀ bytes : Bytes, ∃ replaced skipped : String,
      charset.decode .replace bytes = .ok replaced ∧
      charset.decode .ignore bytes = .ok skipped ∧
      (∀ text, charset.decode .strict bytes = .ok text → replaced = text ∧ skipped = text) ∧
      replaced.toList.filter (· ≠ Utf8.replacement) =
        skipped.toList.filter (· ≠ Utf8.replacement) ∧
      ∃ pieces : List Utf8.Segment, pieces.flatMap charset.octets = bytes ∧
        replaced.toList = pieces.map (fun s => s.char?.getD Utf8.replacement) ∧
        skipped.toList = pieces.filterMap Utf8.Segment.char?) ∧
    ∀ text : String,
      (∀ bytes, charset.encode .strict text = .ok bytes →
        charset.encode .replace text = .ok bytes ∧ charset.encode .ignore text = .ok bytes) ∧
      (∃ bytes, charset.encode .ignore text = .ok bytes ∧
        charset.encode .strict (.ofList (text.toList.filter charset.represents)) = .ok bytes) ∧
      (∃ bytes, charset.encode .replace text = .ok bytes ∧
        charset.encode .strict (.ofList (text.toList.map fun c =>
          if charset.represents c then c else '?')) = .ok bytes) ∧
      ∀ c, charset.represents c = true ↔
        ∃ bytes, charset.encode .strict (.singleton c) = .ok bytes := by
  refine ⟨fun bytes => ⟨_, _, decode_replace charset bytes, decode_ignore charset bytes, ?_, ?_,
    charset.pieces bytes, flatMap_pieces charset bytes, String.toList_ofList,
    String.toList_ofList⟩, fun text => ⟨?_, ?_, ?_, represents_iff⟩⟩
  · intro text h
    have all := decode_encode (encode_of_decode h)
    have replaced := (decode_replace charset bytes).symm.trans (all .replace)
    have skipped := (decode_ignore charset bytes).symm.trans (all .ignore)
    exact ⟨Except.ok.inj replaced, Except.ok.inj skipped⟩
  · rw [String.toList_ofList, String.toList_ofList]
    exact Utf8.filter_marked _
  · intro bytes h
    exact ⟨encode_of_strict h .replace, encode_of_strict h .ignore⟩
  · refine ⟨_, rfl, encode_strict_eq_ok.mpr ⟨fun c hc => ?_, ?_⟩⟩
    · rw [String.toList_ofList] at hc
      exact (List.mem_filter.mp hc).2
    · rw [String.toList_ofList]
  · refine ⟨_, rfl, encode_strict_eq_ok.mpr ⟨fun c hc => ?_, ?_⟩⟩
    · rw [String.toList_ofList] at hc
      obtain ⟨d, _, rfl⟩ := List.mem_map.mp hc
      split
      next has => exact has
      next => exact represents_question charset
    · rw [String.toList_ofList]

theorem policies_agree_of_accented :
    utf8.decode .strict [0x61, 0xC3, 0xA9] = .ok "aé" ∧
    latin1.encode .strict "aé" = .ok [0x61, 0xE9] ∧
    utf8.decode .replace [0x61, 0xC3, 0xA9] = .ok "aé" ∧
    utf8.decode .ignore [0x61, 0xC3, 0xA9] = .ok "aé" ∧
    latin1.encode .replace "aé" = .ok [0x61, 0xE9] ∧
    latin1.encode .ignore "aé" = .ok [0x61, 0xE9] := by
  have written : utf8.encode .strict "aé" = .ok [0x61, 0xC3, 0xA9] := rfl
  have read := decode_encode written .strict
  have one : latin1.encode .strict "aé" = .ok [0x61, 0xE9] := rfl
  obtain ⟨_, _, replaced, skipped, same, _⟩ := (policies_agree utf8).1 [0x61, 0xC3, 0xA9]
  obtain ⟨rfl, rfl⟩ := same _ read
  obtain ⟨encoded, _⟩ := (policies_agree latin1).2 "aé"
  exact ⟨read, one, replaced, skipped, encoded _ one⟩

end Charset

end Switchboard
