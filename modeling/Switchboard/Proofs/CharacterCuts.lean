import Mathlib
import Switchboard.Proofs.BuildableListeners
import Switchboard.Proofs.LineWire
import Switchboard.Proofs.WholeTexts

namespace Switchboard

namespace Utf8

variable {b : UInt8} {a rest bs : Bytes} {cs ds r s t : List Char}

/-- An octet that goes on with a character. -/
def IsTail (b : UInt8) : Prop := 0x80 ≤ b.toNat ∧ b.toNat < 0xC0

theorem isTail_tailOctet (n : Nat) : IsTail (tailOctet n) := by
  rw [IsTail, tailOctet_toNat]
  omega

theorem not_isTail_of_low {n : Nat} (h : n < 0x80) : ¬IsTail (UInt8.ofNat n) := by
  rw [IsTail, UInt8.toNat_ofNat']
  omega

theorem not_isTail_of_high {n : Nat} (h : 0xC0 ≤ n) (h' : n < 0x100) :
    ¬IsTail (UInt8.ofNat n) := by
  rw [IsTail, UInt8.toNat_ofNat']
  omega

/-- A character begins where no other goes on, and goes on to its end. -/
theorem encodeChar_eq_lead (c : Char) :
    ∃ lead tail, encodeChar c = lead :: tail ∧ ¬IsTail lead ∧ ∀ b ∈ tail, IsTail b := by
  rw [encodeChar_eq]
  split
  next one => exact ⟨_, _, rfl, not_isTail_of_low (by omega), by simp⟩
  split
  next => exact ⟨_, _, rfl, not_isTail_of_high (by omega) (by omega), by simp [isTail_tailOctet]⟩
  split
  next => exact ⟨_, _, rfl, not_isTail_of_high (by omega) (by omega), by simp [isTail_tailOctet]⟩
  next => exact ⟨_, _, rfl, not_isTail_of_high (by omega) (by omega), by simp [isTail_tailOctet]⟩

theorem encodeChar_append_inj {c d : Char} (h : encodeChar c ++ a = encodeChar d ++ bs) :
    c = d ∧ a = bs := by
  have first := congrArg segments h
  rw [segments_encodeChar, segments_encodeChar] at first
  injection first with same
  injection same with same
  subst same
  exact ⟨rfl, List.append_cancel_left h⟩

/-- An octet that goes on with no character stands at the start of one. -/
theorem boundary_of_not_isTail (h : cs.flatMap encodeChar = a ++ b :: rest) (hb : ¬IsTail b) :
    ∃ r t, cs = r ++ t ∧ a = r.flatMap encodeChar ∧ b :: rest = t.flatMap encodeChar := by
  induction cs generalizing a with
  | nil => simp at h
  | cons c cs ih =>
    rw [List.flatMap_cons] at h
    rcases List.append_eq_append_iff.mp h with ⟨u, rfl, hu⟩ | ⟨u, hc, hu⟩
    · obtain ⟨r, t, rfl, rfl, ht⟩ := ih hu
      exact ⟨c :: r, t, rfl, rfl, ht⟩
    · cases u with
      | nil =>
        rw [List.append_nil] at hc
        rw [List.nil_append] at hu
        obtain ⟨r, t, rfl, hr, ht⟩ := ih (a := []) hu.symm
        refine ⟨c :: r, t, rfl, ?_, ht⟩
        rw [List.flatMap_cons, ← hr, List.append_nil, hc]
      | cons x u =>
        obtain ⟨rfl, rfl⟩ := List.cons_eq_cons.mp hu
        cases a with
        | nil => exact ⟨[], c :: cs, rfl, rfl, by rw [List.flatMap_cons, hc]; rfl⟩
        | cons y a =>
          -- inside a character the octet would go on with it
          obtain ⟨lead, tail, hshape, _, htail⟩ := encodeChar_eq_lead c
          obtain ⟨_, rfl⟩ := List.cons_eq_cons.mp (hshape.symm.trans hc)
          exact absurd (htail b (by simp)) hb

theorem prefix_of_octets (h : t.flatMap encodeChar = ds.flatMap encodeChar ++ bs) :
    ∃ u, t = ds ++ u ∧ bs = u.flatMap encodeChar := by
  induction ds generalizing t with
  | nil => exact ⟨t, rfl, h.symm⟩
  | cons d ds ih =>
    cases t with
    | nil =>
      obtain ⟨lead, tail, hshape, _⟩ := encodeChar_eq_lead d
      rw [List.flatMap_cons, hshape] at h
      cases h
    | cons c t =>
      rw [List.flatMap_cons, List.flatMap_cons, List.append_assoc] at h
      obtain ⟨rfl, behind⟩ := encodeChar_append_inj h
      obtain ⟨u, rfl, hu⟩ := ih behind
      exact ⟨u, rfl, hu⟩

/-- Where the octets of a text stand among those of another, the text itself stands. -/
theorem occurrence_of_octets (hd : ds ≠ [])
    (h : s.flatMap encodeChar = a ++ ds.flatMap encodeChar ++ bs) :
    ∃ r t, s = r ++ ds ++ t ∧ a = r.flatMap encodeChar ∧ bs = t.flatMap encodeChar := by
  obtain ⟨d, ds, rfl⟩ := List.exists_cons_of_ne_nil hd
  obtain ⟨lead, tail, hshape, hlead, _⟩ := encodeChar_eq_lead d
  have start : s.flatMap encodeChar = a ++ lead :: (tail ++ ds.flatMap encodeChar ++ bs) := by
    rw [h, List.flatMap_cons, hshape]
    simp
  obtain ⟨r, t, rfl, rfl, ht⟩ := boundary_of_not_isTail start hlead
  have behind : t.flatMap encodeChar = (d :: ds).flatMap encodeChar ++ bs := by
    rw [← ht, List.flatMap_cons, hshape]
    simp
  obtain ⟨u, rfl, hu⟩ := prefix_of_octets behind
  exact ⟨r, u, by simp, rfl, hu⟩

theorem length_le_of_octets {x y : List Char} (hx : x <+: s) (hy : y <+: s)
    (h : (x.flatMap encodeChar).length ≤ (y.flatMap encodeChar).length) : x.length ≤ y.length := by
  by_contra hlt
  obtain ⟨u, rfl⟩ := List.prefix_of_prefix_length_le hy hx (by omega)
  rw [List.flatMap_append, List.length_append] at h
  have none : u.flatMap encodeChar = [] := List.eq_nil_of_length_eq_zero (by omega)
  have missing : u ≠ [] := by
    rintro rfl
    simp at hlt
  exact Charset.utf8.encodeAll_ne_nil missing none

theorem leftmostCut_of_octets {x y : Bytes} (hd : ds ≠ [])
    (h : LeftmostCut (ds.flatMap encodeChar) (s.flatMap encodeChar) x y) :
    ∃ r t, LeftmostCut ds s r t ∧ x = r.flatMap encodeChar ∧ y = t.flatMap encodeChar := by
  obtain ⟨r, t, hs, rfl, rfl⟩ := occurrence_of_octets hd h.1
  refine ⟨r, t, ⟨hs, fun r' t' hs' => ?_⟩, rfl, rfl⟩
  have earlier := h.2 (r'.flatMap encodeChar) (t'.flatMap encodeChar) (by rw [hs']; simp)
  have before : r <+: s := ⟨ds ++ t, by rw [hs, List.append_assoc]⟩
  have before' : r' <+: s := ⟨ds ++ t', by rw [hs', List.append_assoc]⟩
  exact length_le_of_octets before before' earlier

/-- The octets of a text are split where the text is, whatever the delimiter: no octets of another
character are taken for one of its own. -/
theorem cuts_of_octets {records : List Bytes} {u : Bytes} (hd : ds ≠ [])
    (h : Cuts (ds.flatMap encodeChar) (s.flatMap encodeChar) records u) :
    ∃ pieces rest, Cuts ds s pieces rest ∧ records = pieces.map (·.flatMap encodeChar) ∧
      u = rest.flatMap encodeChar := by
  generalize hoctets : s.flatMap encodeChar = octets at h
  induction h generalizing s with
  | rest absent =>
    subst hoctets
    refine ⟨[], s, .rest fun here => absent ?_, rfl, rfl⟩
    obtain ⟨r, t, rfl⟩ := here
    exact ⟨r.flatMap encodeChar, t.flatMap encodeChar, by simp⟩
  | cut first _ ih =>
    subst hoctets
    obtain ⟨r, t, first', rfl, rfl⟩ := leftmostCut_of_octets hd first
    obtain ⟨pieces, rest, more, rfl, rfl⟩ := ih rfl
    exact ⟨r :: pieces, rest, .cut first' more, rfl, rfl⟩

end Utf8

namespace LineCodec

variable {config : LineConfig}

theorem new_of_utf8 (utf8 : config.charset = .utf8) (named : config.delimiter ≠ "")
    (unlimited : config.maxLineLength = none) (hook : LineHook) :
    ∃ c, new config hook = .ok c := by
  have valid : config.validate = .ok () := by
    have some : config.delimiter.isEmpty = false := by simpa using named
    simp [LineConfig.validate, some, unlimited]
  have outcome := new_outcome valid hook
  generalize new config hook = result at outcome ⊢
  cases outcome with
  | built c => exact ⟨c, rfl⟩
  | unwritable hl _ lacks =>
    rw [List.mem_singleton.mp hl, utf8] at lacks
    cases lacks

theorem payload?_of_octets (utf8 : config.charset = .utf8)
    (keeps : config.stripCarriageReturn = false) (piece : List Char) :
    payload? config LineHook.text (piece.flatMap Utf8.encodeChar) =
      some (.text (String.ofList piece)) := by
  have read : config.charset.decode config.errorPolicy (piece.flatMap Utf8.encodeChar) =
      .ok (String.ofList piece) := by
    rw [utf8]
    refine Charset.decode_encode ?_ config.errorPolicy
    rw [Charset.encode_strict_eq_ok, String.toList_ofList]
    exact ⟨fun _ _ => rfl, rfl⟩
  have whole : stripped config (piece.flatMap Utf8.encodeChar) = piece.flatMap Utf8.encodeChar := by
    simp [stripped, keeps]
  rw [payload?, decodeRecord, whole]
  simp only [read]
  rfl

/-- The octets of a text, however they are cut, give the pieces of the text that the delimiter ends,
under every policy: no cut falls into a character, and none is lost or replaced. -/
theorem texts_cut_at_characters (utf8 : config.charset = .utf8) (named : config.delimiter ≠ "")
    (unlimited : config.maxLineLength = none) (keeps : config.stripCarriageReturn = false) :
    ∃ c, new config LineHook.text = .ok c ∧
      ∀ (text source : String) (chunks : List Bytes), chunks.flatten = Utf8.encode text →
        ∃ pieces rest receiver, Cuts config.delimiter.toList text.toList pieces rest ∧
          Codec.decodeChunks source chunks c =
            (.ok (pieces.map fun piece => ⟨source, .text (String.ofList piece)⟩), receiver) ∧
          receiver.framer.residual = rest.flatMap Utf8.encodeChar := by
  obtain ⟨c, hnew⟩ := new_of_utf8 utf8 named unlimited LineHook.text
  refine ⟨c, hnew, fun text source chunks whole => ?_⟩
  obtain ⟨d, fresh, _⟩ := new_hasSeen hnew unlimited
  have hd := new_delimiter hnew
  rw [fresh.delimiter_eq, utf8, Charset.encode_strict_eq_ok] at hd
  obtain ⟨records, receiver, hdecode, seen⟩ := fresh.decodeChunks LineHook.text_blind source chunks
  have cuts := seen.cuts
  rw [List.nil_append, List.nil_append, whole, hd.2] at cuts
  obtain ⟨pieces, rest, split, rfl, hrest⟩ := Utf8.cuts_of_octets (by simpa using named) cuts
  refine ⟨pieces, rest, receiver, split, ?_, hrest⟩
  have carried : (pieces.map (·.flatMap Utf8.encodeChar)).filterMap
      (payload? config LineHook.text) = pieces.map fun piece => .text (String.ofList piece) := by
    rw [List.filterMap_map]
    exact List.filterMap_eq_map_iff_forall_eq_some.mpr fun piece _ =>
      payload?_of_octets utf8 keeps piece
  rw [hdecode, carried, List.map_map]
  rfl

/-- The delimiter is cut apart, and two of its three octets begin the character behind it as
well. -/
theorem texts_cut_at_characters_of_arrows :
    let config : LineConfig := { errorPolicy := .strict, delimiter := "→" }
    let c : LineCodec :=
      { config, hook := LineHook.text, framer := { borders := .ofPattern [0xE2, 0x86, 0x92] } }
    let chunks : List Bytes :=
      [[0xC3], [0xA9, 0xE2, 0x86], [0x92, 0xE2, 0x86, 0x92, 0xE2, 0x86], [0x91]]
    config.charset = .utf8 ∧ config.delimiter ≠ "" ∧ config.maxLineLength = none ∧
      config.stripCarriageReturn = false ∧ chunks.flatten = Utf8.encode "é→→↑" ∧
      ∃ pieces rest receiver, Cuts "→".toList "é→→↑".toList pieces rest ∧
        Codec.decodeChunks "peer" chunks c =
          (.ok [⟨"peer", .text "é"⟩, ⟨"peer", .text ""⟩], receiver) ∧
        receiver.framer.residual = rest.flatMap Utf8.encodeChar := by
  intro config c chunks
  have named : config.delimiter ≠ "" := by decide
  have whole : chunks.flatten = Utf8.encode "é→→↑" := by cbv
  have given : (Codec.decodeChunks "peer" chunks c).1 =
      .ok [⟨"peer", .text "é"⟩, ⟨"peer", .text ""⟩] := by cbv
  obtain ⟨c', hnew, all⟩ := @texts_cut_at_characters config rfl named rfl rfl
  have built : new config LineHook.text = .ok c := by
    unfold c config
    cbv
  obtain rfl : c = c' := Except.ok.inj (built.symm.trans hnew)
  obtain ⟨pieces, rest, receiver, cuts, hdecode, open'⟩ := all "é→→↑" "peer" chunks whole
  rw [hdecode] at given
  exact ⟨rfl, named, rfl, rfl, whole, pieces, rest, receiver, cuts,
    hdecode.trans (congrArg (·, receiver) given), open'⟩

end LineCodec

end Switchboard
