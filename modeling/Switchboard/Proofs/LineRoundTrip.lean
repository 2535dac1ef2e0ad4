import Switchboard.Proofs.CharsetRoundTrip
import Switchboard.Proofs.LineRecords

namespace Switchboard

namespace Codec

variable {C : Type} [Codec C]

/-- Encodes packets in turn and tells what became of each. -/
def encodeCalls : List Packet → C → DelayService → List (Except Error Unit) × C × DelayService
  | [], c, s => ([], c, s)
  | p :: ps, c, s =>
    let (result, c, s) := encode c p s
    let (results, c, s) := encodeCalls ps c s
    (result :: results, c, s)

/-- What reads of given sizes take in turn. -/
def readEach : List Nat → C → DelayService → Bytes × C × DelayService
  | [], c, s => ([], c, s)
  | n :: sizes, c, s =>
    let (bytes, c, s) := read c n s
    let (more, c, s) := readEach sizes c s
    (bytes ++ more, c, s)

theorem encodeCalls_snd (ps : List Packet) (c : C) (s : DelayService) :
    (encodeCalls ps c s).2 = encodeEach ps c s := by
  induction ps generalizing c s with
  | nil => rfl
  | cons p ps ih => exact ih _ _

end Codec

namespace LineCodec

variable {config : LineConfig} {hook : LineHook} {d w : Bytes} {records : List Bytes}
  {c : LineCodec} {t : String} {ts : List String}

theorem encodeCalls_ok {ps : List Packet} (s : DelayService)
    (fits : ∀ p ∈ ps, ∃ bytes, payloadBytes c.config p.payload = .ok bytes) :
    (Codec.encodeCalls ps c s).1 = ps.map fun _ => .ok () := by
  induction ps generalizing c with
  | nil => rfl
  | cons p ps ih =>
    obtain ⟨⟨bytes, hbytes⟩, rest⟩ := List.forall_mem_cons.mp fits
    simp only [Codec.encodeCalls, encode_of_ok hbytes, List.map_cons]
    exact congrArg _ (ih rest)

theorem HasSeen.readEach (h : HasSeen config hook d w records c) (sizes : List Nat)
    (s : DelayService) :
    ∃ c', Codec.readEach sizes c s = (c.output.toBytes.take sizes.sum, c', s) ∧
      HasSeen config hook d w records c' ∧
      c'.output.toBytes = c.output.toBytes.drop sizes.sum := by
  induction sizes generalizing c with
  | nil => exact ⟨c, by simp [Codec.readEach], h, by simp⟩
  | cons n sizes ih =>
    obtain ⟨c₁, hread, seen, hleft⟩ := h.read n s
    obtain ⟨c₂, hmore, seen', hleft'⟩ := ih seen
    refine ⟨c₂, ?_, seen', ?_⟩
    · simp only [Codec.readEach, hread, hmore, hleft, List.sum_cons]
      rw [List.take_add]
    · rw [hleft', hleft, List.drop_drop, List.sum_cons]

theorem pending_eq_false (c : LineCodec) (s : DelayService) :
    Codec.pending c s = false ↔ c.output.toBytes = [] := by
  rw [← Outbox.isEmpty_iff]
  show (!c.output.isEmpty) = false ↔ _
  simp

/-- The bytes of a text that the charset has, followed by the delimiter, have the delimiter at
their end and nowhere else. -/
def Fits (config : LineConfig) (d : Bytes) (t : String) : Prop :=
  ∃ b, config.charset.encode .strict t = .ok b ∧ ∀ r rest, b ++ d = r ++ d ++ rest → rest = []

/-- A delimiter whose last byte is not found before it stands only at the end. -/
theorem Fits.of_last {b e : Bytes} {z : UInt8} (hb : config.charset.encode .strict t = .ok b)
    (absent : z ∉ b ++ e) : Fits config (e ++ [z]) t := by
  refine ⟨b, hb, fun r rest h => ?_⟩
  rcases List.eq_nil_or_concat rest with rfl | ⟨rest, x, rfl⟩
  · rfl
  · have inner : b ++ e ++ [z] = r ++ (e ++ [z]) ++ rest ++ [x] := by
      rw [List.append_assoc b, h, List.concat_eq_append, ← List.append_assoc]
    exact absurd (by simp [(List.append_inj' inner rfl).1]) absent

theorem Fits.bytes (h : Fits config d t) :
    config.charset.encode .strict t = .ok (config.charset.encodeAll t.toList) ∧
      ∀ rest, LeftmostCut d (config.charset.encodeAll t.toList ++ d ++ rest)
        (config.charset.encodeAll t.toList) rest := by
  obtain ⟨b, hb, last⟩ := h
  obtain ⟨_, rfl⟩ := Charset.encode_strict_eq_ok.mp hb
  exact ⟨hb, leftmostCut_of_last last⟩

/-- The records of texts on the wire are their bytes. -/
theorem fits_cuts (hd : d ≠ []) (fits : ∀ t ∈ ts, Fits config d t) :
    Cuts d (ts.flatMap fun t => config.charset.encodeAll t.toList ++ d)
      (ts.map fun t => config.charset.encodeAll t.toList) [] := by
  have split := Cuts.of_records hd (List.forall_mem_map.mpr fun t ht => (fits t ht).bytes.2)
  rwa [List.flatMap_map] at split

theorem Fits.payloadBytes_eq (h : Fits config d t) :
    payloadBytes config (.text t) = .ok (config.charset.encodeAll t.toList) :=
  Charset.encode_of_strict h.bytes.1 config.errorPolicy

theorem Fits.payload (keeps : config.stripCarriageReturn = false) (h : Fits config d t) :
    payload? config LineHook.text (config.charset.encodeAll t.toList) = some (.text t) := by
  have reads : Reads config (config.charset.encodeAll t.toList) t := by
    refine ⟨_, ?_, Charset.decode_encode h.bytes.1 config.errorPolicy⟩
    rw [keeps]
    exact .kept _
  exact payload?_of_reads reads

/-- Packets with texts stand on the wire as the bytes of the texts. -/
theorem packets_wire {packets : List Packet} (fits : ∀ t ∈ ts, Fits config d t)
    (h : packets.map (·.payload) = ts.map .text) :
    packets.flatMap (packetBytes config d) =
      ts.flatMap fun t => config.charset.encodeAll t.toList ++ d := by
  induction packets generalizing ts with
  | nil =>
    cases ts with
    | nil => rfl
    | cons => cases h
  | cons p packets ih =>
    cases ts with
    | nil => cases h
    | cons t ts =>
      obtain ⟨first, others⟩ := List.forall_mem_cons.mp fits
      obtain ⟨hp, hrest⟩ := List.cons_eq_cons.mp h
      have bytes : packetBytes config d p = config.charset.encodeAll t.toList ++ d := by
        have payload : p.payload = .text t := hp
        rw [packetBytes, payload]
        simp only [first.payloadBytes_eq]
      rw [List.flatMap_cons, List.flatMap_cons, ih others hrest, bytes]

/-- Texts that the charset has, and that have the delimiter behind them nowhere but at their end,
come through: all are encoded, any reads take all bytes if they go on for long enough, and however
these are cut, a codec that was built alike finds the texts in them and nothing else. -/
theorem texts_come_through (hnew : new config LineHook.text = .ok c)
    (unlimited : config.maxLineLength = none) (keeps : config.stripCarriageReturn = false) :
    ∃ d, config.charset.encode .strict config.delimiter = .ok d ∧
      ∀ (ts : List String) (packets : List Packet) (s : DelayService),
        (∀ t ∈ ts, Fits config d t) → packets.map (·.payload) = ts.map .text →
        ∃ sender, Codec.encodeCalls packets c s = (packets.map fun _ => .ok (), sender, s) ∧
          ∀ sizes : List Nat, (∀ n ∈ sizes, 0 < n) →
            ∃ taken sender', Codec.readEach sizes sender s = (taken, sender', s) ∧
              (sender.output.size ≤ sizes.length → Codec.pending sender' s = false) ∧
              (Codec.pending sender' s = false →
                ∀ (source : String) (pieces : List Bytes), pieces.flatten = taken →
                  ∃ receiver, Codec.decodeChunks source pieces c =
                      (.ok (ts.map fun t => ⟨source, .text t⟩), receiver) ∧
                    receiver.framer.residual = []) := by
  obtain ⟨d, fresh, nothing⟩ := new_hasSeen hnew unlimited
  have hd := new_delimiter hnew
  rw [fresh.delimiter_eq] at hd
  refine ⟨d, hd, fun ts packets s fits hpackets => ?_⟩
  obtain ⟨sender, hencode, seen, houtput⟩ := fresh.encodeEach packets s
  rw [nothing, Outbox.toBytes_empty, List.nil_append, packets_wire fits hpackets] at houtput
  have calls : Codec.encodeCalls packets c s = (packets.map fun _ => .ok (), sender, s) := by
    refine Prod.ext (encodeCalls_ok s fun p hp => ?_)
      ((Codec.encodeCalls_snd packets c s).trans hencode)
    have text : p.payload ∈ ts.map Payload.text := hpackets ▸ List.mem_map_of_mem hp
    obtain ⟨t, ht, hpayload⟩ := List.mem_map.mp text
    rw [fresh.config, ← hpayload]
    exact ⟨_, (fits t ht).payloadBytes_eq⟩
  refine ⟨sender, calls, fun sizes positive => ?_⟩
  obtain ⟨sender', hread, _, hleft⟩ := seen.readEach sizes s
  refine ⟨_, sender', hread, fun enough => ?_, fun done source pieces whole => ?_⟩
  · rw [pending_eq_false, hleft, List.drop_eq_nil_iff]
    rw [Outbox.size_eq] at enough
    exact enough.trans (List.length_le_sum_of_one_le sizes positive)
  · rw [(pending_eq_false sender' s).mp done, List.nil_eq, List.drop_eq_nil_iff] at hleft
    rw [List.take_of_length_le hleft, houtput] at whole
    obtain ⟨found, receiver, hdecode, seen'⟩ := fresh.decodeChunks LineHook.text_blind source pieces
    have cuts := seen'.cuts
    rw [List.nil_append, List.nil_append, whole] at cuts
    obtain ⟨rfl, residual⟩ := cuts.unique (fits_cuts fresh.tracks.nonempty fits)
    refine ⟨receiver, ?_, residual⟩
    have heard : ts.map Payload.text =
        (ts.map fun t => config.charset.encodeAll t.toList).filterMap
          (payload? config LineHook.text) := by
      rw [List.filterMap_map]
      exact (List.filterMap_eq_map_iff_forall_eq_some.mpr fun t ht =>
        (fits t ht).payload keeps).symm
    rw [hdecode, ← heard, List.map_map]
    rfl

/-- A delimiter of two characters of which the first may stand before it. -/
def paired : LineConfig := { charset := .latin1, errorPolicy := .ignore, delimiter := "ab" }

theorem paired_fits : ∀ t ∈ ["a", "é", ""], Fits paired [0x61, 0x62] t := by
  have a : Fits paired ([0x61] ++ [0x62]) "a" := .of_last (b := [0x61]) rfl (by decide)
  have accented : Fits paired ([0x61] ++ [0x62]) "é" := .of_last (b := [0xE9]) rfl (by decide)
  have empty : Fits paired ([0x61] ++ [0x62]) "" := .of_last (b := []) rfl (by decide)
  simpa using ⟨a, accented, empty⟩

theorem texts_come_through_of_paired :
    let c : LineCodec :=
      { config := paired, hook := LineHook.text, framer := { borders := .ofPattern [0x61, 0x62] } }
    let packets : List Packet := [⟨"x", .text "a"⟩, ⟨"y", .text "é"⟩, ⟨"", .text ""⟩]
    let taken : Bytes := [0x61, 0x61, 0x62, 0xE9, 0x61, 0x62, 0x61, 0x62]
    new paired LineHook.text = .ok c ∧ paired.maxLineLength = none ∧
      paired.stripCarriageReturn = false ∧ (∀ t ∈ ["a", "é", ""], Fits paired [0x61, 0x62] t) ∧
      (Codec.readEach [2, 1, 9] (Codec.encodeCalls packets c {}).2.1 {}).1 = taken ∧
      ∃ receiver, Codec.decodeChunks "peer" [taken.take 5, [], taken.drop 5] c =
          (.ok [⟨"peer", .text "a"⟩, ⟨"peer", .text "é"⟩, ⟨"peer", .text ""⟩], receiver) ∧
        receiver.framer.residual = [] := by
  intro c packets taken
  have hnew : new paired LineHook.text = .ok c := rfl
  obtain ⟨d, hd, through⟩ := texts_come_through hnew rfl rfl
  obtain rfl : [0x61, 0x62] = d := Except.ok.inj hd
  obtain ⟨sender, hencode, reads⟩ :=
    through ["a", "é", ""] packets {} paired_fits rfl
  obtain ⟨taken', sender', hread, _, arrive⟩ := reads [2, 1, 9] (by decide)
  have both : Codec.readEach [2, 1, 9] (Codec.encodeCalls packets c {}).2.1 {} =
      (taken', sender', {}) := by
    rw [hencode]
    exact hread
  have all : (Codec.readEach [2, 1, 9] (Codec.encodeCalls packets c {}).2.1 {}).1 = taken := by cbv
  have idle : Codec.pending sender' {} = false := by
    have : sender' = (Codec.readEach [2, 1, 9] (Codec.encodeCalls packets c {}).2.1 {}).2.1 := by
      rw [both]
    rw [this]
    cbv
  obtain rfl : taken' = taken := by rw [← all, both]
  exact ⟨hnew, rfl, rfl, paired_fits, all, arrive idle "peer" _ rfl⟩

end LineCodec

end Switchboard
