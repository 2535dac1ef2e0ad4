import Switchboard.Proofs.CharacterCuts
import Switchboard.Proofs.JsonTexts
import Switchboard.Proofs.LineRoundTrip

namespace Switchboard

section

variable {α : Type} {p : α → Bool} {r d r' t : List α}

/-- A delimiter with an element that does not occur before it ends nowhere but at its end, though
its other elements may. -/
theorem eq_nil_of_marked (clean : ∀ x ∈ r, p x = false) (marked : ∃ x ∈ d, p x)
    (h : r ++ d = r' ++ d ++ t) : t = [] := by
  -- the first marked element of the whole is the first of the delimiter that stands last
  have first : (r ++ d).findIdx p = d.findIdx p + r.length := by
    have none : r.findIdx p = r.length := List.findIdx_eq_length.mpr clean
    rw [List.findIdx_append, if_neg (by omega)]
  have most : (r' ++ d ++ t).findIdx p ≤ d.findIdx p + r'.length := by
    have inside := List.findIdx_lt_length.mpr marked
    simp only [List.findIdx_append, List.length_append]
    split_ifs <;> omega
  have lengths := congrArg List.length h
  rw [← h, first] at most
  simp only [List.length_append] at lengths
  exact List.eq_nil_of_length_eq_zero (by omega)

end

/-- A value that a JSON text carries whole: fields in the order of their names, no doubles, and
nested no deeper than a reader goes. -/
structure Json.Portable (j : Json) : Prop where
  ordered : j.Ordered
  exact : j.Exact
  depth : j.depth ≤ 127

namespace LineCodec

variable {config : LineConfig} {hook : LineHook} {d : Bytes} {c : LineCodec}
  {packets : List Packet} {j : Json}

/-- A payload that is written as a record, has the delimiter behind it cut off where it ends, and is
read as itself. -/
def Arrives (config : LineConfig) (hook : LineHook) (d : Bytes) (payload : Payload) : Prop :=
  ∃ record, payloadBytes config payload = .ok record ∧
    (∀ t, LeftmostCut d (record ++ d ++ t) record t) ∧ payload? config hook record = some payload

/-- The wire is cut into the records of the packets. -/
theorem arrives_cuts (hd : d ≠ []) (arrive : ∀ p ∈ packets, Arrives config hook d p.payload) :
    ∃ records, Cuts d (packets.flatMap (packetBytes config d)) records [] ∧
      records.filterMap (payload? config hook) = packets.map (·.payload) := by
  induction packets with
  | nil => exact ⟨[], .rest fun hi => hd (List.infix_nil.mp hi), rfl⟩
  | cons p packets ih =>
    obtain ⟨⟨record, written, cut, read⟩, others⟩ := List.forall_mem_cons.mp arrive
    obtain ⟨records, more, payloads⟩ := ih others
    refine ⟨record :: records, ?_, ?_⟩
    · have bytes : packetBytes config d p = record ++ d := by simp only [packetBytes, written]
      rw [List.flatMap_cons, bytes]
      exact .cut (cut _) more
    · rw [List.filterMap_cons_some read, payloads, List.map_cons]

/-- Packets whose payloads arrive come through: all are encoded, any reads take all bytes if they go
on for long enough, and however these are cut, they are found in them and nothing else. -/
theorem HasSeen.come_through (fresh : HasSeen config hook d [] [] c) (nothing : c.output = .empty)
    (blind : hook.Blind) (arrive : ∀ p ∈ packets, Arrives config hook d p.payload)
    (s : DelayService) :
    ∃ sender, Codec.encodeCalls packets c s = (packets.map fun _ => .ok (), sender, s) ∧
      ∀ sizes : List Nat, (∀ n ∈ sizes, 0 < n) →
        ∃ taken sender', Codec.readEach sizes sender s = (taken, sender', s) ∧
          (sender.output.size ≤ sizes.length → Codec.pending sender' s = false) ∧
          (Codec.pending sender' s = false →
            ∀ (source : String) (pieces : List Bytes), pieces.flatten = taken →
              ∃ receiver, Codec.decodeChunks source pieces c =
                  (.ok (packets.map fun p => ⟨source, p.payload⟩), receiver) ∧
                receiver.framer.residual = []) := by
  obtain ⟨sender, hencode, seen, houtput⟩ := fresh.encodeEach packets s
  rw [nothing, Outbox.toBytes_empty, List.nil_append] at houtput
  have calls : Codec.encodeCalls packets c s = (packets.map fun _ => .ok (), sender, s) := by
    refine Prod.ext (encodeCalls_ok s fun p hp => ?_)
      ((Codec.encodeCalls_snd packets c s).trans hencode)
    obtain ⟨record, written, _⟩ := arrive p hp
    rw [fresh.config]
    exact ⟨record, written⟩
  refine ⟨sender, calls, fun sizes positive => ?_⟩
  obtain ⟨sender', hread, _, hleft⟩ := seen.readEach sizes s
  refine ⟨_, sender', hread, fun enough => ?_, fun done source pieces whole => ?_⟩
  · rw [pending_eq_false, hleft, List.drop_eq_nil_iff]
    rw [Outbox.size_eq] at enough
    exact enough.trans (List.length_le_sum_of_one_le sizes positive)
  · rw [(pending_eq_false sender' s).mp done, List.nil_eq, List.drop_eq_nil_iff] at hleft
    rw [List.take_of_length_le hleft, houtput] at whole
    obtain ⟨records, wire, payloads⟩ := arrives_cuts fresh.tracks.nonempty arrive
    obtain ⟨found, receiver, hdecode, seen'⟩ := fresh.decodeChunks blind source pieces
    have cuts := seen'.cuts
    rw [List.nil_append, List.nil_append, whole] at cuts
    obtain ⟨rfl, residual⟩ := cuts.unique wire
    refine ⟨receiver, ?_, residual⟩
    rw [hdecode, payloads, List.map_map]
    rfl

/-! ## Values -/

/-- The text of a value ends in no carriage return, so there is none to be stripped. -/
theorem stripped_octets (config : LineConfig) (exact : j.Exact) :
    stripped config (j.render.flatMap Utf8.encodeChar) = j.render.flatMap Utf8.encodeChar := by
  refine if_neg fun ⟨_, last⟩ => ?_
  obtain ⟨body, hbody⟩ := List.getLast?_eq_some_iff.mp last
  have octets : j.render.flatMap Utf8.encodeChar =
      body ++ ['\r'].flatMap Utf8.encodeChar ++ [] := by
    rw [hbody, List.append_nil]
    rfl
  obtain ⟨r, t, hchars, _⟩ := Utf8.occurrence_of_octets (List.cons_ne_nil _ _) octets
  have inside : '\r' ∈ j.render := by simp [hchars]
  exact absurd (Json.render_printable j exact _ inside) (by decide)

theorem arrives_value (h : j.Portable) (utf8 : config.charset = .utf8)
    (control : ∃ z ∈ config.delimiter.toList, z.toNat < 0x20) :
    Arrives config LineHook.json (config.delimiter.toList.flatMap Utf8.encodeChar) (.value j) := by
  have written : config.charset.encode .strict j.toText =
      .ok (j.render.flatMap Utf8.encodeChar) := by
    rw [utf8, Charset.encode_strict_eq_ok, Json.toText, String.toList_ofList]
    exact ⟨fun _ _ => rfl, rfl⟩
  have some : config.delimiter.toList ≠ [] := by
    obtain ⟨z, hz, _⟩ := control
    exact List.ne_nil_of_mem hz
  refine ⟨_, Charset.encode_of_strict written config.errorPolicy, ?_, ?_⟩
  · refine leftmostCut_of_last fun r t heq => ?_
    rw [← List.flatMap_append] at heq
    obtain ⟨r, t, hchars, rfl, rfl⟩ := Utf8.occurrence_of_octets some heq
    have last : t = [] := by
      refine eq_nil_of_marked (p := fun z => z.toNat < 0x20) (fun z hz => ?_)
        (by simpa using control) hchars
      exact decide_eq_false (Nat.not_lt.mpr (Json.render_printable j h.exact z hz))
    rw [last, List.flatMap_nil]
  · rw [payload?, decodeRecord, stripped_octets config h.exact]
    simp only [Charset.decode_encode written]
    rw [LineHook.json, if_neg (by simp [Json.toText_not_blank h.exact]),
      Json.ofText?_toText h.ordered h.exact h.depth]
    rfl

/-- Values come through a codec whose delimiter has a control character, whatever stands in them and
however the delimiter overlaps their texts: all are encoded, any reads take all bytes if they go on
for long enough, and however these are cut, they give the values and nothing else. -/
theorem values_come_through (utf8 : config.charset = .utf8)
    (unlimited : config.maxLineLength = none)
    (control : ∃ z ∈ config.delimiter.toList, z.toNat < 0x20) :
    ∃ c, new config LineHook.json = .ok c ∧
      ∀ (values : List Json) (packets : List Packet) (s : DelayService),
        (∀ j ∈ values, j.Portable) → packets.map (·.payload) = values.map .value →
        ∃ sender, Codec.encodeCalls packets c s = (packets.map fun _ => .ok (), sender, s) ∧
          ∀ sizes : List Nat, (∀ n ∈ sizes, 0 < n) →
            ∃ taken sender', Codec.readEach sizes sender s = (taken, sender', s) ∧
              (sender.output.size ≤ sizes.length → Codec.pending sender' s = false) ∧
              (Codec.pending sender' s = false →
                ∀ (source : String) (pieces : List Bytes), pieces.flatten = taken →
                  ∃ receiver, Codec.decodeChunks source pieces c =
                      (.ok (values.map fun j => ⟨source, .value j⟩), receiver) ∧
                    receiver.framer.residual = []) := by
  have named : config.delimiter ≠ "" := by
    rintro empty
    simp [empty] at control
  obtain ⟨c, hnew⟩ := new_of_utf8 utf8 named unlimited LineHook.json
  refine ⟨c, hnew, fun values packets s portable hpackets => ?_⟩
  obtain ⟨d, fresh, nothing⟩ := new_hasSeen hnew unlimited
  have hd := new_delimiter hnew
  rw [fresh.delimiter_eq, utf8, Charset.encode_strict_eq_ok] at hd
  obtain ⟨_, rfl⟩ := hd
  have arrive : ∀ p ∈ packets, Arrives config LineHook.json
      (Charset.utf8.encodeAll config.delimiter.toList) p.payload := by
    intro p hp
    have value : p.payload ∈ values.map Payload.value := hpackets ▸ List.mem_map_of_mem hp
    obtain ⟨j, hj, hpayload⟩ := List.mem_map.mp value
    exact hpayload ▸ arrives_value (portable j hj) utf8 control
  have heard (source : String) : (packets.map fun p => (⟨source, p.payload⟩ : Packet)) =
      values.map fun j => ⟨source, .value j⟩ := by
    have same := congrArg (List.map fun payload => (⟨source, payload⟩ : Packet)) hpackets
    rw [List.map_map, List.map_map] at same
    exact same
  simpa only [heard] using fresh.come_through nothing LineHook.json_blind arrive s

/-- A number that ends like the delimiter begins, and a name and a text with escaped characters. -/
def awkward : List Json :=
  [.num (.natural 11), .obj [("1\n", .arr [.str "\r", .num (.negative 0)])]]

theorem awkward_portable : ∀ j ∈ awkward, j.Portable := by
  have number : (Json.num (.natural 11)).Portable := ⟨by simp [Json.Ordered], by simp [Json.Exact],
    by decide⟩
  have object : (Json.obj [("1\n", .arr [.str "\r", .num (.negative 0)])]).Portable :=
    ⟨by simp [Json.Ordered, Json.OrderedItems, Json.OrderedFields],
      by simp [Json.Exact, Json.ExactItems, Json.ExactFields], by decide⟩
  simpa [awkward] using ⟨number, object⟩

theorem values_come_through_of_awkward :
    let config : LineConfig :=
      { errorPolicy := .strict, delimiter := "1\n", stripCarriageReturn := true }
    let c : LineCodec :=
      { config, hook := LineHook.json, framer := { borders := .ofPattern [0x31, 0x0A] } }
    let packets : List Packet := awkward.map fun j => ⟨"x", .value j⟩
    let taken : Bytes := [0x31, 0x31, 0x31, 0x0A, 0x7B, 0x22, 0x31, 0x5C, 0x6E, 0x22, 0x3A, 0x5B,
      0x22, 0x5C, 0x72, 0x22, 0x2C, 0x2D, 0x31, 0x5D, 0x7D, 0x31, 0x0A]
    config.charset = .utf8 ∧ config.maxLineLength = none ∧
      (∃ z ∈ config.delimiter.toList, z.toNat < 0x20) ∧ (∀ j ∈ awkward, j.Portable) ∧
      (Codec.readEach [2, 1, 40] (Codec.encodeCalls packets c {}).2.1 {}).1 = taken ∧
      ∃ receiver, Codec.decodeChunks "peer" [taken.take 3, [], taken.drop 3] c =
          (.ok (awkward.map fun j => ⟨"peer", .value j⟩), receiver) ∧
        receiver.framer.residual = [] := by
  intro config c packets taken
  have control : ∃ z ∈ config.delimiter.toList, z.toNat < 0x20 := ⟨'\n', by decide, by decide⟩
  obtain ⟨c', hnew, through⟩ := @values_come_through config rfl rfl control
  have built : new config LineHook.json = .ok c := by
    unfold c config
    cbv
  obtain rfl : c = c' := Except.ok.inj (built.symm.trans hnew)
  obtain ⟨sender, hencode, reads⟩ := through awkward packets {} awkward_portable rfl
  obtain ⟨taken', sender', hread, _, arrive⟩ := reads [2, 1, 40] (by decide)
  have both : Codec.readEach [2, 1, 40] (Codec.encodeCalls packets c {}).2.1 {} =
      (taken', sender', {}) := by
    rw [hencode]
    exact hread
  have all : (Codec.readEach [2, 1, 40] (Codec.encodeCalls packets c {}).2.1 {}).1 = taken := by
    unfold packets c config
    cbv
  have idle : Codec.pending sender' {} = false := by
    have : sender' = (Codec.readEach [2, 1, 40] (Codec.encodeCalls packets c {}).2.1 {}).2.1 := by
      rw [both]
    rw [this]
    unfold packets c config
    cbv
  obtain rfl : taken' = taken := by rw [← all, both]
  exact ⟨rfl, rfl, control, awkward_portable, all, arrive idle "peer" _ rfl⟩

end LineCodec

end Switchboard
