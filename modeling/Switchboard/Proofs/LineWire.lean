import Mathlib.Data.List.Basic
import Switchboard.Line.Codec
import Switchboard.Proofs.Framing

namespace Switchboard

/-- The line a hook is given is all it looks at. -/
def LineHook.Blind (hook : LineHook) : Prop :=
  ∀ source source' line, hook source line = hook source' line

theorem LineHook.text_blind : LineHook.text.Blind := fun _ _ _ => rfl

theorem LineHook.json_blind : LineHook.json.Blind := fun _ _ _ => rfl

namespace LineCodec

variable {config : LineConfig} {hook : LineHook} {d w : Bytes} {records : List Bytes}
  {c : LineCodec}

/-- What a record carries, whoever it came from. -/
def payload? (config : LineConfig) (hook : LineHook) (record : Bytes) : Option Payload :=
  (decodeRecord config hook "" record).map (·.payload)

theorem decodeRecord_eq (hb : hook.Blind) (source : String) (record : Bytes) :
    decodeRecord config hook source record =
      (payload? config hook record).map fun payload => ⟨source, payload⟩ := by
  unfold payload? decodeRecord
  split
  next line _ =>
    rw [hb source "" line]
    cases hook "" line <;> rfl
  next => rfl

/-- The bytes of a packet on the wire: none if it cannot be encoded. -/
def packetBytes (config : LineConfig) (d : Bytes) (p : Packet) : Bytes :=
  match payloadBytes config p.payload with
  | .ok bytes => bytes ++ d
  | .error _ => []

/-- A codec that has been given the bytes `w` and found `records` in them. -/
structure HasSeen (config : LineConfig) (hook : LineHook) (d w : Bytes) (records : List Bytes)
    (c : LineCodec) : Prop where
  config : c.config = config
  hook : c.hook = hook
  tracks : c.framer.Tracks d
  limit : c.framer.limit = none
  cuts : Cuts d w records c.framer.residual

theorem new_hasSeen (hn : new config hook = .ok c) (hl : config.maxLineLength = none) :
    ∃ d, HasSeen config hook d [] [] c ∧ c.output = .empty := by
  rw [new, hl] at hn
  cases hv : config.validate with
  | error cause =>
    rw [hv] at hn
    cases hn
  | ok =>
    rw [hv] at hn
    obtain ⟨d, _, hn⟩ := bind_eq_ok.mp hn
    obtain ⟨f, hf, hn⟩ := bind_eq_ok.mp hn
    have hd : d ≠ [] := by
      rintro rfl
      cases hf
    obtain ⟨f', hf', tracks, fresh, limit⟩ := Framer.new_tracks hd
    obtain rfl : f' = f := Except.ok.inj (hf'.symm.trans hf)
    obtain rfl := Except.ok.inj hn
    refine ⟨d, ⟨rfl, rfl, tracks, limit, ?_⟩, rfl⟩
    rw [fresh]
    exact .rest fun hi => hd (List.infix_nil.mp hi)

theorem new_delimiter (hnew : new config hook = .ok c) :
    config.charset.encode .strict config.delimiter = .ok c.delimiter := by
  rw [new] at hnew
  cases hv : config.validate with
  | error cause =>
    rw [hv] at hnew
    cases hnew
  | ok =>
    rw [hv] at hnew
    obtain ⟨d, hd, hnew⟩ := bind_eq_ok.mp hnew
    obtain ⟨f, hf, hnew⟩ := bind_eq_ok.mp hnew
    obtain rfl := Except.ok.inj hnew
    rw [hd, delimiter, ← Framer.new_delimiter hf]
    cases config.maxLineLength <;> rfl

theorem HasSeen.delimiter_eq (h : HasSeen config hook d w records c) : c.delimiter = d := by
  rw [delimiter, Framer.delimiter, h.tracks.borders, BorderTable.ofPattern_pattern]

/-- Bytes give a packet for every record they end, if it carries anything. -/
theorem HasSeen.decode (h : HasSeen config hook d w records c) (hb : hook.Blind)
    (source : String) (bytes : Bytes) :
    ∃ more c', Codec.decode c source bytes =
        (.ok ((more.filterMap (payload? config hook)).map fun payload => ⟨source, payload⟩), c') ∧
      HasSeen config hook d (w ++ bytes) (records ++ more) c' ∧ c'.output = c.output := by
  obtain ⟨g, more, hsplit, tracks, limit, cuts⟩ := Framer.split_cuts bytes h.tracks h.limit h.cuts
  refine ⟨more, { c with framer := g }, ?_, ⟨h.config, h.hook, tracks, limit, cuts⟩, rfl⟩
  have packets : more.flatMap (fun record => (decodeRecord c.config c.hook source record).toList) =
      (more.filterMap (payload? config hook)).map fun payload => ⟨source, payload⟩ := by
    rw [h.config, h.hook, List.map_filterMap, List.filterMap_eq_flatMap_toList]
    refine List.flatMap_congr fun record _ => ?_
    rw [decodeRecord_eq hb]
  have hdecode : c.decode source bytes = ((more.filterMap (payload? config hook)).map
      fun payload => ⟨source, payload⟩, { c with framer := g }) := by
    simp only [LineCodec.decode, Framer.frame, hsplit, packets]
  exact congrArg (fun r : List Packet × LineCodec => (Except.ok r.1, r.2)) hdecode

theorem HasSeen.with_output (h : HasSeen config hook d w records c) (output : Outbox) :
    HasSeen config hook d w records { c with output } :=
  ⟨h.config, h.hook, h.tracks, h.limit, h.cuts⟩

theorem encode_of_ok {p : Packet} {bytes : Bytes} (h : payloadBytes c.config p.payload = .ok bytes)
    (s : DelayService) : Codec.encode c p s =
      (.ok (), { c with output := (c.output.push bytes).push c.delimiter }, s) := by
  have hencode : c.encode p = .ok { c with output := (c.output.push bytes).push c.delimiter } := by
    simp only [LineCodec.encode, h]
    rfl
  simp only [Codec.encode, hencode]

/-- A packet is queued with a delimiter behind it, or not at all. -/
theorem encode_wire (c : LineCodec) (p : Packet) (s : DelayService) :
    ∃ result output, Codec.encode c p s = (result, { c with output }, s) ∧
      output.toBytes = c.output.toBytes ++ packetBytes c.config c.delimiter p := by
  cases hbytes : payloadBytes c.config p.payload with
  | error e =>
    have hencode : c.encode p = .error e := by
      simp only [LineCodec.encode, hbytes]
      rfl
    exact ⟨.error e, c.output, by simp only [Codec.encode, hencode], by simp [packetBytes, hbytes]⟩
  | ok bytes => exact ⟨.ok (), _, encode_of_ok hbytes s, by simp [packetBytes, hbytes]⟩

/-- Packets stand on the wire one behind the other. -/
theorem encodeEach_wire (c : LineCodec) (ps : List Packet) (s : DelayService) :
    ∃ output, Codec.encodeEach ps c s = ({ c with output }, s) ∧
      output.toBytes = c.output.toBytes ++ ps.flatMap (packetBytes c.config c.delimiter) := by
  induction ps generalizing c with
  | nil => exact ⟨c.output, rfl, by simp⟩
  | cons p ps ih =>
    obtain ⟨_, first, hencode, hfirst⟩ := c.encode_wire p s
    obtain ⟨output, hrest, houtput⟩ := ih { c with output := first }
    refine ⟨output, ?_, ?_⟩
    · rw [Codec.encodeEach, hencode]
      exact hrest
    · rw [houtput, hfirst, List.flatMap_cons, List.append_assoc]
      rfl

theorem read_wire (c : LineCodec) (n : Nat) (s : DelayService) :
    ∃ output, Codec.read c n s = (c.output.toBytes.take n, { c with output }, s) ∧
      output.toBytes = c.output.toBytes.drop n := by
  refine ⟨(c.output.read n).2, ?_, Outbox.toBytes_read c.output n⟩
  rw [← Outbox.read_fst]
  rfl

theorem HasSeen.encodeEach (h : HasSeen config hook d w records c) (ps : List Packet)
    (s : DelayService) :
    ∃ c', Codec.encodeEach ps c s = (c', s) ∧ HasSeen config hook d w records c' ∧
      c'.output.toBytes = c.output.toBytes ++ ps.flatMap (packetBytes config d) := by
  obtain ⟨output, hencode, houtput⟩ := c.encodeEach_wire ps s
  rw [h.config, h.delimiter_eq] at houtput
  exact ⟨_, hencode, h.with_output output, houtput⟩

theorem HasSeen.read (h : HasSeen config hook d w records c) (n : Nat) (s : DelayService) :
    ∃ c', Codec.read c n s = (c.output.toBytes.take n, c', s) ∧
      HasSeen config hook d w records c' ∧ c'.output.toBytes = c.output.toBytes.drop n := by
  obtain ⟨output, hread, houtput⟩ := c.read_wire n s
  exact ⟨_, hread, h.with_output output, houtput⟩

/-- Chunks give the packets of the records they end, one chunk after the other. -/
theorem HasSeen.decodeChunks (h : HasSeen config hook d w records c) (hb : hook.Blind)
    (source : String) (chunks : List Bytes) :
    ∃ more c', Codec.decodeChunks source chunks c =
        (.ok ((more.filterMap (payload? config hook)).map fun payload => ⟨source, payload⟩), c') ∧
      HasSeen config hook d (w ++ chunks.flatten) (records ++ more) c' := by
  induction chunks generalizing c w records with
  | nil => exact ⟨[], c, rfl, by simpa using h⟩
  | cons chunk chunks ih =>
    obtain ⟨first, c₁, hfirst, h₁, _⟩ := h.decode hb source chunk
    obtain ⟨more, c₂, hmore, h₂⟩ := ih h₁
    refine ⟨first ++ more, c₂, ?_, ?_⟩
    · simp [Codec.decodeChunks, hfirst, hmore]
    · rwa [List.append_assoc, List.append_assoc] at h₂

end LineCodec

end Switchboard
