import Switchboard.Proofs.FileSnapshots
import Switchboard.Proofs.JsonReadBack

namespace Switchboard

open Document (ofJson tagName)

namespace Document

variable {d : Document}

theorem natural?_ofNat {n bound : Nat} (small : n < bound) (room : bound ≤ UInt64.size) :
    (ofJson (.ofNat n)).natural? bound = some n := by
  have same : (UInt64.ofNat n).toNat = n :=
    UInt64.toNat_ofNat_of_lt' (Nat.lt_of_lt_of_le small room)
  simp only [ofJson, Json.ofNat, natural?, same, if_pos small]

theorem uint16?_ofNat (n : UInt16) : (ofJson (.ofNat n.toNat)).uint16? = some n := by
  rw [uint16?, natural?_ofNat n.toNat_lt (by decide), Option.map_some, UInt16.ofNat_toNat]

theorem uint32?_ofNat (n : UInt32) : (ofJson (.ofNat n.toNat)).uint32? = some n := by
  rw [uint32?, natural?_ofNat n.toNat_lt (by decide), Option.map_some, UInt32.ofNat_toNat]

/-- Values that are read back one by one are read back as the items of an array. -/
theorem mapM_ofItems {α : Type} {toJson : α → Json} {read : Document → Option α} {values : List α}
    (h : ∀ value ∈ values, read (ofJson (toJson value)) = some value) :
    (ofItems (values.map toJson)).mapM read = some values := by
  induction values with
  | nil => simp [ofItems]
  | cons value values ih =>
    obtain ⟨first, others⟩ := List.forall_mem_cons.mp h
    simp [ofItems, first, ih others]

end Document

namespace LineConfig

variable {c : LineConfig} {d : Document}

theorem read?_charset (inner : Bool) (charset : Charset) :
    Charset.read? inner (.str (some charset.name)) = some charset := by
  cases charset <;> rfl

theorem read?_errorPolicy (inner : Bool) (policy : ErrorPolicy) :
    ErrorPolicy.read? inner (.str (some policy.name)) = some policy := by
  cases policy <;> rfl

theorem fields_ordered (c : LineConfig) : ∀ f ∈ c.fields, f.2.Ordered := by
  cases h : c.maxLineLength <;> simp [fields, h, Json.Ordered]

theorem read?_of_shows (h : d.Shows c.fields) (inner : Bool) : read? inner d = some c := by
  have slots := h ["charset", "error_policy", "delimiter", "max_line_length",
    "strip_carriage_return"] (by decide)
  simp only [fields, List.map_cons, List.map_nil, lookup_cons_ite, String.reduceEq, if_true,
    if_false, Option.map_some, ofJson] at slots
  rw [read?, slots]
  obtain ⟨charset, errorPolicy, delimiter, limit, strip⟩ := c
  cases limit <;> simp [Document.orElse?, read?_charset, read?_errorPolicy, Document.text?,
    Document.flag?, Document.optional?, Document.uint64?, ofJson]

end LineConfig

namespace CodecConfig

/-- What the value of a description has besides its tag. -/
def parts : CodecConfig → List (String × Json)
  | line c => c.fields
  | json c => c.fields
  | deflate level inner => [("level", .ofNat level.toNat), ("inner", inner.toJson)]
  | delay ms inner => [("delay_ms", .num (.natural ms)), ("inner", inner.toJson)]
  | split decoder encoder => [("decoder", decoder.toJson), ("encoder", encoder.toJson)]

theorem toJson_eq (c : CodecConfig) :
    c.toJson = .ofFields ((tagName, .str c.tag) :: c.parts) := by
  cases c <;> rfl

theorem names_nodup (c : CodecConfig) :
    (((tagName, Json.str c.tag) :: c.parts).map (·.1)).Nodup := by
  cases c <;> simp [parts, LineConfig.fields, tagName]

theorem ordered_of_parts {c : CodecConfig} (h : ∀ f ∈ c.parts, f.2.Ordered) :
    c.toJson.Ordered := by
  rw [toJson_eq]
  exact Json.ofFields_ordered (List.forall_mem_cons.mpr ⟨by simp [Json.Ordered], h⟩)

theorem parts_ordered (c : CodecConfig) : ∀ f ∈ c.parts, f.2.Ordered := by
  induction c with
  | line c => exact c.fields_ordered
  | json c => exact c.fields_ordered
  | deflate level codec ih => simp [parts, Json.ofNat, Json.Ordered, ordered_of_parts ih]
  | delay ms codec ih => simp [parts, Json.Ordered, ordered_of_parts ih]
  | split decoder encoder ihd ihe => simp [parts, ordered_of_parts ihd, ordered_of_parts ihe]

variable {c : CodecConfig} {room : Nat}

theorem depth_lt_of_part {name : String} {j : Json} (hn : name ≠ tagName)
    (h : c.parts.lookup name = some j) : j.depth < c.toJson.depth := by
  rw [toJson_eq]
  exact Json.depth_lt_of_lookup c.names_nodup (by rw [lookup_cons_ite, if_neg hn, h])

theorem tagged?_toJson (c : CodecConfig) (inner : Bool) (deep : c.toJson.depth ≤ room)
    {place : Nat} (known : tags.idxOf? c.tag = some place) :
    ∃ rest, (ofJson c.toJson).tagged? inner tags room = some (place, .obj rest) ∧
      (Document.obj rest).Shows c.parts := by
  rw [toJson_eq] at deep ⊢
  exact Document.tagged?_of_fields inner c.names_nodup c.parts_ordered known deep

/-- The description of a codec is what is read from its value, also as a part of another one. -/
theorem read?_toJson (c : CodecConfig) (inner : Bool) (room : Nat) (deep : c.toJson.depth ≤ room) :
    read? inner room (ofJson c.toJson) = some c := by
  induction c generalizing inner room with
  | line c =>
    obtain ⟨room, rfl⟩ := Nat.exists_eq_add_one_of_ne_zero (Nat.ne_zero_of_lt deep)
    obtain ⟨rest, tagged, shows⟩ := tagged?_toJson (.line c) inner deep rfl
    rw [read?, tagged]
    simp [LineConfig.read?_of_shows shows]
  | json c =>
    obtain ⟨room, rfl⟩ := Nat.exists_eq_add_one_of_ne_zero (Nat.ne_zero_of_lt deep)
    obtain ⟨rest, tagged, shows⟩ := tagged?_toJson (.json c) inner deep rfl
    rw [read?, tagged]
    simp [LineConfig.read?_of_shows shows]
  | deflate level codec ih =>
    obtain ⟨room, rfl⟩ := Nat.exists_eq_add_one_of_ne_zero (Nat.ne_zero_of_lt deep)
    obtain ⟨rest, tagged, shows⟩ := tagged?_toJson (.deflate level codec) inner deep rfl
    have slots := shows ["level", "inner"] (by decide)
    have deeper : codec.toJson.depth < (deflate level codec).toJson.depth :=
      depth_lt_of_part (show "inner" ≠ tagName by decide) (by simp [parts, lookup_cons_ite])
    have read := ih true room (by omega)
    rw [read?, tagged]
    simp [slots, parts, lookup_cons_ite, Document.orElse?, Document.uint32?_ofNat, read]
  | delay ms codec ih =>
    obtain ⟨room, rfl⟩ := Nat.exists_eq_add_one_of_ne_zero (Nat.ne_zero_of_lt deep)
    obtain ⟨rest, tagged, shows⟩ := tagged?_toJson (.delay ms codec) inner deep rfl
    have slots := shows ["delay_ms", "inner"] (by decide)
    have deeper : codec.toJson.depth < (delay ms codec).toJson.depth :=
      depth_lt_of_part (show "inner" ≠ tagName by decide) (by simp [parts, lookup_cons_ite])
    have read := ih true room (by omega)
    rw [read?, tagged]
    simp [slots, parts, lookup_cons_ite, ofJson, Document.uint64?, read]
  | split decoder encoder ihd ihe =>
    obtain ⟨room, rfl⟩ := Nat.exists_eq_add_one_of_ne_zero (Nat.ne_zero_of_lt deep)
    obtain ⟨rest, tagged, shows⟩ := tagged?_toJson (.split decoder encoder) inner deep rfl
    have slots := shows ["decoder", "encoder"] (by decide)
    have decoderDeeper : decoder.toJson.depth < (split decoder encoder).toJson.depth :=
      depth_lt_of_part (show "decoder" ≠ tagName by decide) (by simp [parts])
    have encoderDeeper : encoder.toJson.depth < (split decoder encoder).toJson.depth :=
      depth_lt_of_part (show "encoder" ≠ tagName by decide) (by simp [parts, lookup_cons_ite])
    have readDecoder := ihd true room (by omega)
    have readEncoder := ihe true room (by omega)
    rw [read?, tagged]
    simp [slots, parts, lookup_cons_ite, readDecoder, readEncoder]

end CodecConfig

namespace InspectorConfig

def parts : InspectorConfig → List (String × Json)
  | passThrough => []
  | idleTimeout ms => [("timeout_ms", .num (.natural ms))]
  | tokenAuth secret ms => [("secret", .str secret), ("timeout_ms", .num (.natural ms))]

theorem toJson_eq (c : InspectorConfig) :
    c.toJson = .ofFields ((tagName, .str c.tag) :: c.parts) := by
  cases c <;> rfl

theorem names_nodup (c : InspectorConfig) :
    (((tagName, Json.str c.tag) :: c.parts).map (·.1)).Nodup := by
  cases c <;> simp [parts, tagName]

theorem parts_ordered (c : InspectorConfig) : ∀ f ∈ c.parts, f.2.Ordered := by
  cases c <;> simp [parts, Json.Ordered]

theorem toJson_ordered (c : InspectorConfig) : c.toJson.Ordered := by
  rw [toJson_eq]
  exact Json.ofFields_ordered (List.forall_mem_cons.mpr ⟨by simp [Json.Ordered], c.parts_ordered⟩)

theorem read?_toJson (c : InspectorConfig) (room : Nat) (deep : c.toJson.depth ≤ room) :
    read? room (ofJson c.toJson) = some c := by
  have tagged {place : Nat} (known : tags.idxOf? c.tag = some place) :
      ∃ rest, (ofJson c.toJson).tagged? false tags room = some (place, .obj rest) ∧
        (Document.obj rest).Shows c.parts := by
    rw [toJson_eq] at deep ⊢
    exact Document.tagged?_of_fields false c.names_nodup c.parts_ordered known deep
  cases c with
  | passThrough =>
    obtain ⟨rest, chosen, _⟩ := tagged rfl
    simp [read?, chosen]
  | idleTimeout ms =>
    obtain ⟨rest, chosen, shows⟩ := tagged rfl
    have slots := shows ["timeout_ms"] (by decide)
    simp [read?, chosen, slots, parts, Document.orElse?, ofJson, Document.uint64?]
  | tokenAuth secret ms =>
    obtain ⟨rest, chosen, shows⟩ := tagged rfl
    have slots := shows ["secret", "timeout_ms"] (by decide)
    simp [read?, chosen, slots, parts, lookup_cons_ite, Document.orElse?, ofJson, Document.text?,
      Document.uint64?]

end InspectorConfig

namespace HandlerConfig

/-- The settings are a value as values are, every object in them in order. -/
def Ordered (h : HandlerConfig) : Prop := h.config.Ordered

theorem toJson_ordered {h : HandlerConfig} (ordered : h.Ordered) : h.toJson.Ordered :=
  Json.ofFields_ordered (List.forall_mem_cons.mpr ⟨ordered, by simp [Json.Ordered]⟩)

theorem read?_toJson {h : HandlerConfig} (ordered : h.Ordered) (room : Nat)
    (deep : h.toJson.depth ≤ room) : read? room (ofJson h.toJson) = some h := by
  obtain ⟨room, rfl⟩ := Nat.exists_eq_add_one_of_ne_zero (Nat.ne_zero_of_lt deep)
  have nodup : ([("config", h.config), ("type", Json.str h.kind)].map (·.1)).Nodup := by simp
  have slots := Document.slots?_of_fields nodup ["type", "config"]
  have deeper : h.config.depth < h.toJson.depth :=
    Json.depth_lt_of_lookup nodup List.lookup_cons_self
  have read := Document.toJson?_ofJson h.config ordered room (by omega)
  rw [read?, toJson, slots]
  simp [lookup_cons_ite, ofJson, Document.text?, Document.orElse?, read]

theorem ordered_of_read? {h : HandlerConfig} {d : Document} {room : Nat}
    (hread : read? room d = some h) : h.Ordered := by
  cases room with
  | zero => simp [read?] at hread
  | succ room =>
    simp only [read?, Option.bind_eq_bind, Option.bind_eq_some_iff] at hread
    obtain ⟨slots, _, hread⟩ := hread
    split at hread
    next config _ =>
      simp only [Option.bind_eq_some_iff] at hread
      obtain ⟨_, _, value, hvalue, heq⟩ := hread
      obtain rfl := Option.some.inj heq
      cases config with
      | none =>
        obtain rfl := Option.some.inj hvalue
        trivial
      | some d => exact Document.toJson?_ordered d room hvalue
    next => cases hread

end HandlerConfig

namespace ListenerConfig

/-- Every handler's settings are in order. Descriptions that were read are, see
`ordered_of_read?`. -/
def Ordered (c : ListenerConfig) : Prop := ∀ h ∈ c.handlers, h.Ordered

theorem readHandlers?_toJson {handlers : List HandlerConfig} (ordered : ∀ h ∈ handlers, h.Ordered)
    (room : Nat) (deep : (Json.arr (handlers.map HandlerConfig.toJson)).depth ≤ room) :
    readHandlers? room (ofJson (.arr (handlers.map HandlerConfig.toJson))) = some handlers := by
  obtain ⟨room, rfl⟩ := Nat.exists_eq_add_one_of_ne_zero (Nat.ne_zero_of_lt deep)
  have shallow := Json.depthOfItems_le_iff.mp (Nat.le_of_succ_le_succ deep)
  rw [ofJson, readHandlers?]
  exact Document.mapM_ofItems fun h hh =>
    HandlerConfig.read?_toJson (ordered h hh) room (shallow _ (List.mem_map_of_mem hh))

def parts (c : ListenerConfig) : List (String × Json) :=
  [("codec", c.codec.toJson), ("handlers", .arr (c.handlers.map HandlerConfig.toJson)),
    ("id", .str c.id), ("inspector", c.inspector.toJson), ("name", .str c.name),
    ("port", .ofNat c.port.toNat)]

theorem names_nodup (c : ListenerConfig) : (c.parts.map (·.1)).Nodup := by simp [parts]

theorem depth_lt_of_part {c : ListenerConfig} {name : String} {j : Json}
    (h : c.parts.lookup name = some j) : j.depth < c.toJson.depth :=
  Json.depth_lt_of_lookup c.names_nodup h

/-- What is written down of a description is in order again. -/
theorem toJson_ordered {c : ListenerConfig} (ordered : c.Ordered) : c.toJson.Ordered := by
  have handlers : Json.OrderedItems (c.handlers.map HandlerConfig.toJson) :=
    Json.orderedItems_iff.mpr fun j hj => by
      obtain ⟨h, hh, rfl⟩ := List.mem_map.mp hj
      exact HandlerConfig.toJson_ordered (ordered h hh)
  have codec := CodecConfig.ordered_of_parts c.codec.parts_ordered
  refine Json.ofFields_ordered fun f hf => ?_
  simp only [List.mem_cons, List.not_mem_nil, or_false] at hf
  rcases hf with rfl | rfl | rfl | rfl | rfl | rfl
  · exact codec
  · exact handlers
  · trivial
  · exact c.inspector.toJson_ordered
  · trivial
  · trivial

theorem read?_toJson {c : ListenerConfig} (ordered : c.Ordered) (room : Nat)
    (deep : c.toJson.depth ≤ room) : read? room (ofJson c.toJson) = some c := by
  obtain ⟨room, rfl⟩ := Nat.exists_eq_add_one_of_ne_zero (Nat.ne_zero_of_lt deep)
  have slots := Document.slots?_of_fields c.names_nodup
    ["id", "name", "port", "codec", "inspector", "handlers"]
  have codecDeeper : c.codec.toJson.depth < c.toJson.depth :=
    depth_lt_of_part (show c.parts.lookup "codec" = _ by simp [parts])
  have inspectorDeeper : c.inspector.toJson.depth < c.toJson.depth :=
    depth_lt_of_part (show c.parts.lookup "inspector" = _ by simp [parts, lookup_cons_ite])
  have handlersDeeper : (Json.arr (c.handlers.map HandlerConfig.toJson)).depth < c.toJson.depth :=
    depth_lt_of_part (show c.parts.lookup "handlers" = _ by simp [parts, lookup_cons_ite])
  have codec := CodecConfig.read?_toJson c.codec false room (by omega)
  have inspector := InspectorConfig.read?_toJson c.inspector room (by omega)
  have handlers := readHandlers?_toJson ordered room (by omega)
  rw [read?, show c.toJson = .ofFields c.parts from rfl, slots]
  simp [parts, lookup_cons_ite, Document.orElse?, codec, inspector, handlers,
    Document.uint16?_ofNat]
  simp [ofJson, Document.text?]

theorem ordered_of_readHandlers? {handlers : List HandlerConfig} {d : Document} {room : Nat}
    (h : readHandlers? room d = some handlers) : ∀ h ∈ handlers, h.Ordered := by
  unfold readHandlers? at h
  split at h
  next room items =>
    induction items generalizing handlers with
    | nil =>
      obtain rfl : [] = handlers := by simpa using h
      exact fun _ hh => absurd hh List.not_mem_nil
    | cons item items ih =>
      simp only [List.mapM_cons, Option.bind_eq_bind, Option.bind_eq_some_iff] at h
      obtain ⟨first, hfirst, others, hothers, heq⟩ := h
      obtain rfl := Option.some.inj heq
      exact List.forall_mem_cons.mpr ⟨HandlerConfig.ordered_of_read? hfirst, ih hothers⟩
  next => cases h

/-- Only descriptions in order are ever read, whatever text they come from. -/
theorem ordered_of_read? {c : ListenerConfig} {d : Document} {room : Nat}
    (h : read? room d = some c) : c.Ordered := by
  cases room with
  | zero => simp [read?] at h
  | succ room =>
    simp only [read?, Option.bind_eq_bind, Option.bind_eq_some_iff] at h
    obtain ⟨slots, _, h⟩ := h
    split at h
    next handlers _ =>
      simp only [Option.bind_eq_some_iff] at h
      obtain ⟨_, _, _, _, _, _, _, _, _, _, read, hhandlers, heq⟩ := h
      obtain rfl := Option.some.inj heq
      cases handlers with
      | none =>
        obtain rfl := Option.some.inj hhandlers
        exact fun _ hh => absurd hh List.not_mem_nil
      | some d => exact ordered_of_readHandlers? hhandlers
    next => cases h

end ListenerConfig

namespace ListenerChange

/-- The value that holds every description under its id. -/
def Snapshot.toJson (t : Snapshot) : Json := .obj (t.entries.map fun e => (e.1, e.2.toJson))

def Snapshot.ofJson? : Json → Option Snapshot
  | .obj fields => do
    let entries ← fields.mapM fun f => (ListenerConfig.ofJson? f.2).map fun c => (f.1, c)
    return entries.foldl (fun t e => t.insert e.1 e.2) .empty
  | _ => none

theorem between_self (t : Snapshot) : between t t = [] := between_eq_nil_iff.mpr fun _ => BEq.rfl

/-- A description written down as a value is the one that is read from it, and a snapshot that was
written down and read again differs from the one in force in nothing. -/
theorem written_is_read_back :
    (∀ c : ListenerConfig, c.Ordered → ListenerConfig.ofJson? c.toJson = some c) ∧
    ∀ t : Snapshot, (∀ e ∈ t.entries, e.2.Ordered) →
      ∃ back, Snapshot.ofJson? t.toJson = some back ∧
        between t back = [] ∧ between back t = [] := by
  have one (c : ListenerConfig) (h : c.Ordered) : ListenerConfig.ofJson? c.toJson = some c :=
    ListenerConfig.read?_toJson h _ (Nat.le_refl _)
  refine ⟨one, fun t ordered => ⟨t, ?_, between_self t, between_self t⟩⟩
  have each (es : List (String × ListenerConfig)) (h : ∀ e ∈ es, e.2.Ordered) :
      (es.map fun e => (e.1, e.2.toJson)).mapM
        (fun f => (ListenerConfig.ofJson? f.2).map fun c => (f.1, c)) = some es := by
    induction es with
    | nil => rfl
    | cons e es ih =>
      obtain ⟨first, others⟩ := List.forall_mem_cons.mp h
      simp [one e.2 first, ih others]
  rw [Snapshot.toJson, Snapshot.ofJson?, each t.entries ordered]
  exact congrArg some t.foldl_insert_entries

/-- Codecs inside each other, one of them with a level there is not, and settings that only a
handler understands. -/
theorem written_is_read_back_of_nested :
    let c : ListenerConfig :=
      { id := "rooms", name := "", port := 65535
        codec := .split (.deflate 11 (.json { charset := .ascii, maxLineLength := some 80 }))
          (.delay 250 (.line { delimiter := "", errorPolicy := .strict }))
        inspector := .tokenAuth "pw" 5000
        handlers := [⟨"chat", .null⟩, ⟨"", .obj
          [("limits", .arr [.num (.double ⟨true, 0, -1074⟩), .num (.negative 0)]),
            ("type", .obj [])]⟩] }
    let t : Snapshot := Snapshot.ofList [c]
    ListenerConfig.ofJson? c.toJson = some c ∧
      ∃ back, Snapshot.ofJson? t.toJson = some back ∧ between t back = [] ∧ between back t = [] := by
  intro c t
  have settings : ∀ h ∈ c.handlers, h.Ordered := by
    refine List.forall_mem_cons.mpr ⟨trivial, List.forall_mem_cons.mpr ⟨⟨?_, ?_⟩, nofun⟩⟩
    · exact List.pairwise_pair.mpr (show "limits" < "type" by decide)
    · simp [Json.OrderedFields, Json.Ordered, Json.OrderedItems]
  exact ⟨written_is_read_back.1 c settings, written_is_read_back.2 t fun e he => by
    obtain rfl : e = ("rooms", c) := List.mem_singleton.mp he
    exact settings⟩

end ListenerChange

end Switchboard
