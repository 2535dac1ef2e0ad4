import Mathlib
import Switchboard.Proofs.LineWire

namespace Switchboard

namespace Codec

variable {C : Type} [Codec C]

/-- Decodes what sources send, call by call, whatever becomes of a call. -/
def decodeCalls : List (String × Bytes) → C → List (Except Error (List Packet)) × C
  | [], c => ([], c)
  | (source, bytes) :: calls, c =>
    let (result, c) := decode c source bytes
    let (results, c) := decodeCalls calls c
    (result :: results, c)

/-- The payloads of all packets that calls have given. -/
def heard (results : List (Except Error (List Packet))) : List Payload :=
  results.flatMap fun
    | .ok packets => packets.map (·.payload)
    | .error _ => []

end Codec

/-- What becomes of the lines of a codec. -/
inductive LineKind where
  | text
  | json
  deriving DecidableEq, Repr

namespace LineKind

def hook : LineKind → LineHook
  | text => LineHook.text
  | json => LineHook.json

/-- A line that is a text stands for itself, and one that is JSON, but not blank, for its value. -/
inductive Gives : LineKind → String → Payload → Prop
  | text (line : String) : Gives text line (.text line)
  | json {line : String} {value : Json} : (∃ c ∈ line.toList, ¬ Text.isBlank c) →
      Json.ofText? line = some value → Gives json line (.value value)

variable {kind : LineKind} {line : String} {payload : Payload}

theorem hook_eq_some (source : String) : kind.hook source line = some payload ↔
    kind.Gives line payload := by
  constructor
  · intro h
    cases kind with
    | text =>
      cases h
      exact .text line
    | json =>
      simp only [hook, LineHook.json] at h
      split at h
      next => cases h
      next written =>
        obtain ⟨value, hvalue, rfl⟩ := Option.map_eq_some_iff.mp h
        exact .json (by simpa using written) hvalue
  · rintro (line | ⟨written, hvalue⟩)
    · rfl
    · simp only [hook, LineHook.json, hvalue]
      rw [if_neg (by simpa using written)]
      rfl

theorem hook_blind (kind : LineKind) : kind.hook.Blind := by
  cases kind with
  | text => exact LineHook.text_blind
  | json => exact LineHook.json_blind

end LineKind

/-- Only strict decoding fails. -/
theorem Charset.eq_strict_of_error {charset : Charset} {policy : ErrorPolicy} {bytes : Bytes}
    {e : Error} (h : charset.decode policy bytes = .error e) : policy = .strict := by
  cases policy with
  | strict => rfl
  | replace | ignore => cases charset <;> cases h

namespace LineCodec

/-- A record without a carriage return at its end, if that is stripped. -/
inductive Body : (strip : Bool) → Bytes → Bytes → Prop
  | kept (record : Bytes) : Body false record record
  | cut (body : Bytes) : Body true (body ++ [0x0D]) body
  | plain {record : Bytes} : (∀ body, record ≠ body ++ [0x0D]) → Body true record record

/-- A record is decoded to a line. -/
def Reads (config : LineConfig) (record : Bytes) (line : String) : Prop :=
  ∃ body, Body config.stripCarriageReturn record body ∧
    config.charset.decode config.errorPolicy body = .ok line

/-- A record gives no packet when strict decoding fails, or for a line that is no JSON text. -/
inductive Dropped (config : LineConfig) (kind : LineKind) (record : Bytes) : Prop
  | undecodable {body : Bytes} {e : Error} : Body config.stripCarriageReturn record body →
      config.errorPolicy = .strict → config.charset.decode .strict body = .error e →
      Dropped config kind record
  | blank {line : String} : kind = .json → Reads config record line →
      (∀ c ∈ line.toList, Text.isBlank c) → Dropped config kind record
  | unparsable {line : String} : kind = .json → Reads config record line →
      Json.ofText? line = none → Dropped config kind record

/-- Records and the payloads of those that are not dropped. -/
inductive Yields (config : LineConfig) (kind : LineKind) : List Bytes → List Payload → Prop
  | none : Yields config kind [] []
  | carried {record : Bytes} {line : String} {payload : Payload} {records : List Bytes}
      {payloads : List Payload} : Reads config record line → kind.Gives line payload →
      Yields config kind records payloads → Yields config kind (record :: records) (payload :: payloads)
  | dropped {record : Bytes} {records : List Bytes} {payloads : List Payload} :
      Dropped config kind record → Yields config kind records payloads →
      Yields config kind (record :: records) payloads

variable {config : LineConfig} {hook : LineHook} {kind : LineKind} {d w : Bytes}
  {records : List Bytes} {c : LineCodec}

theorem stripped_body (config : LineConfig) (record : Bytes) :
    Body config.stripCarriageReturn record (stripped config record) := by
  cases hstrip : config.stripCarriageReturn with
  | false => simpa [stripped, hstrip] using Body.kept record
  | true =>
    by_cases last : record.getLast? = some 0x0D
    · obtain ⟨body, rfl⟩ := List.getLast?_eq_some_iff.mp last
      simpa [stripped, hstrip] using Body.cut body
    · have plain : ∀ body, record ≠ body ++ [0x0D] := by
        rintro body rfl
        simp at last
      simpa [stripped, hstrip, last] using Body.plain plain

theorem Body.eq_stripped {record body : Bytes} (h : Body config.stripCarriageReturn record body) :
    body = stripped config record := by
  generalize hstrip : config.stripCarriageReturn = strip at h
  cases h with
  | kept => simp [stripped, hstrip]
  | cut => simp [stripped, hstrip]
  | plain other =>
    have last : record.getLast? ≠ some 0x0D := fun last => by
      obtain ⟨body, rfl⟩ := List.getLast?_eq_some_iff.mp last
      exact other body rfl
    simp [stripped, hstrip, last]

theorem payload?_of_reads {record : Bytes} {line : String} (h : Reads config record line) :
    payload? config hook record = hook "" line := by
  obtain ⟨body, hbody, hline⟩ := h
  rw [hbody.eq_stripped] at hline
  rw [payload?, decodeRecord]
  simp only [hline]
  cases hook "" line <;> rfl

theorem payload?_of_dropped {record : Bytes} (h : Dropped config kind record) :
    payload? config kind.hook record = none := by
  cases h with
  | undecodable hbody strict failed =>
    rw [hbody.eq_stripped] at failed
    rw [payload?, decodeRecord]
    simp only [strict, failed]
    rfl
  | blank hkind reads none =>
    subst hkind
    rw [payload?_of_reads reads]
    exact if_pos (by simpa using none)
  | unparsable hkind reads none =>
    subst hkind
    rw [payload?_of_reads reads]
    simp [LineKind.hook, LineHook.json, none]

theorem dropped_of_payload? {record : Bytes} (h : payload? config kind.hook record = none) :
    Dropped config kind record := by
  cases hline : config.charset.decode config.errorPolicy (stripped config record) with
  | error e =>
    have strict := Charset.eq_strict_of_error hline
    rw [strict] at hline
    exact .undecodable (stripped_body config record) strict hline
  | ok line =>
    have reads : Reads config record line := ⟨_, stripped_body config record, hline⟩
    rw [payload?_of_reads reads] at h
    cases kind with
    | text => cases h
    | json =>
      simp only [LineKind.hook, LineHook.json] at h
      split at h
      next blank => exact .blank rfl reads (by simpa using blank)
      next => exact .unparsable rfl reads (Option.map_eq_none_iff.mp h)

/-- The reference outcome is what a codec makes of the records, one by one. -/
theorem yields_filterMap (config : LineConfig) (kind : LineKind) (records : List Bytes) :
    Yields config kind records (records.filterMap (payload? config kind.hook)) := by
  induction records with
  | nil => exact .none
  | cons record records ih =>
    cases hpayload : payload? config kind.hook record with
    | none =>
      rw [List.filterMap_cons_none hpayload]
      exact .dropped (dropped_of_payload? hpayload) ih
    | some payload =>
      rw [List.filterMap_cons_some hpayload]
      obtain ⟨p, hp, rfl⟩ := Option.map_eq_some_iff.mp hpayload
      cases hline : config.charset.decode config.errorPolicy (stripped config record) with
      | error e =>
        rw [decodeRecord] at hp
        simp [hline] at hp
      | ok line =>
        have reads : Reads config record line := ⟨_, stripped_body config record, hline⟩
        rw [payload?_of_reads reads] at hpayload
        exact .carried reads ((LineKind.hook_eq_some "").mp hpayload) ih

/-- Calls of any sources give the payloads of the records they end. -/
theorem HasSeen.decodeCalls (h : HasSeen config hook d w records c) (blind : hook.Blind)
    (calls : List (String × Bytes)) :
    ∃ more results c', Codec.decodeCalls calls c = (results, c') ∧
      HasSeen config hook d (w ++ calls.flatMap (·.2)) (records ++ more) c' ∧
      Codec.heard results = more.filterMap (payload? config hook) ∧
      List.Forall₂ (fun call result => ∃ packets, result = Except.ok packets ∧
        ∀ p ∈ packets, p.source = call.1) calls results := by
  induction calls generalizing c w records with
  | nil => exact ⟨[], [], c, rfl, by simpa using h, rfl, .nil⟩
  | cons call calls ih =>
    obtain ⟨source, bytes⟩ := call
    obtain ⟨first, c₁, hfirst, seen, _⟩ := h.decode blind source bytes
    obtain ⟨more, results, c', hcalls, seen', hheard, each⟩ := ih seen
    let packets : List Packet :=
      (first.filterMap (payload? config hook)).map fun payload => ⟨source, payload⟩
    refine ⟨first ++ more, .ok packets :: results, c', ?_, ?_, ?_, .cons ⟨packets, rfl, ?_⟩ each⟩
    · simp only [Codec.decodeCalls, hfirst, hcalls]
      rfl
    · simpa using seen'
    · have payloads : packets.map (·.payload) = first.filterMap (payload? config hook) := by
        rw [List.map_map]
        exact List.map_id _
      rw [List.filterMap_append, ← hheard, ← payloads]
      rfl
    · intro p hp
      obtain ⟨_, _, rfl⟩ := List.mem_map.mp hp
      rfl

/-- Whatever sources send in whatever calls, no call fails, and the payloads of all packets are those
of the records that the stream of all bytes is split into. A record that is dropped might as well
not have been sent. -/
theorem records_decoded (hnew : new config kind.hook = .ok c)
    (unlimited : config.maxLineLength = none) :
    ∃ d, config.charset.encode .strict config.delimiter = .ok d ∧
      (∀ calls : List (String × Bytes), ∃ records rest payloads,
        Cuts d (calls.flatMap (·.2)) records rest ∧ Yields config kind records payloads ∧
        Codec.heard (Codec.decodeCalls calls c).1 = payloads ∧
        List.Forall₂ (fun call result => ∃ packets, result = Except.ok packets ∧
          ∀ p ∈ packets, p.source = call.1) calls (Codec.decodeCalls calls c).1) ∧
      ∀ (calls fewer : List (String × Bytes)) (before : List Bytes) (w bad t : Bytes),
        Cuts d w before [] → LeftmostCut d (bad ++ d ++ t) bad t → Dropped config kind bad →
        calls.flatMap (·.2) = w ++ (bad ++ d ++ t) → fewer.flatMap (·.2) = w ++ t →
        Codec.heard (Codec.decodeCalls calls c).1 = Codec.heard (Codec.decodeCalls fewer c).1 := by
  obtain ⟨d, fresh, _⟩ := new_hasSeen hnew unlimited
  have hd := new_delimiter hnew
  rw [fresh.delimiter_eq] at hd
  have decodes (calls : List (String × Bytes)) : ∃ records rest,
      Cuts d (calls.flatMap (·.2)) records rest ∧
      Codec.heard (Codec.decodeCalls calls c).1 = records.filterMap (payload? config kind.hook) ∧
      List.Forall₂ (fun call result => ∃ packets, result = Except.ok packets ∧
        ∀ p ∈ packets, p.source = call.1) calls (Codec.decodeCalls calls c).1 := by
    obtain ⟨records, results, c', hcalls, seen, hheard, each⟩ :=
      fresh.decodeCalls kind.hook_blind calls
    rw [hcalls]
    exact ⟨records, _, seen.cuts, hheard, each⟩
  refine ⟨d, hd, fun calls => ?_, fun calls fewer before w bad t hw first dropped all rest => ?_⟩
  · obtain ⟨records, rest, cuts, hheard, each⟩ := decodes calls
    exact ⟨records, rest, _, cuts, yields_filterMap config kind records, hheard, each⟩
  · obtain ⟨records, u, cuts, hheard, _⟩ := decodes calls
    obtain ⟨records', u', cuts', hheard', _⟩ := decodes fewer
    obtain ⟨behind, v, hbehind, _⟩ := decodes [("", t)]
    rw [List.flatMap_singleton] at hbehind
    rw [all] at cuts
    rw [rest] at cuts'
    obtain ⟨rfl, _⟩ := cuts.unique (hw.append (.cut first hbehind))
    obtain ⟨rfl, _⟩ := cuts'.unique (hw.append hbehind)
    rw [hheard, hheard', List.filterMap_append, List.filterMap_append,
      List.filterMap_cons_none (payload?_of_dropped dropped)]

def strictJson : LineConfig :=
  { charset := .ascii, errorPolicy := .strict, stripCarriageReturn := true }

/-- A value that two sources send in two parts, an octet that is no ASCII, a blank line, a text that
is no JSON, another value and an open record. -/
def mixed : List (String × Bytes) :=
  [("a", [0x7B, 0x22, 0x6E, 0x22, 0x3A]),
   ("b", [0x74, 0x72, 0x75, 0x65, 0x7D, 0x0D, 0x0A, 0xFF, 0x0A, 0x20, 0x0D, 0x0A, 0x78]),
   ("b", [0x0A, 0x5B, 0x5B, 0x5D, 0x5D, 0x0A, 0x33])]

theorem records_decoded_of_mixed :
    let c : LineCodec :=
      { config := strictJson, hook := LineHook.json, framer := { borders := .ofPattern [0x0A] } }
    new strictJson LineKind.json.hook = .ok c ∧ strictJson.maxLineLength = none ∧
      ∃ records rest, Cuts [0x0A] (mixed.flatMap (·.2)) records rest ∧
        Yields strictJson .json records
          [.value (.obj [("n", .bool true)]), .value (.arr [.arr []])] ∧
        List.Forall₂ (fun call result => ∃ packets, result = Except.ok packets ∧
          ∀ p ∈ packets, p.source = call.1) mixed (Codec.decodeCalls mixed c).1 := by
  intro c
  have hnew : new strictJson LineKind.json.hook = .ok c := rfl
  have hheard : Codec.heard (Codec.decodeCalls mixed c).1 =
      [.value (.obj [("n", .bool true)]), .value (.arr [.arr []])] := by cbv
  obtain ⟨d, hd, decodes, _⟩ := records_decoded hnew rfl
  obtain rfl : [0x0A] = d := Except.ok.inj hd
  obtain ⟨records, rest, payloads, cuts, yields, given, each⟩ := decodes mixed
  rw [← given, hheard] at yields
  exact ⟨hnew, rfl, records, rest, cuts, yields, each⟩

end LineCodec

end Switchboard
