import Switchboard.Proofs.AnyChunks
import Switchboard.Proofs.WholeTexts

namespace Switchboard

namespace Connection

/-- An echo answers every payload with itself. -/
theorem offerEach_echo (id : String) (shown : List Payload) (ctx : Context) :
    (offerEach id shown [StandardHandler.echo] ctx).2.1 =
      { ctx with replies := ctx.replies ++ shown.map fun payload => ⟨id, payload⟩ } := by
  induction shown generalizing ctx with
  | nil => simp [offerEach]
  | cons payload shown ih =>
    have answered : offerAll ⟨id, payload⟩ [StandardHandler.echo] ctx =
        ([.echo], ctx.reply ⟨id, payload⟩,
          ⟨[.offer .echo ctx.connectionId ⟨id, payload⟩], []⟩) := rfl
    rw [offerEach, answered]
    simp only [ih]
    simp [Context.reply]

end Connection

namespace LineCodec

variable {config : LineConfig} {d record : Bytes} {text : String}

/-- The record is a text of the charset from end to end. -/
def Readable (config : LineConfig) (record : Bytes) : Prop :=
  ∃ text, config.charset.decode .strict record = .ok text

theorem payload?_of_readable (keeps : config.stripCarriageReturn = false)
    (h : config.charset.decode .strict record = .ok text) :
    payload? config LineHook.text record = some (.text text) := by
  have read := Charset.decode_encode (Charset.encode_of_decode h) config.errorPolicy
  have whole : stripped config record = record := by simp [stripped, keeps]
  rw [payload?, decodeRecord, whole]
  simp only [read]
  rfl

theorem packetBytes_of_readable (h : config.charset.decode .strict record = .ok text)
    (id : String) : packetBytes config d ⟨id, .text text⟩ = record ++ d := by
  have written := Charset.encode_of_strict (Charset.encode_of_decode h) config.errorPolicy
  simp only [packetBytes, payloadBytes, written]

/-- Records that are texts go out as they came in, whatever the policy for others. -/
theorem wire_of_readable (keeps : config.stripCarriageReturn = false) (id : String)
    {records : List Bytes} (readable : ∀ record ∈ records, Readable config record) :
    Session.wire config d ((records.filterMap (payload? config LineHook.text)).map
      fun payload => ⟨id, payload⟩) = records.flatMap (· ++ d) := by
  induction records with
  | nil => rfl
  | cons record records ih =>
    obtain ⟨⟨text, first⟩, others⟩ := List.forall_mem_cons.mp readable
    rw [List.filterMap_cons_some (payload?_of_readable keeps first), List.map_cons, Session.wire,
      List.flatMap_cons, packetBytes_of_readable first, List.flatMap_cons]
    exact congrArg _ (ih others)

end LineCodec

namespace Session

open LineCodec

variable {config : LineConfig} {d w : Bytes} {base : Context} {i : BuiltInspector}
  {s : Session LineCodec BuiltInspector StandardHandler}

theorem standing_of_open (open' : ∀ g, i ≠ .tokenAuth g) (payloads : List Payload) :
    i.standing payloads = .talking i.id payloads := by
  cases i with
  | passThrough => rfl
  | idleTimeout => rfl
  | tokenAuth g => exact absurd rfl (open' g)

/-- What an echo has put out once nothing waits are the records it was given, if these are
texts. -/
theorem Reached.echoed (h : s.Reached config LineHook.text d i [.echo] base w)
    (open' : ∀ g, i ≠ .tokenAuth g) (keeps : config.stripCarriageReturn = false)
    (hbase : base.replies = []) :
    ∃ records rest, Cuts d w records rest ∧ ((∀ record ∈ records, Readable config record) →
      ∀ service, s.connection.pending service = false → s.output ++ rest = w) := by
  obtain ⟨records, ⟨c, hseen⟩, _, hstands⟩ := h
  rw [standing_of_open open'] at hstands
  obtain ⟨st, told, _⟩ := hstands
  refine ⟨records, _, hseen.cuts, fun readable service hquiet => ?_⟩
  have replies : (Connection.offerEach i.id (records.filterMap (payload? config LineHook.text))
      [StandardHandler.echo] { base with connectionId := i.id }).2.1.replies =
        (records.filterMap (payload? config LineHook.text)).map
          fun payload => ⟨i.id, payload⟩ := by
    rw [Connection.offerEach_echo]
    simp [hbase]
  have houtput := told.drained hbase hquiet
  rw [replies, wire_of_readable keeps i.id readable] at houtput
  rw [houtput]
  exact hseen.cuts.rebuild

theorem arrived_of_drains {reads : List (DelayService × Traffic)} (h : Drains reads) :
    arrived reads = [] := by
  refine List.flatMap_eq_nil_iff.mpr fun e he => ?_
  obtain ⟨n, _, htake⟩ := h e he
  rw [htake]

/-- A connection that lets everything in and has an echo as its only handler gives back what it was
sent, up to and including the last delimiter, in whatever chunks it came and whatever reads were
made in between: if all records are texts of the charset, then once nothing waits what was read and
what stands behind the last delimiter are the input. Enough reads get there. -/
theorem echo_returns_the_input {codec : LineCodec}
    (hcodec : LineCodec.new config LineHook.text = .ok codec)
    (unlimited : config.maxLineLength = none) (keeps : config.stripCarriageReturn = false)
    (open' : ∀ g, i ≠ .tokenAuth g) (serverId listenerId : String) (peer : Peer)
    (waker : Option Waker) :
    let start : Session LineCodec BuiltInspector StandardHandler :=
      { connection := (Connection.new (Context.new serverId listenerId peer waker) codec i
          [.echo]).1 }
    ∃ d, config.charset.encode .strict config.delimiter = .ok d ∧
      ∀ events, ∃ records rest, Cuts d (arrived events) records rest ∧
        (config.charset = .latin1 ∨ (∀ record ∈ records, Readable config record) →
          (∀ service, (start.run events).connection.pending service = false →
            (start.run events).output ++ rest = arrived events) ∧
          ∃ k, ∀ reads, Drains reads → k ≤ reads.length →
            (∀ service, (start.run (events ++ reads)).connection.pending service = false) ∧
              (start.run (events ++ reads)).output ++ rest = arrived events) := by
  intro start
  obtain ⟨d, hd, hkept, hstart⟩ := new_reached Replying.standard
    (fun h (_ : h ∈ [StandardHandler.echo]) => trivial) unlimited hcodec i serverId listenerId peer
    waker
  refine ⟨d, hd, fun events => ?_⟩
  have reached (more) := Reached.run Replying.standard hkept rfl LineHook.text_blind hstart more
  obtain ⟨records, rest, hcuts, hecho⟩ := (reached events).echoed open' keeps rfl
  refine ⟨records, rest, hcuts, fun texts => ?_⟩
  have readable : ∀ record ∈ records, Readable config record := by
    rcases texts with hlatin | hreadable
    · intro record _
      rw [Readable, hlatin]
      exact ⟨_, Charset.decode_latin1 record⟩
    · exact hreadable
  refine ⟨hecho readable, ?_⟩
  obtain ⟨_, _, hc, hstands⟩ := reached events
  obtain ⟨k, hk⟩ := hstands.drains Replying.standard hkept rfl hc
  refine ⟨k, fun reads hreads hlen => ?_⟩
  have hquiet (service) : (start.run (events ++ reads)).connection.pending service = false := by
    rw [run, List.foldl_append]
    exact hk reads hreads hlen service
  have same : arrived (events ++ reads) = arrived events := by
    rw [arrived, List.flatMap_append]
    exact (congrArg _ (arrived_of_drains hreads)).trans (List.append_nil _)
  obtain ⟨records', rest', hcuts', hecho'⟩ := (reached (events ++ reads)).echoed open' keeps rfl
  rw [List.nil_append] at hcuts hcuts' hecho'
  rw [same] at hcuts' hecho'
  obtain ⟨rfl, rfl⟩ := hcuts.unique hcuts'
  exact ⟨hquiet, hecho' readable {} (hquiet {})⟩

/-- A delimiter that overlaps itself, cut apart by chunks and reads. The third byte of `aaa` belongs
to the second record. -/
theorem echo_returns_the_input_of_overlap :
    let peer : Peer := ⟨"10.0.0.1:80", by decide⟩
    let config : LineConfig := { charset := .latin1, delimiter := "aa" }
    let codec : LineCodec :=
      { config, hook := LineHook.text, framer := { borders := .ofPattern [97, 97] } }
    let start : Session LineCodec BuiltInspector StandardHandler :=
      { connection := (Connection.new (Context.new "srv" "lines" peer none) codec
          (.idleTimeout (.new peer none 0)) [.echo]).1 }
    let events : List (DelayService × Traffic) :=
      [({}, .arrive [255, 97]), ({}, .take 5), ({}, .arrive [97, 97, 99]), ({}, .take 2),
        ({}, .arrive [97]), ({}, .arrive [97, 121]), ({}, .take 0), ({}, .take 1), ({}, .take 9)]
    (∃ records rest, Cuts [97, 97] (arrived events) records rest ∧
      (start.run events).output ++ rest = arrived events) ∧
      (start.run events).output = [255, 97, 97, 97, 99, 97, 97] := by
  intro peer config codec start events
  have hcodec : LineCodec.new config LineHook.text = .ok codec := by
    unfold codec
    cbv
  have lets_all_in : ∀ g, BuiltInspector.idleTimeout (.new peer none 0) ≠ .tokenAuth g := by
    intro g same
    cases same
  obtain ⟨d, hd, echoes⟩ := echo_returns_the_input hcodec rfl rfl lets_all_in "srv" "lines" peer none
  obtain rfl : d = [97, 97] := Except.ok.inj (hd.symm.trans (by cbv))
  obtain ⟨records, rest, hcuts, whole⟩ := echoes events
  exact ⟨⟨records, rest, hcuts, (whole (.inl rfl)).1 {} (by cbv)⟩, by cbv⟩

end Session

end Switchboard
