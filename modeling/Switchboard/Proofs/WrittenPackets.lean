import Switchboard.Proofs.ClosedCodecs
import Switchboard.Proofs.LineWire

namespace Switchboard

open Deflate LineCodec

namespace CodecConfig

/-- A tree of codecs for lines and values with nothing but splits between them. -/
def Plain : CodecConfig → Prop
  | line _ => True
  | json _ => True
  | deflate .. => False
  | delay .. => False
  | split decoder encoder => decoder.Plain ∧ encoder.Plain

/-- The settings of the leaf that packets go out through. -/
def outlet : CodecConfig → LineConfig
  | line l => l
  | json l => l
  | deflate _ inner => inner.outlet
  | delay _ inner => inner.outlet
  | split _ encoder => encoder.outlet

end CodecConfig

/-- Codecs with a queue of output: what they accept goes to its end, written with the settings `l`
and with `d` behind it, and what is read comes from its front. All of that is meant for codecs of
which `Sound` holds, which nothing but closing them changes. -/
structure Queues {C : Type} [Codec C] (l : LineConfig) (d : Bytes) (Sound : C → Prop)
    (queued : C → Bytes) : Prop where
  decode : ∀ {c} source bytes, Sound c → Sound (Codec.decode c source bytes).2 ∧
    queued (Codec.decode c source bytes).2 = queued c
  accept : ∀ {c} {p : Packet} {bytes} s, Sound c → payloadBytes l p.payload = .ok bytes →
    ∃ c', Codec.encode c p s = (.ok (), c', s) ∧ Sound c' ∧ queued c' = queued c ++ (bytes ++ d)
  refuse : ∀ {c} {p : Packet} {e} s, Sound c → payloadBytes l p.payload = .error e →
    Codec.encode c p s = (.error e, c, s)
  read : ∀ {c} n s, Sound c → ∃ c', Codec.read c n s = ((queued c).take n, c', s) ∧ Sound c' ∧
    queued c' = (queued c).drop n
  setWaker : ∀ {c} w, Sound c → Sound (Codec.setWaker c w) ∧
    queued (Codec.setWaker c w) = queued c

namespace LineCodec

/-- A codec with these settings that ends its records in `d`. -/
def Writes (l : LineConfig) (d : Bytes) (c : LineCodec) : Prop := c.config = l ∧ c.delimiter = d

def queued (c : LineCodec) : Bytes := c.output.toBytes

theorem decode_delimiter (c : LineCodec) (source : String) (bytes : Bytes) :
    (c.decode source bytes).2.delimiter = c.delimiter := by
  have same := c.framer.frame_clear
    (fun record => (decodeRecord c.config c.hook source record).toList) bytes
  have borders := congrArg Framer.borders same
  -- emptying a framer leaves its pattern alone
  exact congrArg (fun table : BorderTable UInt8 => table.pattern.toList) borders

theorem queues (l : LineConfig) (d : Bytes) : Queues l d (Writes l d) queued where
  decode {c} source bytes hc := ⟨⟨hc.1, (c.decode_delimiter source bytes).trans hc.2⟩, rfl⟩
  accept {c p bytes} s hc h := by
    obtain ⟨rfl, rfl⟩ := hc
    exact ⟨_, encode_of_ok h s, ⟨rfl, rfl⟩, by simp [queued]⟩
  refuse {c p e} s hc h := by
    obtain ⟨rfl, rfl⟩ := hc
    have failed : c.encode p = .error e := by
      simp only [encode, h]
      rfl
    simp only [Codec.encode, failed]
  read {c} n s hc := by
    obtain ⟨output, hread, hleft⟩ := c.read_wire n s
    exact ⟨_, hread, hc, hleft⟩
  setWaker _ hc := ⟨hc, rfl⟩

theorem new_writes {config : LineConfig} {hook : LineHook} {c : LineCodec}
    (h : new config hook = .ok c) : Writes config c.delimiter c ∧ c.queued = [] := by
  rw [new] at h
  cases hv : config.validate with
  | error cause =>
    rw [hv] at h
    cases h
  | ok =>
    rw [hv] at h
    obtain ⟨d, _, h⟩ := bind_eq_ok.mp h
    obtain ⟨f, _, h⟩ := bind_eq_ok.mp h
    obtain rfl := Except.ok.inj h
    exact ⟨⟨rfl, rfl⟩, rfl⟩

end LineCodec

/-- Only the codec for what goes out matters. -/
theorem Split.queues {D E : Type} [Codec D] [Codec E] {l : LineConfig} {d : Bytes}
    {Sound : E → Prop} {queued : E → Bytes} (h : Queues l d Sound queued) :
    Queues l d (fun c : Split D E => Sound c.encoder) (fun c => queued c.encoder) where
  decode _ _ hc := ⟨hc, rfl⟩
  accept {c p bytes} s hc hbytes := by
    obtain ⟨e, hencode, sound, hqueue⟩ := h.accept s hc hbytes
    exact ⟨{ c with encoder := e }, by simp only [Codec.encode, hencode], sound, hqueue⟩
  refuse {c p e} s hc hbytes := by
    have failed := h.refuse s hc hbytes
    simp only [Codec.encode, failed]
  read {c} n s hc := by
    obtain ⟨e, hread, sound, hqueue⟩ := h.read n s hc
    exact ⟨{ c with encoder := e }, by simp only [Codec.read, hread], sound, hqueue⟩
  setWaker w hc := h.setWaker w hc

namespace CodecState

variable {K : Type} [Compressor K]

/-- The bytes that wait to be read, in the codec they are read from. -/
def queued : (config : CodecConfig) → CodecState K config → Bytes
  | .line _, c => LineCodec.queued c
  | .json _, c => LineCodec.queued c
  | .deflate _ _, c => (Deflated.output c).toBytes
  | .delay _ inner, c => queued inner c.inner
  | .split _ encoder, c => queued encoder c.encoder

/-- The leaf that packets go out through ends its records in `d`. -/
def Writes (d : Bytes) : (config : CodecConfig) → CodecState K config → Prop
  | .line l, c => LineCodec.Writes l d c
  | .json l, c => LineCodec.Writes l d c
  | .deflate _ _, _ => False
  | .delay _ _, _ => False
  | .split _ encoder, c => Writes d encoder c.encoder

theorem queues (d : Bytes) {config : CodecConfig} (plain : config.Plain) :
    Queues config.outlet d (Writes (K := K) d config) (queued config) := by
  induction config with
  | line l => exact LineCodec.queues l d
  | json l => exact LineCodec.queues l d
  | deflate level inner _ => exact plain.elim
  | delay ms inner _ => exact plain.elim
  | split decoder encoder _ ih => exact Split.queues (ih plain.2)

theorem build_writes {scheduler : Bool} {config : CodecConfig} (plain : config.Plain)
    {key next : Nat} {c : CodecState K config} (h : build scheduler config key = .ok (c, next)) :
    ∃ d, config.outlet.charset.encode .strict config.outlet.delimiter = .ok d ∧
      Writes d config c ∧ queued config c = [] := by
  induction config generalizing key next with
  | line l =>
    obtain ⟨codec, hnew, h⟩ := bind_eq_ok.mp h
    cases h
    exact ⟨_, new_delimiter hnew, new_writes hnew⟩
  | json l =>
    obtain ⟨codec, hnew, h⟩ := bind_eq_ok.mp h
    cases h
    exact ⟨_, new_delimiter hnew, new_writes hnew⟩
  | deflate level inner _ => exact plain.elim
  | delay ms inner _ => exact plain.elim
  | split decoder encoder _ ih =>
    obtain ⟨⟨first, middle⟩, _, h⟩ := bind_eq_ok.mp h
    obtain ⟨⟨second, last⟩, hencoder, h⟩ := bind_eq_ok.mp h
    cases h
    exact ih plain.2 hencoder

end CodecState

namespace CodecTurn

/-- The packet of a turn, if it can be written with the settings `l`. -/
def writable? (l : LineConfig) : CodecTurn → Option Packet
  | encode packet => if (payloadBytes l packet.payload).isOk then some packet else none
  | _ => none

/-- What a turn leaves of a queue of output. -/
def queueAfter (l : LineConfig) (d q : Bytes) : CodecTurn → Bytes
  | encode packet => q ++ packetBytes l d packet
  | read n => q.drop n
  | _ => q

/-- What a turn reads from a queue of output. -/
def readFrom (q : Bytes) : CodecTurn → Option Bytes
  | read n => some (q.take n)
  | _ => none

/-- Whether a turn matters to the output: it is a packet that can be written, or a read. -/
def matters (l : LineConfig) : CodecTurn → Bool
  | read _ => true
  | turn => (turn.writable? l).isSome

variable {C : Type} [Codec C]

def accepts (r : C × DelayService) : CodecTurn → Option Packet
  | encode packet => if (Codec.encode r.1 packet r.2).1.isOk then some packet else none
  | _ => none

def takes (r : C × DelayService) : CodecTurn → Option Bytes
  | read n => some (Codec.read r.1 n r.2).1
  | _ => none

/-- The packets that are accepted, in the order in which they are encoded. -/
def accepted : List CodecTurn → C × DelayService → List Packet
  | [], _ => []
  | turn :: turns, r => (turn.accepts r).toList ++ accepted turns (step r turn)

/-- What reads take, one after the other. -/
def taken : List CodecTurn → C × DelayService → List Bytes
  | [], _ => []
  | turn :: turns, r => (turn.takes r).toList ++ taken turns (step r turn)

variable {l : LineConfig} {d : Bytes} {Sound : C → Prop} {queued : C → Bytes}
  {r r' : C × DelayService} {turn : CodecTurn} {turns : List CodecTurn}

/-- A turn does to the codec what it does to the queue. -/
theorem step_queues (h : Queues l d Sound queued) (hr : Sound r.1) (goesOn : turn ≠ .close) :
    Sound (step r turn).1 ∧ queued (step r turn).1 = turn.queueAfter l d (queued r.1) ∧
      turn.accepts r = turn.writable? l ∧ turn.takes r = turn.readFrom (queued r.1) := by
  cases turn with
  | decode source bytes =>
    obtain ⟨sound, same⟩ := h.decode source bytes hr
    exact ⟨sound, same, rfl, rfl⟩
  | encode packet =>
    cases hbytes : payloadBytes l packet.payload with
    | ok bytes =>
      obtain ⟨c, hencode, sound, hqueue⟩ := h.accept r.2 hr hbytes
      simp only [step, accepts, writable?, queueAfter, packetBytes, hencode, hbytes]
      exact ⟨sound, hqueue, rfl, rfl⟩
    | error e =>
      simp only [step, accepts, writable?, queueAfter, packetBytes, h.refuse r.2 hr hbytes, hbytes,
        List.append_nil]
      exact ⟨hr, trivial, rfl, rfl⟩
  | read n =>
    obtain ⟨c, hread, sound, hqueue⟩ := h.read n r.2 hr
    simp only [step, takes, readFrom, queueAfter, hread]
    exact ⟨sound, hqueue, rfl, trivial⟩
  | setWaker waker =>
    obtain ⟨sound, same⟩ := h.setWaker waker hr
    exact ⟨sound, same, rfl, rfl⟩
  | close => exact absurd rfl goesOn
  | elapse delays => exact ⟨hr, rfl, rfl, rfl⟩

/-- What a turn reads and leaves is what there was with what the turn wrote behind it. -/
theorem readFrom_append_queueAfter (l : LineConfig) (d q : Bytes) (turn : CodecTurn) :
    (turn.readFrom q).toList.flatten ++ turn.queueAfter l d q =
      q ++ (turn.writable? l).toList.flatMap (packetBytes l d) := by
  cases turn with
  | encode packet =>
    cases hbytes : payloadBytes l packet.payload <;>
      simp [readFrom, queueAfter, writable?, packetBytes, hbytes, Except.isOk, Except.toBool]
  | read n => simp [readFrom, queueAfter, writable?]
  | _ => simp [readFrom, queueAfter, writable?]

/-- Nothing is lost on the way: what was read and what is left are together what was there and what
was accepted. -/
theorem run_queues (h : Queues l d Sound queued) (hr : Sound r.1) (goesOn : .close ∉ turns) :
    Sound (run turns r).1 ∧ accepted turns r = turns.filterMap (writable? l) ∧
      (taken turns r).flatten ++ queued (run turns r).1 =
        queued r.1 ++ (accepted turns r).flatMap (packetBytes l d) := by
  induction turns generalizing r with
  | nil => exact ⟨hr, rfl, by simp [taken, accepted, run]⟩
  | cons turn turns ih =>
    obtain ⟨hturn, hturns⟩ := not_or.mp (mt List.mem_cons.mpr goesOn)
    obtain ⟨sound, hqueue, haccepts, htakes⟩ := step_queues h hr (Ne.symm hturn)
    obtain ⟨hlast, haccepted, haccount⟩ := ih sound hturns
    refine ⟨hlast, ?_, ?_⟩
    · rw [accepted, haccepted, haccepts]
      cases hw : turn.writable? l <;> simp [hw]
    · have now := readFrom_append_queueAfter l d (queued r.1) turn
      calc (taken (turn :: turns) r).flatten ++ queued (run (turn :: turns) r).1
          = (turn.takes r).toList.flatten ++
              ((taken turns (step r turn)).flatten ++ queued (run turns (step r turn)).1) := by
            rw [taken, List.flatten_append, List.append_assoc]
            rfl
        _ = (turn.readFrom (queued r.1)).toList.flatten ++ turn.queueAfter l d (queued r.1) ++
              (accepted turns (step r turn)).flatMap (packetBytes l d) := by
            rw [haccount, htakes, hqueue, List.append_assoc]
        _ = queued r.1 ++ (accepted (turn :: turns) r).flatMap (packetBytes l d) := by
            rw [now, accepted, haccepts, List.flatMap_append, List.append_assoc]

theorem idle_of_not_matters (h : turn.matters l = false) (q : Bytes) :
    turn.queueAfter l d q = q ∧ turn.readFrom q = none := by
  cases turn with
  | encode packet =>
    cases hbytes : payloadBytes l packet.payload with
    | ok bytes => simp [matters, writable?, hbytes, Except.isOk, Except.toBool] at h
    | error e => exact ⟨by simp [queueAfter, packetBytes, hbytes], rfl⟩
  | read n => cases h
  | _ => exact ⟨rfl, rfl⟩

/-- Turns that do not matter can be left out: every read takes the same. -/
theorem run_matters (h : Queues l d Sound queued) (hr : Sound r.1) (hr' : Sound r'.1)
    (same : queued r'.1 = queued r.1) (goesOn : .close ∉ turns) :
    taken (turns.filter (matters l)) r' = taken turns r ∧
      queued (run (turns.filter (matters l)) r').1 = queued (run turns r).1 := by
  induction turns generalizing r r' with
  | nil => exact ⟨rfl, same⟩
  | cons turn turns ih =>
    obtain ⟨hturn, hturns⟩ := not_or.mp (mt List.mem_cons.mpr goesOn)
    obtain ⟨sound, hqueue, _, htakes⟩ := step_queues h hr (Ne.symm hturn)
    cases hm : turn.matters l with
    | true =>
      obtain ⟨sound', hqueue', _, htakes'⟩ := step_queues h hr' (Ne.symm hturn)
      obtain ⟨hsame, hleft⟩ := ih sound sound' (by rw [hqueue, hqueue', same]) hturns
      rw [List.filter_cons_of_pos hm, taken, taken, hsame, htakes, htakes', same]
      exact ⟨rfl, hleft⟩
    | false =>
      obtain ⟨hkept, hnone⟩ := idle_of_not_matters (d := d) hm (queued r.1)
      rw [List.filter_cons_of_neg (by simp [hm]), taken, htakes, hnone]
      exact ih sound hr' (by rw [hqueue, hkept, same]) hturns

end CodecTurn

namespace CodecState

variable {K : Type} [Compressor K]

/-- Of a tree of codecs for lines and values, reads take what was accepted: the bytes of every
packet with the delimiter of the leaf behind them, in the order of encoding, and what was not read
yet is still in the queue. A packet that cannot be encoded changes nothing at all, and neither it
nor anything that is decoded makes a difference to any read. -/
theorem accepted_packets_are_written {scheduler : Bool} {config : CodecConfig}
    (plain : config.Plain) {key next : Nat} {codec : CodecState K config}
    (hbuilt : build scheduler config key = .ok (codec, next)) (delays : DelayService)
    (turns : List CodecTurn) (goesOn : .close ∉ turns) :
    let l := config.outlet
    let start := (codec, delays)
    let r := CodecTurn.run turns start
    (∃ d, l.charset.encode .strict l.delimiter = .ok d ∧
      (CodecTurn.taken turns start).flatten ++ queued config r.1 =
        (CodecTurn.accepted turns start).flatMap (packetBytes l d)) ∧
      CodecTurn.accepted turns start = turns.filterMap (CodecTurn.writable? l) ∧
      (∀ p e, (Codec.encode r.1 p r.2).1 = .error e → (Codec.encode r.1 p r.2).2 = r) ∧
      let effective := turns.filter (CodecTurn.matters l)
      CodecTurn.taken effective start = CodecTurn.taken turns start ∧
        queued config (CodecTurn.run effective start).1 = queued config r.1 := by
  intro l start r
  obtain ⟨d, hd, fresh, hnone⟩ := build_writes plain hbuilt
  have h := queues (K := K) d plain
  obtain ⟨sound, haccepted, haccount⟩ := CodecTurn.run_queues h (r := start) fresh goesOn
  refine ⟨⟨d, hd, ?_⟩, haccepted, fun p e hfailed => ?_, ?_⟩
  · rw [haccount, hnone, List.nil_append]
  · cases hbytes : payloadBytes l p.payload with
    | ok bytes =>
      obtain ⟨c, hencode, _⟩ := h.accept r.2 sound hbytes
      rw [hencode] at hfailed
      cases hfailed
    | error e' => exact congrArg Prod.snd (h.refuse r.2 sound hbytes)
  · exact CodecTurn.run_matters h fresh fresh rfl goesOn

theorem accepted_packets_are_written_of_refused :
    let outgoing : LineConfig := { charset := .latin1, errorPolicy := .strict, delimiter := "é;" }
    let config : CodecConfig := .split (.json {}) (.split (.line {}) (.line outgoing))
    let values : LineCodec :=
      { config := {}, hook := LineHook.json, framer := { borders := .ofPattern [10] } }
    let lines : LineCodec :=
      { config := {}, hook := LineHook.text, framer := { borders := .ofPattern [10] } }
    let out : LineCodec :=
      { config := outgoing, hook := LineHook.text, framer := { borders := .ofPattern [233, 59] } }
    let codec : CodecState StoredBlocks config := Split.mk values (Split.mk lines out)
    let turns : List CodecTurn :=
      [.encode ⟨"p", .text "one"⟩, .read 2, .decode "p" [49, 10], .encode ⟨"p", .text "a→"⟩,
        .encode ⟨"q", .raw [255]⟩, .read 0, .read 4]
    config.Plain ∧ build false config 0 = .ok (codec, 0) ∧ .close ∉ turns ∧
      CodecTurn.accepted turns (codec, {}) = [⟨"p", .text "one"⟩, ⟨"q", .raw [255]⟩] ∧
      CodecTurn.taken turns (codec, {}) = [[111, 110], [], [101, 233, 59, 255]] ∧
      queued config (CodecTurn.run turns (codec, {})).1 = [233, 59] := by
  intro outgoing config values lines out codec turns
  have plain : config.Plain := ⟨trivial, trivial, trivial⟩
  have hbuilt : build false config 0 = .ok (codec, 0) := by
    unfold codec values lines out config outgoing
    cbv
  have goesOn : .close ∉ turns := by simp [turns]
  obtain ⟨⟨d, hd, account⟩, accepted, -⟩ :=
    accepted_packets_are_written plain hbuilt {} turns goesOn
  obtain rfl : [233, 59] = d := by
    have hd' : outgoing.charset.encode .strict outgoing.delimiter = .ok [233, 59] := by
      unfold outgoing
      cbv
    exact Except.ok.inj (hd'.symm.trans hd)
  have both : CodecTurn.accepted turns (codec, {}) = [⟨"p", .text "one"⟩, ⟨"q", .raw [255]⟩] :=
    accepted.trans (by unfold turns config outgoing; cbv)
  have reads : CodecTurn.taken turns (codec, {}) = [[111, 110], [], [101, 233, 59, 255]] := by
    unfold turns codec values lines out outgoing
    cbv
  rw [both, reads] at account
  have left : ([111, 110, 101, 233, 59, 255] : Bytes) ++
      queued config (CodecTurn.run turns (codec, {})).1 =
        [111, 110, 101, 233, 59, 255] ++ [233, 59] :=
    account.trans (by unfold config outgoing; cbv)
  exact ⟨plain, hbuilt, goesOn, both, reads, List.append_cancel_left left⟩

end CodecState

end Switchboard
