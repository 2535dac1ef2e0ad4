import Switchboard.Proofs.DrainedInterest

namespace Switchboard

open Deflate LawfulChanneled

namespace DelayService

/-- The service with nothing left on some channels. What the worker holds stays with it. -/
def emptied (keys : List Nat) (s : DelayService) : DelayService :=
  keys.foldl (fun s k => (s.takeDue k).2) s

/-- The worker has nothing to put on a channel. -/
structure NoneUnderway (s : DelayService) (k : Nat) : Prop where
  inbox : ∀ e ∈ s.worker.inbox, e.sink.key ≠ k
  queue : s.worker.queue.Holds fun e => e.sink.key ≠ k

theorem emptied_append (keys keys' : List Nat) (s : DelayService) :
    s.emptied (keys ++ keys') = (s.emptied keys).emptied keys' := List.foldl_append

theorem takeDue_worker (s : DelayService) (key : Nat) : (s.takeDue key).2.worker = s.worker := by
  simp only [takeDue]
  split <;> rfl

theorem emptied_worker (keys : List Nat) (s : DelayService) :
    (s.emptied keys).worker = s.worker := by
  induction keys generalizing s with
  | nil => rfl
  | cons key keys ih => exact (ih _).trans (s.takeDue_worker key)

theorem takeDue_channel (s : DelayService) (key k : Nat) :
    (s.takeDue key).2.handover.channel k =
      if k = key then { s.handover.channel k with packets := [] } else s.handover.channel k := by
  cases hp : (s.handover.channel key).packets with
  | nil =>
    have same : (s.takeDue key).2 = s := by simp [takeDue, hp]
    rw [same]
    split
    next hk => rw [hk, ← hp]
    next => rfl
  | cons p packets =>
    simp only [takeDue, hp, List.isEmpty_cons, Bool.false_eq_true, if_false,
      Handover.channel_setChannel]
    split
    next hk => rw [hk]
    next => rfl

/-- On its channels nothing is left, other channels keep what they hold. -/
theorem emptied_channel (keys : List Nat) (s : DelayService) (k : Nat) :
    (s.emptied keys).handover.channel k =
      if k ∈ keys then { s.handover.channel k with packets := [] } else s.handover.channel k := by
  induction keys generalizing s with
  | nil => rfl
  | cons key keys ih =>
    have first : s.emptied (key :: keys) = (s.takeDue key).2.emptied keys := rfl
    rw [first, ih, takeDue_channel]
    by_cases hk : k = key <;> by_cases hks : k ∈ keys <;> simp [hk, hks]

theorem Idle.emptied {s : DelayService} {k : Nat} (h : s.Idle k) (keys : List Nat) :
    (s.emptied keys).Idle k := by
  induction keys generalizing s with
  | nil => exact h
  | cons key keys ih => exact ih (h.takeDue key)

theorem emptied_idle {s : DelayService} {keys : List Nat} {k : Nat} (hk : k ∈ keys)
    (h : s.NoneUnderway k) : (s.emptied keys).Idle k := by
  refine ⟨?_, ?_, by rw [emptied_channel, if_pos hk]⟩
  · rw [emptied_worker]
    exact h.inbox
  · rw [emptied_worker]
    exact h.queue

end DelayService

open DelayService

/-- The codec after it was closed. -/
def blank {C : Type} [Codec C] (c : C) : C := (Codec.close c {}).1

/-- Codecs that forget all they hold when they are closed: what they become does not depend on what
went through them, and of the service they only empty their own channels. -/
class Resets (C : Type) [Codec C] [Channeled C] : Prop where
  close_eq : ∀ (c : C) s, Codec.close c s = (blank c, s.emptied (channels c))
  blank_decode : ∀ (c : C) source bytes, blank (Codec.decode c source bytes).2 = blank c
  blank_encode : ∀ (c : C) p s, blank (Codec.encode c p s).2.1 = blank c
  blank_read : ∀ (c : C) n s, blank (Codec.read c n s).2.1 = blank c
  blank_setWaker : ∀ (c : C) w, blank (Codec.setWaker c w) = Codec.setWaker (blank c) w
  blank_blank : ∀ c : C, blank (blank c) = blank c
  quiet : ∀ (c : C) n s, Codec.pending c s = false → (Codec.read c n s).1 = []
  pending_blank : ∀ (c : C) s, (∀ k ∈ channels c, s.hasDue k = false) →
    Codec.pending (blank c) s = false

open Resets

section

variable {C : Type} [Codec C] [Channeled C] [Resets C]

theorem blank_encodeEach (ps : List Packet) (c : C) (s : DelayService) :
    blank (Codec.encodeEach ps c s).1 = blank c := by
  induction ps generalizing c s with
  | nil => rfl
  | cons p ps ih => exact (ih _ _).trans (blank_encode c p s)

end

namespace Framer

theorem pushOnto_clear (r : Framer × List Bytes) (b : UInt8) :
    (pushOnto r b).1.clear = r.1.clear := by
  simp only [pushOnto, push]
  split <;> rfl

theorem foldl_pushOnto_clear (bytes : Bytes) (r : Framer × List Bytes) :
    (bytes.foldl pushOnto r).1.clear = r.1.clear := by
  induction bytes generalizing r with
  | nil => rfl
  | cons b bytes ih => exact (ih _).trans (pushOnto_clear r b)

/-- What goes through a framer leaves nothing behind that clearing it does not take away. -/
theorem frame_clear {α : Type} (f : Framer) (decode : Bytes → List α) (bytes : Bytes) :
    (f.frame decode bytes).2.clear = f.clear := by
  have whole := foldl_pushOnto_clear bytes (f, [])
  simp only [frame, split]
  split
  · exact whole
  · exact whole

end Framer

namespace LineCodec

theorem blank_eq (c : LineCodec) : blank c = c.close := rfl

instance instResets : Resets LineCodec where
  close_eq _ _ := rfl
  blank_decode c source bytes := by
    have framed := c.framer.frame_clear
      (fun record => (decodeRecord c.config c.hook source record).toList) bytes
    exact congrArg (fun framer => { c with framer, output := .empty }) framed
  blank_encode c p s := by
    simp only [Codec.encode, encode]
    cases payloadBytes c.config p.payload <;> rfl
  blank_read _ _ _ := rfl
  blank_setWaker _ _ := rfl
  blank_blank _ := rfl
  quiet c n _ h := by
    have hout : c.output.toBytes = [] := by
      rw [← Outbox.isEmpty_iff]
      simpa [Codec.pending, LineCodec.pending] using h
    simp [Codec.read, LineCodec.read, hout]
  pending_blank _ _ _ := rfl

end LineCodec

namespace Deflated

variable {K C : Type} [Compressor K] [Codec C]

theorem blank_eq (c : Deflated K C) : blank c = { inner := blank c.inner, level := c.level } := rfl

theorem blank_of_inner {c c' : Deflated K C} (inner : blank c'.inner = blank c.inner)
    (level : c'.level = c.level) : blank c' = blank c := by
  rw [blank_eq, blank_eq, inner, level]

variable [Channeled C] [Resets C]

theorem compressReads_blank (fuel : Nat) (c : Deflated K C) (s : DelayService) :
    blank (c.compressReads fuel s).2.1 = blank c := by
  induction fuel generalizing c s with
  | zero => rfl
  | succ fuel ih =>
    have first := blank_read c.inner Inflater.blockSize s
    rcases hread : Codec.read c.inner Inflater.blockSize s with ⟨plain, inner, s'⟩
    rw [hread] at first
    simp only [compressReads, hread]
    split
    · exact blank_of_inner first rfl
    · rcases deflateInto c.compressor plain .none c.output with ⟨_ | _, compressor, output⟩
      · exact blank_of_inner first rfl
      · exact (ih _ _).trans (blank_of_inner first rfl)

theorem collect_blank (c : Deflated K C) (s : DelayService) :
    blank (c.collect s).1 = blank c := by
  have all := compressReads_blank ((Codec.drain c.inner s).1.length + 1) c s
  unfold collect
  rcases hreads : c.compressReads ((Codec.drain c.inner s).1.length + 1) s with ⟨_ | _ | _, c', s'⟩
  all_goals
    rw [hreads] at all
    exact all

instance instResets : Resets (Deflated K C) where
  close_eq c s := by
    simp only [Codec.close, close_eq c.inner s]
    rfl
  blank_decode c source bytes := by
    obtain ⟨inner, _⟩ := inflateAll_inner (P := fun d => blank d = blank c.inner)
      (fun d bytes h => (blank_decode d source bytes).trans h) c bytes [] rfl
    exact blank_of_inner inner (inflateAll_compressor source c bytes []).2
  blank_encode c p s := blank_of_inner (blank_encode c.inner p s) rfl
  blank_read c n s := collect_blank c s
  blank_setWaker c w := by
    rw [blank_eq, blank_eq]
    exact congrArg (fun inner : C => ({ inner, level := c.level } : Deflated K C))
      (blank_setWaker c.inner w)
  blank_blank c := blank_of_inner (blank_blank c.inner) rfl
  quiet c n s h := by
    obtain ⟨hout, hinner⟩ := Bool.or_eq_false_iff.mp h
    have hnone : c.output.toBytes = [] := by
      rw [← Outbox.isEmpty_iff]
      simpa using hout
    simp [Codec.read, collect_of_read_nil (quiet c.inner Inflater.blockSize s hinner), hnone]
  pending_blank c s h := pending_blank c.inner s h

end Deflated

namespace Delayed

variable {C : Type} [Codec C] [Channeled C] [Resets C]

theorem blank_eq (c : Delayed C) : blank c = { c with inner := blank c.inner } := by
  have closed := close_eq c.inner (DelayService.takeDue {} c.key).2
  exact congrArg (fun r : C × DelayService => { c with inner := r.1 }) closed

theorem blank_of_inner {c c' : Delayed C} (rest : c' = { c with inner := c'.inner })
    (inner : blank c'.inner = blank c.inner) : blank c' = blank c := by
  rw [blank_eq, blank_eq, inner, rest]

theorem takeDue_blank (c : Delayed C) (s : DelayService) : blank (c.takeDue s).1 = blank c :=
  blank_of_inner rfl (blank_encodeEach _ _ _)

instance instResets : Resets (Delayed C) where
  close_eq c s := by
    rw [blank_eq]
    simp only [Codec.close, close_eq c.inner (s.takeDue c.key).2]
    rfl
  blank_decode c source bytes := blank_of_inner rfl (blank_decode c.inner source bytes)
  blank_encode c p s := rfl
  blank_read c n s := by
    have read := blank_read (c.takeDue s).1.inner n (c.takeDue s).2
    exact (blank_of_inner rfl read).trans (takeDue_blank c s)
  blank_setWaker c w := by
    rw [blank_eq, blank_eq]
    exact congrArg (fun inner : C => { c with inner, waker := some w }) (blank_setWaker c.inner w)
  blank_blank c := by
    rw [blank_eq c]
    exact blank_of_inner rfl (blank_blank c.inner)
  quiet c n s h := by
    obtain ⟨hdue, hinner⟩ := Bool.or_eq_false_iff.mp h
    simp only [Codec.read, takeDue_of_not_hasDue hdue]
    exact quiet c.inner n s hinner
  pending_blank c s h := by
    obtain ⟨own, inner⟩ := List.forall_mem_cons.mp h
    rw [blank_eq]
    exact Bool.or_eq_false_iff.mpr ⟨own, pending_blank c.inner s inner⟩

end Delayed

namespace Split

variable {D E : Type} [Codec D] [Codec E] [Channeled E] [Resets E]

theorem blank_eq (c : Split D E) : blank c = ⟨blank c.decoder, blank c.encoder⟩ := by
  have closed := close_eq c.encoder (Codec.close c.decoder {}).2
  show Split.mk (blank c.decoder) (Codec.close c.encoder (Codec.close c.decoder {}).2).1 = _
  rw [closed]

variable [Channeled D] [Resets D]

instance instResets : Resets (Split D E) where
  close_eq c s := by
    rw [blank_eq]
    simp only [Codec.close, close_eq c.decoder s, close_eq c.encoder, ← emptied_append]
    rfl
  blank_decode c source bytes := by
    rw [blank_eq, blank_eq]
    exact congrArg (fun d => Split.mk d (blank c.encoder)) (blank_decode c.decoder source bytes)
  blank_encode c p s := by
    rw [blank_eq, blank_eq]
    exact congrArg (Split.mk (blank c.decoder)) (blank_encode c.encoder p s)
  blank_read c n s := by
    rw [blank_eq, blank_eq]
    exact congrArg (Split.mk (blank c.decoder)) (blank_read c.encoder n s)
  blank_setWaker c w := by
    rw [blank_eq, blank_eq]
    exact congrArg (Split.mk (blank c.decoder)) (blank_setWaker c.encoder w)
  blank_blank c := by
    rw [blank_eq c, blank_eq, blank_blank c.decoder, blank_blank c.encoder]
  quiet c n s h := quiet c.encoder n s h
  pending_blank c s h := by
    rw [blank_eq]
    exact pending_blank c.encoder s fun k hk => h k (List.mem_append_right _ hk)

end Split

namespace CodecState

variable {K : Type} [Compressor K]

instance resets : (c : CodecConfig) → Resets (CodecState K c)
  | .line _ => LineCodec.instResets
  | .json _ => LineCodec.instResets
  | .deflate _ inner => @Deflated.instResets _ _ _ (codec inner) (channeled inner) (resets inner)
  | .delay _ inner => @Delayed.instResets _ (codec inner) (channeled inner) (resets inner)
  | .split decoder encoder =>
    @Split.instResets _ _ (codec decoder) (codec encoder) (channeled encoder) (resets encoder)
      (channeled decoder) (resets decoder)

theorem new_blank {config : LineConfig} {hook : LineHook} {c : LineCodec}
    (h : LineCodec.new config hook = .ok c) : blank c = c := by
  unfold LineCodec.new at h
  cases hv : config.validate with
  | error cause =>
    rw [hv] at h
    cases h
  | ok =>
    rw [hv] at h
    obtain ⟨d, _, h⟩ := bind_eq_ok.mp h
    obtain ⟨f, hf, h⟩ := bind_eq_ok.mp h
    have fresh : f.clear = f := by
      unfold Framer.new at hf
      split at hf
      · cases hf
      · obtain rfl := Except.ok.inj hf
        rfl
    obtain rfl := Except.ok.inj h
    rw [LineCodec.blank_eq, LineCodec.close]
    cases config.maxLineLength with
    | none => exact congrArg (fun framer => LineCodec.mk config hook framer .empty) fresh
    | some limit =>
      exact congrArg (fun framer : Framer =>
        LineCodec.mk config hook (framer.withLimit limit.toNat) .empty) fresh

/-- A codec that was just built has nothing to forget. -/
theorem build_blank {scheduler : Bool} {config : CodecConfig} {key next : Nat}
    {c : CodecState K config} (h : build scheduler config key = .ok (c, next)) : blank c = c := by
  induction config generalizing key next with
  | line config =>
    obtain ⟨codec, hnew, h⟩ := bind_eq_ok.mp h
    cases h
    exact new_blank hnew
  | json config =>
    obtain ⟨codec, hnew, h⟩ := bind_eq_ok.mp h
    cases h
    exact new_blank hnew
  | deflate level inner ih =>
    obtain ⟨⟨codec, key'⟩, hinner, h⟩ := bind_eq_ok.mp h
    cases h
    exact congrArg (fun inner => Deflated.mk inner _ _ _ _) (ih hinner)
  | delay ms inner ih =>
    cases scheduler with
    | false => cases h
    | true =>
      obtain ⟨⟨codec, key'⟩, hinner, h⟩ := bind_eq_ok.mp h
      cases h
      exact (Delayed.blank_eq _).trans (congrArg (fun inner => Delayed.mk inner _ _ _) (ih hinner))
  | split decoder encoder ihd ihe =>
    obtain ⟨⟨d, middle⟩, hd, h⟩ := bind_eq_ok.mp h
    obtain ⟨⟨e, last⟩, he, h⟩ := bind_eq_ok.mp h
    cases h
    exact (Split.blank_eq _).trans (congrArg₂ Split.mk (ihd hd) (ihe he))

end CodecState

namespace CodecTurn

def waker? : CodecTurn → Option Waker
  | setWaker waker => some waker
  | _ => none

/-- Nothing is encoded, and what the worker does meanwhile has nothing to do with some channels. -/
def Quiet (keys : List Nat) : CodecTurn → Prop
  | encode _ => False
  | elapse delays => ∀ k ∈ keys, delays.Idle k
  | _ => True

variable {C : Type} [Codec C] [Channeled C]

/-- Of all that is done to a codec, closing it leaves no more than the wakers it was told. -/
theorem run_blank [Resets C] (turns : List CodecTurn) (r : C × DelayService) :
    blank (run turns r).1 = (turns.filterMap waker?).foldl Codec.setWaker (blank r.1) := by
  induction turns generalizing r with
  | nil => rfl
  | cons turn turns ih =>
    have rest := ih (step r turn)
    cases turn with
    | decode source bytes => exact rest.trans (by rw [step, blank_decode]; rfl)
    | encode packet => exact rest.trans (by rw [step, blank_encode]; rfl)
    | read n => exact rest.trans (by rw [step, blank_read]; rfl)
    | setWaker waker => exact rest.trans (by rw [step, blank_setWaker]; rfl)
    | close => exact rest.trans (by rw [step, close_eq, blank_blank]; rfl)
    | elapse delays => exact rest

/-- The codec has no output, nothing is on its way to it, and closing it would not change that. -/
structure Hushed (r : C × DelayService) : Prop where
  silent : Silent r.1 r.2
  idle : ∀ k ∈ channels r.1, r.2.Idle k
  blank : ∀ s : DelayService, (∀ k ∈ channels r.1, s.Idle k) → Silent (blank r.1) s

theorem Hushed.of_blank {c : C} {s : DelayService} (fixed : Switchboard.blank c = c)
    (idle : ∀ k ∈ channels c, s.Idle k)
    (silent : ∀ s : DelayService, (∀ k ∈ channels c, s.Idle k) → Silent c s) : Hushed (c, s) := by
  refine ⟨silent s idle, idle, ?_⟩
  rw [fixed]
  exact silent

variable [LawfulChanneled C]

theorem step_channels (turn : CodecTurn) (r : C × DelayService) :
    channels (step r turn).1 = channels r.1 := by
  cases turn with
  | decode source bytes => exact decode_channels r.1 source bytes
  | encode packet => exact (encode_confined r.1 packet r.2).own
  | read n => exact (read_confined r.1 n r.2).own
  | setWaker waker => exact setWaker_channels r.1 waker
  | close => exact (close_confined r.1 r.2).own
  | elapse delays => rfl

theorem run_channels (turns : List CodecTurn) (r : C × DelayService) :
    channels (run turns r).1 = channels r.1 := by
  induction turns generalizing r with
  | nil => rfl
  | cons turn turns ih => exact (ih (step r turn)).trans (step_channels turn r)

theorem Hushed.step [Resets C] {r : C × DelayService} (h : Hushed r) {turn : CodecTurn}
    (quiet : turn.Quiet (channels r.1)) : Hushed (step r turn) := by
  cases turn with
  | decode source bytes =>
    refine ⟨decode_silent r.1 r.2 source bytes h.silent, ?_, ?_⟩
    · exact decode_channels r.1 source bytes ▸ h.idle
    · rw [CodecTurn.step, blank_decode, decode_channels]
      exact h.blank
  | encode packet => exact quiet.elim
  | read n =>
    obtain ⟨_, same, silent⟩ := read_silent r.1 n r.2 h.silent
    have own := (read_confined r.1 n r.2).own
    refine ⟨?_, ?_, ?_⟩
    · rw [CodecTurn.step, same]
      exact silent
    · rw [CodecTurn.step, own, same]
      exact h.idle
    · rw [CodecTurn.step, blank_read, own]
      exact h.blank
  | setWaker waker =>
    have own := setWaker_channels r.1 waker
    refine ⟨setWaker_silent r.1 r.2 waker h.silent, own ▸ h.idle, ?_⟩
    rw [CodecTurn.step, blank_setWaker, own]
    exact fun s idle => setWaker_silent _ s waker (h.blank s idle)
  | close =>
    have own := (close_confined r.1 r.2).own
    rw [close_eq] at own
    rw [CodecTurn.step, close_eq]
    have idle : ∀ k ∈ channels (Switchboard.blank r.1), (r.2.emptied (channels r.1)).Idle k :=
      fun k hk => (h.idle k (own ▸ hk)).emptied _
    refine ⟨h.blank _ (own ▸ idle), idle, ?_⟩
    rw [blank_blank, own]
    exact h.blank
  | elapse delays =>
    exact ⟨silent_of_idle r.1 r.2 delays (fun k hk _ => quiet k hk) h.silent, quiet, h.blank⟩

theorem Hushed.run [Resets C] {turns : List CodecTurn} {r : C × DelayService} (h : Hushed r)
    (quiet : ∀ turn ∈ turns, turn.Quiet (channels r.1)) : Hushed (run turns r) := by
  induction turns generalizing r with
  | nil => exact h
  | cons turn turns ih =>
    obtain ⟨first, others⟩ := List.forall_mem_cons.mp quiet
    exact ih (h.step first) (step_channels turn r ▸ others)

end CodecTurn

namespace CodecState

variable {K : Type} [Compressor K]

theorem setWakers_silent {C : Type} [Codec C] [Channeled C] [LawfulChanneled C]
    (wakers : List Waker) {c : C} {s : DelayService} (h : Silent c s) :
    Silent (wakers.foldl Codec.setWaker c) s := by
  induction wakers generalizing c with
  | nil => exact h
  | cons waker wakers ih => exact ih (setWaker_silent c s waker h)

/-- A codec that was just built has no output, whatever it was told and whatever the service has for
others. -/
theorem told_silent {scheduler : Bool} {config : CodecConfig} {key next : Nat}
    {codec : CodecState K config} (hbuilt : build scheduler config key = .ok (codec, next))
    (wakers : List Waker) {s : DelayService} (idle : ∀ k ∈ channels codec, s.Idle k) :
    Silent (wakers.foldl Codec.setWaker codec) s := by
  have fresh : Silent codec {} :=
    (build_fresh hbuilt).2.2 {} fun k _ => ⟨nofun, ⟨nofun, nofun⟩, rfl⟩
  exact setWakers_silent _ (silent_of_idle codec {} s (fun k hk _ => idle k hk) fresh)

/-- Closing a codec leaves it as it was built, told the same wakers, and empties its channels: not a
byte of an open record, of output or of a stream is left, and nothing waits. If the worker has
nothing for it by then, no packet from before shows ever again; what the worker still has, it
keeps. -/
theorem closed_is_as_built {scheduler : Bool} {config : CodecConfig} {key next : Nat}
    {codec : CodecState K config} (hbuilt : build scheduler config key = .ok (codec, next))
    (delays : DelayService) (turns : List CodecTurn) :
    let r := CodecTurn.run turns (codec, delays)
    let closed := Codec.close r.1 r.2
    closed = ((turns.filterMap CodecTurn.waker?).foldl Codec.setWaker codec,
        r.2.emptied (channels codec)) ∧
      (Codec.pending closed.1 closed.2 = false ∧
        ∀ n, (Codec.read closed.1 n closed.2).1 = []) ∧
      ((∀ k ∈ channels codec, r.2.NoneUnderway k) →
        ∀ later, (∀ turn ∈ later, turn.Quiet (channels codec)) →
          let r' := CodecTurn.run later closed
          Codec.pending r'.1 r'.2 = false ∧ ∀ n, (Codec.read r'.1 n r'.2).1 = []) := by
  intro r closed
  have own : channels r.1 = channels codec := CodecTurn.run_channels turns (codec, delays)
  have afresh : blank r.1 = (turns.filterMap CodecTurn.waker?).foldl Codec.setWaker codec := by
    rw [← build_blank hbuilt]
    exact CodecTurn.run_blank turns (codec, delays)
  have hclosed : closed = (blank r.1, r.2.emptied (channels codec)) := own ▸ close_eq r.1 r.2
  have hquiet : Codec.pending closed.1 closed.2 = false := by
    rw [hclosed]
    refine pending_blank r.1 _ fun k hk => ?_
    rw [hasDue, emptied_channel, if_pos (own ▸ hk)]
    rfl
  refine ⟨afresh ▸ hclosed, ⟨hquiet, fun n => quiet closed.1 n closed.2 hquiet⟩,
    fun none_left later hlater => ?_⟩
  have own' : channels (blank r.1) = channels codec := by
    rw [show blank r.1 = closed.1 by rw [hclosed]]
    exact (close_confined r.1 r.2).own.trans own
  have hushed : CodecTurn.Hushed closed := by
    rw [hclosed]
    refine .of_blank (blank_blank r.1) (fun k hk => ?_) fun s idle => ?_
    · exact emptied_idle (own' ▸ hk) (none_left k (own' ▸ hk))
    · rw [afresh]
      exact told_silent hbuilt _ (own' ▸ idle)
  obtain ⟨still, _, _⟩ := hushed.run fun turn hturn => by
    rw [hclosed, own']
    exact hlater turn hturn
  exact ⟨pending_silent _ _ still, fun n => (read_silent _ n _ still).1⟩

/-- A packet that has come back from the worker and the beginning of a record are both dropped. -/
theorem closed_is_as_built_of_open_record :
    let config : CodecConfig := .delay 5 (.line {})
    let elapsed : DelayService :=
      { worker := { now := 5000 }, handover := { channels := [(1, { packets := [⟨"p", .text "a"⟩] })] } }
    let turns : List CodecTurn :=
      [.setWaker 7, .decode "p" [104, 105], .encode ⟨"p", .text "a"⟩, .elapse elapsed]
    ∃ codec : CodecState StoredBlocks config, build true config 1 = .ok (codec, 2) ∧
      let r := CodecTurn.run turns (codec, {})
      let closed := Codec.close r.1 r.2
      Codec.pending r.1 r.2 = true ∧ closed = (Codec.setWaker codec 7, elapsed.emptied [1]) ∧
        (Codec.decode closed.1 "p" [98, 10]).1 = .ok [⟨"p", .text "b"⟩] ∧
        let r' := CodecTurn.run [.decode "p" [98, 10], .elapse { worker := { now := 9000 } }] closed
        Codec.pending r'.1 r'.2 = false ∧ (Codec.read r'.1 8 r'.2).1 = [] := by
  intro config elapsed turns
  have hbuilt : build (K := StoredBlocks) true config 1 = .ok (_, 2) := rfl
  refine ⟨_, hbuilt, ?_⟩
  intro r closed
  obtain ⟨hclosed, _, later⟩ := closed_is_as_built hbuilt {} turns
  have none_left : ∀ k ∈ [1], elapsed.NoneUnderway k := fun k _ => ⟨nofun, ⟨nofun, nofun⟩⟩
  have still := later none_left [.decode "p" [98, 10], .elapse { worker := { now := 9000 } }] (by
    simp only [List.forall_mem_cons]
    exact ⟨trivial, fun k _ => ⟨nofun, ⟨nofun, nofun⟩, rfl⟩, by simp⟩)
  exact ⟨by decide +kernel, hclosed, by cbv, still.1, still.2 8⟩

/-- A packet that is still with the worker when its codec is closed comes back to it, and goes
out. -/
theorem delayed_packet_outlives_close :
    let config : CodecConfig := .delay 250 (.line {})
    ∃ codec : CodecState StoredBlocks config, build true config 1 = .ok (codec, 2) ∧
      let sent := Codec.encode codec ⟨"p", .text "late"⟩ {}
      let closed := Codec.close sent.2.1 sent.2.2
      let later := closed.2.advance 250000
      sent.1 = .ok () ∧ Codec.pending closed.1 closed.2 = false ∧
        Codec.pending closed.1 later = true ∧
        (Codec.read closed.1 64 later).1 = [108, 97, 116, 101, 10] := by
  intro config
  have hbuilt : build (K := StoredBlocks) true config 1 = .ok (_, 2) := rfl
  refine ⟨_, hbuilt, ?_⟩
  exact ⟨rfl, by decide +kernel, by decide +kernel, by decide +kernel⟩

end CodecState

end Switchboard
