import Switchboard.Proofs.Channels
import Switchboard.Proofs.CompressorSession

namespace Switchboard

open Deflate

namespace DelayService

/-- No channel that was empty has a packet now. -/
def Calm (s s' : DelayService) : Prop := ∀ k, s.hasDue k = false → s'.hasDue k = false

variable {s s' s'' : DelayService}

theorem Calm.refl (s : DelayService) : s.Calm s := fun _ h => h

theorem Calm.trans (h : s.Calm s') (h' : s'.Calm s'') : s.Calm s'' := fun k hk => h' k (h k hk)

theorem takeDue_hasDue (s : DelayService) (key k : Nat) :
    (s.takeDue key).2.hasDue k = if k = key then false else s.hasDue k := by
  by_cases hempty : (s.handover.channel key).packets.isEmpty = true
  · by_cases hk : k = key <;> simp [takeDue, hempty, hasDue, hk]
  · by_cases hk : k = key <;> simp [takeDue, hempty, hasDue, Handover.channel_setChannel, hk]

theorem takeDue_calm (s : DelayService) (key : Nat) : s.Calm (s.takeDue key).2 := by
  intro k hk
  rw [takeDue_hasDue]
  split
  · rfl
  · exact hk

theorem submit_calm (s : DelayService) (delay : Nat) (p : Packet) (sink : DelaySink) :
    s.Calm (s.submit delay p sink).2 := fun _ h => h

theorem takeDue_of_not_hasDue {key : Nat} (h : s.hasDue key = false) : s.takeDue key = ([], s) := by
  have hempty : (s.handover.channel key).packets.isEmpty = true := by simpa [hasDue] using h
  simp [takeDue, hempty]

end DelayService

open DelayService

/-- Codecs whose output comes to an end: what waits is seen from the outside, a read that yields
nothing leaves nothing waiting, and reads take what there is piece by piece. All of that is meant
for codecs of which `Sound` holds, which nothing done to them changes. -/
structure Drains {C : Type} [Codec C] (Sound : C → Prop) : Prop where
  decode : ∀ {c} source bytes, Sound c → Sound (Codec.decode c source bytes).2
  encode : ∀ {c} p s, Sound c → Sound (Codec.encode c p s).2.1
  encode_calm : ∀ (c : C) p (s : DelayService), s.Calm (Codec.encode c p s).2.2
  read : ∀ {c} n s, Sound c → Sound (Codec.read c n s).2.1
  read_calm : ∀ {c} n (s : DelayService), Sound c → s.Calm (Codec.read c n s).2.2
  setWaker : ∀ {c} w, Sound c → Sound (Codec.setWaker c w)
  close : ∀ {c} s, Sound c → Sound (Codec.close c s).1
  quiet : ∀ {c} n s, Sound c → Codec.pending c s = false → (Codec.read c n s).1 = []
  drained : ∀ {c} n s, Sound c → 0 < n ∨ Codec.pending c s = false → (Codec.read c n s).1 = [] →
    Codec.pending (Codec.read c n s).2.1 (Codec.read c n s).2.2 = false
  account : ∀ {c} n s, Sound c → (Codec.drain c s).1 = (Codec.read c n s).1 ++
    (Codec.drain (Codec.read c n s).2.1 (Codec.read c n s).2.2).1

namespace Drains

variable {C : Type} [Codec C] {Sound : C → Prop}

theorem encodeEach (h : Drains Sound) (ps : List Packet) {c : C} (s : DelayService)
    (hc : Sound c) :
    Sound (Codec.encodeEach ps c s).1 ∧ s.Calm (Codec.encodeEach ps c s).2 := by
  induction ps generalizing c s with
  | nil => exact ⟨hc, .refl s⟩
  | cons p ps ih =>
    obtain ⟨hsound, hcalm⟩ := ih (Codec.encode c p s).2.2 (h.encode p s hc)
    exact ⟨hsound, (h.encode_calm c p s).trans hcalm⟩

end Drains

namespace LineCodec

theorem drains : Drains fun _ : LineCodec => True where
  decode _ _ _ := trivial
  encode _ _ _ := trivial
  encode_calm c p s := by
    simp only [Codec.encode]
    split <;> exact .refl s
  read _ _ _ := trivial
  read_calm _ s _ := .refl s
  setWaker _ _ := trivial
  close _ _ := trivial
  quiet {c} n s _ h := by
    have hnone : c.output.toBytes = [] := by
      rw [← Outbox.isEmpty_iff]
      simpa [Codec.pending, LineCodec.pending] using h
    simp [Codec.read, LineCodec.read, hnone]
  drained {c} n s _ hn h := by
    have hnone : c.output.toBytes = [] := by
      rcases hn with hn | hn
      · have hn0 : n ≠ 0 := Nat.ne_of_gt hn
        simpa [Codec.read, LineCodec.read, hn0] using h
      · rw [← Outbox.isEmpty_iff]
        simpa [Codec.pending, LineCodec.pending] using hn
    have hleft : (c.output.read n).2.isEmpty = true := by
      rw [Outbox.isEmpty_iff, Outbox.toBytes_read, hnone, List.drop_nil]
    simp [Codec.pending, Codec.read, LineCodec.pending, LineCodec.read, hleft]
  account {c} n s _ := by simp [Codec.drain, Codec.read, LineCodec.drain, LineCodec.read]

end LineCodec

namespace Split

variable {D E : Type} [Codec D] [Codec E] {Sound : E → Prop}

/-- Only the codec for what goes out matters. -/
theorem drains (h : Drains Sound) : Drains fun c : Split D E => Sound c.encoder where
  decode _ _ hc := hc
  encode p s hc := h.encode p s hc
  encode_calm c p s := h.encode_calm c.encoder p s
  read n s hc := h.read n s hc
  read_calm n s hc := h.read_calm n s hc
  setWaker w hc := h.setWaker w hc
  close {c} s hc := h.close (Codec.close c.decoder s).2 hc
  quiet n s hc hp := h.quiet n s hc hp
  drained n s hc hn hr := h.drained n s hc hn hr
  account n s hc := h.account n s hc

end Split

namespace Delayed

variable {C : Type} [Codec C] {Sound : C → Prop}

theorem takeDue_sound (h : Drains Sound) {c : Delayed C} (s : DelayService) (hc : Sound c.inner) :
    Sound (c.takeDue s).1.inner ∧ s.Calm (c.takeDue s).2 ∧
      (c.takeDue s).2.hasDue c.key = false := by
  obtain ⟨hsound, hcalm⟩ := h.encodeEach (s.takeDue c.key).1 (s.takeDue c.key).2 hc
  refine ⟨hsound, (takeDue_calm s c.key).trans hcalm, hcalm c.key ?_⟩
  rw [takeDue_hasDue, if_pos rfl]

theorem takeDue_of_not_hasDue {c : Delayed C} {s : DelayService} (h : s.hasDue c.key = false) :
    c.takeDue s = (c, s) := by
  rw [takeDue, DelayService.takeDue_of_not_hasDue h]
  rfl

theorem drains (h : Drains Sound) : Drains fun c : Delayed C => Sound c.inner where
  decode {c} source bytes hc := h.decode source bytes hc
  encode _ _ hc := hc
  encode_calm c p s := submit_calm s c.delay p _
  read {c} n s hc := h.read n _ (takeDue_sound h s hc).1
  read_calm {c} n s hc := by
    obtain ⟨hsound, hcalm, _⟩ := takeDue_sound h s hc
    exact hcalm.trans (h.read_calm n _ hsound)
  setWaker w hc := h.setWaker w hc
  close {c} s hc := h.close (s.takeDue c.key).2 hc
  quiet {c} n s hc hp := by
    obtain ⟨hdue, hinner⟩ := Bool.or_eq_false_iff.mp hp
    simp only [Codec.read, takeDue_of_not_hasDue hdue]
    exact h.quiet n s hc hinner
  drained {c} n s hc hn hr := by
    obtain ⟨hsound, _, hdue⟩ := takeDue_sound h s hc
    have hn' : 0 < n ∨ Codec.pending (c.takeDue s).1.inner (c.takeDue s).2 = false := by
      refine hn.imp id fun hp => ?_
      obtain ⟨hnone, hinner⟩ := Bool.or_eq_false_iff.mp hp
      rwa [takeDue_of_not_hasDue hnone]
    exact Bool.or_eq_false_iff.mpr
      ⟨h.read_calm n _ hsound c.key hdue, h.drained n _ hsound hn' hr⟩
  account {c} n s hc := by
    obtain ⟨hsound, _, hdue⟩ := takeDue_sound h s hc
    have hstill := h.read_calm n (c.takeDue s).2 hsound c.key hdue
    -- No packet arrives in between, so a second read finds the mailbox empty.
    have hagain : (Codec.read c n s).2.1.takeDue (Codec.read c n s).2.2 =
        ((Codec.read c n s).2.1, (Codec.read c n s).2.2) := takeDue_of_not_hasDue hstill
    have hdrain : (Codec.drain (Codec.read c n s).2.1 (Codec.read c n s).2.2).1 =
        (Codec.drain (Codec.read c n s).2.1.inner (Codec.read c n s).2.2).1 := by
      simp only [Codec.drain, hagain]
    rw [hdrain]
    exact h.account n _ hsound

end Delayed

namespace Deflated

variable {K C : Type} [Compressor K] [Codec C] {Sound : C → Prop}

/-- A sound codec behind a compressor in the middle of a stream with nothing due. -/
structure SoundBehind (Sound : C → Prop) (c : Deflated K C) : Prop where
  level : c.level ≤ 9
  resting : Resting c.compressor
  inner : Sound c.inner

theorem resting_start {level : Nat} (h : level ≤ 9) :
    Resting (Compressor.start level : K) := ⟨[], [], .start h⟩

/-- Input does not reach the compressor. -/
theorem inflateAll_compressor (source : String) (c : Deflated K C) (input : Bytes)
    (packets : List Packet) :
    (c.inflateAll source input packets).2.compressor = c.compressor ∧
      (c.inflateAll source input packets).2.level = c.level := by
  fun_induction inflateAll source c input packets with
  | case1 | case2 | case3 | case5 | case6 => exact ⟨rfl, rfl⟩
  | case4 _ _ _ _ _ _ _ _ _ _ _ _ _ ih | case7 _ _ _ _ _ _ _ _ _ _ _ _ _ _ ih => exact ih

/-- Without output of the inner codec there is nothing to compress. -/
theorem collect_of_read_nil {c : Deflated K C} {s : DelayService}
    (hread : (Codec.read c.inner Inflater.blockSize s).1 = []) :
    (c.collect s).1.output = c.output := by
  have nothing (fuel : Nat) : c.compressReads (fuel + 1) s =
      (some false, { c with inner := (Codec.read c.inner Inflater.blockSize s).2.1 },
        (Codec.read c.inner Inflater.blockSize s).2.2) := by
    simp [compressReads, hread]
  rw [collect, nothing]

theorem collect_quiet (h : Drains Sound) {c : Deflated K C} {s : DelayService}
    (hc : Sound c.inner) (hp : Codec.pending c.inner s = false) :
    (c.collect s).1.output = c.output :=
  collect_of_read_nil (h.quiet Inflater.blockSize s hc hp)

variable [UnfailingCompressor K]

theorem compressReads_drained (h : Drains Sound) (fuel : Nat) {c : Deflated K C} (s : DelayService)
    (hc : SoundBehind Sound c) (enough : (Codec.drain c.inner s).1.length < fuel) :
    ∃ any c' s', c.compressReads fuel s = (some any, c', s') ∧ SoundBehind Sound c' ∧ s.Calm s' ∧
      Codec.pending c'.inner s' = false := by
  have room : 0 < Inflater.blockSize := by decide
  -- The fuel exceeds what is left, and every read but the last leaves less.
  induction fuel generalizing c s with
  | zero => exact absurd enough (Nat.not_lt_zero _)
  | succ fuel ih =>
    have hsound := h.read Inflater.blockSize s hc.inner
    have hcalm := h.read_calm Inflater.blockSize s hc.inner
    have hdrained := h.drained Inflater.blockSize s hc.inner (.inl room)
    have haccount := h.account Inflater.blockSize s hc.inner
    rcases hread : Codec.read c.inner Inflater.blockSize s with ⟨plain, inner, s'⟩
    rw [hread] at hsound hcalm hdrained haccount
    by_cases none : plain = []
    · subst none
      refine ⟨false, { c with inner }, s', ?_, ⟨hc.level, hc.resting, hsound⟩, hcalm, hdrained rfl⟩
      simp [compressReads, hread]
    · obtain ⟨hok, hresting⟩ := hc.resting.deflateInto plain .none c.output
      rcases hdeflate : deflateInto c.compressor plain .none c.output with ⟨ok, compressor, output⟩
      rw [hdeflate] at hok hresting
      obtain rfl : ok = true := hok
      have fewer : (Codec.drain inner s').1.length < fuel := by
        have some : 0 < plain.length := List.length_pos_iff.mpr none
        have all : (Codec.drain c.inner s).1.length =
            plain.length + (Codec.drain inner s').1.length := by
          rw [haccount, List.length_append]
        omega
      obtain ⟨any, c', s'', hreads, hc', hcalm', hp⟩ :=
        ih (c := { c with inner, compressor, output }) s' ⟨hc.level, hresting, hsound⟩ fewer
      refine ⟨true, c', s'', ?_, hc', hcalm.trans hcalm', hp⟩
      have something : plain.isEmpty = false := by simpa using none
      simp [compressReads, hread, something, hdeflate, hreads]

/-- Compressing leaves nothing in the inner codec. -/
theorem collect_drained (h : Drains Sound) {c : Deflated K C} (s : DelayService)
    (hc : SoundBehind Sound c) :
    SoundBehind Sound (c.collect s).1 ∧ s.Calm (c.collect s).2 ∧
      Codec.pending (c.collect s).1.inner (c.collect s).2 = false := by
  obtain ⟨any, c', s', hreads, hc', hcalm, hp⟩ := compressReads_drained h
    ((Codec.drain c.inner s).1.length + 1) s hc (Nat.lt_succ_self _)
  cases any with
  | false =>
    rw [collect, hreads]
    exact ⟨hc', hcalm, hp⟩
  | true =>
    have hresting := (hc'.resting.deflateInto [] .sync c'.output).2
    rw [collect, hreads]
    exact ⟨⟨hc'.level, hresting, hc'.inner⟩, hcalm, hp⟩

theorem drains (h : Drains Sound) : Drains (SoundBehind (K := K) Sound) where
  decode {c} source bytes hc := by
    obtain ⟨hcompressor, hlevel⟩ := inflateAll_compressor source c bytes []
    refine ⟨?_, ?_, (inflateAll_inner (fun _ bytes => h.decode source bytes) c bytes [] hc.inner).1⟩
    · exact hlevel ▸ hc.level
    · exact hcompressor ▸ hc.resting
  encode p s hc := ⟨hc.level, hc.resting, h.encode p s hc.inner⟩
  encode_calm c p s := h.encode_calm c.inner p s
  read n s hc := by
    obtain ⟨hc', _⟩ := collect_drained h s hc
    exact ⟨hc'.level, hc'.resting, hc'.inner⟩
  read_calm n s hc := (collect_drained h s hc).2.1
  setWaker w hc := ⟨hc.level, hc.resting, h.setWaker w hc.inner⟩
  close s hc := ⟨hc.level, resting_start hc.level, h.close s hc.inner⟩
  quiet {c} n s hc hp := by
    obtain ⟨hout, hinner⟩ := Bool.or_eq_false_iff.mp hp
    have hnone : c.output.toBytes = [] := by
      rw [← Outbox.isEmpty_iff]
      simpa using hout
    simp [Codec.read, collect_quiet h hc.inner hinner, hnone]
  drained {c} n s hc hn hr := by
    obtain ⟨_, _, hinner⟩ := collect_drained h s hc
    have hnone : (c.collect s).1.output.toBytes = [] := by
      rcases hn with hn | hp
      · have hn0 : n ≠ 0 := Nat.ne_of_gt hn
        simpa [Codec.read, hn0] using hr
      · obtain ⟨hout, hquiet⟩ := Bool.or_eq_false_iff.mp hp
        rw [collect_quiet h hc.inner hquiet, ← Outbox.isEmpty_iff]
        simpa using hout
    have hleft : ((c.collect s).1.output.read n).2.isEmpty = true := by
      rw [Outbox.isEmpty_iff, Outbox.toBytes_read, hnone, List.drop_nil]
    simp [Codec.pending, Codec.read, hleft, hinner]
  account {c} n s hc := by
    obtain ⟨hc', _, hinner⟩ := collect_drained h s hc
    have hagain := collect_quiet h
      (c := { (c.collect s).1 with output := ((c.collect s).1.output.read n).2 }) hc'.inner hinner
    simp [Codec.drain, Codec.read, hagain]

end Deflated

namespace CodecState

variable {K : Type} [Compressor K]

/-- The compressors of a codec are in the middle of streams. -/
def Sound : (config : CodecConfig) → CodecState K config → Prop
  | .line _, _ => True
  | .json _, _ => True
  | .deflate _ inner, c => Deflated.SoundBehind (Sound inner) c
  | .delay _ inner, c => Sound inner (Delayed.inner c)
  | .split _ encoder, c => Sound encoder (Split.encoder c)

theorem drains [UnfailingCompressor K] (config : CodecConfig) :
    Drains (Sound (K := K) config) := by
  induction config with
  | line config => exact LineCodec.drains
  | json config => exact LineCodec.drains
  | deflate level inner ih => exact Deflated.drains ih
  | delay ms inner ih => exact Delayed.drains ih
  | split decoder encoder _ ih => exact Split.drains ih

theorem build_sound {scheduler : Bool} {config : CodecConfig} {key next : Nat}
    {c : CodecState K config} (h : build scheduler config key = .ok (c, next)) :
    Sound config c := by
  induction config generalizing key next with
  | line config => trivial
  | json config => trivial
  | deflate level inner ih =>
    obtain ⟨⟨codec, key'⟩, hinner, h⟩ := bind_eq_ok.mp h
    cases h
    have hlevel := CodecConfig.min_greatestLevel level
    exact ⟨hlevel, Deflated.resting_start hlevel, ih hinner⟩
  | delay ms inner ih =>
    cases scheduler with
    | false => cases h
    | true =>
      obtain ⟨⟨codec, key'⟩, hinner, h⟩ := bind_eq_ok.mp h
      cases h
      exact ih hinner
  | split decoder encoder ihd ihe =>
    obtain ⟨⟨d, middle⟩, hd, h⟩ := bind_eq_ok.mp h
    obtain ⟨⟨e, last⟩, he, h⟩ := bind_eq_ok.mp h
    cases h
    exact ihe he

end CodecState

end Switchboard
