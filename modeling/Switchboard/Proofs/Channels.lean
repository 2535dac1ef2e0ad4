import Switchboard.Codec.Built
import Switchboard.Proofs.DelayIdle

namespace Switchboard

/-- The channels on which packets can come back to a codec, and when it has no output at all, now
or on its way. -/
class Channeled (C : Type) where
  channels : C → List Nat
  Silent : C → DelayService → Prop

export Channeled (channels Silent)

/-- The channels of the codec stay the same, and those of others are left alone. -/
structure Confined {C : Type} [Channeled C] (c : C) (s : DelayService) (c' : C)
    (s' : DelayService) : Prop where
  own : channels c' = channels c
  others : ∀ k, k ∉ channels c → s.Idle k → s'.Idle k

class LawfulChanneled (C : Type) [Codec C] [Channeled C] : Prop where
  decode_channels : ∀ (c : C) source bytes,
    channels (Codec.decode c source bytes).2 = channels c
  encode_confined : ∀ (c : C) p s,
    Confined c s (Codec.encode c p s).2.1 (Codec.encode c p s).2.2
  read_confined : ∀ (c : C) n s, Confined c s (Codec.read c n s).2.1 (Codec.read c n s).2.2
  drain_confined : ∀ (c : C) s, Confined c s (Codec.drain c s).2.1 (Codec.drain c s).2.2
  setWaker_channels : ∀ (c : C) w, channels (Codec.setWaker c w) = channels c
  close_confined : ∀ (c : C) s, Confined c s (Codec.close c s).1 (Codec.close c s).2
  release_idle : ∀ (c : C) s k, s.Idle k → (Codec.release c s).Idle k
  decode_silent : ∀ (c : C) s source bytes, Silent c s →
    Silent (Codec.decode c source bytes).2 s
  read_silent : ∀ (c : C) n s, Silent c s →
    (Codec.read c n s).1 = [] ∧ (Codec.read c n s).2.2 = s ∧ Silent (Codec.read c n s).2.1 s
  drain_silent : ∀ (c : C) s, Silent c s →
    (Codec.drain c s).1 = [] ∧ (Codec.drain c s).2.2 = s ∧ Silent (Codec.drain c s).2.1 s
  pending_silent : ∀ (c : C) s, Silent c s → Codec.pending c s = false
  setWaker_silent : ∀ (c : C) s w, Silent c s → Silent (Codec.setWaker c w) s
  silent_of_idle : ∀ (c : C) s s', (∀ k ∈ channels c, s.Idle k → s'.Idle k) → Silent c s →
    Silent c s'

open LawfulChanneled

section

variable {C : Type} [Channeled C] {c c' c'' : C} {s s' s'' : DelayService}

theorem Confined.refl (c : C) (s : DelayService) : Confined c s c s := ⟨rfl, fun _ _ h => h⟩

theorem Confined.trans (h : Confined c s c' s') (h' : Confined c' s' c'' s'') :
    Confined c s c'' s'' := by
  refine ⟨h'.own.trans h.own, ?_⟩
  intro k hk hidle
  exact h'.others k (by rwa [h.own]) (h.others k hk hidle)

theorem encodeEach_confined [Codec C] [LawfulChanneled C] (ps : List Packet) (c : C)
    (s : DelayService) :
    Confined c s (Codec.encodeEach ps c s).1 (Codec.encodeEach ps c s).2 := by
  induction ps generalizing c s with
  | nil => exact .refl c s
  | cons p ps ih => exact (encode_confined c p s).trans (ih _ _)

end

namespace LineCodec

instance instChanneled : Channeled LineCodec where
  channels _ := []
  Silent c _ := c.output.toBytes = []

theorem confined (c c' : LineCodec) (s : DelayService) : Confined c s c' s :=
  ⟨rfl, fun _ _ h => h⟩

instance instLawfulChanneled : LawfulChanneled LineCodec where
  decode_channels _ _ _ := rfl
  encode_confined c p s := by
    simp only [Codec.encode]
    split <;> exact confined ..
  read_confined _ _ _ := confined ..
  drain_confined _ _ := confined ..
  setWaker_channels _ _ := rfl
  close_confined _ _ := confined ..
  release_idle _ _ _ h := h
  decode_silent _ _ _ _ h := h
  read_silent c n s h := by
    have h : c.output.toBytes = [] := h
    simp [Codec.read, LineCodec.read, Silent, h]
  drain_silent _ _ h := ⟨h, rfl, rfl⟩
  pending_silent c _ h := by
    have h : c.output.isEmpty = true := c.output.isEmpty_iff.mpr h
    simp [Codec.pending, LineCodec.pending, h]
  setWaker_silent _ _ _ h := h
  silent_of_idle _ _ _ _ h := h

end LineCodec

namespace Deflated

open Deflate

variable {K C : Type} [Compressor K]

instance instChanneled [Channeled C] : Channeled (Deflated K C) where
  channels c := channels c.inner
  Silent c s := c.output.toBytes = [] ∧ Silent c.inner s

theorem confined_of_inner [Channeled C] {c c' : Deflated K C} {s s' : DelayService}
    (h : Confined c.inner s c'.inner s') : Confined c s c' s' := ⟨h.own, h.others⟩

variable [Codec C]

/-- Input goes to the inner codec and leaves the output alone. -/
theorem inflateAll_inner {P : C → Prop} {source : String}
    (decode : ∀ c bytes, P c → P (Codec.decode c source bytes).2) (c : Deflated K C)
    (input : Bytes) (packets : List Packet) (h : P c.inner) :
    P (c.inflateAll source input packets).2.inner ∧
      (c.inflateAll source input packets).2.output = c.output := by
  have turn {plain : Bytes} {d d' : C} {r : Except Error (List Packet)} (hd : P d)
      (heq : decodePlain source d plain = (r, d')) : P d' := by
    unfold decodePlain at heq
    split at heq
    · cases heq
      exact hd
    · rw [← show (Codec.decode d source plain).2 = d' from congrArg Prod.snd heq]
      exact decode _ _ hd
  fun_induction inflateAll source c input packets with
  | case1 => exact ⟨h, rfl⟩
  | case2 | case3 | case5 | case6 => exact ⟨turn h ‹decodePlain source _ _ = _›, rfl⟩
  | case4 _ _ _ _ _ _ _ _ _ _ _ _ _ ih | case7 _ _ _ _ _ _ _ _ _ _ _ _ _ _ ih =>
    exact ih (turn h ‹decodePlain source _ _ = _›)

variable [Channeled C] [LawfulChanneled C]

theorem compressReads_confined (fuel : Nat) (c : Deflated K C) (s : DelayService) :
    Confined c s (c.compressReads fuel s).2.1 (c.compressReads fuel s).2.2 := by
  induction fuel generalizing c s with
  | zero => exact .refl c s
  | succ fuel ih =>
    have first := read_confined c.inner Inflater.blockSize s
    rcases hread : Codec.read c.inner Inflater.blockSize s with ⟨plain, inner, s'⟩
    rw [hread] at first
    simp only [compressReads, hread]
    split
    · exact confined_of_inner first
    · rcases deflateInto c.compressor plain .none c.output with ⟨_ | _, compressor, output⟩
      · exact confined_of_inner first
      · have here : Confined c s { c with inner, compressor, output } s' :=
          confined_of_inner first
        exact here.trans (ih _ _)

theorem collect_confined (c : Deflated K C) (s : DelayService) :
    Confined c s (c.collect s).1 (c.collect s).2 := by
  have all := compressReads_confined ((Codec.drain c.inner s).1.length + 1) c s
  unfold collect
  rcases hreads : c.compressReads ((Codec.drain c.inner s).1.length + 1) s with ⟨_ | _ | _, c', s'⟩
  all_goals
    rw [hreads] at all
    exact ⟨all.own, all.others⟩

theorem collect_silent {c : Deflated K C} {s : DelayService} (h : Silent c s) :
    (c.collect s).2 = s ∧ Silent (c.collect s).1 s := by
  obtain ⟨hout, hinner⟩ := h
  obtain ⟨hnil, hsame, hsilent⟩ := read_silent c.inner Inflater.blockSize s hinner
  have none (fuel : Nat) : c.compressReads (fuel + 1) s =
      (some false, { c with inner := (Codec.read c.inner Inflater.blockSize s).2.1 }, s) := by
    rw [compressReads]
    simp [hnil, hsame]
  rw [collect, none]
  exact ⟨rfl, hout, hsilent⟩

instance instLawfulChanneled : LawfulChanneled (Deflated K C) where
  decode_channels c source bytes :=
    (inflateAll_inner (P := fun d => channels d = channels c.inner)
      (fun d bytes h => (decode_channels d source bytes).trans h) c bytes [] rfl).1
  encode_confined c p s := confined_of_inner (encode_confined c.inner p s)
  read_confined c _ s := (collect_confined c s).trans (confined_of_inner (.refl _ _))
  drain_confined c s := (collect_confined c s).trans (confined_of_inner (.refl _ _))
  setWaker_channels c w := setWaker_channels c.inner w
  close_confined c s := confined_of_inner (close_confined c.inner s)
  release_idle c := release_idle c.inner
  decode_silent c s source bytes h := by
    obtain ⟨hinner, hout⟩ := inflateAll_inner (P := fun d => Silent d s)
      (fun d bytes h => decode_silent d s source bytes h) c bytes [] h.2
    exact ⟨(congrArg Outbox.toBytes hout).trans h.1, hinner⟩
  read_silent c n s h := by
    obtain ⟨hsame, hout, hinner⟩ := collect_silent h
    refine ⟨?_, hsame, ?_, hinner⟩
    · simp [Codec.read, hout]
    · simp [Codec.read, hout]
  drain_silent c s h := by
    obtain ⟨hsame, hout, hinner⟩ := collect_silent h
    exact ⟨hout, hsame, rfl, hinner⟩
  pending_silent c s h := by
    have hout : c.output.isEmpty = true := c.output.isEmpty_iff.mpr h.1
    simp [Codec.pending, hout, pending_silent c.inner s h.2]
  setWaker_silent c s w h := ⟨h.1, setWaker_silent c.inner s w h.2⟩
  silent_of_idle c s s' hidle h := ⟨h.1, silent_of_idle c.inner s s' hidle h.2⟩

end Deflated

namespace Delayed

variable {C : Type} [Channeled C]

instance instChanneled : Channeled (Delayed C) where
  channels c := c.key :: channels c.inner
  Silent c s := s.Idle c.key ∧ Silent c.inner s

/-- What is true of the inner codec is true of the whole, up to its own channel. -/
theorem confined_of_inner {c c' : Delayed C} {s s' : DelayService} (key : c'.key = c.key)
    (h : Confined c.inner s c'.inner s') : Confined c s c' s' := by
  refine ⟨?_, fun k hk => h.others k fun hin => hk (List.mem_cons_of_mem _ hin)⟩
  exact (congrArg (· :: channels c'.inner) key).trans (congrArg (List.cons c.key) h.own)

variable [Codec C]

theorem takeDue_silent {c : Delayed C} {s : DelayService} (h : Silent c s) :
    c.takeDue s = (c, s) := by
  simp [takeDue, h.1.takeDue_eq, Codec.encodeEach]

variable [LawfulChanneled C]

theorem takeDue_confined (c : Delayed C) (s : DelayService) :
    Confined c s (c.takeDue s).1 (c.takeDue s).2 := by
  obtain ⟨hown, hothers⟩ := encodeEach_confined (s.takeDue c.key).1 c.inner (s.takeDue c.key).2
  refine ⟨congrArg (List.cons c.key) hown, ?_⟩
  intro k hk hidle
  exact hothers k (fun hin => hk (List.mem_cons_of_mem _ hin)) (hidle.takeDue c.key)

instance instLawfulChanneled : LawfulChanneled (Delayed C) where
  decode_channels c source bytes :=
    congrArg (List.cons c.key) (decode_channels c.inner source bytes)
  encode_confined c p s := by
    refine ⟨rfl, ?_⟩
    intro k hk hidle
    exact hidle.submit (fun hkey => hk (hkey ▸ List.mem_cons_self)) c.delay p
  read_confined c n s := (takeDue_confined c s).trans
    (confined_of_inner rfl (read_confined (c.takeDue s).1.inner n (c.takeDue s).2))
  drain_confined c s := (takeDue_confined c s).trans
    (confined_of_inner rfl (drain_confined (c.takeDue s).1.inner (c.takeDue s).2))
  setWaker_channels c w := congrArg (List.cons c.key) (setWaker_channels c.inner w)
  close_confined c s := by
    obtain ⟨hown, hothers⟩ := close_confined c.inner (s.takeDue c.key).2
    refine ⟨congrArg (List.cons c.key) hown, ?_⟩
    intro k hk hidle
    exact hothers k (fun hin => hk (List.mem_cons_of_mem _ hin)) (hidle.takeDue c.key)
  release_idle c s k hidle := release_idle c.inner _ k (hidle.disconnect c.key)
  decode_silent c s source bytes h := ⟨h.1, decode_silent c.inner s source bytes h.2⟩
  read_silent c n s h := by
    obtain ⟨hnil, hsame, hinner⟩ := read_silent c.inner n s h.2
    simp only [Codec.read, takeDue_silent h]
    exact ⟨hnil, hsame, h.1, hinner⟩
  drain_silent c s h := by
    obtain ⟨hnil, hsame, hinner⟩ := drain_silent c.inner s h.2
    simp only [Codec.drain, takeDue_silent h]
    exact ⟨hnil, hsame, h.1, hinner⟩
  pending_silent c s h := by
    simp [Codec.pending, h.1.hasDue, pending_silent c.inner s h.2]
  setWaker_silent c s w h := ⟨h.1, setWaker_silent c.inner s w h.2⟩
  silent_of_idle c s s' hidle h := by
    refine ⟨hidle c.key List.mem_cons_self h.1, ?_⟩
    exact silent_of_idle c.inner s s' (fun k hk => hidle k (List.mem_cons_of_mem _ hk)) h.2

end Delayed

namespace Split

variable {D E : Type} [Channeled D] [Channeled E]

instance instChanneled : Channeled (Split D E) where
  channels c := channels c.decoder ++ channels c.encoder
  Silent c s := Silent c.encoder s

theorem confined_of_encoder {c : Split D E} {e' : E} {s s' : DelayService}
    (h : Confined c.encoder s e' s') : Confined c s { c with encoder := e' } s' :=
  ⟨congrArg (channels c.decoder ++ ·) h.own,
    fun k hk => h.others k fun hin => hk (List.mem_append_right _ hin)⟩

theorem confined_of_decoder {c : Split D E} {d' : D} {s s' : DelayService}
    (h : Confined c.decoder s d' s') : Confined c s { c with decoder := d' } s' :=
  ⟨congrArg (· ++ channels c.encoder) h.own,
    fun k hk => h.others k fun hin => hk (List.mem_append_left _ hin)⟩

instance instLawfulChanneled [Codec D] [Codec E] [LawfulChanneled D] [LawfulChanneled E] :
    LawfulChanneled (Split D E) where
  decode_channels c source bytes :=
    congrArg (· ++ channels c.encoder) (decode_channels c.decoder source bytes)
  encode_confined c p s := confined_of_encoder (encode_confined c.encoder p s)
  read_confined c n s := confined_of_encoder (read_confined c.encoder n s)
  drain_confined c s := confined_of_encoder (drain_confined c.encoder s)
  setWaker_channels c w := congrArg (channels c.decoder ++ ·) (setWaker_channels c.encoder w)
  close_confined c s := (confined_of_decoder (close_confined c.decoder s)).trans
    (confined_of_encoder (close_confined c.encoder _))
  release_idle c s k hidle := release_idle c.encoder _ k (release_idle c.decoder s k hidle)
  decode_silent _ _ _ _ h := h
  read_silent c n s h := read_silent c.encoder n s h
  drain_silent c s h := drain_silent c.encoder s h
  pending_silent c s h := pending_silent c.encoder s h
  setWaker_silent c s w h := setWaker_silent c.encoder s w h
  silent_of_idle c s s' hidle h :=
    silent_of_idle c.encoder s s' (fun k hk => hidle k (List.mem_append_right _ hk)) h

end Split

namespace CodecState

variable {K : Type} [Deflate.Compressor K]

instance channeled : (c : CodecConfig) → Channeled (CodecState K c)
  | .line _ => LineCodec.instChanneled
  | .json _ => LineCodec.instChanneled
  | .deflate _ inner => @Deflated.instChanneled _ _ _ (channeled inner)
  | .delay _ inner => @Delayed.instChanneled _ (channeled inner)
  | .split decoder encoder =>
    @Split.instChanneled _ _ (channeled decoder) (channeled encoder)

instance lawfulChanneled : (c : CodecConfig) → LawfulChanneled (CodecState K c)
  | .line _ => LineCodec.instLawfulChanneled
  | .json _ => LineCodec.instLawfulChanneled
  | .deflate _ inner =>
    @Deflated.instLawfulChanneled _ _ _ (codec inner) (channeled inner) (lawfulChanneled inner)
  | .delay _ inner =>
    @Delayed.instLawfulChanneled _ (channeled inner) (codec inner) (lawfulChanneled inner)
  | .split decoder encoder =>
    @Split.instLawfulChanneled _ _ (channeled decoder) (channeled encoder) (codec decoder)
      (codec encoder) (lawfulChanneled decoder) (lawfulChanneled encoder)

theorem new_output {config : LineConfig} {hook : LineHook} {c : LineCodec}
    (h : LineCodec.new config hook = .ok c) : c.output = .empty := by
  unfold LineCodec.new at h
  cases hv : config.validate with
  | error cause =>
    rw [hv] at h
    cases h
  | ok =>
    rw [hv] at h
    obtain ⟨_, _, h⟩ := bind_eq_ok.mp h
    obtain ⟨_, _, h⟩ := bind_eq_ok.mp h
    cases h
    rfl

/-- A codec is built silent, on channels no one else has. -/
theorem build_fresh {scheduler : Bool} {config : CodecConfig} {key next : Nat}
    {c : CodecState K config} (h : build scheduler config key = .ok (c, next)) :
    key ≤ next ∧ (∀ k ∈ channels c, key ≤ k ∧ k < next) ∧
      ∀ s : DelayService, (∀ k, key ≤ k → s.Idle k) → Silent c s := by
  induction config generalizing key next with
  | line config =>
    obtain ⟨codec, hnew, h⟩ := bind_eq_ok.mp h
    cases h
    refine ⟨Nat.le_refl _, fun k hk => absurd hk List.not_mem_nil, fun s _ => ?_⟩
    exact congrArg Outbox.toBytes (new_output hnew)
  | json config =>
    obtain ⟨codec, hnew, h⟩ := bind_eq_ok.mp h
    cases h
    refine ⟨Nat.le_refl _, fun k hk => absurd hk List.not_mem_nil, fun s _ => ?_⟩
    exact congrArg Outbox.toBytes (new_output hnew)
  | deflate level inner ih =>
    obtain ⟨⟨codec, key'⟩, hinner, h⟩ := bind_eq_ok.mp h
    cases h
    obtain ⟨hle, hown, hsilent⟩ := ih hinner
    exact ⟨hle, hown, fun s hidle => ⟨rfl, hsilent s hidle⟩⟩
  | delay ms inner ih =>
    cases scheduler with
    | false => cases h
    | true =>
      obtain ⟨⟨codec, key'⟩, hinner, h⟩ := bind_eq_ok.mp h
      cases h
      obtain ⟨hle, hown, hsilent⟩ := ih hinner
      refine ⟨by omega, ?_, ?_⟩
      · intro k hk
        rcases List.mem_cons.mp hk with rfl | hk
        · exact ⟨Nat.le_refl _, hle⟩
        · have := hown k hk
          omega
      · intro s hidle
        exact ⟨hidle key (Nat.le_refl _), hsilent s fun k hk => hidle k (by omega)⟩
  | split decoder encoder ihd ihe =>
    obtain ⟨⟨d, middle⟩, hd, h⟩ := bind_eq_ok.mp h
    obtain ⟨⟨e, last⟩, he, h⟩ := bind_eq_ok.mp h
    cases h
    obtain ⟨hled, hownd, _⟩ := ihd hd
    obtain ⟨hlee, howne, hsilent⟩ := ihe he
    refine ⟨Nat.le_trans hled hlee, ?_, ?_⟩
    · intro k hk
      rcases List.mem_append.mp hk with hk | hk
      · have := hownd k hk
        omega
      · have := howne k hk
        omega
    · intro s hidle
      exact hsilent s fun k hk => hidle k (Nat.le_trans hled hk)

end CodecState

namespace BuiltCodec

instance instChanneled : Channeled BuiltCodec where
  channels c := channels c.state
  Silent c s := Silent c.state s

theorem confined_of_state {c : BuiltCodec}
    {state : CodecState Deflate.StoredBlocks c.config} {s s' : DelayService}
    (h : Confined c.state s state s') : Confined c s { c with state } s' := ⟨h.own, h.others⟩

instance instLawfulChanneled : LawfulChanneled BuiltCodec where
  decode_channels c := decode_channels c.state
  encode_confined c p s := confined_of_state (encode_confined c.state p s)
  read_confined c n s := confined_of_state (read_confined c.state n s)
  drain_confined c s := confined_of_state (drain_confined c.state s)
  setWaker_channels c := setWaker_channels c.state
  close_confined c s := confined_of_state (close_confined c.state s)
  release_idle c := release_idle c.state
  decode_silent c := decode_silent c.state
  read_silent c := read_silent c.state
  drain_silent c := drain_silent c.state
  pending_silent c := pending_silent c.state
  setWaker_silent c := setWaker_silent c.state
  silent_of_idle c := silent_of_idle c.state

theorem build_fresh {scheduler : Bool} {config : CodecConfig} {key next : Nat} {c : BuiltCodec}
    (h : build config scheduler key = .ok (c, next)) :
    key ≤ next ∧ (∀ k ∈ channels c, key ≤ k ∧ k < next) ∧
      ∀ s : DelayService, (∀ k, key ≤ k → s.Idle k) → Silent c s := by
  obtain ⟨⟨state, key'⟩, hstate, h⟩ := bind_eq_ok.mp h
  cases h
  exact CodecState.build_fresh hstate

end BuiltCodec

end Switchboard
