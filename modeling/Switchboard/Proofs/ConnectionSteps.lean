import Switchboard.Proofs.Channels
import Switchboard.Proofs.Delivery

namespace Switchboard

namespace Connection

variable {C I H : Type}

/-- What can be done to a connection. -/
inductive Op where
  | write (bytes : Bytes)
  | read (n : Nat)
  | close
  | updateInterest
  | timedOut

section

variable [Codec C] [Handler H]

/-- The packets that are given to the codec to be sent. -/
def encodes (c : Connection C I H) : Op → List Packet
  | .read _ => match c.stages with
    | some st => c.context.replies ++
        (takeBuffered st.handlers { c.context with replies := [] }).1
    | none => []
  | _ => []

theorem encodeEach_append (ps qs : List Packet) (codec : C) (s : DelayService) :
    Codec.encodeEach (ps ++ qs) codec s = Codec.encodeEach qs (Codec.encodeEach ps codec s).1
      (Codec.encodeEach ps codec s).2 := by
  induction ps generalizing codec s with
  | nil => rfl
  | cons p ps ih => exact ih _ _

/-- Those are the packets that a read encodes. -/
theorem flush_encodes {c : Connection C I H} {st : Stages C I H} (hst : c.stages = some st)
    (n : Nat) (s : DelayService) :
    ((flush st c.context s).1.codec, (flush st c.context s).2.2) =
      Codec.encodeEach (c.encodes (.read n)) st.codec s := by
  simp only [encodes, hst, encodeEach_append]
  rfl

omit [Codec C] in
theorem takeBuffered_context (hs : List H) (ctx : Context) :
    ∃ ps, (takeBuffered hs ctx).2.2 = { ctx with replies := ctx.replies ++ ps } := by
  induction hs generalizing ctx with
  | nil => exact ⟨[], by simp [takeBuffered]⟩
  | cons h hs ih =>
    obtain ⟨ps, hps⟩ := ih
      { ctx with replies := ctx.replies ++ (Handler.takeBuffered h ctx.view).replies }
    exact ⟨_, hps.trans (by rw [List.append_assoc])⟩

/-- All replies are encoded; those that wait afterwards were written by handlers meanwhile. -/
theorem flush_context (st : Stages C I H) (ctx : Context) (s : DelayService) :
    ∃ ps, (flush st ctx s).2.1 = { ctx with replies := ps } :=
  takeBuffered_context st.handlers { ctx with replies := [] }

end

section

variable [Codec C] [Inspector I] [Handler H]

def perform (c : Connection C I H) (s : DelayService) :
    Op → Connection C I H × DelayService × Log H
  | .write bytes => (c.write bytes s).2
  | .read n => ((c.read n s).2.1, (c.read n s).2.2, {})
  | .close => c.close s
  | .updateInterest => (c.updateInterest s, s, {})
  | .timedOut => ((c.timedOut s.now).2, s, {})

/-- Nothing comes of what is done to a closed connection. -/
theorem perform_of_closed {c : Connection C I H} {s : DelayService} (hst : c.stages = none)
    (op : Op) : (c.perform s op).1.stages = none ∧ (c.perform s op).1.context = c.context ∧
      (c.perform s op).2.2 = {} := by
  cases op with
  | write bytes => simp [perform, write, hst]
  | read n => simp [perform, read, hst]
  | close => simp [perform, close, hst]
  | updateInterest => simp [perform, updateInterest, hst]
  | timedOut => simp [perform, timedOut, hst]

theorem new_peer (ctx : Context) (codec : C) (inspector : I) (handlers : List H) :
    (Connection.new ctx codec inspector handlers).1.context.peer = ctx.peer := by
  obtain ⟨ps, hps⟩ := callAll_context Handler.active
    (fun h ctx => .activate h ctx.connectionId) handlers
    { ctx with connectionId := Inspector.id inspector }
  simp only [Connection.new, hps]

end

section

variable [Inspector I] [Handler H]

theorem inspectAll_frame (now : Time) (packets : List Packet) (st : Stages C I H)
    (ctx : Context) :
    (inspectAll now packets st ctx).2.1.codec = st.codec ∧
      (inspectAll now packets st ctx).2.2.1.peer = ctx.peer := by
  induction packets generalizing st ctx with
  | nil => exact ⟨rfl, rfl⟩
  | cons p ps ih =>
    obtain ⟨verdict, j, h⟩ : ∃ verdict j, Inspector.inspect st.inspector now p = (verdict, j) :=
      ⟨_, _, rfl⟩
    cases verdict with
    | pass q =>
      obtain ⟨qs, hqs⟩ := callAll_context (fun h v => Handler.read h v q)
        (fun h ctx => .offer h ctx.connectionId q) st.handlers
        { ctx with connectionId := Inspector.id j }
      simp only [inspectAll, h, offerAll, hqs]
      exact ih _ _
    | filter =>
      simp only [inspectAll, h]
      exact ih _ _
    | reject failure => simp [inspectAll, h]

end

/-- The channels of a connection are those of its codec. -/
def channels [Channeled C] (c : Connection C I H) : List Nat :=
  match c.stages with
  | some st => Channeled.channels st.codec
  | none => []

/-- A connection stays at its address and on its channels, and leaves those of others alone. -/
structure Keeps [Channeled C] (c : Connection C I H) (s : DelayService) (c' : Connection C I H)
    (s' : DelayService) : Prop where
  peer : c'.context.peer = c.context.peer
  channels : c'.channels ⊆ c.channels
  others : ∀ k, k ∉ c.channels → s.Idle k → s'.Idle k

section

variable [Channeled C] {c c' c'' : Connection C I H} {s s' s'' : DelayService}

theorem Keeps.refl (c : Connection C I H) (s : DelayService) : Keeps c s c s :=
  ⟨rfl, fun _ h => h, fun _ _ h => h⟩

theorem Keeps.trans (h : Keeps c s c' s') (h' : Keeps c' s' c'' s'') : Keeps c s c'' s'' := by
  refine ⟨h'.peer.trans h.peer, fun k hk => h.channels (h'.channels hk), ?_⟩
  intro k hk hidle
  exact h'.others k (fun hin => hk (h.channels hin)) (h.others k hk hidle)

theorem channels_of_stages {st : Stages C I H} (h : c.stages = some st) :
    c.channels = Channeled.channels st.codec := by simp [channels, h]

theorem keeps_of_codec {st st' : Stages C I H} (h : c.stages = some st)
    (h' : c'.stages = some st') (hp : c'.context.peer = c.context.peer)
    (hc : Confined st.codec s st'.codec s') : Keeps c s c' s' := by
  refine ⟨hp, ?_, ?_⟩
  · rw [channels_of_stages h, channels_of_stages h']
    exact fun k hk => hc.own ▸ hk
  · rw [channels_of_stages h]
    exact hc.others

end

section

variable [Codec C] [Channeled C] [LawfulChanneled C] [Handler H]

open LawfulChanneled

theorem flush_confined (st : Stages C I H) (ctx : Context) (s : DelayService) :
    Confined st.codec s (flush st ctx s).1.codec (flush st ctx s).2.2 :=
  (encodeEach_confined _ _ _).trans (encodeEach_confined _ _ _)

theorem read_keeps (c : Connection C I H) (n : Nat) (s : DelayService) :
    Keeps c s (c.read n s).2.1 (c.read n s).2.2 := by
  cases hst : c.stages with
  | none =>
    simp only [read, hst]
    exact .refl c s
  | some st =>
    obtain ⟨ps, hps⟩ := flush_context st c.context s
    simp only [read, hst, hps]
    exact keeps_of_codec hst rfl rfl ((flush_confined st c.context s).trans (read_confined _ n _))

variable [Inspector I]

theorem close_keeps (c : Connection C I H) (s : DelayService) :
    Keeps c s (c.close s).1 (c.close s).2.1 := by
  cases hst : c.stages with
  | none =>
    simp only [close, hst]
    exact .refl c s
  | some st =>
    obtain ⟨ps, hps⟩ := callAll_context Handler.close (fun h ctx => .closeHandler h ctx.pending)
      st.handlers c.context
    simp only [close, hst, hps]
    refine ⟨rfl, fun _ h => absurd h List.not_mem_nil, ?_⟩
    intro k hk hidle
    rw [channels_of_stages hst] at hk
    exact release_idle _ _ k ((close_confined st.codec s).others k hk hidle)

theorem write_keeps (c : Connection C I H) (bytes : Bytes) (s : DelayService) :
    Keeps c s (c.write bytes s).2.1 (c.write bytes s).2.2.1 := by
  cases hst : c.stages with
  | none =>
    simp only [write, hst]
    exact .refl c s
  | some st =>
    have hdecode := decode_channels st.codec c.id bytes
    have decoded (c' : Connection C I H) (st' : Stages C I H) (h : c'.stages = some st')
        (hp : c'.context.peer = c.context.peer)
        (hcodec : st'.codec = (Codec.decode st.codec c.id bytes).2) : Keeps c s c' s :=
      keeps_of_codec hst h hp (by rw [hcodec]; exact ⟨hdecode, fun _ _ h => h⟩)
    rcases write_cases hst bytes s with ⟨e, codec, hd, hw⟩ |
      ⟨packets, codec, refusal, left, ctx, log, hd, hi, hw⟩
    · rw [hw]
      let c₁ := { c with stages := some { st with codec } }
      exact (decoded c₁ _ rfl rfl (by rw [hd])).trans (close_keeps c₁ s)
    · obtain ⟨hcodec, hpeer⟩ := inspectAll_frame s.now packets { st with codec } c.context
      rw [hi] at hcodec hpeer
      let c₁ := { c with context := ctx, stages := some left }
      have hkeeps : Keeps c s c₁ s := decoded c₁ left rfl hpeer (by rw [hd]; exact hcodec)
      cases refusal with
      | none =>
        rw [hw.1 rfl]
        exact hkeeps
      | some failure =>
        rw [hw.2 failure rfl]
        exact hkeeps.trans (close_keeps c₁ s)

theorem perform_keeps (c : Connection C I H) (s : DelayService) (op : Op) :
    Keeps c s (c.perform s op).1 (c.perform s op).2.1 := by
  cases op with
  | write bytes => exact write_keeps c bytes s
  | read n => exact read_keeps c n s
  | close => exact close_keeps c s
  | updateInterest => exact ⟨rfl, fun _ h => h, fun _ _ h => h⟩
  | timedOut =>
    cases hst : c.stages with
    | none =>
      simp only [perform, timedOut, hst]
      exact .refl c s
    | some st =>
      simp only [perform, timedOut, hst]
      exact keeps_of_codec hst rfl rfl (.refl st.codec s)

theorem new_channels (ctx : Context) (codec : C) (inspector : I) (handlers : List H) :
    (Connection.new ctx codec inspector handlers).1.channels = Channeled.channels codec := by
  simp only [Connection.new, channels]
  cases ctx.waker with
  | none => rfl
  | some w => exact setWaker_channels codec w

end

end Connection

end Switchboard
