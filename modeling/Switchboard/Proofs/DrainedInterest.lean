import Switchboard.Handler.Standard
import Switchboard.Handler.Sum
import Switchboard.Proofs.ConnectionSteps
import Switchboard.Proofs.DrainedCodecs
import Switchboard.Proofs.RoomTalk
import Switchboard.Proofs.StoredStream

namespace Switchboard

open Deflate

/-- What can be done to a codec. In between, the worker that delays output does anything. -/
inductive CodecTurn where
  | decode (source : String) (bytes : Bytes)
  | encode (packet : Packet)
  | read (n : Nat)
  | setWaker (waker : Waker)
  | close
  | elapse (delays : DelayService)

namespace CodecTurn

variable {C : Type} [Codec C]

def step (r : C × DelayService) : CodecTurn → C × DelayService
  | decode source bytes => ((Codec.decode r.1 source bytes).2, r.2)
  | encode packet => (Codec.encode r.1 packet r.2).2
  | read n => (Codec.read r.1 n r.2).2
  | setWaker waker => (Codec.setWaker r.1 waker, r.2)
  | close => Codec.close r.1 r.2
  | elapse delays => (r.1, delays)

def run (turns : List CodecTurn) (r : C × DelayService) : C × DelayService := turns.foldl step r

variable {Sound : C → Prop}

theorem step_sound (h : Drains Sound) {r : C × DelayService} (hr : Sound r.1) (turn : CodecTurn) :
    Sound (step r turn).1 := by
  cases turn with
  | decode source bytes => exact h.decode source bytes hr
  | encode packet => exact h.encode packet r.2 hr
  | read n => exact h.read n r.2 hr
  | setWaker waker => exact h.setWaker waker hr
  | close => exact h.close r.2 hr
  | elapse delays => exact hr

theorem run_sound (h : Drains Sound) (turns : List CodecTurn) {r : C × DelayService}
    (hr : Sound r.1) : Sound (run turns r).1 := by
  induction turns generalizing r with
  | nil => exact hr
  | cons turn turns ih => exact ih (step_sound h hr turn)

end CodecTurn

/-- Handlers that report output exactly as long as they would give some up. -/
class Candid (H : Type) [Handler H] : Prop where
  pending_iff : ∀ (h : H) v, Handler.pending h = true ↔ (Handler.takeBuffered h v).packets ≠ []

instance : Candid StandardHandler where
  pending_iff _ _ := by simp [Handler.pending, Handler.takeBuffered]

instance : Candid DiagnosticHandler where
  pending_iff h _ := by simp [Handler.pending, Handler.takeBuffered]

instance {A B : Type} [Handler A] [Handler B] [Candid A] [Candid B] : Candid (A ⊕ B) where
  pending_iff
    | .inl a, v => Candid.pending_iff a v
    | .inr b, v => Candid.pending_iff b v

/-- Whether there is output again once a handler gave up the packets it had: it wrote to its
connection meanwhile, or has come to keep others. -/
def Handler.relapses {H : Type} [Handler H] (h : H) (v : View) : Bool :=
  let y := Handler.takeBuffered h v
  !y.replies.isEmpty || Handler.pending y.handler

namespace Connection

variable {C I H : Type}

section

variable [Handler H]

/-- What the handlers leave behind is what those of them leave that relapse. -/
theorem takeBuffered_relapses (hs : List H) {ctx : Context} (hnone : ctx.replies = []) :
    ((takeBuffered hs ctx).2.2.pending || (takeBuffered hs ctx).2.1.any Handler.pending) =
      hs.any (Handler.relapses · ctx.view) := by
  induction hs with
  | nil => simp [takeBuffered, Context.pending, hnone]
  | cons h hs ih =>
    rcases hy : Handler.takeBuffered h ctx.view with ⟨h', packets, replies⟩
    have relapses : Handler.relapses h ctx.view = (!replies.isEmpty || Handler.pending h') := by
      rw [Handler.relapses, hy]
    rw [List.any_cons, relapses, takeBuffered, hy, List.any_cons]
    by_cases silent : replies = []
    · have same : { ctx with replies := ctx.replies ++ replies } = ctx := by
        rw [silent, List.append_nil]
      rw [same, Bool.or_left_comm, ih, silent, List.isEmpty_nil, Bool.not_true, Bool.false_or]
    · -- A reply waits whatever the other handlers do, and they may look at it.
      let later : Context := { ctx with replies := ctx.replies ++ replies }
      obtain ⟨ps, hps⟩ := takeBuffered_context hs later
      have waits : (takeBuffered hs later).2.2.pending = true := by
        rw [hps]
        simp [later, Context.pending, silent]
      have some : replies.isEmpty = false := by simpa using silent
      rw [waits, some]
      rfl

theorem takeBuffered_of_not_pending [Candid H] {hs : List H}
    (hquiet : hs.any Handler.pending = false) (ctx : Context) : (takeBuffered hs ctx).1 = [] := by
  induction hs generalizing ctx with
  | nil => rfl
  | cons h hs ih =>
    obtain ⟨hhead, htail⟩ := Bool.or_eq_false_iff.mp hquiet
    have hnone : (Handler.takeBuffered h ctx.view).packets = [] := by
      rw [← Bool.not_eq_true, Candid.pending_iff h ctx.view, not_not] at hhead
      exact hhead
    exact List.append_eq_nil_iff.mpr ⟨hnone, ih htail _⟩

end

/-- Whether the inspector reports output of its own. -/
def inspectorPending [Inspector I] (c : Connection C I H) : Bool :=
  match c.stages with
  | some st => Inspector.pending st.inspector
  | none => false

/-- Whether the handlers have output again once they gave up what they had. -/
def handlersRelapse [Handler H] (c : Connection C I H) : Bool :=
  match c.stages with
  | some st => st.handlers.any (Handler.relapses · { c.context with replies := [] }.view)
  | none => false

/-- A property of the codec, as long as there is one. -/
def OnCodec (Sound : C → Prop) (c : Connection C I H) : Prop :=
  ∀ st, c.stages = some st → Sound st.codec

variable {Sound : C → Prop} {c : Connection C I H} {s : DelayService}

variable [Codec C] [Handler H]

theorem flush_sound (h : Drains Sound) {st : Stages C I H} (hc : Sound st.codec) (ctx : Context)
    (s : DelayService) : Sound (flush st ctx s).1.codec :=
  (h.encodeEach _ _ (h.encodeEach _ _ hc).1).1

variable [Inspector I]

theorem close_onCodec (c : Connection C I H) (s : DelayService) :
    (c.close s).1.OnCodec Sound := by
  have hnone : (c.close s).1.stages = none := by simpa [isOpen] using close_isOpen c s
  intro st hst
  rw [hnone] at hst
  cases hst

theorem perform_onCodec (h : Drains Sound) (hc : c.OnCodec Sound) (s : DelayService) (op : Op) :
    (c.perform s op).1.OnCodec Sound := by
  cases hst : c.stages with
  | none =>
    intro st hst'
    rw [(perform_of_closed hst op).1] at hst'
    cases hst'
  | some st =>
    have hsound : Sound st.codec := hc st hst
    cases op with
    | write bytes =>
      have hdecode := h.decode c.id bytes hsound
      rcases write_cases hst bytes s with ⟨e, codec, hd, hw⟩ | ⟨packets, codec, refusal, left, ctx,
        log, hd, hi, hnone, hsome⟩
      · rw [perform, hw]
        exact close_onCodec _ s
      · cases refusal with
        | none =>
          have hcodec := (inspectAll_frame s.now packets { st with codec } c.context).1
          rw [hi] at hcodec
          rw [hd] at hdecode
          rw [perform, hnone rfl]
          intro st' hst'
          obtain rfl : left = st' := Option.some.inj hst'
          rwa [show left.codec = codec from hcodec]
        | some failure =>
          rw [perform, hsome failure rfl]
          exact close_onCodec _ s
    | read n =>
      intro st' hst'
      simp only [perform, read, hst, Option.some.injEq] at hst'
      subst hst'
      exact h.read n _ (flush_sound h hsound c.context s)
    | close => exact close_onCodec c s
    | updateInterest => exact hc
    | timedOut =>
      intro st' hst'
      simp only [perform, timedOut, hst, Option.some.injEq] at hst'
      subst hst'
      exact hsound

/-- Without output waiting anywhere, reads yield nothing. -/
theorem read_quiet [Candid H] (h : Drains Sound) (hc : c.OnCodec Sound) (hopen : c.isOpen = true)
    (hquiet : c.pending s = false) (n : Nat) : (c.read n s).1 = .ok [] := by
  obtain ⟨st, hst⟩ := Option.isSome_iff_exists.mp hopen
  simp only [pending, hst, Bool.or_eq_false_iff] at hquiet
  obtain ⟨⟨⟨hreplies, hcodec⟩, _⟩, hhandlers⟩ := hquiet
  have hnone : c.context.replies = [] := by simpa [Context.pending] using hreplies
  have htaken := takeBuffered_of_not_pending hhandlers { c.context with replies := [] }
  simp [read, hst, flush, hnone, htaken, Codec.encodeEach, h.quiet n s (hc st hst) hcodec]

/-- A read that yields nothing leaves nothing waiting but what the inspector may report, and what
handlers came to have while they were asked. -/
theorem read_drained (h : Drains Sound) (hc : c.OnCodec Sound) {n : Nat} (hn : 0 < n)
    {c' : Connection C I H} {s' : DelayService} (hread : c.read n s = (.ok [], c', s')) :
    (c'.updateInterest s').interest =
      if c'.inspectorPending || c.handlersRelapse then .readWrite else .read := by
  cases hst : c.stages with
  | none =>
    simp [read, hst] at hread
  | some st =>
    -- Replies went into the codec or were dropped, so what waits came in while they did.
    have hcodec := h.drained n (flush st c.context s).2.2
      (flush_sound h (hc st hst) c.context s) (.inl hn)
    have hrelapse : ((flush st c.context s).2.1.pending ||
        (flush st c.context s).1.handlers.any Handler.pending) = c.handlersRelapse := by
      rw [handlersRelapse, hst]
      exact takeBuffered_relapses st.handlers rfl
    simp only [read, hst, Prod.mk.injEq, Except.ok.injEq] at hread
    obtain ⟨hnothing, hc', rfl⟩ := hread
    have hpending : c'.pending (Codec.read (flush st c.context s).1.codec n
        (flush st c.context s).2.2).2.2 = (c'.inspectorPending || c.handlersRelapse) := by
      rw [← hrelapse, ← hc']
      simp only [pending, inspectorPending, hcodec hnothing, Bool.or_false]
      rw [Bool.or_assoc, Bool.or_left_comm]
    rw [updateInterest, hpending]

end Connection

/-- What can happen to a connection: something is done to it, others have something for it or for
its handlers to keep, or the worker that delays output does anything. -/
inductive ConnectionTurn (H : Type) where
  | act (op : Connection.Op)
  | hear (packets : List Packet)
  | stir (change : H → H)
  | elapse (delays : DelayService)

namespace ConnectionTurn

variable {C I H : Type} [Codec C] [Inspector I] [Handler H]

def step (r : Connection C I H × DelayService) : ConnectionTurn H → Connection C I H × DelayService
  | act op => ((r.1.perform r.2 op).1, (r.1.perform r.2 op).2.1)
  | hear packets => (r.1.hear packets, r.2)
  | stir change =>
    let stages := r.1.stages.map fun st => { st with handlers := st.handlers.map change }
    ({ r.1 with stages }, r.2)
  | elapse delays => (r.1, delays)

def run (turns : List (ConnectionTurn H)) (r : Connection C I H × DelayService) :
    Connection C I H × DelayService := turns.foldl step r

theorem run_onCodec {Sound : C → Prop} (h : Drains Sound) (turns : List (ConnectionTurn H))
    {r : Connection C I H × DelayService} (hr : r.1.OnCodec Sound) :
    (run turns r).1.OnCodec Sound := by
  induction turns generalizing r with
  | nil => exact hr
  | cons turn turns ih =>
    refine ih ?_
    cases turn with
    | act op => exact Connection.perform_onCodec h hr r.2 op
    | hear packets => exact hr
    | stir change =>
      intro st hst
      obtain ⟨st', hst', rfl⟩ := Option.map_eq_some_iff.mp hst
      exact hr st' hst'
    | elapse delays => exact hr

end ConnectionTurn

theorem Connection.new_onCodec {C I H : Type} [Codec C] [Inspector I] [Handler H]
    {Sound : C → Prop} (h : Drains Sound) (ctx : Context) {codec : C} (hcodec : Sound codec)
    (inspector : I) (handlers : List H) :
    (Connection.new ctx codec inspector handlers).1.OnCodec Sound := by
  intro st hst
  simp only [Connection.new, Option.some.injEq] at hst
  subst hst
  cases ctx.waker with
  | none => exact hcodec
  | some waker => exact h.setWaker waker hcodec

namespace CodecState

variable {K : Type} [Compressor K] [UnfailingCompressor K]

/-- What is built from a description shows all output it has: without any, reads yield nothing, and
after a read that yields nothing there is none. A connection on it then waits to be written to only
if its inspector wants to or its handlers came to have output while they were asked for what they
had, whatever replies could not be encoded. -/
theorem nothing_waits_behind_an_empty_read {scheduler : Bool} {config : CodecConfig}
    {key next : Nat} {codec : CodecState K config}
    (hbuilt : build scheduler config key = .ok (codec, next)) {I H : Type} [Inspector I]
    [Handler H] [Candid H] (ctx : Context) (inspector : I) (handlers : List H)
    (delays : DelayService) :
    (∀ turns, let r := CodecTurn.run turns (codec, delays)
      (Codec.pending r.1 r.2 = false → ∀ n, (Codec.read r.1 n r.2).1 = []) ∧
        ∀ n, 0 < n → ∀ c s, Codec.read r.1 n r.2 = ([], c, s) → Codec.pending c s = false) ∧
      ∀ turns,
        let r := ConnectionTurn.run turns ((Connection.new ctx codec inspector handlers).1, delays)
        (r.1.isOpen = true → r.1.pending r.2 = false → ∀ n, (r.1.read n r.2).1 = .ok []) ∧
          ∀ n, 0 < n → ∀ c s, r.1.read n r.2 = (.ok [], c, s) →
            (c.updateInterest s).interest =
              if c.inspectorPending || r.1.handlersRelapse then .readWrite else .read := by
  have hdrains : Drains (Sound (K := K) config) := drains config
  have hsound : Sound config codec := build_sound hbuilt
  refine ⟨fun turns => ?_, fun turns => ?_⟩
  · intro r
    have hr : Sound config r.1 := CodecTurn.run_sound hdrains turns hsound
    refine ⟨fun hquiet n => hdrains.quiet n r.2 hr hquiet, fun n hn c s hread => ?_⟩
    have hdrained := hdrains.drained n r.2 hr (.inl hn)
    rw [hread] at hdrained
    exact hdrained rfl
  · intro r
    have hr : r.1.OnCodec (Sound (K := K) config) := ConnectionTurn.run_onCodec hdrains turns
      (Connection.new_onCodec hdrains ctx hsound inspector handlers)
    exact ⟨fun hopen hquiet n => Connection.read_quiet hdrains hr hopen hquiet n,
      fun n hn c s hread => Connection.read_drained hdrains hr hn hread⟩

/-- Two replies wait that cannot be written in ASCII, one of them with a handler. -/
theorem nothing_waits_behind_an_empty_read_of_dropped :
    let config : CodecConfig := .split (.json {})
      (.deflate 6 (.deflate 3 (.line { charset := .ascii, errorPolicy := .strict })))
    let handlers : List (StandardHandler ⊕ DiagnosticHandler) :=
      [.inl .chat, .inr (.probe "kept" false 1 [⟨"a", .text "é"⟩])]
    let ctx := Context.new "srv" "lines" ⟨"10.0.0.1:80", by decide⟩ none
    ∃ codec : CodecState StoredBlocks config, build false config 0 = .ok (codec, 0) ∧
      let r := ConnectionTurn.run [.hear [⟨"a", .text "é"⟩]]
        ((Connection.new ctx codec (BuiltInspector.passThrough "10.0.0.1:80") handlers).1, {})
      r.1.pending r.2 = true ∧ r.1.handlersRelapse = false ∧
        ∃ c s, r.1.read 64 r.2 = (.ok [], c, s) ∧ (c.updateInterest s).interest = .read := by
  intro config handlers ctx
  have hbuilt : build (K := StoredBlocks) false config 0 = .ok (_, 0) := rfl
  refine ⟨_, hbuilt, by decide +kernel, by decide +kernel, ?_⟩
  obtain ⟨_, hdrained⟩ := (nothing_waits_behind_an_empty_read hbuilt ctx
    (BuiltInspector.passThrough "10.0.0.1:80") handlers {}).2 [.hear [⟨"a", .text "é"⟩]]
  exact ⟨_, _, rfl, hdrained 64 (by decide) _ _ rfl⟩

end CodecState

/-- An inspector that always reports output of its own. -/
structure Restless where

instance : Inspector Restless where
  id _ := ""
  inspect i _ p := (.pass p, i)
  timedOut i _ := (false, i)
  pending _ := true
  close i := i

/-- A handler that has nothing to give up, and writes to its connection when it is asked. -/
structure Prompted where

instance : Handler Prompted where
  name _ := ""
  active h _ := { handler := h }
  read h _ _ := { handler := h }
  takeBuffered h _ := { handler := h, replies := [⟨"", .text ""⟩] }
  pending _ := false
  close h _ := { handler := h }

instance : Candid Prompted where
  pending_iff _ _ := by simp [Handler.pending, Handler.takeBuffered]

/-- A handler that keeps another packet as soon as it has given up all it had. -/
structure Restocked where
  kept : List Packet

instance : Handler Restocked where
  name _ := ""
  active h _ := { handler := h }
  read h _ _ := { handler := h }
  takeBuffered h _ := { handler := ⟨[⟨"", .text "é"⟩]⟩, packets := h.kept }
  pending h := !h.kept.isEmpty
  close h _ := { handler := h }

instance : Candid Restocked where
  pending_iff _ _ := by simp [Handler.pending, Handler.takeBuffered]

/-- A connection on lines of ASCII waits for nothing but input after a read that yields nothing. -/
def Connection.WaitsForInput (I H : Type) [Inspector I] [Handler H] [Candid H] : Prop :=
  ∀ {codec : CodecState StoredBlocks (.line { charset := .ascii, errorPolicy := .strict })},
    CodecState.build false (.line { charset := .ascii, errorPolicy := .strict }) 0 =
      .ok (codec, 0) →
    ∀ (ctx : Context) (inspector : I) (handlers : List H) (turns : List (ConnectionTurn H))
      (n : Nat), 0 < n →
      let r := ConnectionTurn.run turns ((Connection.new ctx codec inspector handlers).1, {})
      ∀ c s, r.1.read n r.2 = (.ok [], c, s) → (c.updateInterest s).interest = .read

/-- The inspector has a say in what a connection waits for, though no read takes anything from it;
and so have handlers that come to have output while a read asks them for what they had. -/
theorem Connection.waits_for_more_than_input :
    ¬ WaitsForInput Restless StandardHandler ∧ ¬ WaitsForInput BuiltInspector Prompted ∧
      ¬ WaitsForInput BuiltInspector Restocked := by
  let ctx := Context.new "srv" "lines" ⟨"10.0.0.1:80", by decide⟩ none
  have hbuilt : CodecState.build (K := StoredBlocks) false
    (.line { charset := .ascii, errorPolicy := .strict }) 0 = .ok (_, 0) := rfl
  refine ⟨fun h => ?_, fun h => ?_, fun h => ?_⟩
  · cases h hbuilt ctx ⟨⟩ [] [] 64 (by decide) _ _ rfl
  · cases h hbuilt ctx (.passThrough "10.0.0.1:80") [⟨⟩] [] 64 (by decide) _ _ rfl
  · cases h hbuilt ctx (.passThrough "10.0.0.1:80") [⟨[]⟩] [] 64 (by decide) _ _ rfl

end Switchboard
