import Mathlib
import Switchboard.Connection
import Switchboard.Handler.Diagnostic
import Switchboard.Line.Codec

namespace Switchboard

section

variable {I H : Type}

/-- What an inspector made of a packet, and the inspector behind it. -/
structure Inspected (I : Type) where
  packet : Packet
  verdict : Verdict
  inspector : I

def Inspected.failure? (e : Inspected I) : Option AuthenticationFailure :=
  match e.verdict with
  | .reject failure => some failure
  | _ => none

def Inspected.refused (e : Inspected I) : Bool := e.failure?.isSome

/-- What an inspector makes of packets in turn, whether or not it refuses one. -/
def inspections [Inspector I] (now : Time) : I → List Packet → List (Inspected I)
  | _, [] => []
  | i, p :: ps =>
    let r := Inspector.inspect i now p
    ⟨p, r.1, r.2⟩ :: inspections now r.2 ps

/-- The inspections up to the first that is refused. -/
def inspectionsMade [Inspector I] (now : Time) (i : I) (packets : List Packet) :
    List (Inspected I) :=
  (inspections now i packets).take ((inspections now i packets).findIdx Inspected.refused + 1)

/-- An inspection, and the handlers as they were when it was made. -/
structure Turn (I H : Type) extends Inspected I where
  handlers : List H

/-- The calls of a turn: a packet that passes is offered to every handler in order, while the
connection bears the id the inspector has given it. -/
def Turn.calls [Inspector I] (t : Turn I H) : List (Call H) :=
  .inspect t.packet :: match t.verdict with
    | .pass q => t.handlers.map fun h => .offer h (Inspector.id t.inspector) q
    | _ => []

/-- Every handler has taken the packet once, on a connection of that id. -/
def Offered [Handler H] (id : String) (q : Packet) (before after : List H) : Prop :=
  List.Forall₂ (fun h h' => ∃ v : View, v.connectionId = id ∧ (Handler.read h v q).handler = h')
    before after

/-- Turns that follow one another: only the packets that pass change the handlers, and each by
being taken. -/
inductive Turns [Inspector I] [Handler H] : List H → List (Turn I H) → List H → Prop
  | done {hs} : Turns hs [] hs
  | passed {t q hs ts last} (verdict : t.verdict = .pass q)
      (offered : Offered (Inspector.id t.inspector) q t.handlers hs) (more : Turns hs ts last) :
      Turns t.handlers (t :: ts) last
  | withheld {t ts last} (verdict : ∀ q, t.verdict ≠ .pass q) (more : Turns t.handlers ts last) :
      Turns t.handlers (t :: ts) last

def Call.inspected? : Call H → Option Packet
  | .inspect p => some p
  | _ => none

/-- Whether a part is closed by the call. -/
def Call.closes : Call H → Bool
  | .closeChannel | .closeCodec | .closeInspector | .closeHandler .. => true
  | _ => false

variable [Inspector I]

theorem inspections_packets (now : Time) (i : I) (packets : List Packet) :
    (inspections now i packets).map Inspected.packet = packets := by
  induction packets generalizing i with
  | nil => rfl
  | cons p ps ih => simp [inspections, ih]

theorem inspectionsMade_cons (now : Time) (i : I) (p : Packet) (ps : List Packet) :
    inspectionsMade now i (p :: ps) =
      ⟨p, (Inspector.inspect i now p).1, (Inspector.inspect i now p).2⟩ ::
        match (Inspector.inspect i now p).1 with
        | .reject _ => []
        | _ => inspectionsMade now (Inspector.inspect i now p).2 ps := by
  cases h : (Inspector.inspect i now p).1 <;>
    simp [inspectionsMade, inspections, List.findIdx_cons, Inspected.refused, Inspected.failure?, h]

theorem Turn.calls_inspected (t : Turn I H) :
    t.calls.filterMap Call.inspected? = [t.packet] := by
  obtain ⟨⟨p, verdict, i⟩, hs⟩ := t
  cases verdict <;> simp [Turn.calls, Call.inspected?, Function.comp_def]

theorem turns_calls_inspected (ts : List (Turn I H)) :
    (ts.flatMap Turn.calls).filterMap Call.inspected? = ts.map (·.packet) := by
  induction ts with
  | nil => rfl
  | cons t ts ih => simp [List.filterMap_append, Turn.calls_inspected, ih]

theorem inspected_eq_nil_of_closes {calls : List (Call H)} (h : ∀ c ∈ calls, c.closes) :
    calls.filterMap Call.inspected? = [] := by
  apply List.filterMap_eq_nil_iff.mpr
  intro c hc
  have := h c hc
  cases c <;> simp_all [Call.closes, Call.inspected?]

end

namespace Connection

variable {C I H : Type}

theorem absorb_context (rs : List Request) (ctx : Context) :
    ∃ ps, (absorb rs ctx).1 = { ctx with replies := ctx.replies ++ ps } := by
  induction rs generalizing ctx with
  | nil => exact ⟨[], by simp [absorb]⟩
  | cons r rs ih =>
    cases r with
    | reply p =>
      obtain ⟨ps, h⟩ := ih (ctx.reply p)
      refine ⟨p :: ps, ?_⟩
      rw [absorb, h]
      simp [Context.reply]
    | join => exact ih ctx
    | leave => exact ih ctx
    | say text => exact ih ctx

/-- Handlers change nothing of the context but the replies that wait. -/
theorem callAll_context (react : H → View → Reaction H) (note : H → Context → Call H)
    (hs : List H) (ctx : Context) :
    ∃ ps, (callAll react note hs ctx).2.1 = { ctx with replies := ctx.replies ++ ps } := by
  induction hs generalizing ctx with
  | nil => exact ⟨[], by simp [callAll]⟩
  | cons h hs ih =>
    obtain ⟨ps, hps⟩ := absorb_context (react h ctx.view).requests ctx
    obtain ⟨qs, hqs⟩ := ih { ctx with replies := ctx.replies ++ ps }
    exact ⟨ps ++ qs, by simp [callAll, hps, hqs]⟩

theorem absorb_connectionId (rs : List Request) (ctx : Context) :
    (absorb rs ctx).1.connectionId = ctx.connectionId := by
  obtain ⟨ps, h⟩ := absorb_context rs ctx
  rw [h]

theorem callAll_calls_of_note {react : H → View → Reaction H} {note : H → Context → Call H}
    {P : Call H → Prop} (hs : List H) (ctx : Context) (hn : ∀ h ctx, P (note h ctx)) :
    ∀ c ∈ (callAll react note hs ctx).2.2.calls, P c := by
  induction hs generalizing ctx with
  | nil => simp [callAll]
  | cons h hs ih =>
    intro c hc
    rcases List.mem_cons.mp hc with rfl | hc
    · exact hn h ctx
    · exact ih _ c hc

variable [Inspector I] [Handler H]

/-- Whatever the handlers answer, each of them is offered the packet once, in order. -/
theorem offerAll_calls (q : Packet) (hs : List H) (ctx : Context) :
    (offerAll q hs ctx).2.2.calls = hs.map fun h => .offer h ctx.connectionId q := by
  induction hs generalizing ctx with
  | nil => rfl
  | cons h hs ih =>
    have rest := ih (absorb (Handler.read h ctx.view q).requests ctx).1
    rw [absorb_connectionId] at rest
    exact congrArg (Call.offer h ctx.connectionId q :: ·) rest

theorem offerAll_offered (q : Packet) (hs : List H) (ctx : Context) :
    Offered ctx.connectionId q hs (offerAll q hs ctx).1 := by
  induction hs generalizing ctx with
  | nil => exact List.Forall₂.nil
  | cons h hs ih =>
    have rest := ih (absorb (Handler.read h ctx.view q).requests ctx).1
    rw [absorb_connectionId] at rest
    exact List.Forall₂.cons ⟨ctx.view, rfl, rfl⟩ rest

/-- A batch is a sequence of turns that ends with the first refusal. -/
theorem inspectAll_turns (now : Time) (packets : List Packet) (st : Stages C I H)
    (ctx : Context) :
    ∃ turns : List (Turn I H),
      turns.map Turn.toInspected = inspectionsMade now st.inspector packets ∧
      Turns st.handlers turns (inspectAll now packets st ctx).2.1.handlers ∧
      (inspectAll now packets st ctx).2.2.2.calls = turns.flatMap Turn.calls ∧
      (inspectAll now packets st ctx).1 =
        (inspections now st.inspector packets).findSome? Inspected.failure? := by
  induction packets generalizing st ctx with
  | nil => exact ⟨[], rfl, .done, rfl, rfl⟩
  | cons p ps ih =>
    obtain ⟨codec, i, hs⟩ := st
    obtain ⟨verdict, j, h⟩ : ∃ verdict j, Inspector.inspect i now p = (verdict, j) := ⟨_, _, rfl⟩
    let named := { ctx with connectionId := Inspector.id j }
    simp only [inspectionsMade_cons, h]
    cases verdict with
    | pass q =>
      obtain ⟨turns, hmade, hturns, hcalls, hfail⟩ :=
        ih ⟨codec, j, (offerAll q hs named).1⟩ (offerAll q hs named).2.1
      refine ⟨⟨⟨p, .pass q, j⟩, hs⟩ :: turns, by simp [hmade], ?_, ?_, ?_⟩
      · simp only [inspectAll, h]
        exact .passed (t := ⟨⟨p, .pass q, j⟩, hs⟩) rfl (offerAll_offered q hs named) hturns
      · simp only [inspectAll, h]
        change .inspect p :: ((offerAll q hs named).2.2.calls ++ _) = _
        rw [offerAll_calls, hcalls]
        rfl
      · simp only [inspectAll, inspections, h, List.findSome?_cons, Inspected.failure?]
        exact hfail
    | filter =>
      obtain ⟨turns, hmade, hturns, hcalls, hfail⟩ := ih ⟨codec, j, hs⟩ named
      refine ⟨⟨⟨p, .filter, j⟩, hs⟩ :: turns, by simp [hmade], ?_, ?_, ?_⟩
      · simp only [inspectAll, h]
        exact .withheld (t := ⟨⟨p, .filter, j⟩, hs⟩) (by simp) hturns
      · simp only [inspectAll, h]
        exact congrArg (Call.inspect p :: ·) hcalls
      · simp only [inspectAll, inspections, h, List.findSome?_cons, Inspected.failure?]
        exact hfail
    | reject failure =>
      refine ⟨[⟨⟨p, .reject failure, j⟩, hs⟩], by simp, ?_, ?_, ?_⟩
      · simp only [inspectAll, h]
        exact .withheld (t := ⟨⟨p, .reject failure, j⟩, hs⟩) (by simp) .done
      · simp only [inspectAll, h]
        rfl
      · simp only [inspectAll, inspections, h, List.findSome?_cons, Inspected.failure?]

variable [Codec C]

theorem close_isOpen (c : Connection C I H) (s : DelayService) :
    (c.close s).1.isOpen = false := by
  unfold close isOpen
  split
  next h => simp [h]
  next => rfl

theorem close_calls (c : Connection C I H) (s : DelayService) :
    ∀ call ∈ (c.close s).2.2.calls, call.closes := by
  unfold close
  split
  next => simp
  next st h =>
    intro call hc
    rcases List.mem_append.mp hc with hc | hc
    · rcases List.mem_cons.mp hc with rfl | hc
      · rfl
      · rcases List.mem_pair.mp hc with rfl | rfl <;> rfl
    · exact callAll_calls_of_note (P := fun call => call.closes) _ _ (fun _ _ => rfl) call hc

/-- What can come of bytes for an open connection: the bytes cannot be decoded, or the packets in
them are inspected, all or up to a refusal. -/
theorem write_cases {c : Connection C I H} {st : Stages C I H} (hst : c.stages = some st)
    (bytes : Bytes) (s : DelayService) :
    (∃ e codec, Codec.decode st.codec c.id bytes = (.error e, codec) ∧
      c.write bytes s = (.error e, close { c with stages := some { st with codec } } s)) ∨
    ∃ packets codec refusal left ctx log,
      Codec.decode st.codec c.id bytes = (.ok packets, codec) ∧
      inspectAll s.now packets { st with codec } c.context = (refusal, left, ctx, log) ∧
      (refusal = none → c.write bytes s =
        (.ok bytes.length, { c with context := ctx, stages := some left }, s, log)) ∧
      ∀ failure, refusal = some failure →
        let closed := close { c with context := ctx, stages := some left } s
        c.write bytes s =
          (.error (.authentication failure), closed.1, closed.2.1, log ++ closed.2.2) := by
  obtain ⟨result, codec, hd⟩ : ∃ result codec,
    Codec.decode st.codec c.id bytes = (result, codec) := ⟨_, _, rfl⟩
  cases result with
  | error e => exact .inl ⟨e, codec, hd, by simp only [write, hst, hd]⟩
  | ok packets =>
    obtain ⟨refusal, left, ctx, log, hi⟩ : ∃ refusal left ctx log,
      inspectAll s.now packets { st with codec } c.context = (refusal, left, ctx, log) :=
        ⟨_, _, _, _, rfl⟩
    refine .inr ⟨packets, codec, refusal, left, ctx, log, hd, hi, ?_, ?_⟩
    · rintro rfl
      simp only [write, hst, hd, hi]
    · rintro failure rfl
      simp only [write, hst, hd, hi]

/-- What comes of bytes for an open connection. The inspector sees the decoded packets in order, up
to the first it refuses; each that passes is offered to every handler before the next is inspected,
under the id the inspector then gives, whatever the handlers answer. A refusal or bytes that cannot
be decoded close the connection. -/
theorem write_takes_turns (c : Connection C I H) {st : Stages C I H} (hopen : c.stages = some st)
    (bytes : Bytes) (s : DelayService) :
    let r := c.write bytes s
    match (Codec.decode st.codec c.id bytes).1 with
    | .error e => r.1 = .error e ∧ r.2.1.isOpen = false ∧ ∀ call ∈ r.2.2.2.calls, call.closes
    | .ok packets => ∃ (turns : List (Turn I H)) (last : List H) (closing : List (Call H)),
      turns.map Turn.toInspected = inspectionsMade s.now st.inspector packets ∧
      Turns st.handlers turns last ∧
      r.2.2.2.calls = turns.flatMap Turn.calls ++ closing ∧
      (∀ call ∈ closing, call.closes) ∧
      r.2.2.2.calls.filterMap Call.inspected? = packets.take
        ((inspections s.now st.inspector packets).findIdx Inspected.refused + 1) ∧
      match (inspections s.now st.inspector packets).findSome? Inspected.failure? with
      | none => r.1 = .ok bytes.length ∧ closing = [] ∧
          ∃ st', r.2.1.stages = some st' ∧ st'.handlers = last
      | some failure => r.1 = .error (.authentication failure) ∧ r.2.1.isOpen = false := by
  intro r
  rcases write_cases hopen bytes s with ⟨e, codec, hd, hw⟩ | ⟨packets, codec, refusal, left, ctx,
    log, hd, hi, hnone, hsome⟩
  · have hr : r = (.error e, close { c with stages := some { st with codec } } s) := hw
    rw [hd, hr]
    exact ⟨rfl, close_isOpen _ s, close_calls _ s⟩
  · rw [hd]
    obtain ⟨turns, hmade, hturns, hcalls, hfail⟩ :=
      inspectAll_turns s.now packets { st with codec } c.context
    rw [hi] at hturns hcalls hfail
    have hseen := congrArg (List.map Inspected.packet) hmade
    rw [List.map_map, inspectionsMade, List.map_take, inspections_packets] at hseen
    cases refusal with
    | none =>
      have hr : r = (.ok bytes.length, { c with context := ctx, stages := some left }, s, log) :=
        hnone rfl
      rw [hr]
      refine ⟨turns, left.handlers, [], hmade, hturns, by simpa using hcalls, by simp, ?_, ?_⟩
      · rw [hcalls, turns_calls_inspected]
        exact hseen
      · rw [← hfail]
        exact ⟨rfl, rfl, left, rfl, rfl⟩
    | some failure =>
      let closed := close { c with context := ctx, stages := some left } s
      have hr : r = (.error (.authentication failure), closed.1, closed.2.1,
          log ++ closed.2.2) := hsome failure rfl
      rw [hr]
      have hcloses : ∀ call ∈ closed.2.2.calls, call.closes := close_calls _ s
      refine ⟨turns, left.handlers, closed.2.2.calls, hmade, hturns, ?_, hcloses, ?_, ?_⟩
      · rw [Log.calls_append, hcalls]
      · rw [Log.calls_append, hcalls, List.filterMap_append, turns_calls_inspected,
          inspected_eq_nil_of_closes hcloses, List.append_nil]
        exact hseen
      · rw [← hfail]
        exact ⟨rfl, close_isOpen _ s⟩

/-- Credentials and a text in one read, with a first handler that fails. -/
theorem write_takes_turns_of_credentials :
    ∃ (c : Connection LineCodec BuiltInspector DiagnosticHandler) (st : Stages _ _ _),
      c.stages = some st ∧ st.handlers.map DiagnosticHandler.name = ["first", "WhoAmI"] ∧
      (c.write [97, 100, 97, 58, 112, 119, 10, 104, 105, 10] {}).1 = .ok 10 ∧
      (c.write [97, 100, 97, 58, 112, 119, 10, 104, 105, 10] {}).2.2.2.calls.filterMap
        Call.inspected? = [⟨"10.0.0.1:80", .text "ada:pw"⟩, ⟨"10.0.0.1:80", .text "hi"⟩] := by
  let peer : Peer := ⟨"10.0.0.1:80", by decide⟩
  let st : Stages LineCodec BuiltInspector DiagnosticHandler := {
    codec := { config := {}, hook := LineHook.text, framer := { borders := .ofPattern [10] } }
    inspector := .tokenAuth { idle := .new peer none 0, peer, secret := "pw" }
    handlers := [.probe "first" true 1 [], .whoami] }
  let c : Connection LineCodec BuiltInspector DiagnosticHandler :=
    ⟨.new "srv" "lines" peer none, some st, .read⟩
  let packets : List Packet := [⟨"10.0.0.1:80", .text "ada:pw"⟩, ⟨"10.0.0.1:80", .text "hi"⟩]
  have turns := write_takes_turns c (show c.stages = some st from rfl)
    [97, 100, 97, 58, 112, 119, 10, 104, 105, 10] {}
  have decoded : (Codec.decode st.codec c.id [97, 100, 97, 58, 112, 119, 10, 104, 105, 10]).1 =
      .ok packets := by cbv
  rw [decoded] at turns
  obtain ⟨_, _, _, _, _, _, _, inspected, outcome⟩ := turns
  have passed : (inspections (DelayService.now {}) st.inspector packets).findSome?
      Inspected.failure? = none := by cbv
  have count : (inspections (DelayService.now {}) st.inspector packets).findIdx
      Inspected.refused = 2 := by cbv
  rw [passed] at outcome
  rw [count] at inspected
  exact ⟨c, st, rfl, rfl, outcome.1, inspected⟩

end Connection

end Switchboard
