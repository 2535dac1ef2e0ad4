import Switchboard.Proofs.RoomMembers

namespace Switchboard

open Connection

/-- The name of who was let in. -/
def Connection.admittedAs? {C H : Type} (c : Connection C BuiltInspector H) : Option String :=
  match c.stages with
  | some ⟨_, .tokenAuth g, _⟩ => if g.authenticated then some g.idle.id else none
  | _ => none

namespace World

variable {w : World StandardHandler}

/-- A text one member has for another is said by one that has let somebody in, in that name. -/
def SaidIn (before after : World StandardHandler) (x : Talk) : Prop :=
  ∃ c st sender text key, after.hub.get? x.speaker = some c ∧ c.stages = some st ∧
    .chat ∈ st.handlers ∧ c.admittedAs? = some sender ∧ x.packet = Hub.spoken sender text ∧
    before.IsMember (key, x.listener) ∧ key ≠ c.context.peer.text

theorem Discreet.act_heard (h : w.Discreet) {token : Nat} {op : Op} {x : Talk}
    (hx : x ∈ (w.act token op).heard) :
    x ∈ w.heard ∨
      x.speaker = token ∧ (∃ bytes, op = .write bytes) ∧ SaidIn w (w.act token op) x := by
  rcases act_cases w token op with hsame | ⟨c, c', s, log, hc, hp, hkeeps, hact⟩
  · rw [hsame] at hx
    exact .inl hx
  rw [hact] at hx
  rcases List.mem_append.mp hx with hx | hx
  · exact .inl hx
  obtain ⟨hspeaker, hne, d, dst, hd, hdst, hdchat, hkey, sender, text, hsay, hpacket⟩ :=
    h.talk hc hkeeps.peer (perform_not_join hp) hx
  have hsay : .say sender text ∈ (c.perform w.hub.delays op).2.2.requests := by rwa [hp]
  have hsaid := perform_says (h.waiting token c hc) hsay
  rw [hp] at hsaid
  obtain ⟨hwrite, st, g, hst, hg, hin, hchat, hname⟩ := hsaid
  have hget : (w.act token op).hub.get? x.speaker = some (c'.hear (Talk.packetsFor token
      (RoomRequest.talkAll token c'.context.peer w.hub.room log.requests))) := by
    rw [hspeaker, hact, settle_get?, if_pos rfl]
    rfl
  have hadmitted : (c'.hear (Talk.packetsFor token
      (RoomRequest.talkAll token c'.context.peer w.hub.room log.requests))).admittedAs? =
        some sender := by
    obtain ⟨codec, inspector, hs⟩ := st
    obtain rfl : inspector = .tokenAuth g := hg
    have hst : (c'.hear (Talk.packetsFor token (RoomRequest.talkAll token c'.context.peer w.hub.room
      log.requests))).stages = some ⟨codec, .tokenAuth g, hs⟩ := hst
    rw [admittedAs?, hst, hname]
    exact if_pos hin
  refine .inr ⟨hspeaker, hwrite, _, st, sender, text, d.context.peer.text, hget, hst, hchat,
    hadmitted, hpacket, ⟨d, dst, hd, hdst, hdchat, rfl⟩, ?_⟩
  rw [← hkeeps.peer] at hkey
  exact hkey

theorem connect_heard (registry : HandlerRegistry StandardHandler) (config : ListenerConfig)
    (serverId : String) (peer : Peer) (scheduler : Bool) (waker : Option Waker) :
    (w.connect registry config serverId peer scheduler waker).heard = w.heard := by
  rcases connect_cases w registry config serverId peer scheduler waker with hsame |
    ⟨codec, nextKey, log, c, _, _, _, hnew, hconnect⟩
  · rw [hsame]
  · have htalk : RoomRequest.talkAll w.nextToken c.context.peer w.hub.room log.requests = [] :=
      RoomRequest.talkAll_of_silent fun sender text hr => by
        cases (mem_new_requests (by rw [hnew]; exact hr)).1
    rw [hconnect]
    exact (congrArg (w.heard ++ ·) htalk).trans (List.append_nil _)

theorem Discreet.step_heard (h : w.Discreet) (registry : HandlerRegistry StandardHandler)
    {e : HubEvent} {x : Talk} (hx : x ∈ (w.step registry e).heard) :
    x ∈ w.heard ∨ ∃ bytes, e = .act x.speaker (.write bytes) ∧ SaidIn w (w.step registry e) x := by
  cases e with
  | connect config serverId peer scheduler waker =>
    rw [World.step, connect_heard] at hx
    exact .inl hx
  | act token op =>
    refine (h.act_heard hx).imp_right ?_
    rintro ⟨rfl, ⟨bytes, rfl⟩, hsaid⟩
    exact ⟨bytes, rfl, hsaid⟩
  | drop token =>
    have hx : x ∈ (w.act token .close).heard := hx
    refine (h.act_heard hx).imp_right ?_
    rintro ⟨_, ⟨bytes, hclose⟩, _⟩
    cases hclose
  | tick => exact .inl hx
  | takeSubmission => exact .inl hx
  | fire => exact .inl hx

/-- Everything heard was said by somebody who had been let in, in a write of its own. -/
theorem run_heard (registry : HandlerRegistry StandardHandler) {events : List HubEvent}
    (hgated : ∀ e ∈ events, e.Gated) {x : Talk} (hx : x ∈ (run registry events).heard) :
    ∃ past bytes rest, events = past ++ .act x.speaker (.write bytes) :: rest ∧
      SaidIn (run registry past) (run registry (past ++ [.act x.speaker (.write bytes)])) x := by
  induction events using List.reverseRecOn with
  | nil => cases hx
  | append_singleton events e ih =>
    have hbefore : ∀ e' ∈ events, e'.Gated := fun e' he' => hgated e' (List.mem_append_left _ he')
    rw [run_concat] at hx
    rcases (run_discreet registry hbefore).step_heard registry hx with hx | ⟨bytes, rfl, hsaid⟩
    · obtain ⟨past, bytes, rest, rfl, hsaid⟩ := ih hbefore hx
      exact ⟨past, bytes, rest ++ [e], by simp, hsaid⟩
    · exact ⟨events, bytes, [], rfl, by rw [run_concat]; exact hsaid⟩

end World

theorem Connection.Waiting.unadmitted {taken told : List Packet}
    {c : Connection BuiltCodec BuiltInspector StandardHandler} {s : DelayService}
    (h : Waiting taken told c s) (hout : c.admittedAs? = none) :
    (c.isOpen = true → taken ++ c.context.replies = told) ∧
      (c.isOpen = false ∨ told = [] → c.pending s = false ∧
        ∀ n, (c.read n s).1 = if c.isOpen then .ok [] else .error .closed) := by
  cases hst : c.stages with
  | none =>
    have hreplies := h.closed hst
    simp [pending, Connection.read, isOpen, hst, hreplies]
  | some st =>
    have hopen : c.isOpen = true := by simp [isOpen, hst]
    obtain ⟨g, hg, hwait⟩ := h.opened hst
    have hunknown : g.authenticated = false := by
      obtain ⟨codec, inspector, hs⟩ := st
      obtain rfl : inspector = .tokenAuth g := hg
      rw [admittedAs?, hst] at hout
      simpa using hout
    obtain ⟨htaken, hsilent⟩ := hwait hunknown
    refine ⟨fun _ => htaken, fun hnil => ?_⟩
    rw [hnil.resolve_left (by simp [hopen])] at htaken
    obtain ⟨hnone, hreplies⟩ := List.append_eq_nil_iff.mp htaken
    have hsilent := hsilent hnone
    constructor
    · have hcodec := LawfulChanneled.pending_silent st.codec s hsilent
      simp [pending, hst, Context.pending, hreplies, hcodec, Inspector.pending, Handler.pending]
    · intro n
      have hread := (LawfulChanneled.read_silent st.codec n s hsilent).1
      simp [Connection.read, hst, hopen, flush, hreplies, Codec.encodeEach, takeBuffered_standard,
        hread]

namespace World

/-- As long as nobody was let in on a connection, all that is encoded for it or waits for it is what
others said in the room, and without that it has nothing to send. Who said it had been let in, and
it was heard only by members of the room at other addresses. -/
theorem unadmitted_holds_only_what_it_heard {events : List HubEvent}
    (hgated : ∀ e ∈ events, e.Gated) {token : Nat}
    {c : Connection BuiltCodec BuiltInspector StandardHandler}
    (hc : (run .standard events).hub.get? token = some c) (hout : c.admittedAs? = none) :
    let w := run .standard events
    (c.isOpen = true → w.encodedFor token ++ c.context.replies = w.heardBy token) ∧
      (c.isOpen = false ∨ w.heardBy token = [] → c.pending w.hub.delays = false ∧
        ∀ n, (c.read n w.hub.delays).1 = if c.isOpen then .ok [] else .error .closed) ∧
      ∀ x ∈ w.heard, x.listener = token →
        ∃ past bytes rest, events = past ++ .act x.speaker (.write bytes) :: rest ∧
          SaidIn (run .standard past)
            (run .standard (past ++ [.act x.speaker (.write bytes)])) x := by
  have hwaiting := (run_discreet .standard hgated).waiting token c hc
  obtain ⟨hreplies, hquiet⟩ := hwaiting.unadmitted hout
  exact ⟨hreplies, hquiet, fun x hx _ => run_heard .standard hgated hx⟩

/-- Two connections to one room, and what the first of them sends. -/
def twoMembers (bytes : Bytes) : List HubEvent :=
  let config : ListenerConfig := { ListenerConfig.new "room" 0 with
    inspector := .tokenAuth "pw" 0
    handlers := [⟨"chat", .null⟩] }
  [.connect config "srv" ⟨"10.0.0.1:1", by decide⟩ true none,
    .connect config "srv" ⟨"10.0.0.2:2", by decide⟩ true none, .act 0 (.write bytes)]

theorem twoMembers_gated (bytes : Bytes) : ∀ e ∈ twoMembers bytes, e.Gated := by
  intro e he
  simp only [twoMembers, List.mem_cons, List.not_mem_nil, or_false] at he
  rcases he with rfl | rfl | rfl
  · exact ⟨"pw", 0, rfl⟩
  · exact ⟨"pw", 0, rfl⟩
  · trivial

/-- The first is let in, which the second does not hear. -/
theorem unadmitted_holds_only_what_it_heard_of_login :
    let events := twoMembers [97, 58, 112, 119, 10]
    (∀ e ∈ events, e.Gated) ∧ ∃ c, (run .standard events).hub.get? 1 = some c ∧
      c.admittedAs? = none ∧ c.pending (run .standard events).hub.delays = false ∧
      (c.read 64 (run .standard events).hub.delays).1 = .ok [] := by
  intro events
  obtain ⟨c, hc⟩ : ∃ c, (run .standard events).hub.get? 1 = some c :=
    Option.isSome_iff_exists.mp (by decide +kernel)
  have hout : ((run .standard events).hub.get? 1).bind admittedAs? = none := by decide +kernel
  have hopen : ((run .standard events).hub.get? 1).any isOpen = true := by decide +kernel
  have hheard : ((run .standard events).heardBy 1).isEmpty = true := by decide +kernel
  rw [hc] at hout hopen
  obtain ⟨_, hquiet, _⟩ := unadmitted_holds_only_what_it_heard (twoMembers_gated _) hc hout
  obtain ⟨hpending, hread⟩ := hquiet (.inr (List.isEmpty_iff.mp hheard))
  have hopen : c.isOpen = true := hopen
  refine ⟨twoMembers_gated _, c, hc, hout, hpending, ?_⟩
  rw [hread, hopen]
  rfl

/-- Being let in is not asked of those who listen: a member that nobody was let in on has output as
soon as another one says something. -/
theorem unadmitted_member_has_output :
    ¬ ∀ (events : List HubEvent) (token : Nat)
      (c : Connection BuiltCodec BuiltInspector StandardHandler),
      (∀ e ∈ events, e.Gated) → (run .standard events).hub.get? token = some c →
      c.admittedAs? = none → c.pending (run .standard events).hub.delays = false ∧
        ∀ n bytes, (c.read n (run .standard events).hub.delays).1 = .ok bytes → bytes = [] := by
  intro h
  let events := twoMembers [97, 58, 112, 119, 10, 104, 105, 10]
  obtain ⟨c, hc⟩ : ∃ c, (run .standard events).hub.get? 1 = some c :=
    Option.isSome_iff_exists.mp (by decide +kernel)
  have hout : ((run .standard events).hub.get? 1).bind admittedAs? = none := by decide +kernel
  have hpending : ((run .standard events).hub.get? 1).any
      (fun c => c.pending (run .standard events).hub.delays) = true := by decide +kernel
  rw [hc] at hout hpending
  have hnot := (h events 1 c (twoMembers_gated _) hc hout).1
  exact Bool.false_ne_true (hnot.symm.trans hpending)

end World

end Switchboard
