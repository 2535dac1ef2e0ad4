import Switchboard.Handler.Sum
import Switchboard.Proofs.StandardSteps

namespace Switchboard

/-- What a request asks of the room, in the name of an id. -/
def Request.ask? (id : String) : Request → Option RoomRequest
  | reply _ => none
  | join => some .join
  | leave => some .leave
  | say text => some (.say id text)

/-- Handlers that tell the room everything and are members as long as their connection is open, or
that have nothing to do with the room. -/
class Chatting (H : Type) [Handler H] where
  chats : H → Bool
  active_asks : ∀ (h : H) v id, (Handler.active h v).requests.filterMap (Request.ask? id) =
    if chats h then [.join] else []
  read_asks : ∀ (h : H) v (p : Packet) id, (Handler.read h v p).requests.filterMap
    (Request.ask? id) = if chats h then [.say id (StandardHandler.spoken p.payload)] else []
  close_asks : ∀ (h : H) v id, (Handler.close h v).requests.filterMap (Request.ask? id) =
    if chats h then [.leave] else []
  active_chats : ∀ (h : H) v, chats (Handler.active h v).handler = chats h
  read_chats : ∀ (h : H) v p, chats (Handler.read h v p).handler = chats h
  takeBuffered_chats : ∀ (h : H) v, chats (Handler.takeBuffered h v).handler = chats h

instance : Chatting StandardHandler where
  chats h := h = .chat
  active_asks h v id := by cases h <;> rfl
  read_asks h v p id := by
    cases h with
    | echo => rfl
    | uppercase opening => cases hp : p.payload <;> simp [Handler.read, StandardHandler.requests,
        Request.ask?, hp]
    | chat => rfl
  close_asks h v id := by cases h <;> rfl
  active_chats _ _ := rfl
  read_chats _ _ _ := rfl
  takeBuffered_chats _ _ := rfl

instance : Chatting DiagnosticHandler where
  chats _ := false
  active_asks _ _ _ := rfl
  read_asks h v p id := by cases h <;> rfl
  close_asks _ _ _ := rfl
  active_chats _ _ := rfl
  read_chats _ _ _ := rfl
  takeBuffered_chats _ _ := rfl

instance {A B : Type} [Handler A] [Handler B] [Chatting A] [Chatting B] : Chatting (A ⊕ B) where
  chats
    | .inl a => Chatting.chats a
    | .inr b => Chatting.chats b
  active_asks
    | .inl a, v, id => Chatting.active_asks a v id
    | .inr b, v, id => Chatting.active_asks b v id
  read_asks
    | .inl a, v, p, id => Chatting.read_asks a v p id
    | .inr b, v, p, id => Chatting.read_asks b v p id
  close_asks
    | .inl a, v, id => Chatting.close_asks a v id
    | .inr b, v, id => Chatting.close_asks b v id
  active_chats
    | .inl a, v => Chatting.active_chats a v
    | .inr b, v => Chatting.active_chats b v
  read_chats
    | .inl a, v, p => Chatting.read_chats a v p
    | .inr b, v, p => Chatting.read_chats b v p
  takeBuffered_chats
    | .inl a, v => Chatting.takeBuffered_chats a v
    | .inr b, v => Chatting.takeBuffered_chats b v

/-- A packet that passed, with the id the connection then bears. -/
def Inspected.passed? {I : Type} [Inspector I] (e : Inspected I) : Option (String × Packet) :=
  match e.verdict with
  | .pass q => some (Inspector.id e.inspector, q)
  | _ => none

namespace Connection

variable {C I H : Type}

theorem absorb_asks (rs : List Request) (ctx : Context) :
    (absorb rs ctx).2 = rs.filterMap (Request.ask? ctx.connectionId) := by
  induction rs generalizing ctx with
  | nil => rfl
  | cons r rs ih =>
    cases r with
    | reply p => exact ih (ctx.reply p)
    | join => exact congrArg (RoomRequest.join :: ·) (ih ctx)
    | leave => exact congrArg (RoomRequest.leave :: ·) (ih ctx)
    | say text =>
      have same : (absorb rs ctx).1.connectionId = ctx.connectionId := absorb_connectionId rs ctx
      simp [absorb, Request.ask?, same, ih ctx]

section

variable {react : H → View → Reaction H} {note : H → Context → Call H} {chats : H → Bool}

/-- Each handler that chats asks the same. -/
theorem callAll_asks {ask : String → RoomRequest}
    (hask : ∀ h v id, (react h v).requests.filterMap (Request.ask? id) =
      if chats h then [ask id] else []) (hs : List H) (ctx : Context) :
    (callAll react note hs ctx).2.2.requests =
      List.replicate (hs.countP chats) (ask ctx.connectionId) := by
  induction hs generalizing ctx with
  | nil => rfl
  | cons h hs ih =>
    simp only [callAll, Log.requests_append, ih, absorb_connectionId, absorb_asks, hask]
    by_cases hchats : chats h
    · simp [hchats, List.replicate_succ]
    · simp [hchats]

theorem callAll_chats (same : ∀ h v, chats (react h v).handler = chats h) (hs : List H)
    (ctx : Context) : (callAll react note hs ctx).1.countP chats = hs.countP chats := by
  induction hs generalizing ctx with
  | nil => rfl
  | cons h hs ih => simp [callAll, List.countP_cons, same, ih]

end

variable [Handler H] [Chatting H]

/-- How many handlers of a connection chat. -/
def chats (c : Connection C I H) : Nat :=
  match c.stages with
  | some st => st.handlers.countP Chatting.chats
  | none => 0

theorem chats_of_stages {c : Connection C I H} {st : Stages C I H} (h : c.stages = some st) :
    c.chats = st.handlers.countP Chatting.chats := by simp [chats, h]

theorem takeBuffered_chats (hs : List H) (ctx : Context) :
    (takeBuffered hs ctx).2.1.countP Chatting.chats = hs.countP Chatting.chats := by
  induction hs generalizing ctx with
  | nil => rfl
  | cons h hs ih => simp [takeBuffered, List.countP_cons, Chatting.takeBuffered_chats, ih]

/-- What `n` handlers that chat say of packets that pass. -/
def sayings (n : Nat) (passed : List (String × Packet)) : List RoomRequest :=
  passed.flatMap fun m => List.replicate n (.say m.1 (StandardHandler.spoken m.2.payload))

section

variable [Inspector I]

theorem inspectAll_asks (now : Time) (packets : List Packet) (st : Stages C I H) (ctx : Context) :
    (inspectAll now packets st ctx).2.2.2.requests = sayings (st.handlers.countP Chatting.chats)
        ((inspectionsMade now st.inspector packets).filterMap Inspected.passed?) ∧
      (inspectAll now packets st ctx).2.1.handlers.countP Chatting.chats =
        st.handlers.countP Chatting.chats := by
  induction packets generalizing st ctx with
  | nil => exact ⟨rfl, rfl⟩
  | cons p ps ih =>
    obtain ⟨verdict, j, h⟩ : ∃ verdict j, Inspector.inspect st.inspector now p = (verdict, j) :=
      ⟨_, _, rfl⟩
    rw [inspectionsMade_cons, h]
    cases verdict with
    | pass q =>
      -- The handlers are called under the id that the inspector has after this very packet.
      let named := { ctx with connectionId := Inspector.id j }
      have hoffers : (offerAll q st.handlers named).2.2.requests = _ :=
        callAll_asks (fun h v id => Chatting.read_asks h v q id) st.handlers named
      have hkept : (offerAll q st.handlers named).1.countP Chatting.chats = _ :=
        callAll_chats (fun h v => Chatting.read_chats h v q) st.handlers named
      obtain ⟨hrest, hlast⟩ := ih
        { st with inspector := j, handlers := (offerAll q st.handlers named).1 }
        (offerAll q st.handlers named).2.1
      simp only [inspectAll, h]
      refine ⟨?_, hlast.trans hkept⟩
      rw [Log.requests_append, Log.requests_append, hrest, hoffers, hkept]
      simp [Log.call, sayings, Inspected.passed?, named]
    | filter =>
      simp only [inspectAll, h]
      exact ih { st with inspector := j } { ctx with connectionId := Inspector.id j }
    | reject failure =>
      simp only [inspectAll, h]
      exact ⟨rfl, trivial⟩

variable [Codec C]

/-- The packets that pass the inspector when something is done to a connection, each with the id the
connection then bears. -/
def passes (c : Connection C I H) (s : DelayService) : Op → List (String × Packet)
  | .write bytes => match c.stages with
    | some st => match (Codec.decode st.codec c.id bytes).1 with
      | .ok packets => (inspectionsMade s.now st.inspector packets).filterMap Inspected.passed?
      | .error _ => []
    | none => []
  | _ => []

/-- A connection stays at its address and keeps its handlers that chat. They have said what they had
to say, and leave with their connection. -/
structure Asks (c : Connection C I H) (said : List RoomRequest) (c' : Connection C I H)
    (requests : List RoomRequest) : Prop where
  peer : c'.context.peer = c.context.peer
  chats : c'.isOpen = true → c'.chats = c.chats
  requests : requests = said ++ if c'.isOpen then [] else List.replicate c.chats .leave

variable {c c' : Connection C I H} {st st' : Stages C I H} {s : DelayService}

omit [Inspector I] [Codec C] in
theorem asks_of_open (hst : c.stages = some st) (c' : Connection C I H)
    (hst' : c'.stages = some st')
    (hpeer : c'.context.peer = c.context.peer)
    (hkept : st'.handlers.countP Chatting.chats = st.handlers.countP Chatting.chats)
    (said : List RoomRequest) : Asks c said c' said := by
  refine ⟨hpeer, fun _ => ?_, ?_⟩
  · rw [chats_of_stages hst, chats_of_stages hst', hkept]
  · simp [isOpen, hst']

theorem close_asks (hst : c.stages = some st) (said : List RoomRequest) :
    Asks c said (c.close s).1 (said ++ (c.close s).2.2.requests) := by
  obtain ⟨ps, hps⟩ := callAll_context Handler.close (fun h ctx => .closeHandler h ctx.pending)
    st.handlers c.context
  refine ⟨?_, fun h => ?_, ?_⟩
  · simp [close, hst, hps, Context.clear]
  · rw [close_isOpen] at h
    cases h
  · have hleave : (c.close s).2.2.requests = List.replicate c.chats .leave := by
      simp only [close, hst, Log.requests_append, callAll_asks Chatting.close_asks,
        chats_of_stages hst]
      rfl
    rw [close_isOpen, hleave]
    rfl

/-- Closing asks the same when the inspector and the handlers have gone on before. -/
theorem close_asks_behind (hst : c.stages = some st) (c' : Connection C I H)
    (hst' : c'.stages = some st')
    (hpeer : c'.context.peer = c.context.peer)
    (hkept : st'.handlers.countP Chatting.chats = st.handlers.countP Chatting.chats)
    (said : List RoomRequest) :
    Asks c said (c'.close s).1 (said ++ (c'.close s).2.2.requests) := by
  have same : c'.chats = c.chats := by rw [chats_of_stages hst, chats_of_stages hst', hkept]
  have closed : Asks c' said (c'.close s).1 (said ++ (c'.close s).2.2.requests) :=
    close_asks hst' said
  exact ⟨closed.peer.trans hpeer, fun h => (closed.chats h).trans same, same ▸ closed.requests⟩

theorem write_asks (hst : c.stages = some st) (bytes : Bytes) (s : DelayService) :
    Asks c (sayings c.chats (c.passes s (.write bytes))) (c.write bytes s).2.1
      (c.write bytes s).2.2.2.requests := by
  rcases write_cases hst bytes s with ⟨e, codec, hd, hw⟩ | ⟨packets, codec, refusal, left, ctx,
    log, hd, hi, hnone, hsome⟩
  · have hpasses : c.passes s (.write bytes) = [] := by simp [passes, hst, hd]
    rw [hw, hpasses]
    exact close_asks_behind hst { c with stages := some { st with codec } } rfl rfl rfl []
  · obtain ⟨hsaid, hkept⟩ := inspectAll_asks s.now packets { st with codec } c.context
    have hpeer := (inspectAll_frame s.now packets { st with codec } c.context).2
    have hpasses : c.passes s (.write bytes) =
        (inspectionsMade s.now st.inspector packets).filterMap Inspected.passed? := by
      simp [passes, hst, hd]
    rw [hi] at hsaid hkept hpeer
    rw [hpasses, chats_of_stages hst, ← hsaid]
    cases refusal with
    | none =>
      rw [hnone rfl]
      exact asks_of_open hst _ rfl hpeer hkept log.requests
    | some failure =>
      rw [hsome failure rfl]
      exact close_asks_behind hst { c with context := ctx, stages := some left } rfl hpeer hkept
        log.requests

/-- What a connection asks of the room does not depend on what its handlers answer. -/
theorem perform_asks (hst : c.stages = some st) (s : DelayService) (op : Op) :
    Asks c (sayings c.chats (c.passes s op)) (c.perform s op).1
      (c.perform s op).2.2.requests := by
  cases op with
  | write bytes => exact write_asks hst bytes s
  | read n =>
    have hread : (c.read n s).2.1.stages = some { (flush st c.context s).1 with
        codec :=
          (Codec.read (flush st c.context s).1.codec n (flush st c.context s).2.2).2.1 } := by
      simp [read, hst]
    obtain ⟨ps, hps⟩ := flush_context st c.context s
    have hpeer : (c.read n s).2.1.context.peer = c.context.peer := by simp [read, hst, hps]
    exact asks_of_open hst _ hread hpeer (takeBuffered_chats st.handlers _) []
  | close => exact close_asks hst []
  | updateInterest => exact asks_of_open hst (c.updateInterest s) hst rfl rfl []
  | timedOut =>
    have hlate : (c.timedOut s.now).2.stages =
        some { st with inspector := (Inspector.timedOut st.inspector s.now).2 } := by
      simp [timedOut, hst]
    have hpeer : (c.timedOut s.now).2.context.peer = c.context.peer := by simp [timedOut, hst]
    exact asks_of_open hst _ hlate hpeer rfl []

/-- A new connection joins with each of its handlers that chat. -/
theorem new_asks (ctx : Context) (codec : C) (inspector : I) (hs : List H) :
    (Connection.new ctx codec inspector hs).2.requests =
        List.replicate (hs.countP Chatting.chats) .join ∧
      (Connection.new ctx codec inspector hs).1.chats = hs.countP Chatting.chats := by
  rw [new_requests]
  exact ⟨callAll_asks Chatting.active_asks hs _, callAll_chats Chatting.active_chats hs _⟩

end

end Connection

end Switchboard
