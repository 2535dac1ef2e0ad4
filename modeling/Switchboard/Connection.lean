import Switchboard.Codec
import Switchboard.Handler
import Switchboard.Inspector

namespace Switchboard

/-- What handlers share with their connection: who is connected, where, and the replies that wait to
be encoded. -/
structure Context where
  serverId : String
  listenerId : String
  peer : Peer
  connectionId : String
  replies : List Packet := []
  /-- Who is told of output made outside of reading. -/
  waker : Option Waker := none

namespace Context

def new (serverId listenerId : String) (peer : Peer) (waker : Option Waker) : Context :=
  { serverId, listenerId, peer, connectionId := peer.text, waker }

def pending (c : Context) : Bool := !c.replies.isEmpty

def view (c : Context) : View :=
  ⟨c.serverId, c.listenerId, c.peer, c.connectionId, c.pending⟩

def reply (c : Context) (p : Packet) : Context := { c with replies := c.replies ++ [p] }

def clear (c : Context) : Context := { c with replies := [], waker := none }

/-- The context in one line, for messages. -/
def describe (c : Context) : String :=
  "Context \x7b server_id: " ++ Text.quoted c.serverId ++ ", listener_id: " ++
    Text.quoted c.listenerId ++ ", remote_addr: " ++ c.peer.text ++ ", connection_id: " ++
    Text.quoted c.connectionId ++ " \x7d"

end Context

/-- What a connection does to the room when its handlers ask for it. -/
inductive RoomRequest where
  | join
  | leave
  /-- Sends a text to the other members, in the name of an id. -/
  | say (sender text : String)

/-- A call of a connection to one of its parts. -/
inductive Call (H : Type) where
  | setWaker
  | activate (handler : H) (connectionId : String)
  | inspect (packet : Packet)
  | offer (handler : H) (connectionId : String) (packet : Packet)
  | closeChannel
  | closeCodec
  | closeInspector
  | closeHandler (handler : H) (pending : Bool)

/-- The calls a connection made, in order, and what is asked of the room. -/
structure Log (H : Type) where
  calls : List (Call H) := []
  requests : List RoomRequest := []

namespace Log

variable {H : Type}

instance : Append (Log H) := ⟨fun a b => ⟨a.calls ++ b.calls, a.requests ++ b.requests⟩⟩

def call (c : Call H) : Log H := ⟨[c], []⟩

@[simp] theorem calls_append (a b : Log H) : (a ++ b).calls = a.calls ++ b.calls := rfl

@[simp] theorem requests_append (a b : Log H) : (a ++ b).requests = a.requests ++ b.requests := rfl

end Log

/-- The parts between the socket and the application. -/
structure Stages (C I H : Type) where
  codec : C
  inspector : I
  handlers : List H

inductive Interest where
  | read
  | readWrite
  deriving DecidableEq, Repr

namespace Interest

def name : Interest → String
  | read => "Read"
  | readWrite => "ReadWrite"

def wantsWrite : Interest → Bool
  | read => false
  | readWrite => true

end Interest

/-- The session of one client; without stages it is closed. -/
structure Connection (C I H : Type) where
  context : Context
  stages : Option (Stages C I H)
  interest : Interest := .read

namespace Connection

variable {C I H : Type}

/-- Replies are queued; the rest is for the room. -/
def absorb : List Request → Context → Context × List RoomRequest
  | [], ctx => (ctx, [])
  | .reply p :: rs, ctx => absorb rs (ctx.reply p)
  | .join :: rs, ctx =>
    let (ctx, out) := absorb rs ctx
    (ctx, .join :: out)
  | .leave :: rs, ctx =>
    let (ctx, out) := absorb rs ctx
    (ctx, .leave :: out)
  | .say text :: rs, ctx =>
    let (ctx, out) := absorb rs ctx
    (ctx, .say ctx.connectionId text :: out)

/-- Calls every handler in turn with the context the ones before it left. -/
def callAll (react : H → View → Reaction H) (note : H → Context → Call H) :
    List H → Context → List H × Context × Log H
  | [], ctx => ([], ctx, {})
  | h :: hs, ctx =>
    let r := react h ctx.view
    let (next, out) := absorb r.requests ctx
    let (hs, last, log) := callAll react note hs next
    (r.handler :: hs, last, ⟨[note h ctx], out⟩ ++ log)

variable [Codec C] [Inspector I] [Handler H]

/-- Assembles a connection and tells its handlers that it is there. -/
def new (ctx : Context) (codec : C) (inspector : I) (handlers : List H) :
    Connection C I H × Log H :=
  let (codec, log) := match ctx.waker with
    | some w => (Codec.setWaker codec w, Log.call .setWaker)
    | none => (codec, {})
  let ctx := { ctx with connectionId := Inspector.id inspector }
  let (handlers, ctx, calls) :=
    callAll Handler.active (fun h ctx => .activate h ctx.connectionId) handlers ctx
  (⟨ctx, some ⟨codec, inspector, handlers⟩, .read⟩, log ++ calls)

def isOpen (c : Connection C I H) : Bool := c.stages.isSome

def id (c : Connection C I H) : String := c.context.connectionId

def offerAll (p : Packet) (handlers : List H) (ctx : Context) : List H × Context × Log H :=
  callAll (fun h v => Handler.read h v p) (fun h ctx => .offer h ctx.connectionId p) handlers ctx

/-- Inspects packets in turn and offers those that pass to every handler before the next one is
inspected, up to the first that is refused. -/
def inspectAll (now : Time) : List Packet → Stages C I H → Context →
    Option AuthenticationFailure × Stages C I H × Context × Log H
  | [], st, ctx => (none, st, ctx, {})
  | p :: ps, st, ctx =>
    let (verdict, inspector) := Inspector.inspect st.inspector now p
    let ctx := { ctx with connectionId := Inspector.id inspector }
    let st := { st with inspector }
    let log := Log.call (.inspect p)
    match verdict with
    | .pass q =>
      let (handlers, ctx, offers) := offerAll q st.handlers ctx
      let (failure, st, ctx, rest) := inspectAll now ps { st with handlers } ctx
      (failure, st, ctx, log ++ offers ++ rest)
    | .filter =>
      let (failure, st, ctx, rest) := inspectAll now ps st ctx
      (failure, st, ctx, log ++ rest)
    | .reject failure => (some failure, st, ctx, log)

/-- Closes the channel, the codec, the inspector and every handler, in that order; a connection
that is closed stays as it is. -/
def close (c : Connection C I H) (s : DelayService) : Connection C I H × DelayService × Log H :=
  match c.stages with
  | none => (c, s, {})
  | some st =>
    let (codec, s) := Codec.close st.codec s
    let _inspector := Inspector.close st.inspector
    let (_, ctx, log) := callAll Handler.close (fun h ctx => .closeHandler h ctx.pending)
      st.handlers c.context
    (⟨ctx.clear, none, .read⟩, Codec.release codec s,
      ⟨[.closeChannel, .closeCodec, .closeInspector], []⟩ ++ log)

/-- Takes bytes from the client through codec, inspector and handlers. Bytes that cannot be decoded
and packets that are refused close the connection. -/
def write (c : Connection C I H) (bytes : Bytes) (s : DelayService) :
    Except Error Nat × Connection C I H × DelayService × Log H :=
  match c.stages with
  | none => (.error .closed, c, s, {})
  | some st =>
    match Codec.decode st.codec c.id bytes with
    | (.error e, codec) =>
      let (c, s, log) := close { c with stages := some { st with codec } } s
      (.error e, c, s, log)
    | (.ok packets, codec) =>
      let (failure, st, ctx, log) := inspectAll s.now packets { st with codec } c.context
      let c := { c with context := ctx, stages := some st }
      match failure with
      | none => (.ok bytes.length, c, s, log)
      | some failure =>
        let (c, s, more) := close c s
        (.error (.authentication failure), c, s, log ++ more)

/-- Takes the packets the handlers have kept for sending. What they write meanwhile waits. -/
def takeBuffered : List H → Context → List Packet × List H × Context
  | [], ctx => ([], [], ctx)
  | h :: hs, ctx =>
    let y := Handler.takeBuffered h ctx.view
    let (more, hs, ctx) := takeBuffered hs { ctx with replies := ctx.replies ++ y.replies }
    (y.packets ++ more, y.handler :: hs, ctx)

/-- Encodes the replies and then what the handlers have kept; packets that cannot be encoded are
dropped. -/
def flush (st : Stages C I H) (ctx : Context) (s : DelayService) :
    Stages C I H × Context × DelayService :=
  let (codec, s) := Codec.encodeEach ctx.replies st.codec s
  let (packets, handlers, ctx) := takeBuffered st.handlers { ctx with replies := [] }
  let (codec, s) := Codec.encodeEach packets codec s
  ({ st with codec, handlers }, ctx, s)

/-- Takes at most `n` bytes for the client. -/
def read (c : Connection C I H) (n : Nat) (s : DelayService) :
    Except Error Bytes × Connection C I H × DelayService :=
  match c.stages with
  | none => (.error .closed, c, s)
  | some st =>
    let (st, ctx, s) := flush st c.context s
    let (bytes, codec, s) := Codec.read st.codec n s
    (.ok bytes, { c with context := ctx, stages := some { st with codec } }, s)

/-- Takes all bytes for the client in reads of at most `n` bytes. What the handlers write or keep
while they are asked the first time is left for later. -/
def reads (c : Connection C I H) (n : Nat) (s : DelayService) :
    Except Error (List Bytes) × Connection C I H × DelayService :=
  match c.stages with
  | none => (.error .closed, c, s)
  | some st =>
    let (st, ctx, s) := flush st c.context s
    let (chunks, codec, s) := Codec.reads n st.codec s
    (.ok chunks, { c with context := ctx, stages := some { st with codec } }, s)

/-- Whether anything waits to be sent. -/
def pending (c : Connection C I H) (s : DelayService) : Bool :=
  match c.stages with
  | none => false
  | some st => c.context.pending || Codec.pending st.codec s || Inspector.pending st.inspector ||
      st.handlers.any Handler.pending

def updateInterest (c : Connection C I H) (s : DelayService) : Connection C I H :=
  { c with interest := if c.pending s then .readWrite else .read }

/-- Whether the inspector gives the connection up. -/
def timedOut (c : Connection C I H) (now : Time) : Bool × Connection C I H :=
  match c.stages with
  | none => (false, c)
  | some st =>
    let (late, inspector) := Inspector.timedOut st.inspector now
    (late, { c with stages := some { st with inspector } })

end Connection

end Switchboard
