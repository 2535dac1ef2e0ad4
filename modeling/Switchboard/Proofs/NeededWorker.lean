import Switchboard.Network.Loopback
import Switchboard.Listener.Feed
import Switchboard.Handler.Standard
import Switchboard.Proofs.BuildableListeners
import Switchboard.Server.Sessions

namespace Switchboard

/-- What is built does not fail because a part of it cannot be made. -/
def Supplied {α : Type} (x : Except Error α) : Prop :=
  ∀ component tag reason, x ≠ .error (.construction component tag reason)

namespace Supplied

variable {α β : Type} {x : Except Error α} {f : α → Except Error β}

theorem ok (a : α) : Supplied (.ok a) := by
  intro component tag reason h
  cases h

theorem bind (hx : Supplied x) (hf : ∀ a, Supplied (f a)) : Supplied (x >>= f) := by
  cases x with
  | error e =>
    intro component tag reason h
    have same : e = .construction component tag reason := Except.error.inj h
    exact hx component tag reason (congrArg Except.error same)
  | ok a => exact hf a

end Supplied

theorem Framer.new_supplied (delimiter : Bytes) : Supplied (new delimiter) := by
  intro component tag reason h
  rw [new] at h
  split at h <;> cases h

theorem LineCodec.new_supplied (config : LineConfig) (hook : LineHook) :
    Supplied (new config hook) := by
  rw [new]
  cases config.validate with
  | error cause =>
    intro component tag reason h
    cases h
  | ok =>
    cases hd : config.charset.encode .strict config.delimiter with
    | error e =>
      obtain ⟨c, _, _, rfl⟩ := Charset.encode_strict_error hd
      intro component tag reason h
      cases h
    | ok delimiter => exact (Framer.new_supplied delimiter).bind fun _ => .ok _

namespace CodecState

variable {K : Type} [Deflate.Compressor K]

theorem build_without_worker {c : CodecConfig} (h : c.needsScheduler = false) (key : Nat) :
    build (K := K) false c key = build true c key := by
  induction c generalizing key with
  | line config => rfl
  | json config => rfl
  | deflate level inner ih =>
    rw [build, build, ih h key]
  | delay ms inner => cases h
  | split decoder encoder ihd ihe =>
    obtain ⟨hdecoder, hencoder⟩ := Bool.or_eq_false_iff.mp h
    rw [build, build, ihd hdecoder key]
    refine congrArg (_ >>= ·) (funext fun ⟨first, next⟩ => ?_)
    exact congrArg (· >>= _) (ihe hencoder next)

theorem build_fails_without_worker {c : CodecConfig} (h : c.needsScheduler = true) (key : Nat) :
    ∃ e, build (K := K) false c key = .error e := by
  induction c generalizing key with
  | line config => cases h
  | json config => cases h
  | deflate level inner ih =>
    obtain ⟨e, he⟩ := ih h key
    exact ⟨e, by rw [build, he]; rfl⟩
  | delay ms inner => exact ⟨_, rfl⟩
  | split decoder encoder ihd ihe =>
    rcases Bool.or_eq_true_iff.mp h with hdecoder | hencoder
    · obtain ⟨e, he⟩ := ihd hdecoder key
      exact ⟨e, by rw [build, he]; rfl⟩
    · -- the decoder may fail first, and for another reason
      cases hd : build (K := K) false decoder key with
      | error e => exact ⟨e, by rw [build, hd]; rfl⟩
      | ok first =>
        obtain ⟨e, he⟩ := ihe hencoder first.2
        refine ⟨e, ?_⟩
        rw [build, hd]
        show (build false encoder first.2 >>= _) = _
        rw [he]
        rfl

theorem build_supplied (c : CodecConfig) (key : Nat) : Supplied (build (K := K) true c key) := by
  induction c generalizing key with
  | line config => exact (LineCodec.new_supplied config _).bind fun _ => .ok _
  | json config => exact (LineCodec.new_supplied config _).bind fun _ => .ok _
  | deflate level inner ih => exact (ih key).bind fun _ => .ok _
  | delay ms inner ih => exact (ih (key + 1)).bind fun _ => .ok _
  | split decoder encoder ihd ihe =>
    exact (ihd key).bind fun first => (ihe first.2).bind fun _ => .ok _

end CodecState

theorem BuiltCodec.build_without_worker {c : CodecConfig} (key : Nat)
    (h : c.needsScheduler = false) : build c false key = build c true key :=
  congrArg (· >>= _) (CodecState.build_without_worker h key)

namespace Server

variable {N T H : Type}

/-- The server with its worker for delays running, if the codec of a listener needs it. -/
def readyFor (s : Server N T H) (d : ListenerConfig) : Server N T H :=
  { s with hub := { s.hub with
      delays := if d.codec.needsScheduler then s.hub.delays.start else s.hub.delays } }

theorem running_of_readyFor {s : Server N T H} {d : ListenerConfig}
    (needed : d.codec.needsScheduler = true) : (s.readyFor d).hub.delays.worker.running = true := by
  simp only [readyFor, needed, if_true]
  rw [DelayService.start]
  split
  next running => exact running
  next => rfl

variable [Network N]

/-- The server without a client that it has accepted. -/
def turnAway (s : Server N T H) (token : Nat) : Server N T H :=
  { s with network := Network.shut s.network token }

variable [Handler H]

/-- The server with a connection for a client that it has accepted, serviced for the first time. -/
def takeIn (s : Server N T H) (d : ListenerConfig) (token : Nat) (peer : Peer) (codec : BuiltCodec)
    (nextKey : Nat) : Server N T H :=
  let ctx := Context.new s.config.serverId d.id peer (some token)
  let stages := ⟨codec, d.inspector.build peer s.now, s.registry.makeAll d.handlers⟩
  { s with hub := (s.hub.connect token ctx stages).1, nextKey }.service token true

theorem openSession_eq (s : Server N T H) (d : ListenerConfig) (token : Nat) (peer : Peer) :
    s.openSession d token peer =
      match BuiltCodec.build d.codec d.codec.needsScheduler s.nextKey with
      | .error _ => (s.readyFor d).turnAway token
      | .ok (codec, nextKey) => (s.readyFor d).takeIn d token peer codec nextKey := by
  rw [openSession, ListenerConfig.stages]
  cases built : BuiltCodec.build d.codec d.codec.needsScheduler s.nextKey with
  | error e => rfl
  | ok parts => rfl

/-- A codec that needs no worker is built alike with a worker and without, one that needs it is not
built without, and with a worker there is nothing a codec lacks. So a server, which passes its
worker on just where it is needed, makes all connections it could make if it always did. -/
theorem worker_passed_where_needed (c : CodecConfig) (key : Nat) :
    (c.needsScheduler = false → BuiltCodec.build c false key = BuiltCodec.build c true key) ∧
    (c.needsScheduler = true → ∃ e, BuiltCodec.build c false key = .error e) ∧
    (∀ component tag reason,
      BuiltCodec.build c true key ≠ .error (.construction component tag reason)) ∧
    ∀ (s : Server N T H) (d : ListenerConfig) (token : Nat) (peer : Peer),
      (d.codec.needsScheduler = true → (s.readyFor d).hub.delays.worker.running = true) ∧
      s.openSession d token peer = match BuiltCodec.build d.codec true s.nextKey with
        | .error _ => (s.readyFor d).turnAway token
        | .ok (codec, nextKey) => (s.readyFor d).takeIn d token peer codec nextKey := by
  refine ⟨BuiltCodec.build_without_worker key, fun needed => ?_, ?_, fun s d token peer => ?_⟩
  · obtain ⟨e, he⟩ :=
      CodecState.build_fails_without_worker (K := Deflate.StoredBlocks) needed key
    exact ⟨e, congrArg (· >>= _) he⟩
  · exact (CodecState.build_supplied (K := Deflate.StoredBlocks) c key).bind fun _ => .ok _
  · refine ⟨running_of_readyFor, ?_⟩
    rw [openSession_eq]
    cases needed : d.codec.needsScheduler with
    | true => rfl
    | false => rw [BuiltCodec.build_without_worker s.nextKey needed]

/-- Lines in, behind a level that is not valid, and values out that are held back. -/
def heldBack : ListenerConfig :=
  { ListenerConfig.new "held" 0 with
    codec := .split (.deflate 12 (.line {})) (.deflate 6 (.delay 20 (.json {}))) }

theorem worker_passed_where_needed_of_held :
    let plain : CodecConfig := .deflate 12 (.line {})
    let idle : Server Loopback ListenerFeed StandardHandler := .new {} {} {} .standard
    plain.needsScheduler = false ∧
    BuiltCodec.build plain false 0 = BuiltCodec.build plain true 0 ∧
    heldBack.codec.needsScheduler = true ∧
    (∃ e, BuiltCodec.build heldBack.codec false 0 = .error e) ∧
    idle.hub.delays.worker.running = false ∧
    (idle.readyFor heldBack).hub.delays.worker.running = true := by
  intro plain idle
  have free : plain.needsScheduler = false := rfl
  have needed : heldBack.codec.needsScheduler = true := rfl
  have law (c : CodecConfig) := worker_passed_where_needed (N := Loopback) (T := ListenerFeed)
    (H := StandardHandler) c 0
  have started := ((law heldBack.codec).2.2.2 idle heldBack 1 ⟨"127.0.0.1:1", by decide⟩).1 needed
  exact ⟨free, (law plain).1 free, needed, (law heldBack.codec).2.1 needed, rfl, started⟩

end Server

end Switchboard
