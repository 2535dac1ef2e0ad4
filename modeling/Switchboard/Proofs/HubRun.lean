import Switchboard.Listener.Stages
import Switchboard.Proofs.ConnectionSteps
import Switchboard.Proofs.RoomTalk

namespace Switchboard

open Connection

/-- What can happen to the connections that are made with a registry: besides what is done to one
of them, time passes and the worker that delays output does its work. -/
inductive HubEvent where
  | connect (config : ListenerConfig) (serverId : String) (peer : Peer) (scheduler : Bool)
      (waker : Option Waker)
  | act (token : Nat) (op : Op)
  | drop (token : Nat)
  | tick (microseconds : Nat)
  | takeSubmission
  | fire

/-- Connections, the tokens and channel keys not given out yet, all that was said so far, and all
packets that were encoded for one of the connections. -/
structure World (H : Type) where
  hub : Hub BuiltCodec BuiltInspector H := {}
  nextToken : Nat := 0
  nextKey : Nat := 0
  heard : List Talk := []
  encoded : List (Nat × Packet) := []

namespace World

variable {H : Type}

def settle (w : World H) (token : Nat) (c : Connection BuiltCodec BuiltInspector H)
    (s : DelayService) (requests : List RoomRequest) : World H :=
  { w with
    hub := w.hub.settle token c s requests
    heard := w.heard ++ RoomRequest.talkAll token c.context.peer w.hub.room requests }

def hand (w : World H) (token : Nat) (ps : List Packet) : World H :=
  { w with encoded := w.encoded ++ ps.map fun p => (token, p) }

def setDelays (w : World H) (s : DelayService) : World H :=
  { w with hub := { w.hub with delays := s } }

def forget (w : World H) (token : Nat) : World H :=
  { w with hub := { w.hub with
    connections := w.hub.connections.filter fun e => e.1 != token } }

variable [Handler H]

def act (w : World H) (token : Nat) (op : Op) : World H :=
  match w.hub.get? token with
  | none => w
  | some c =>
    let (c', s, log) := c.perform w.hub.delays op
    (w.hand token (c.encodes op)).settle token c' s log.requests

/-- The next connection; one that cannot be made changes nothing. -/
def connect (w : World H) (registry : HandlerRegistry H) (config : ListenerConfig)
    (serverId : String) (peer : Peer) (scheduler : Bool) (waker : Option Waker) : World H :=
  match config.stages registry peer w.hub.delays.now scheduler w.nextKey with
  | .error _ => w
  | .ok (stages, nextKey) =>
    let (c, log) := Connection.new (.new serverId config.id peer waker) stages.codec
      stages.inspector stages.handlers
    { w with nextToken := w.nextToken + 1, nextKey }.settle w.nextToken c w.hub.delays log.requests

def step (registry : HandlerRegistry H) (w : World H) : HubEvent → World H
  | .connect config serverId peer scheduler waker =>
    w.connect registry config serverId peer scheduler waker
  | .act token op => w.act token op
  | .drop token => (w.act token .close).forget token
  | .tick microseconds => w.setDelays { w.hub.delays with
      worker := { w.hub.delays.worker with now := w.hub.delays.now + microseconds } }
  | .takeSubmission => w.setDelays w.hub.delays.takeSubmission
  | .fire => w.setDelays w.hub.delays.fire

def run (registry : HandlerRegistry H) (events : List HubEvent) : World H :=
  events.foldl (step registry) {}

theorem run_concat (registry : HandlerRegistry H) (events : List HubEvent) (e : HubEvent) :
    run registry (events ++ [e]) = step registry (run registry events) e := by
  simp [run]

/-- Acting is what the hub does. -/
theorem act_hub (w : World H) (token n : Nat) (bytes : Bytes) :
    (w.act token (.write bytes)).hub = ((w.hub.write token bytes).map (·.2.1)).getD w.hub ∧
      (w.act token (.read n)).hub = ((w.hub.read token n).map (·.2)).getD w.hub ∧
      (w.act token .close).hub = ((w.hub.close token).map (·.1)).getD w.hub := by
  unfold act Hub.write Hub.read Hub.close Hub.act
  cases w.hub.get? token <;> exact ⟨rfl, rfl, rfl⟩

end World

end Switchboard
