import Switchboard.Server.Listeners
import Switchboard.Server.Sessions

namespace Switchboard

namespace Server

variable {N T H : Type} [Network N] [ListenerSource T] [Handler H]

/-- One round: wakes, sockets, silent clients, and last the changes the source reports. -/
def iterate (s : Server N T H) : Server N T H :=
  let s := s.serviceWoken
  let (events, network) := Network.ready s.network s.config.maxEvents
  (events.foldl handle { s with network }).sweep.reconcile

def iterations : (rounds : Nat) → Server N T H → Server N T H
  | 0, s => s
  | n + 1, s => iterations n s.iterate

/-- Closes all sessions and listeners and stops the worker that delays output. -/
def shutdown (s : Server N T H) : Server N T H :=
  let s := s.hub.tokens.foldl closeSession s
  let network := s.listeners.values.foldl (fun n l => Network.release n l.token) s.network
  { s with
    network
    listeners := .empty
    tokenIds := []
    hub := { s.hub with delays := s.hub.delays.stop } }

/-- Runs until it is told to stop, which happens after some rounds, and shuts down. -/
def run (s : Server N T H) (rounds : Nat) : Server N T H := (iterations rounds s).shutdown

end Server

end Switchboard
