import Switchboard.Listener.Change
import Switchboard.Server.Basic

namespace Switchboard

namespace Server

variable {N T H : Type} [Network N]

/-- Binds a new listener. -/
def addListener (s : Server N T H) (config : ListenerConfig) : Except Error Unit × Server N T H :=
  let token := s.nextToken
  let s := { s with nextToken := token + 1 }
  match config.validate with
  | .error e => (.error (.config e), s)
  | .ok () =>
    if s.listeners.contains config.id then (.error (.config (.alreadyBound config.id)), s)
    else match Network.bind s.network token s.config.bindHost config.port with
      | (none, network) => (.error .io, { s with network })
      | (some address, network) => (.ok (), { s with
          network
          listeners := s.listeners.insert config.id { config, token, address }
          tokenIds := (token, config.id) :: s.tokenIds.filter fun e => e.1 != token })

/-- Changes what new connections of a listener are made from; those that are there stay as they
are. -/
def updateListener (s : Server N T H) (config : ListenerConfig) :
    Except Error (List String) × Server N T H :=
  match config.validate with
  | .error e => (.error (.config e), s)
  | .ok () => match s.listeners.get? config.id with
    | none => (.error (.unknownListener config.id), s)
    | some l => match l.config.applyUpdate config with
      | .error e => (.error e, s)
      | .ok (changed, next) =>
        (.ok changed, if changed.isEmpty then s
          else { s with listeners := s.listeners.insert config.id { l with config := next } })

/-- Releases a listener; its connections stay. -/
def removeListener (s : Server N T H) (id : String) : Except Error Unit × Server N T H :=
  match s.listeners.get? id with
  | none => (.error (.unknownListener id), s)
  | some l => (.ok (), { s with
      network := Network.release s.network l.token
      listeners := s.listeners.erase id
      tokenIds := s.tokenIds.filter fun e => e.1 != l.token })

/-- Carries out a change. A listener that is bound already is updated instead of added. -/
def apply (s : Server N T H) (c : ListenerChange) : Except Error Unit × Server N T H :=
  match c.kind with
  | .remove => s.removeListener c.config.id
  | .update =>
    let (result, s) := s.updateListener c.config
    (result.map fun _ => (), s)
  | .add =>
    if s.listeners.contains c.config.id then
      let (result, s) := s.updateListener c.config
      (result.map fun _ => (), s)
    else s.addListener c.config

/-- Whether a change that failed is handed back, for the source to offer it again: what could not
be bound, and what was to be updated and is not bound. -/
def isHandedBack : ChangeKind → Error → Bool
  | .add, _ => true
  | .update, .unknownListener _ => true
  | _, _ => false

/-- Carries out changes in turn, and tells which are to be handed back. -/
def applyAll : List ListenerChange → Server N T H → List ListenerChange × Server N T H
  | [], s => ([], s)
  | c :: cs, s =>
    let (result, s) := s.apply c
    let (back, s) := applyAll cs s
    match result with
    | .ok () => (back, s)
    | .error e => (if isHandedBack c.kind e then c :: back else back, s)

/-- Asks the source for changes and carries them out. -/
def reconcile [ListenerSource T] (s : Server N T H) : Server N T H :=
  let (changes, source) := ListenerSource.poll s.source
  let (back, s) := applyAll changes { s with source }
  if back.isEmpty then s else { s with source := ListenerSource.rejected s.source back }

end Server

end Switchboard
