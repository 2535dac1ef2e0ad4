import Switchboard.Listener.Change
import Switchboard.Utf8

namespace Switchboard

/-- A file that holds a JSON array of listener descriptions, and what was read from it. -/
structure ListenerFile where
  /-- What the file holds now; nothing when there is no file. -/
  stored : Option Bytes := none
  /-- The text read last, unless it has to be read again. -/
  content : Option String := none
  snapshot : ListenerChange.Snapshot := .empty

namespace ListenerFile

/-- Enters a description; an invalid one leaves the id as it was before. -/
def enter (previous next : ListenerChange.Snapshot) (config : ListenerConfig) :
    ListenerChange.Snapshot :=
  match config.validate, previous.get? config.id with
  | .ok (), _ => next.insert config.id config
  | .error _, some old => next.insert config.id old
  | .error _, none => next

/-- The snapshot a text describes, if it is an array of descriptions at all; of two with one id the
later counts. -/
def parse? (previous : ListenerChange.Snapshot) (text : String) :
    Option ListenerChange.Snapshot :=
  (ListenerConfig.listOfText? text).map fun configs => configs.foldl (enter previous) .empty

/-- Reads the file if it can be read and holds another text than before, and reports what changed.
A text that describes nothing changes nothing. -/
def poll (f : ListenerFile) : List ListenerChange × ListenerFile :=
  match f.stored.bind Utf8.decode? with
  | none => ([], f)
  | some text =>
    if f.content = some text then ([], f)
    else match parse? f.snapshot text with
      | none => ([], { f with content := some text })
      | some next =>
        (ListenerChange.between f.snapshot next, { f with content := some text, snapshot := next })

/-- Forgets an id whose change was rejected, so that the file is read again and offers it anew. -/
def forget (f : ListenerFile) (c : ListenerChange) : ListenerFile :=
  if c.kind ≠ .remove ∧ f.snapshot.contains c.config.id then
    { f with snapshot := f.snapshot.erase c.config.id, content := none }
  else f

def rejected (f : ListenerFile) (changes : List ListenerChange) : ListenerFile :=
  changes.foldl forget f

instance : ListenerSource ListenerFile where
  poll := poll
  rejected := rejected

end ListenerFile

end Switchboard
