import Switchboard.Listener.Change

namespace Switchboard

/-- Changes sent by hand that wait to be polled, the oldest first. -/
structure ListenerFeed where
  waiting : List ListenerChange := []

namespace ListenerFeed

def send (f : ListenerFeed) (c : ListenerChange) : ListenerFeed := ⟨f.waiting ++ [c]⟩

/-- Whether a change may be carried out; a removal needs no valid description. -/
def isValid (c : ListenerChange) : Bool :=
  c.kind == .remove || c.config.validate matches .ok ()

/-- The valid ones of the changes sent since the last poll. -/
def poll (f : ListenerFeed) : List ListenerChange × ListenerFeed :=
  (f.waiting.filter isValid, {})

instance : ListenerSource ListenerFeed where
  poll := poll
  rejected f _ := f

end ListenerFeed

end Switchboard
