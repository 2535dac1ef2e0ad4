import Switchboard.Codec.Built
import Switchboard.Connection
import Switchboard.Handler.Registry

namespace Switchboard

namespace ListenerConfig

variable {H : Type}

/-- What a new connection of the listener consists of, and the next free channel key. A codec that
cannot be built fails the connection; handlers that cannot be made are left out. -/
def stages (c : ListenerConfig) (registry : HandlerRegistry H) (peer : Peer) (now : Time)
    (scheduler : Bool) (key : Nat) : Except Error (Stages BuiltCodec BuiltInspector H × Nat) := do
  let (codec, key) ← BuiltCodec.build c.codec scheduler key
  return (⟨codec, c.inspector.build peer now, registry.makeAll c.handlers⟩, key)

end ListenerConfig

end Switchboard
