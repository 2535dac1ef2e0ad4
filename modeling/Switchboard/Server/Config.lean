import Switchboard.Delay.Queue
import Switchboard.Host

namespace Switchboard

/-- The settings of a server; times are in microseconds. -/
structure ServerConfig where
  serverId : String := "portico"
  /-- The address listeners are bound to. -/
  bindHost : Host := .unspecified
  /-- The longest wait for something to happen. -/
  pollTimeout : Nat := 1000000
  /-- The least time between two searches for silent connections. -/
  sweepInterval : Nat := 1000000
  readBufferSize : Nat := 8192
  /-- How many events one iteration handles. -/
  maxEvents : Nat := 1024
  /-- How many wakes are told apart; when there are more, every connection is looked at. -/
  notifyCapacity : Nat := 1024
  readBufferSize_pos : 0 < readBufferSize := by decide
  maxEvents_pos : 0 < maxEvents := by decide
  notifyCapacity_pos : 0 < notifyCapacity := by decide

namespace ServerConfig

/-- Sizes of zero count as one. -/
def withReadBufferSize (c : ServerConfig) (n : Nat) : ServerConfig :=
  { c with readBufferSize := max n 1, readBufferSize_pos := by omega }

def withMaxEvents (c : ServerConfig) (n : Nat) : ServerConfig :=
  { c with maxEvents := max n 1, maxEvents_pos := by omega }

def withNotifyCapacity (c : ServerConfig) (n : Nat) : ServerConfig :=
  { c with notifyCapacity := max n 1, notifyCapacity_pos := by omega }

end ServerConfig

end Switchboard
