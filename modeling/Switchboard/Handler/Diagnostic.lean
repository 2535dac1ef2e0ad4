import Switchboard.Error
import Switchboard.Handler
import Switchboard.Handler.Settings

namespace Switchboard

/-- Handlers for finding out what a connection does. -/
inductive DiagnosticHandler where
  /-- Keeps every packet it sees `copies` times for sending, and fails if it is told to. -/
  | probe (tag : String) (fail : Bool) (copies : UInt32) (kept : List Packet)
  /-- Answers every packet with who is connected to what. -/
  | whoami

namespace DiagnosticHandler

def name : DiagnosticHandler → String
  | probe tag .. => tag
  | whoami => "WhoAmI"

/-- Server, listener, address and id of a connection. -/
def identity (v : View) : String :=
  v.serverId ++ " " ++ v.listenerId ++ " " ++ v.peer.text ++ " " ++ v.connectionId

def read (h : DiagnosticHandler) (v : View) (p : Packet) : Reaction DiagnosticHandler :=
  match h with
  | probe tag fail copies kept => {
      handler := probe tag fail copies (kept ++ List.replicate copies.toNat p)
      failure := if fail then some .closed else none }
  | whoami => { handler := whoami, requests := [.reply (p.withPayload (.text (identity v)))] }

def kept : DiagnosticHandler → List Packet
  | probe _ _ _ kept => kept
  | whoami => []

def forgetKept : DiagnosticHandler → DiagnosticHandler
  | probe tag fail copies _ => probe tag fail copies []
  | whoami => whoami

instance : Handler DiagnosticHandler where
  name := name
  active h _ := { handler := h }
  read := read
  takeBuffered h _ := { handler := h.forgetKept, packets := h.kept }
  pending h := !h.kept.isEmpty
  close h _ := { handler := h }

/-- The settings of a probe. -/
def readProbe : SettingsReader DiagnosticHandler := fun j => do
  let (tag, fail, copies) ← Settings.record "ProbeConfig" ["tag", "fail", "copies"]
    ("probe", false, 0)
    (fun (tag, fail, copies) name j => match name with
      | "tag" => do return (← Settings.text j, fail, copies)
      | "fail" => do return (tag, ← Settings.flag j, copies)
      | "copies" => do return (tag, fail, ← Settings.uint32 j)
      | _ => .ok (tag, fail, copies)) j
  return probe tag fail copies []

/-- The kinds of handlers for diagnosis; one of them can never be made. -/
def makers : List (String × SettingsReader DiagnosticHandler) :=
  [("probe", readProbe), ("whoami", fun _ => .ok whoami), ("refuse", fun _ => .error "refused")]

end DiagnosticHandler

end Switchboard
