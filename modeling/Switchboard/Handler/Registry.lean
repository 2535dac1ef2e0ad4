import Switchboard.Handler.Diagnostic
import Switchboard.Handler.Settings
import Switchboard.Handler.Standard
import Switchboard.Listener.Config

namespace Switchboard

/-- How handlers are made from their settings, by the kind they are registered under; what goes
wrong is described in a sentence. -/
abbrev HandlerRegistry (H : Type) := Table (SettingsReader H)

namespace HandlerRegistry

variable {H : Type}

def make (r : HandlerRegistry H) (config : HandlerConfig) : Except Error H :=
  match r.get? config.kind with
  | none => .error
      (.construction "handler" config.kind "no handler registered under this type")
  | some maker => (maker config.config).mapError (.construction "handler" config.kind)

/-- The handlers that can be made, in order; the others are left out. -/
def makeAll (r : HandlerRegistry H) (configs : List HandlerConfig) : List H :=
  configs.filterMap fun c => (r.make c).toOption

end HandlerRegistry

namespace StandardHandler

/-- The settings of the handler for capitals: the text in front of every reply. -/
def readUppercase : SettingsReader StandardHandler :=
  Settings.record "UppercaseConfig" ["prefix"] (uppercase "") fun h name j =>
    if name = "prefix" then uppercase <$> Settings.text j else .ok h

/-- The kinds of the handlers that come with the server. -/
def makers : List (String × SettingsReader StandardHandler) :=
  [("echo", fun _ => .ok echo), ("uppercase", readUppercase), ("chat", fun _ => .ok chat)]

end StandardHandler

namespace HandlerRegistry

def ofList {H : Type} (makers : List (String × SettingsReader H)) : HandlerRegistry H :=
  makers.foldl (fun t m => t.insert m.1 m.2) .empty

def standard : HandlerRegistry StandardHandler := ofList StandardHandler.makers

/-- The standard handlers and those for diagnosis. -/
def diagnostic : HandlerRegistry (StandardHandler ⊕ DiagnosticHandler) := ofList <|
  (StandardHandler.makers.map fun m => (m.1, fun j => Sum.inl <$> m.2 j)) ++
    DiagnosticHandler.makers.map fun m => (m.1, fun j => Sum.inr <$> m.2 j)

end HandlerRegistry

end Switchboard
