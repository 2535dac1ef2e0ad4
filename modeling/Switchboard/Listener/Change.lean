import Switchboard.Listener.Config

namespace Switchboard

inductive ChangeKind where
  | add
  | remove
  | update
  deriving DecidableEq, Repr

namespace ChangeKind

def name : ChangeKind → String
  | add => "Add"
  | remove => "Remove"
  | update => "Update"

def ofName? (s : String) : Option ChangeKind := [add, remove, update].find? fun k => k.name == s

end ChangeKind

/-- One step from a set of listeners to the one that is wanted. -/
structure ListenerChange where
  kind : ChangeKind
  config : ListenerConfig
  deriving Repr

namespace ListenerChange

instance : BEq ListenerChange := ⟨fun a b => a.kind == b.kind && a.config == b.config⟩

/-- Asks for a listener to be removed; only the id matters. -/
def removal (id : String) : ListenerChange := ⟨.remove, .new id 0⟩

/-- The descriptions of listeners under their ids. -/
abbrev Snapshot := Table ListenerConfig

/-- A snapshot with the given descriptions; of two with one id the later counts. -/
def Snapshot.ofList (configs : List ListenerConfig) : Snapshot :=
  configs.foldl (fun t c => t.insert c.id c) .empty

/-- The removals that lead from one snapshot to another. -/
def removals (previous next : Snapshot) : List ListenerChange :=
  (previous.entries.filter fun e => !next.contains e.1).map fun e => ⟨.remove, e.2⟩

/-- What is new or different in the entry of an id. -/
def change? (previous : Snapshot) (id : String) (config : ListenerConfig) :
    Option ListenerChange :=
  match previous.get? id with
  | none => some ⟨.add, config⟩
  | some old => if old == config then none else some ⟨.update, config⟩

/-- The changes that lead from one snapshot to another: at most one for an id, removals first. -/
def between (previous next : Snapshot) : List ListenerChange :=
  removals previous next ++ next.entries.filterMap fun e => change? previous e.1 e.2

end ListenerChange

/-- Where a server learns which listeners are wanted. -/
class ListenerSource (T : Type) where
  /-- The changes since the last poll. -/
  poll : T → List ListenerChange × T
  /-- Takes back changes that could not be carried out. -/
  rejected : T → List ListenerChange → T

/-- Sources of one kind or another. -/
instance {A B : Type} [ListenerSource A] [ListenerSource B] : ListenerSource (A ⊕ B) where
  poll
    | .inl a => (ListenerSource.poll a).map id .inl
    | .inr b => (ListenerSource.poll b).map id .inr
  rejected
    | .inl a, changes => .inl (ListenerSource.rejected a changes)
    | .inr b, changes => .inr (ListenerSource.rejected b changes)

end Switchboard
