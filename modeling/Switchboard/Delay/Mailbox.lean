import Switchboard.Delay.Queue

namespace Switchboard

/-- A sink that keeps what it takes, under a name and with room for a number of items. -/
structure Mailbox (α : Type) where
  name : String
  /-- Mailboxes with one key are one destination. -/
  key : Nat
  /-- How many items it still takes; nothing means any number. -/
  room : Option Nat := none
  gone : Bool := false
  taken : List α := []
  /-- How many of them were looked at. -/
  seen : Nat := 0

namespace Mailbox

variable {α : Type}

def offer (item : α) (m : Mailbox α) : Answer × Mailbox α :=
  if m.gone then (.gone, m)
  else if m.room = some 0 then (.full, m)
  else (.delivered, { m with room := m.room.map (· - 1), taken := m.taken ++ [item] })

/-- What it has taken and nobody has looked at. -/
def fresh (m : Mailbox α) : List α := m.taken.drop m.seen

def markSeen (m : Mailbox α) : Mailbox α := { m with seen := m.taken.length }

/-- Changes the mailboxes of a name. -/
def update (name : String) (f : Mailbox α → Mailbox α) (ms : List (Mailbox α)) :
    List (Mailbox α) :=
  ms.map fun m => if m.name = name then f m else m

def grow (n : Nat) (m : Mailbox α) : Mailbox α := { m with room := m.room.map (· + n) }

/-- Mailboxes as sinks, by name and key; one that is not there is gone. -/
def outlet : Outlet (String × Nat) α (List (Mailbox α)) where
  key := Prod.snd
  offer sink item ms :=
    match ms.find? fun m => m.name == sink.1 with
    | none => (.gone, ms)
    | some m =>
      let (answer, m) := m.offer item
      (answer, update sink.1 (fun _ => m) ms)

end Mailbox

end Switchboard
