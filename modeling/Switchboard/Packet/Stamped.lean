import Switchboard.Packet

namespace Switchboard

/-- When a packet was made: the clock reading, and its place among all packets made. -/
structure Stamp where
  time : Int
  sequence : UInt64
  deriving DecidableEq, Repr

/-- A packet with the stamp it was made under. Packets derived from it keep the stamp. -/
structure Stamped where
  stamp : Stamp
  packet : Packet

/-- Hands out the stamps: `next` is the sequence number of the packet made next. After the last
number comes the first again. -/
structure Mint where
  next : UInt64 := 0

namespace Mint

def make (m : Mint) (time : Int) (packet : Packet) : Stamped × Mint :=
  (⟨⟨time, m.next⟩, packet⟩, ⟨m.next + 1⟩)

end Mint

/-- Earlier clock readings come first, and of equal ones the packet made first. -/
def Stamp.order (a b : Stamp) : Ordering :=
  (compare a.time b.time).then (compare a.sequence b.sequence)

namespace Stamped

def order (a b : Stamped) : Ordering := a.stamp.order b.stamp

/-- Packets count as equal if neither comes first, whatever they hold. -/
instance : BEq Stamped := ⟨fun a b => a.order b == .eq⟩

def withPayload (p : Stamped) (payload : Payload) : Stamped :=
  { p with packet := p.packet.withPayload payload }

def withSource (p : Stamped) (source : String) : Stamped :=
  { p with packet := p.packet.withSource source }

/-- The packets in order; those that compare equal keep their places. -/
def sorted (ps : List Stamped) : List Stamped :=
  ps.mergeSort fun a b => (a.order b).isLE

/-- The packets in order, each with its place before. -/
def sortedWithIndex (ps : List Stamped) : List (Stamped × Nat) :=
  ps.zipIdx.mergeSort fun a b => (a.1.order b.1).isLE

end Stamped

end Switchboard
