import Switchboard.Delay.Scheduler
import Switchboard.Packet

namespace Switchboard

/-- Names what is to be told that output has become available. -/
abbrev Waker := Nat

/-- Where delayed packets go: the channel of one codec, and who is told of each of them. -/
structure DelaySink where
  key : Nat
  waker : Option Waker

/-- The packets handed to a codec that it has not taken yet. -/
structure DueChannel where
  packets : List Packet := []
  connected : Bool := true

/-- The channels to the codecs, and everyone told of a packet so far, the last one first. -/
structure Handover where
  channels : List (Nat × DueChannel) := []
  wakes : List Waker := []

namespace Handover

/-- How many packets may wait in the channel to one codec. -/
def capacity : Nat := 256

def channel (h : Handover) (key : Nat) : DueChannel := (h.channels.lookup key).getD {}

def setChannel (h : Handover) (key : Nat) (c : DueChannel) : Handover :=
  { h with channels := (key, c) :: h.channels.filter fun p => p.1 != key }

/-- Hands a packet to a codec and tells its owner. -/
def offer (sink : DelaySink) (packet : Packet) (h : Handover) : Answer × Handover :=
  let c := h.channel sink.key
  if !c.connected then (.gone, h)
  else if capacity ≤ c.packets.length then (.full, h)
  else
    let h := h.setChannel sink.key { c with packets := c.packets ++ [packet] }
    (.delivered, { h with wakes := sink.waker.toList ++ h.wakes })

def outlet : Outlet DelaySink Packet Handover := ⟨DelaySink.key, offer⟩

end Handover

/-- The worker that holds packets back, shared by all codecs that delay their output. -/
structure DelayService where
  worker : Scheduler DelaySink Packet := {}
  handover : Handover := {}

namespace DelayService

def now (s : DelayService) : Time := s.worker.now

/-- Accepts a packet while the worker runs. -/
def submit (s : DelayService) (delay : Nat) (packet : Packet) (sink : DelaySink) :
    Bool × DelayService :=
  let (accepted, worker) := s.worker.submit delay packet sink
  (accepted, { s with worker })

def ofPair (r : Scheduler DelaySink Packet × Handover) : DelayService := ⟨r.1, r.2⟩

/-- Starts the worker unless it is running. -/
def start (s : DelayService) : DelayService :=
  if s.worker.running then s else { s with worker := { now := s.worker.now } }

def takeSubmission (s : DelayService) : DelayService :=
  ofPair (s.worker.takeSubmission Handover.outlet s.handover)

def fire (s : DelayService) : DelayService := ofPair (s.worker.fire Handover.outlet s.handover)

def settle (s : DelayService) : DelayService := ofPair (s.worker.settle Handover.outlet s.handover)

def advance (s : DelayService) (microseconds : Nat) : DelayService :=
  ofPair (s.worker.advance Handover.outlet microseconds s.handover)

def stop (s : DelayService) : DelayService := ofPair (s.worker.stop Handover.outlet s.handover)

/-- How often someone was told of output. -/
def wakesOf (s : DelayService) (w : Waker) : Nat := s.handover.wakes.count w

/-- Lets time pass until `w` was told `n` times, for at most `fuel` deadlines. -/
def awaitWakes (s : DelayService) (w : Waker) (n fuel : Nat) : DelayService :=
  ofPair (s.worker.advanceUntil Handover.outlet (fun h => n ≤ h.wakes.count w) fuel s.handover)

/-- Takes the packets out of the channel to a codec. -/
def takeDue (s : DelayService) (key : Nat) : List Packet × DelayService :=
  let c := s.handover.channel key
  if c.packets.isEmpty then ([], s)
  else (c.packets, { s with handover := s.handover.setChannel key { c with packets := [] } })

/-- Whether the channel to a codec holds packets. -/
def hasDue (s : DelayService) (key : Nat) : Bool := !(s.handover.channel key).packets.isEmpty

/-- The codec is gone: nothing is handed to it any more. -/
def disconnect (s : DelayService) (key : Nat) : DelayService :=
  { s with handover := s.handover.setChannel key { packets := [], connected := false } }

/-- Tells someone of output. -/
def wake (s : DelayService) (w : Waker) : DelayService :=
  { s with handover := { s.handover with wakes := w :: s.handover.wakes } }

/-- Everyone told of output since they were asked for last, the last one first. -/
def takeWakes (s : DelayService) : List Waker × DelayService :=
  (s.handover.wakes, { s with handover := { s.handover with wakes := [] } })

end DelayService

end Switchboard
