import Switchboard.Deflate.Inflater
import Switchboard.Outbox

namespace Switchboard.Deflate

/-- Whether a compressor may hold octets back or has to put out all it has taken. -/
inductive Flush where
  | none
  | sync
  deriving DecidableEq, Repr

open Inflater (blockSize)

/-- Whether a call with the room of a block is to be followed by another one: it filled its room or
left some of the input, and it got somewhere. -/
def CallsAgain (input : Bytes) (taken : Nat) (out : Bytes) : Prop :=
  ¬ (out.length < blockSize ∧ input.drop taken = []) ∧ ¬ (taken = 0 ∧ out = [])

instance (input : Bytes) (taken : Nat) (out : Bytes) : Decidable (CallsAgain input taken out) :=
  inferInstanceAs (Decidable (_ ∧ _))

/-- Something that compresses a stream call by call. -/
class Compressor (K : Type) where
  start : (level : Nat) → K
  /-- Takes a number of octets of the input and puts out at most `room` octets, or fails. -/
  call : K → (input : Bytes) → (room : Nat) → Flush → Option (Nat × Bytes) × K
  /-- A bound for how often calls can fill the room of a block or leave input. A flush that is asked
  for again may well put out something again, but that does not fill the room. -/
  backlog : K → (input : Bytes) → Flush → Nat
  backlog_lt : ∀ {k k' : K} {input out : Bytes} {taken : Nat} {flush : Flush},
    call k input blockSize flush = (some (taken, out), k') → CallsAgain input taken out →
      backlog k' (input.drop taken) flush < backlog k input flush

/-- Calls a compressor until it has taken the input and has room to spare, or gets nowhere; tells
whether no call failed. -/
def deflateInto {K : Type} [Compressor K] (k : K) (input : Bytes) (flush : Flush)
    (output : Outbox) : Bool × K × Outbox :=
  match h : Compressor.call k input blockSize flush with
  | (.none, k') => (false, k', output)
  | (some (taken, out), k') =>
    if again : CallsAgain input taken out then
      have := Compressor.backlog_lt h again
      deflateInto k' (input.drop taken) flush (output.push out)
    else (true, k', output.push out)
termination_by Compressor.backlog k input flush

/-- Sixteen bits, the low octet first. -/
def word16 (n : Nat) : Bytes := [UInt8.ofNat n, UInt8.ofNat (n / 256)]

/-- A block that holds octets as they are. -/
def storedBlock (bytes : Bytes) : Bytes :=
  0 :: (word16 bytes.length ++ word16 (0xFFFF - bytes.length) ++ bytes)

/-- An empty block, which ends on an octet and lets the reader have all that came before it. -/
def syncMarker : Bytes := storedBlock []

/-- A compressor that serves every level with stored blocks, and puts out nothing but when it is
flushed. Every flush puts out an empty block, also when nothing came since the last one, but a call
that brings nothing only gets what earlier calls had no room for, if there is any. -/
structure StoredBlocks where
  /-- Octets it has taken that are in no block yet. -/
  held : Bytes := []
  /-- Octets of blocks it has not put out yet. -/
  ready : Bytes := []

namespace StoredBlocks

def compress (bytes : Bytes) : Bytes :=
  (bytes.pieces blockSize).flatMap storedBlock ++ syncMarker

theorem compress_nil : compress [] = syncMarker := by
  rw [compress, Bytes.pieces, dif_neg (fun h => h.2 rfl)]
  rfl

/-- Octets that are to be put out from now on, and those it goes on to hold. -/
def advance (k : StoredBlocks) (input : Bytes) : Flush → StoredBlocks
  | .none => { k with held := k.held ++ input }
  | .sync => if k.ready ≠ [] ∧ input = [] then k else ⟨[], k.ready ++ compress (k.held ++ input)⟩

def call (k : StoredBlocks) (input : Bytes) (room : Nat) (flush : Flush) :
    Option (Nat × Bytes) × StoredBlocks :=
  let k := k.advance input flush
  (some (input.length, k.ready.take room), { k with ready := k.ready.drop room })

/-- All that can be put out yet, if the next flush comes at once. -/
def backlog (k : StoredBlocks) (input : Bytes) (_flush : Flush) : Nat :=
  k.ready.length + (compress (k.held ++ input)).length

theorem call_eq {k k' : StoredBlocks} {input out : Bytes} {room taken : Nat} {flush : Flush}
    (h : k.call input room flush = (some (taken, out), k')) :
    taken = input.length ∧ out = (k.advance input flush).ready.take room ∧
      k' = { k.advance input flush with ready := (k.advance input flush).ready.drop room } := by
  cases h
  exact ⟨rfl, rfl, rfl⟩

/-- A flush adds no more than an empty block to what could be put out before. -/
theorem backlog_advance_le (k : StoredBlocks) (input : Bytes) (flush : Flush) :
    (k.advance input flush).backlog [] flush ≤ k.backlog input flush + syncMarker.length := by
  cases flush with
  | none => simp [advance, backlog]
  | sync =>
    by_cases leftover : k.ready ≠ [] ∧ input = []
    · simp [advance, backlog, leftover]
    · simp [advance, backlog, leftover, compress_nil, Nat.add_assoc]

theorem backlog_lt {k k' : StoredBlocks} {input out : Bytes} {taken : Nat} {flush : Flush}
    (h : k.call input blockSize flush = (some (taken, out), k'))
    (again : CallsAgain input taken out) :
    k'.backlog (input.drop taken) flush < k.backlog input flush := by
  obtain ⟨rfl, rfl, rfl⟩ := call_eq h
  have filled : blockSize ≤ min blockSize (k.advance input flush).ready.length := by
    simpa using again.1
  have marker : syncMarker.length < blockSize := by decide
  have bound := k.backlog_advance_le input flush
  simp only [backlog, List.drop_length, List.length_drop] at bound ⊢
  omega

instance : Compressor StoredBlocks where
  start _ := {}
  call := call
  backlog := backlog
  backlog_lt := backlog_lt

end StoredBlocks

end Switchboard.Deflate
