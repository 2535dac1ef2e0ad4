import Switchboard.Bytes

namespace Switchboard

/-- Bytes that wait to be taken: `front` is taken first, `back` holds the last byte first. -/
structure Outbox where
  front : Bytes := []
  back : List UInt8 := []

namespace Outbox

def empty : Outbox := {}

/-- The waiting bytes in the order in which they are taken. -/
def toBytes (q : Outbox) : Bytes := q.front ++ q.back.reverse

def push (q : Outbox) (bytes : Bytes) : Outbox :=
  { q with back := bytes.reverseAux q.back }

def isEmpty (q : Outbox) : Bool := q.front.isEmpty && q.back.isEmpty

def size (q : Outbox) : Nat := q.front.length + q.back.length

/-- Takes as many bytes as there are, but no more than `n`. -/
def read (q : Outbox) (n : Nat) : Bytes × Outbox :=
  let taken := q.front.take n
  if taken.length = n then (taken, { q with front := q.front.drop n })
  else
    let rest := q.back.reverse
    (taken ++ rest.take (n - taken.length), { front := rest.drop (n - taken.length) })

@[simp] theorem toBytes_empty : empty.toBytes = [] := rfl

@[simp] theorem toBytes_push (q : Outbox) (bytes : Bytes) :
    (q.push bytes).toBytes = q.toBytes ++ bytes := by
  simp [push, toBytes, List.reverseAux_eq]

theorem length_take_eq_iff (q : Outbox) (n : Nat) :
    (q.front.take n).length = n ↔ n ≤ q.front.length := by
  simp only [List.length_take]
  omega

@[simp] theorem read_fst (q : Outbox) (n : Nat) : (q.read n).1 = q.toBytes.take n := by
  by_cases h : (q.front.take n).length = n
  · simp only [read, h, if_true, toBytes]
    rw [List.take_append_of_le_length ((q.length_take_eq_iff n).1 h)]
  · have hn : q.front.length < n := by
      have := mt (q.length_take_eq_iff n).2 h
      omega
    simp [read, toBytes, List.take_append, List.take_of_length_le (Nat.le_of_lt hn), Nat.ne_of_lt hn]

@[simp] theorem toBytes_read (q : Outbox) (n : Nat) :
    (q.read n).2.toBytes = q.toBytes.drop n := by
  by_cases h : (q.front.take n).length = n
  · simp only [read, h, if_true, toBytes]
    rw [List.drop_append_of_le_length ((q.length_take_eq_iff n).1 h)]
  · have hn : q.front.length < n := by
      have := mt (q.length_take_eq_iff n).2 h
      omega
    simp [read, toBytes, List.drop_append, List.drop_of_length_le (Nat.le_of_lt hn),
      List.take_of_length_le (Nat.le_of_lt hn), Nat.ne_of_lt hn]

theorem isEmpty_iff (q : Outbox) : q.isEmpty ↔ q.toBytes = [] := by
  simp [isEmpty, toBytes]

@[simp] theorem size_eq (q : Outbox) : q.size = q.toBytes.length := by
  simp [size, toBytes]

end Outbox

end Switchboard
