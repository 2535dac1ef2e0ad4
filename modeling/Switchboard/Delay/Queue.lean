namespace Switchboard

/-- A clock reading in microseconds. -/
abbrev Time := Int

/-- What a sink says to an item it is offered. -/
inductive Answer where
  | delivered
  | full
  | gone
  deriving DecidableEq, Repr

/-- How items reach their sinks: sinks with one key are one destination, and a sink may change the
surroundings when it answers. -/
structure Outlet (σ α S : Type) where
  key : σ → Nat
  offer : σ → α → S → Answer × S

/-- An item that is to be delivered at `due`. -/
structure DueItem (σ α : Type) where
  due : Time
  item : α
  sink : σ

/-- The items for a destination that was full; it is left alone until `retryAt`. -/
structure StalledItems (σ α : Type) where
  key : Nat
  retryAt : Time
  items : List (DueItem σ α)

/-- Items that wait for their time, the earliest first and of equal times the one pushed first,
and the items of destinations that were full. -/
structure DelayQueue (σ α : Type) where
  waiting : List (DueItem σ α) := []
  stalled : List (StalledItems σ α) := []

namespace DelayQueue

variable {σ α S : Type}

/-- How long a full destination is left alone. -/
def retryDelay : Time := 1000

def insertByDue (e : DueItem σ α) : List (DueItem σ α) → List (DueItem σ α)
  | [] => [e]
  | x :: xs => if e.due < x.due then e :: x :: xs else x :: insertByDue e xs

theorem mem_insertByDue {e x : DueItem σ α} {xs : List (DueItem σ α)} :
    x ∈ insertByDue e xs ↔ x = e ∨ x ∈ xs := by
  induction xs with
  | nil => simp [insertByDue]
  | cons y ys ih =>
    by_cases h : e.due < y.due
    · simp [insertByDue, h]
    · rw [insertByDue, if_neg h, List.mem_cons, ih, List.mem_cons, or_left_comm]

def push (q : DelayQueue σ α) (due : Time) (item : α) (sink : σ) : DelayQueue σ α :=
  { q with waiting := insertByDue ⟨due, item, sink⟩ q.waiting }

def length (q : DelayQueue σ α) : Nat :=
  q.waiting.length + (q.stalled.flatMap fun s => s.items).length

def isEmpty (q : DelayQueue σ α) : Bool := q.length == 0

/-- The earliest time at which there is something to do. -/
def nextDeadline (q : DelayQueue σ α) : Option Time :=
  ((q.waiting.head?.map (·.due)).toList ++ q.stalled.map (·.retryAt)).min?

/-- Offers the items of one destination in turn until it is full or gone; what is left of them is
held back, and nothing is when they all went or the destination is gone. -/
def offerInTurn (out : Outlet σ α S) : List (DueItem σ α) → S →
    Nat × List (DueItem σ α) × S
  | [], s => (0, [], s)
  | e :: es, s => match out.offer e.sink e.item s with
    | (.delivered, s) =>
      let (n, left, s) := offerInTurn out es s
      (n + 1, left, s)
    | (.full, s) => (0, e :: es, s)
    | (.gone, s) => (0, [], s)

/-- Tries every destination whose time to be left alone is over. -/
def retry (out : Outlet σ α S) (now : Time) : List (StalledItems σ α) → S →
    Nat × List (StalledItems σ α) × S
  | [], s => (0, [], s)
  | d :: ds, s =>
    if now < d.retryAt then
      let (n, kept, s) := retry out now ds s
      (n, d :: kept, s)
    else
      let (m, left, s) := offerInTurn out d.items s
      let (n, kept, s) := retry out now ds s
      (m + n, if left.isEmpty then kept else ⟨d.key, now + retryDelay, left⟩ :: kept, s)

/-- Puts an item behind the others of its full destination. -/
def holdBack (key : Nat) (e : DueItem σ α) : List (StalledItems σ α) → List (StalledItems σ α)
  | [] => []
  | d :: ds => if d.key = key then { d with items := d.items ++ [e] } :: ds
    else d :: holdBack key e ds

/-- Offers items that are due, in order; those of a destination that is or becomes full are held
back. -/
def offerDue (out : Outlet σ α S) (now : Time) : List (DueItem σ α) → List (StalledItems σ α) →
    S → Nat × List (StalledItems σ α) × S
  | [], stalled, s => (0, stalled, s)
  | e :: es, stalled, s =>
    let key := out.key e.sink
    if stalled.any fun d => d.key == key then offerDue out now es (holdBack key e stalled) s
    else match out.offer e.sink e.item s with
      | (.delivered, s) =>
        let (n, stalled, s) := offerDue out now es stalled s
        (n + 1, stalled, s)
      | (.full, s) => offerDue out now es (stalled ++ [⟨key, now + retryDelay, [e]⟩]) s
      | (.gone, s) => offerDue out now es stalled s

/-- Delivers what is due at `now`, destinations that were full first, and counts it. -/
def fire (q : DelayQueue σ α) (out : Outlet σ α S) (now : Time) (s : S) :
    Nat × DelayQueue σ α × S :=
  let (m, stalled, s) := retry out now q.stalled s
  let (n, stalled, s) :=
    offerDue out now (q.waiting.takeWhile fun e => e.due ≤ now) stalled s
  (m + n, ⟨q.waiting.dropWhile fun e => e.due ≤ now, stalled⟩, s)

end DelayQueue

end Switchboard
