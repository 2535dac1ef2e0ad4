import Switchboard.Delay.Queue

namespace Switchboard

/-- A clock, and a worker that delivers items when their time has come: submissions it has not
taken yet, and the items that wait. -/
structure Scheduler (σ α : Type) where
  now : Time := 0
  running : Bool := true
  inbox : List (DueItem σ α) := []
  queue : DelayQueue σ α := {}

namespace Scheduler

variable {σ α S : Type}

/-- Accepts an item while the worker runs. -/
def submit (w : Scheduler σ α) (delay : Nat) (item : α) (sink : σ) : Bool × Scheduler σ α :=
  if w.running then (true, { w with inbox := w.inbox ++ [⟨w.now + delay, item, sink⟩] })
  else (false, w)

/-- Delivers what is due. -/
def fire (out : Outlet σ α S) (w : Scheduler σ α) (s : S) : Scheduler σ α × S :=
  let (_, queue, s) := w.queue.fire out w.now s
  ({ w with queue }, s)

/-- Takes the submission that has waited longest, and delivers what is due. -/
def takeSubmission (out : Outlet σ α S) (w : Scheduler σ α) (s : S) : Scheduler σ α × S :=
  match w.inbox with
  | [] => (w, s)
  | e :: inbox => fire out { w with inbox, queue := w.queue.push e.due e.item e.sink } s

def takeSubmissions (out : Outlet σ α S) : (count : Nat) → Scheduler σ α → S →
    Scheduler σ α × S
  | 0, w, s => (w, s)
  | n + 1, w, s =>
    let (w, s) := takeSubmission out w s
    takeSubmissions out n w s

/-- Takes all submissions and delivers what is due. -/
def settle (out : Outlet σ α S) (w : Scheduler σ α) (s : S) : Scheduler σ α × S :=
  if w.running then
    let (w, s) := takeSubmissions out w.inbox.length w s
    fire out w s
  else (w, s)

/-- Time passes, and the worker does what it has to do meanwhile. -/
def advance (out : Outlet σ α S) (microseconds : Nat) (w : Scheduler σ α) (s : S) :
    Scheduler σ α × S :=
  let (w, s) := settle out w s
  settle out { w with now := w.now + microseconds } s

/-- The time until the worker has something to do, if it ever will. -/
def untilDeadline (w : Scheduler σ α) : Option Nat :=
  if w.running then w.queue.nextDeadline.map fun due => (due - w.now).toNat else none

/-- Lets time pass from deadline to deadline until `done` holds, for at most `fuel` deadlines. -/
def advanceUntil (out : Outlet σ α S) (done : S → Bool) : (fuel : Nat) → Scheduler σ α → S →
    Scheduler σ α × S
  | 0, w, s => (w, s)
  | fuel + 1, w, s =>
    if done s then (w, s)
    else match w.untilDeadline with
      | some wait =>
        let (w, s) := advance out wait w s
        advanceUntil out done fuel w s
      | none => (w, s)

/-- The worker ends after the submissions it has; what still waits is dropped. -/
def stop (out : Outlet σ α S) (w : Scheduler σ α) (s : S) : Scheduler σ α × S :=
  let (w, s) := settle out w s
  ({ w with running := false, inbox := [], queue := {} }, s)

end Scheduler

end Switchboard
