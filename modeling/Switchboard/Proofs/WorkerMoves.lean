import Mathlib.Data.List.TakeWhile
import Switchboard.Delay.Codec
import Switchboard.Proofs.HandoverPuts

namespace Switchboard

open DelayQueue

namespace Scheduler

variable {σ α S : Type}

/-- Takes the submission that has waited longest, and delivers nothing yet. -/
def receive (w : Scheduler σ α) : Scheduler σ α :=
  match w.inbox with
  | [] => w
  | e :: inbox => { w with inbox, queue := w.queue.push e.due e.item e.sink }

theorem takeSubmission_eq (out : Outlet σ α S) (w : Scheduler σ α) (s : S) :
    w.takeSubmission out s = if w.inbox = [] then (w, s) else w.receive.fire out s := by
  unfold takeSubmission receive
  cases w.inbox <;> rfl

end Scheduler

namespace DelayService

def receive (s : DelayService) : DelayService := { s with worker := s.worker.receive }

/-- The packets on their way to one channel, in the order in which they will get there: held back,
waiting for their time, and not yet taken by the worker. -/
def onTheWay (s : DelayService) (k : Nat) : List DuePacket :=
  heldBack k s.worker.queue.stalled ++ forKey k s.worker.queue.waiting ++ forKey k s.worker.inbox

def sinkOf (c : Delayed LineCodec) : DelaySink := ⟨c.key, c.waker⟩

/-- What holds between the steps of the worker, with codecs that submit with a delay of their own:
submissions of one key come in the order of their times. -/
structure Steady {ι : Type} (codecs : ι → Delayed LineCodec) (s : DelayService) : Prop where
  apart : KeptApart s.worker.queue.stalled
  sorted : s.worker.queue.waiting.Pairwise fun a b => a.due ≤ b.due
  turns : ∀ k, (forKey k (s.worker.queue.waiting ++ s.worker.inbox)).Pairwise
    fun a b => a.due ≤ b.due
  soon : ∀ i, ∀ e ∈ s.worker.queue.waiting ++ s.worker.inbox, e.sink.key = (codecs i).key →
    e.due ≤ s.now + (codecs i).delay
  overdue : ∀ d ∈ s.worker.queue.stalled, ∀ e ∈ d.items, e.due ≤ s.now
  known : ∀ e, (∃ d ∈ s.worker.queue.stalled, e ∈ d.items) ∨
    e ∈ s.worker.queue.waiting ++ s.worker.inbox → ∃ i, e.sink = sinkOf (codecs i)
  room : ∀ k, (s.handover.channel k).packets.length ≤ Handover.capacity

/-- What the worker does by itself: of each channel, the packets it puts there are the first of
those on the way. -/
structure Moves (s : DelayService) (puts : List DuePacket) (s' : DelayService) : Prop where
  now : s'.now = s.now
  running : s'.worker.running = s.worker.running
  put : Handover.Puts s.handover puts s'.handover
  due : ∀ e ∈ puts, e.due ≤ s.now
  rest : ∀ k, (s.handover.channel k).connected = true →
    forKey k puts ++ s'.onTheWay k = s.onTheWay k

variable {ι : Type} {codecs : ι → Delayed LineCodec} {s s' s'' : DelayService}
  {puts puts' : List DuePacket}

theorem Moves.trans (h : Moves s puts s') (h' : Moves s' puts' s'') :
    Moves s (puts ++ puts') s'' := by
  refine ⟨h'.now.trans h.now, h'.running.trans h.running, h.put.trans h'.put, ?_, ?_⟩
  · intro e he
    rcases List.mem_append.mp he with he | he
    · exact h.due e he
    · exact h.now ▸ h'.due e he
  · intro k hk
    rw [Handover.forKey_append, List.append_assoc,
      h'.rest k (by rw [h.put.connected_eq, hk]), h.rest k hk]

theorem Moves.refl (s : DelayService) : Moves s [] s :=
  ⟨rfl, rfl, .refl s.handover, by simp, fun _ _ => rfl⟩

/-- A packet that is due no earlier than the others of its channel waits behind them, and the
packets of other channels do not notice. -/
theorem forKey_insertByDue {e : DuePacket} {xs : List DuePacket}
    (sorted : xs.Pairwise fun a b => a.due ≤ b.due)
    (last : ∀ x ∈ xs, x.sink.key = e.sink.key → x.due ≤ e.due) (k : Nat) :
    forKey k (insertByDue e xs) = forKey k xs ++ forKey k [e] := by
  induction xs with
  | nil => simp [insertByDue, forKey]
  | cons x xs ih =>
    obtain ⟨hx, hxs⟩ := List.pairwise_cons.mp sorted
    have split (y : DuePacket) (ys : List DuePacket) :
        forKey k (y :: ys) = forKey k [y] ++ forKey k ys := Handover.forKey_append k [y] ys
    by_cases hlt : e.due < x.due
    · rw [insertByDue, if_pos hlt, split]
      by_cases hk : e.sink.key = k
      · have hnone : forKey k (x :: xs) = [] := by
          refine Handover.forKey_eq_nil fun y hy heq => ?_
          have hle := last y hy (heq.trans hk.symm)
          rcases List.mem_cons.mp hy with rfl | hy
          · exact absurd hle (Int.not_le.mpr hlt)
          · exact absurd (Int.le_trans (hx y hy) hle) (Int.not_le.mpr hlt)
        rw [hnone, List.append_nil, List.nil_append]
      · simp [forKey, hk]
    · rw [insertByDue, if_neg hlt, split, split x xs,
        ih hxs fun y hy => last y (List.mem_cons_of_mem _ hy), List.append_assoc]

theorem Steady.receive (h : Steady codecs s) : Moves s [] s.receive ∧ Steady codecs s.receive := by
  cases hin : s.worker.inbox with
  | nil =>
    have same : s.receive = s := by simp [DelayService.receive, Scheduler.receive, hin]
    rw [same]
    exact ⟨.refl s, h⟩
  | cons e inbox =>
    have received : s.receive = { s with worker := { s.worker with
        inbox, queue := s.worker.queue.push e.due e.item e.sink } } := by
      simp [DelayService.receive, Scheduler.receive, hin]
    obtain ⟨apart, sorted, turns, soon, overdue, known, room⟩ := h
    rw [hin] at turns soon known
    have last : ∀ x ∈ s.worker.queue.waiting, x.sink.key = e.sink.key → x.due ≤ e.due := by
      intro x hx hkey
      have later := turns e.sink.key
      rw [Handover.forKey_append] at later
      refine (List.pairwise_append.mp later).2.2 x ?_ e ?_
      · simpa [forKey] using ⟨hx, hkey⟩
      · simp [forKey]
    have same (k) : forKey k (insertByDue e s.worker.queue.waiting ++ inbox) =
        forKey k (s.worker.queue.waiting ++ e :: inbox) := by
      rw [Handover.forKey_append, forKey_insertByDue sorted last, List.append_assoc,
        ← Handover.forKey_append, ← Handover.forKey_append]
      rfl
    have members {x} (hx : x ∈ insertByDue e s.worker.queue.waiting ++ inbox) :
        x ∈ s.worker.queue.waiting ++ e :: inbox := by
      rcases List.mem_append.mp hx with hx | hx
      · rcases mem_insertByDue.mp hx with rfl | hx
        · exact List.mem_append_right _ List.mem_cons_self
        · exact List.mem_append_left _ hx
      · exact List.mem_append_right _ (List.mem_cons_of_mem _ hx)
    rw [received]
    refine ⟨⟨rfl, rfl, .refl _, by simp, fun k _ => ?_⟩, apart, insertByDue_pairwise sorted,
      fun k => ?_, fun i x hx => soon i x (members hx), overdue, fun x hx => ?_, room⟩
    · have := same k
      rw [Handover.forKey_append, Handover.forKey_append] at this
      simp only [onTheWay, List.append_assoc, hin]
      exact congrArg (heldBack k s.worker.queue.stalled ++ ·) this
    · exact same k ▸ turns k
    · exact known x (hx.imp_right members)

theorem Steady.fire (h : Steady codecs s) :
    ∃ puts, Moves s puts s.fire ∧ Steady codecs s.fire := by
  obtain ⟨apart, sorted, turns, soon, overdue, known, room⟩ := h
  obtain ⟨n, puts, stalled, h', hfire, hput, apart', hall, origin⟩ :=
    Handover.fire_puts s.handover s.now apart
  let due := s.worker.queue.waiting.takeWhile fun e => e.due ≤ s.now
  let later := s.worker.queue.waiting.dropWhile fun e => e.due ≤ s.now
  have parts : due ++ later = s.worker.queue.waiting := List.takeWhile_append_dropWhile
  have reached : ∀ e ∈ due, e.due ≤ s.now := fun e he => by
    simpa using List.mem_takeWhile_imp he
  have fired : s.fire = ⟨{ s.worker with queue := ⟨later, stalled⟩ }, h'⟩ := by
    simp only [DelayService.fire, Scheduler.fire, ofPair]
    rw [show s.worker.queue.fire Handover.outlet s.worker.now s.handover = _ from hfire]
  have origin' : ∀ e ∈ puts, (∃ d ∈ s.worker.queue.stalled, e ∈ d.items) ∨ e ∈ due := by
    intro e he
    have hmem : e ∈ forKey e.sink.key puts := by simpa [forKey] using he
    have := hall e.sink.key (hput.connected e he) ▸ List.mem_append_left _ hmem
    rcases List.mem_append.mp this with hin | hin
    · exact .inl (mem_of_mem_heldBack hin)
    · exact .inr (List.mem_filter.mp hin).1
  have inTime {e} (he : (∃ d ∈ s.worker.queue.stalled, e ∈ d.items) ∨ e ∈ due) :
      e.due ≤ s.now := by
    rcases he with ⟨d, hd, he⟩ | he
    · exact overdue d hd e he
    · exact reached e he
  have left : (later ++ s.worker.inbox).Sublist (s.worker.queue.waiting ++ s.worker.inbox) :=
    (List.dropWhile_sublist _).append (List.Sublist.refl _)
  rw [fired]
  refine ⟨puts, ⟨rfl, rfl, hput, fun e he => inTime (origin' e he), fun k hk => ?_⟩, apart',
    sorted.sublist (List.dropWhile_sublist _), fun k => (turns k).sublist (left.filter _),
    fun i e he => soon i e (left.subset he),
    fun d hd e he => inTime (origin d hd e he), fun e he => ?_, fun k => hput.room k (room k)⟩
  · have waiting : forKey k s.worker.queue.waiting = forKey k due ++ forKey k later := by
      rw [← Handover.forKey_append, parts]
    simp only [onTheWay, waiting]
    rw [← List.append_assoc, ← List.append_assoc, hall k hk]
    simp only [List.append_assoc]
    rfl
  · rcases he with ⟨d, hd, he⟩ | he
    · refine known e ((origin d hd e he).imp_right fun he => List.mem_append_left _ ?_)
      exact parts ▸ List.mem_append_left _ he
    · exact known e (.inr (left.subset he))

/-- What the worker moves was submitted by one of the codecs. -/
theorem Moves.known (h : Moves s puts s') (steady : Steady codecs s) :
    ∀ e ∈ puts, ∃ i, e.sink = sinkOf (codecs i) := by
  intro e he
  have hmem : e ∈ forKey e.sink.key puts := by simpa [forKey] using he
  have := h.rest e.sink.key (h.put.connected e he) ▸ List.mem_append_left _ hmem
  rcases List.mem_append.mp this with hin | hin
  · rcases List.mem_append.mp hin with hin | hin
    · exact steady.known e (.inl (mem_of_mem_heldBack hin))
    · exact steady.known e (.inr (List.mem_append_left _ (List.mem_filter.mp hin).1))
  · exact steady.known e (.inr (List.mem_append_right _ (List.mem_filter.mp hin).1))

theorem Steady.takeSubmission (h : Steady codecs s) :
    ∃ puts, Moves s puts s.takeSubmission ∧ Steady codecs s.takeSubmission := by
  have eq : s.takeSubmission = if s.worker.inbox = [] then s else s.receive.fire := by
    simp only [DelayService.takeSubmission, Scheduler.takeSubmission_eq]
    split <;> rfl
  rw [eq]
  split
  · exact ⟨[], .refl s, h⟩
  · obtain ⟨received, h₁⟩ := h.receive
    obtain ⟨puts, fired, h₂⟩ := h₁.fire
    exact ⟨puts, received.trans fired, h₂⟩

theorem Steady.takeSubmissions (h : Steady codecs s) (count : Nat) :
    ∃ puts s', ofPair (s.worker.takeSubmissions Handover.outlet count s.handover) = s' ∧
      Moves s puts s' ∧ Steady codecs s' := by
  induction count generalizing s with
  | zero => exact ⟨[], s, rfl, .refl s, h⟩
  | succ n ih =>
    obtain ⟨puts, taken, h₁⟩ := h.takeSubmission
    obtain ⟨more, s', hrest, moved, h₂⟩ := ih h₁
    exact ⟨puts ++ more, s', hrest, taken.trans moved, h₂⟩

/-- Before it stops, the worker takes what was submitted and delivers what is due. -/
theorem Steady.settle (h : Steady codecs s) :
    ∃ puts, Moves s puts s.settle ∧ Steady codecs s.settle := by
  by_cases running : s.worker.running = true
  · obtain ⟨puts, s', hs', taken, h₁⟩ := h.takeSubmissions s.worker.inbox.length
    obtain ⟨more, fired, h₂⟩ := h₁.fire
    have eq : s.settle = s'.fire := by
      rw [← hs']
      simp only [DelayService.settle, Scheduler.settle, running, if_true]
      rfl
    rw [eq]
    exact ⟨puts ++ more, taken.trans fired, h₂⟩
  · have eq : s.settle = s := by simp [DelayService.settle, Scheduler.settle, running, ofPair]
    rw [eq]
    exact ⟨[], .refl s, h⟩

end DelayService

end Switchboard
