import Switchboard.Delay.Service

namespace Switchboard

namespace DelayQueue

variable {σ α S : Type} {out : Outlet σ α S} {P : DueItem σ α → Prop} {I : S → Prop}

/-- Everything a queue holds has a property. -/
structure Holds (P : DueItem σ α → Prop) (q : DelayQueue σ α) : Prop where
  waiting : ∀ e ∈ q.waiting, P e
  stalled : ∀ d ∈ q.stalled, ∀ e ∈ d.items, P e

theorem Holds.push {q : DelayQueue σ α} (h : q.Holds P) {due : Time} {item : α} {sink : σ}
    (he : P ⟨due, item, sink⟩) : (q.push due item sink).Holds P := by
  refine ⟨?_, h.stalled⟩
  intro e hmem
  rcases mem_insertByDue.mp hmem with rfl | hmem
  · exact he
  · exact h.waiting e hmem

section

variable (offer : ∀ e s, P e → I s → I (out.offer e.sink e.item s).2)
include offer

theorem offerInTurn_holds {items : List (DueItem σ α)} {s : S} (h : ∀ e ∈ items, P e)
    (hs : I s) :
    I (offerInTurn out items s).2.2 ∧ ∀ e ∈ (offerInTurn out items s).2.1, P e := by
  induction items generalizing s with
  | nil => exact ⟨hs, h⟩
  | cons e items ih =>
    have ht := offer e s (h e List.mem_cons_self) hs
    obtain ⟨answer, t, ho⟩ : ∃ answer t, out.offer e.sink e.item s = (answer, t) := ⟨_, _, rfl⟩
    rw [ho] at ht
    cases answer with
    | delivered =>
      simpa [offerInTurn, ho] using ih (fun e' he' => h e' (List.mem_cons_of_mem _ he')) ht
    | full => simpa [offerInTurn, ho, ht] using h
    | gone => simp [offerInTurn, ho, ht]

theorem retry_holds (now : Time) {ds : List (StalledItems σ α)} {s : S}
    (h : ∀ d ∈ ds, ∀ e ∈ d.items, P e) (hs : I s) :
    I (retry out now ds s).2.2 ∧ ∀ d ∈ (retry out now ds s).2.1, ∀ e ∈ d.items, P e := by
  induction ds generalizing s with
  | nil => exact ⟨hs, h⟩
  | cons d ds ih =>
    have hd := h d List.mem_cons_self
    have hds : ∀ d' ∈ ds, ∀ e ∈ d'.items, P e := fun d' hd' => h d' (List.mem_cons_of_mem _ hd')
    by_cases wait : now < d.retryAt
    · obtain ⟨hI, hP⟩ := ih hds hs
      simp only [retry, wait, if_true]
      exact ⟨hI, List.forall_mem_cons.mpr ⟨hd, hP⟩⟩
    · obtain ⟨ht, hleft⟩ := offerInTurn_holds offer hd hs
      obtain ⟨hI, hP⟩ := ih hds ht
      simp only [retry, wait, if_false]
      refine ⟨hI, ?_⟩
      split
      next => exact hP
      next => exact List.forall_mem_cons.mpr ⟨hleft, hP⟩

omit offer in
theorem holdBack_holds {key : Nat} {e : DueItem σ α} {ds : List (StalledItems σ α)}
    (he : P e) (h : ∀ d ∈ ds, ∀ e ∈ d.items, P e) :
    ∀ d ∈ holdBack key e ds, ∀ e ∈ d.items, P e := by
  induction ds with
  | nil => exact h
  | cons d ds ih =>
    obtain ⟨hd, hds⟩ := List.forall_mem_cons.mp h
    by_cases hk : d.key = key
    · rw [holdBack, if_pos hk]
      refine List.forall_mem_cons.mpr ⟨?_, hds⟩
      intro e' he'
      rcases List.mem_append.mp he' with he' | he'
      · exact hd e' he'
      · exact List.mem_singleton.mp he' ▸ he
    · rw [holdBack, if_neg hk]
      exact List.forall_mem_cons.mpr ⟨hd, ih hds⟩

theorem offerDue_holds (now : Time) {es : List (DueItem σ α)}
    {stalled : List (StalledItems σ α)} {s : S} (hes : ∀ e ∈ es, P e)
    (h : ∀ d ∈ stalled, ∀ e ∈ d.items, P e) (hs : I s) :
    I (offerDue out now es stalled s).2.2 ∧
      ∀ d ∈ (offerDue out now es stalled s).2.1, ∀ e ∈ d.items, P e := by
  induction es generalizing stalled s with
  | nil => exact ⟨hs, h⟩
  | cons e es ih =>
    obtain ⟨he, hes⟩ := List.forall_mem_cons.mp hes
    have ht := offer e s he hs
    obtain ⟨answer, t, ho⟩ : ∃ answer t, out.offer e.sink e.item s = (answer, t) := ⟨_, _, rfl⟩
    rw [ho] at ht
    rw [offerDue]
    split
    next => exact ih hes (holdBack_holds he h) hs
    next =>
      cases answer with
      | delivered => simpa [ho] using ih hes h ht
      | full =>
        simp only [ho]
        refine ih hes ?_ ht
        intro d hd
        rcases List.mem_append.mp hd with hd | hd
        · exact h d hd
        · obtain rfl := List.mem_singleton.mp hd
          exact fun e' he' => List.mem_singleton.mp he' ▸ he
      | gone => simpa [ho] using ih hes h ht

/-- What is true of all sinks as long as they are offered certain items stays true. -/
theorem fire_holds {q : DelayQueue σ α} (h : q.Holds P) (now : Time) {s : S} (hs : I s) :
    I (q.fire out now s).2.2 ∧ (q.fire out now s).2.1.Holds P := by
  obtain ⟨ht, hkept⟩ := retry_holds offer now h.stalled hs
  obtain ⟨hI, hP⟩ := offerDue_holds offer now
    (fun e he => h.waiting e ((List.takeWhile_sublist _).subset he)) hkept ht
  exact ⟨hI, fun e he => h.waiting e ((List.dropWhile_sublist _).subset he), hP⟩

end

end DelayQueue

namespace DelayService

variable {s : DelayService} {k key : Nat}

/-- Nothing is under way to the codec that has a channel, and nothing waits in it. -/
structure Idle (s : DelayService) (k : Nat) : Prop where
  inbox : ∀ e ∈ s.worker.inbox, e.sink.key ≠ k
  queue : s.worker.queue.Holds fun e => e.sink.key ≠ k
  channel : (s.handover.channel k).packets = []

end DelayService

theorem Handover.channel_setChannel (h : Handover) (key k : Nat) (c : DueChannel) :
    (h.setChannel key c).channel k = if k = key then c else h.channel k := by
  by_cases hk : k = key
  · simp [channel, setChannel, hk]
  · simp only [channel, setChannel, lookup_cons_ite, hk, if_false, lookup_filter_ne hk]

theorem Handover.offer_keeps_empty {k : Nat} (e : DueItem DelaySink Packet) (h : Handover)
    (hk : e.sink.key ≠ k) (hs : (h.channel k).packets = []) :
    ((outlet.offer e.sink e.item h).2.channel k).packets = [] := by
  simp only [outlet, offer]
  split
  next => exact hs
  next =>
    split
    next => exact hs
    next =>
      have := h.channel_setChannel e.sink.key k
        { h.channel e.sink.key with packets := (h.channel e.sink.key).packets ++ [e.item] }
      rw [if_neg (Ne.symm hk)] at this
      exact (congrArg DueChannel.packets this).trans hs

namespace DelayService

variable {s : DelayService} {k key : Nat}

theorem Idle.submit (h : s.Idle k) {sink : DelaySink} (hk : sink.key ≠ k) (delay : Nat)
    (p : Packet) : (s.submit delay p sink).2.Idle k := by
  simp only [DelayService.submit, Scheduler.submit]
  split
  next =>
    refine ⟨?_, h.queue, h.channel⟩
    intro e he
    rcases List.mem_append.mp he with he | he
    · exact h.inbox e he
    · exact List.mem_singleton.mp he ▸ hk
  next => exact h

theorem Idle.takeDue (h : s.Idle k) (key : Nat) : (s.takeDue key).2.Idle k := by
  simp only [DelayService.takeDue]
  split
  next => exact h
  next =>
    refine ⟨h.inbox, h.queue, ?_⟩
    rw [Handover.channel_setChannel]
    split
    next => rfl
    next => exact h.channel

theorem Idle.takeDue_eq (h : s.Idle k) : s.takeDue k = ([], s) := by
  simp [DelayService.takeDue, h.channel]

theorem Idle.hasDue (h : s.Idle k) : s.hasDue k = false := by simp [DelayService.hasDue, h.channel]

theorem Idle.disconnect (h : s.Idle k) (key : Nat) : (s.disconnect key).Idle k := by
  refine ⟨h.inbox, h.queue, ?_⟩
  simp only [DelayService.disconnect]
  rw [Handover.channel_setChannel]
  split
  next => rfl
  next => exact h.channel

theorem Idle.wake (h : s.Idle k) (w : Waker) : (s.wake w).Idle k := ⟨h.inbox, h.queue, h.channel⟩

theorem Idle.fire (h : s.Idle k) : s.fire.Idle k := by
  obtain ⟨hchannel, hqueue⟩ := DelayQueue.fire_holds
    (I := fun h : Handover => (h.channel k).packets = []) Handover.offer_keeps_empty h.queue
    s.worker.now
    h.channel
  exact ⟨h.inbox, hqueue, hchannel⟩

theorem Idle.takeSubmission (h : s.Idle k) : s.takeSubmission.Idle k := by
  cases hin : s.worker.inbox with
  | nil =>
    have same : s.takeSubmission = s := by simp [DelayService.takeSubmission,
      Scheduler.takeSubmission, hin, ofPair]
    rwa [same]
  | cons e inbox =>
    have hinbox := h.inbox
    rw [hin] at hinbox
    obtain ⟨he, hinbox⟩ := List.forall_mem_cons.mp hinbox
    -- taking a submission is a push followed by what is due
    have pushed : Idle { s with worker := { s.worker with
        inbox, queue := s.worker.queue.push e.due e.item e.sink } } k :=
      ⟨hinbox, h.queue.push he, h.channel⟩
    have := pushed.fire
    simpa [DelayService.takeSubmission, Scheduler.takeSubmission, hin, DelayService.fire] using this

end DelayService

end Switchboard
