import Mathlib.Data.List.TakeWhile
import Switchboard.Proofs.DelayRun

namespace Switchboard

namespace DelayQueue

variable {σ α S : Type} {out : Outlet σ α S} {q : DelayQueue σ α} {now : Time}
  {e : DueItem σ α} {stalled : List (StalledItems σ α)}

/-- Nothing is to be done before some time after `now`. -/
def Asleep (now : Time) (q : DelayQueue σ α) : Prop :=
  ∀ due, q.nextDeadline = some due → now < due

/-- Destinations that were full hold something back, and are left alone beyond `now`. -/
def Resting (now : Time) (stalled : List (StalledItems σ α)) : Prop :=
  ∀ d ∈ stalled, now < d.retryAt ∧ d.items ≠ []

/-- What holds between any two events: items wait in the order of their times, and no destination
holds back nothing. -/
structure Settled (q : DelayQueue σ α) : Prop where
  sorted : q.waiting.Pairwise fun a b => a.due ≤ b.due
  nonempty : ∀ d ∈ q.stalled, d.items ≠ []

/-- The deadline is that of the item in front or the earliest at which a destination is tried
again. -/
theorem asleep_iff (sorted : q.waiting.Pairwise fun a b => a.due ≤ b.due) :
    q.Asleep now ↔ (∀ e ∈ q.waiting, now < e.due) ∧ ∀ d ∈ q.stalled, now < d.retryAt := by
  have times : q.Asleep now ↔
      ∀ t ∈ (q.waiting.head?.map (·.due)).toList ++ q.stalled.map (·.retryAt), now < t := by
    rw [Asleep, nextDeadline]
    cases hmin : ((q.waiting.head?.map (·.due)).toList ++ q.stalled.map (·.retryAt)).min? with
    | none =>
      rw [List.min?_eq_none_iff.mp hmin]
      simp
    | some least =>
      obtain ⟨hmem, hle⟩ := List.min?_eq_some_iff.mp hmin
      constructor
      · intro h t ht
        exact Int.lt_of_lt_of_le (h least rfl) (hle t ht)
      · intro h due hdue
        exact Option.some.inj hdue ▸ h least hmem
  rw [times, List.forall_mem_append, List.forall_mem_map]
  refine and_congr_left fun _ => ?_
  cases hq : q.waiting with
  | nil => simp
  | cons e es =>
    rw [hq] at sorted
    constructor
    · intro h x hx
      have first : now < e.due := h e.due (by simp)
      rcases List.mem_cons.mp hx with rfl | hx
      · exact first
      · exact Int.lt_of_lt_of_le first ((List.pairwise_cons.mp sorted).1 x hx)
    · intro h
      simpa using h e List.mem_cons_self

theorem nextDeadline_eq_none : q.nextDeadline = none ↔ q.waiting = [] ∧ q.stalled = [] := by
  rw [nextDeadline, List.min?_eq_none_iff, List.append_eq_nil_iff, List.map_eq_nil_iff]
  cases q.waiting <;> simp

theorem Settled.isEmpty_iff (h : q.Settled) :
    q.isEmpty = true ↔ q.waiting = [] ∧ q.stalled = [] := by
  rw [isEmpty, length, beq_iff_eq, Nat.add_eq_zero_iff, List.length_eq_zero_iff,
    List.length_eq_zero_iff, List.flatMap_eq_nil_iff]
  refine and_congr_right fun _ => ⟨fun none => ?_, fun none => by simp [none]⟩
  exact List.eq_nil_iff_forall_not_mem.mpr fun d hd => h.nonempty d hd (none d hd)

theorem retry_of_early (early : ∀ d ∈ stalled, now < d.retryAt) (s : S) :
    retry out now stalled s = (0, stalled, s) := by
  induction stalled with
  | nil => rfl
  | cons d ds ih =>
    obtain ⟨hd, hds⟩ := List.forall_mem_cons.mp early
    rw [retry, if_pos hd, ih hds]

/-- Nobody is offered anything before the deadline. -/
theorem Settled.fire_of_asleep (h : q.Settled) (asleep : q.Asleep now) (s : S) :
    q.fire out now s = (0, q, s) := by
  obtain ⟨waits, rests⟩ := (asleep_iff h.sorted).mp asleep
  have none_due : q.waiting.takeWhile (fun e => e.due ≤ now) = [] := by
    rw [List.takeWhile_eq_nil_iff]
    intro hpos
    simpa using waits _ (List.getElem_mem hpos)
  have all_left : q.waiting.dropWhile (fun e => e.due ≤ now) = q.waiting := by
    have parts := List.takeWhile_append_dropWhile (p := fun e => decide (e.due ≤ now))
      (l := q.waiting)
    rwa [none_due] at parts
  simp only [fire, retry_of_early rests, none_due, all_left, offerDue]

/-- Whoever was to be tried is rid of its items or left alone once more. -/
theorem retry_resting (nonempty : ∀ d ∈ stalled, d.items ≠ []) (s : S) :
    Resting now (retry out now stalled s).2.1 := by
  induction stalled generalizing s with
  | nil => exact fun d hd => absurd hd List.not_mem_nil
  | cons d ds ih =>
    obtain ⟨hd, hds⟩ := List.forall_mem_cons.mp nonempty
    by_cases wait : now < d.retryAt
    · simp only [retry, wait, if_true]
      exact List.forall_mem_cons.mpr ⟨⟨wait, hd⟩, ih hds s⟩
    · simp only [retry, wait, if_false]
      split
      next => exact ih hds _
      next left =>
        refine List.forall_mem_cons.mpr ⟨⟨lt_retryAt now, ?_⟩, ih hds _⟩
        simpa using left

theorem Resting.holdBack {key : Nat} (h : Resting now stalled) :
    Resting now (holdBack key e stalled) := by
  induction stalled with
  | nil => exact h
  | cons d ds ih =>
    obtain ⟨⟨wait, hd⟩, hds⟩ := List.forall_mem_cons.mp h
    by_cases hk : d.key = key
    · rw [DelayQueue.holdBack, if_pos hk]
      exact List.forall_mem_cons.mpr ⟨⟨wait, by simp⟩, hds⟩
    · rw [DelayQueue.holdBack, if_neg hk]
      exact List.forall_mem_cons.mpr ⟨⟨wait, hd⟩, ih hds⟩

theorem Resting.offerDue (h : Resting now stalled) (es : List (DueItem σ α)) (s : S) :
    Resting now (offerDue out now es stalled s).2.1 := by
  induction es generalizing stalled s with
  | nil => exact h
  | cons e es ih =>
    by_cases full : out.key e.sink ∈ fullKeys stalled
    · rw [offerDue_held full]
      exact ih h.holdBack s
    · obtain ⟨answer, t, ho⟩ : ∃ answer t, out.offer e.sink e.item s = (answer, t) := ⟨_, _, rfl⟩
      cases answer with
      | delivered =>
        rw [offerDue_delivered full ho]
        exact ih h t
      | full =>
        rw [offerDue_full full ho]
        refine ih (List.forall_mem_append.mpr ⟨h, ?_⟩) t
        exact List.forall_mem_singleton.mpr ⟨lt_retryAt now, List.cons_ne_nil _ _⟩
      | gone =>
        rw [offerDue_gone full ho]
        exact ih h t

theorem lt_due_of_mem_dropWhile {es : List (DueItem σ α)}
    (sorted : es.Pairwise fun a b => a.due ≤ b.due)
    (he : e ∈ es.dropWhile fun e => e.due ≤ now) : now < e.due := by
  induction es with
  | nil => cases he
  | cons x xs ih =>
    obtain ⟨hx, hxs⟩ := List.pairwise_cons.mp sorted
    by_cases due : x.due ≤ now
    · rw [List.dropWhile_cons_of_pos (by simpa using due)] at he
      exact ih hxs he
    · rw [List.dropWhile_cons_of_neg (by simpa using due)] at he
      rcases List.mem_cons.mp he with rfl | he
      · exact Int.not_le.mp due
      · exact Int.lt_of_lt_of_le (Int.not_le.mp due) (hx e he)

/-- After a clock reading nothing is left to be done at that time, whatever the sinks said. -/
theorem Settled.fire (h : q.Settled) (out : Outlet σ α S) (now : Time) (s : S) :
    (q.fire out now s).2.1.Settled ∧ (q.fire out now s).2.1.Asleep now := by
  have resting : Resting now (q.fire out now s).2.1.stalled :=
    (retry_resting h.nonempty s).offerDue _ _
  have settled : (q.fire out now s).2.1.Settled :=
    ⟨h.sorted.sublist (List.dropWhile_sublist _), fun d hd => (resting d hd).2⟩
  refine ⟨settled, (asleep_iff settled.sorted).mpr ⟨fun e he => ?_, fun d hd => (resting d hd).1⟩⟩
  exact lt_due_of_mem_dropWhile h.sorted he

theorem Settled.step (h : q.Settled) (s : S) (event : QueueEvent σ α S) :
    (step out (q, s) event).1.Settled := by
  cases event with
  | push due item sink => exact ⟨insertByDue_pairwise h.sorted, h.nonempty⟩
  | fire now => exact (h.fire out now s).1
  | change f => exact h

theorem run_settled (out : Outlet σ α S) (events : List (QueueEvent σ α S)) (s : S) :
    (run out events s).1.Settled := by
  induction events using List.reverseRecOn with
  | nil => exact ⟨.nil, by simp [run]⟩
  | append_singleton events e ih =>
    rw [run_concat]
    exact ih.step _ e

/-- When a worker that is left to itself wakes: it sleeps until the deadline, wakes a little after
it, with the surroundings changed meanwhile, and delivers what is due. -/
def wakings (out : Outlet σ α S) : List (Nat × (S → S)) → DelayQueue σ α → S → List Time
  | [], _, _ => []
  | (late, change) :: naps, q, s => match q.nextDeadline with
    | none => []
    | some due =>
      let (_, q, s) := q.fire out (due + late) (change s)
      (due + late) :: wakings out naps q s

/-- The clock has moved on each time the worker wakes. -/
theorem Settled.wakings_ascend (h : q.Settled) (asleep : q.Asleep now)
    (naps : List (Nat × (S → S))) (s : S) :
    (now :: wakings out naps q s).Pairwise (· < ·) := by
  suffices later : (∀ t ∈ wakings out naps q s, now < t) ∧
      (wakings out naps q s).Pairwise (· < ·) from List.pairwise_cons.mpr later
  induction naps generalizing q now s with
  | nil => simp [wakings]
  | cons nap naps ih =>
    obtain ⟨late, change⟩ := nap
    rw [wakings]
    split
    next => simp
    next due hdue =>
      have awake : now < due + late :=
        Int.lt_of_lt_of_le (asleep due hdue) (Int.le_add_of_nonneg_right (Int.natCast_nonneg late))
      obtain ⟨settled, again⟩ := h.fire out (due + late) (change s)
      obtain ⟨after, ascend⟩ := ih settled again (q.fire out (due + late) (change s)).2.2
      refine ⟨List.forall_mem_cons.mpr ⟨awake, fun t ht => ?_⟩,
        List.pairwise_cons.mpr ⟨after, ascend⟩⟩
      exact Int.lt_trans awake (after t ht)

/-- The deadline is the first moment at which there is something to do: there is none only if
nothing waits, a clock reading changes nothing just if it comes before the deadline, and after any
clock reading the deadline lies in the future, even if all sinks stay full. So a worker that sleeps
until the deadline misses nothing and does not spin. -/
theorem deadline_is_first_moment_of_work (out : Outlet σ α S) (events : List (QueueEvent σ α S))
    (s : S) :
    let q := (run out events s).1
    (q.nextDeadline = none ↔ q.isEmpty = true) ∧
    (∀ now t, q.fire out now t = (0, q, t) ↔ ∀ due, q.nextDeadline = some due → now < due) ∧
    (∀ now t due, (q.fire out now t).2.1.nextDeadline = some due → now < due) ∧
    ∀ now t naps,
      (now :: wakings out naps (q.fire out now t).2.1 (q.fire out now t).2.2).Pairwise
        (· < ·) := by
  intro q
  have settled : q.Settled := run_settled out events s
  refine ⟨nextDeadline_eq_none.trans settled.isEmpty_iff.symm, fun now t => ⟨fun idle => ?_, ?_⟩,
    fun now t => (settled.fire out now t).2, fun now t naps => ?_⟩
  · have asleep := (settled.fire out now t).2
    rwa [idle] at asleep
  · exact fun asleep => settled.fire_of_asleep asleep t
  · obtain ⟨settled', asleep⟩ := settled.fire out now t
    exact settled'.wakings_ascend asleep naps _

end DelayQueue

end Switchboard
