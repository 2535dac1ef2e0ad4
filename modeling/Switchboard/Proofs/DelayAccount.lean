import Mathlib.Data.List.Perm.Basic
import Switchboard.Proofs.DelayOrder

namespace Switchboard

variable {σ α S : Type}

/-- An offer to a sink, and what the sink said. -/
structure Offer (σ α : Type) where
  sink : σ
  item : α
  answer : Answer

/-- The same outlet, with a record of what it offers. -/
def Outlet.recording (out : Outlet σ α S) : Outlet σ α (S × List (Offer σ α)) where
  key := out.key
  offer sink item s :=
    let r := out.offer sink item s.1
    (r.1, r.2, s.2 ++ [⟨sink, item, r.1⟩])

theorem Outlet.recording_blind (out : Outlet σ α S) :
    out.recording.Blind out id Prod.fst := ⟨rfl, fun _ _ _ => rfl⟩

namespace DelayQueue

/-- The items of destinations that were full. -/
def stalledItems (stalled : List (StalledItems σ α)) : List α :=
  stalled.flatMap fun d => d.items.map (·.item)

/-- The items that wait, be it for their time or for their destination. -/
def held (q : DelayQueue σ α) : List α := q.waiting.map (·.item) ++ stalledItems q.stalled

theorem length_held (q : DelayQueue σ α) : q.held.length = q.length := by
  simp [held, stalledItems, length, List.length_flatMap]

theorem length_map {β : Type} (f : α → β) (q : DelayQueue σ α) : (q.map f).length = q.length := by
  simp [DelayQueue.map, length, List.length_flatMap, Function.comp_def, StalledItems.map]

theorem map_id (q : DelayQueue σ α) : q.map id = q := by
  have items (es : List (DueItem σ α)) : es.map (DueItem.map id) = es :=
    List.map_id'' (fun _ => rfl) es
  have stalled : q.stalled.map (StalledItems.map id) = q.stalled :=
    List.map_id'' (fun d => by simp [StalledItems.map, items]) q.stalled
  simp [DelayQueue.map, items, stalled]

theorem stalledItems_cons (d : StalledItems σ α) (ds : List (StalledItems σ α)) :
    stalledItems (d :: ds) = d.items.map (·.item) ++ stalledItems ds := rfl

theorem insertByDue_perm (e : DueItem σ α) (xs : List (DueItem σ α)) :
    (insertByDue e xs).Perm (e :: xs) := by
  induction xs with
  | nil => exact .refl _
  | cons x xs ih =>
    by_cases h : e.due < x.due
    · simp [insertByDue, h]
    · rw [insertByDue, if_neg h]
      exact (ih.cons x).trans (.swap e x xs)

theorem holdBack_perm {k : Nat} {e : DueItem σ α} {stalled : List (StalledItems σ α)}
    (h : k ∈ fullKeys stalled) :
    (stalledItems (holdBack k e stalled)).Perm (e.item :: stalledItems stalled) := by
  induction stalled with
  | nil => simp [fullKeys] at h
  | cons d ds ih =>
    by_cases hd : d.key = k
    · simp [holdBack, hd, stalledItems, List.perm_middle]
    · have hin : k ∈ fullKeys ds := by
        rcases List.mem_cons.mp h with he | hin
        · exact absurd he.symm hd
        · exact hin
      rw [holdBack, if_neg hd]
      exact ((ih hin).append_left (d.items.map (·.item))).trans List.perm_middle

section

variable (out : Outlet σ α S) (now : Time) (before after : List (Pushed σ α))
  (s t : (S × List (Pushed σ α)) × List (Offer σ (Pushed σ α))) (n : Nat)

/-- From one state of the surroundings to another `n` items were delivered, all of them due, and
others are gone only where a sink said that it is gone. -/
def Settles : Prop :=
  ∃ sent dropped made, t.1.2 = s.1.2 ++ sent ∧ t.2 = s.2 ++ made ∧ n = sent.length ∧
    before.Perm (sent ++ (dropped ++ after)) ∧ (∀ x ∈ sent, x.due ≤ now) ∧
    ∀ x ∈ dropped, ∃ o ∈ made, o.answer = .gone ∧ out.key o.sink = out.key x.sink

end

section

variable {out : Outlet σ α S} {now : Time} {before between after : List (Pushed σ α)}
  {s t u : (S × List (Pushed σ α)) × List (Offer σ (Pushed σ α))} {m n : Nat}

theorem Settles.refl (before : List (Pushed σ α))
    (s : (S × List (Pushed σ α)) × List (Offer σ (Pushed σ α))) :
    Settles out now before before s s 0 :=
  ⟨[], [], [], by simp, by simp, rfl, .refl _, by simp, by simp⟩

theorem Settles.of_perm {before' after' : List (Pushed σ α)}
    (h : Settles out now before after s t n) (hb : before'.Perm before) (ha : after.Perm after') :
    Settles out now before' after' s t n := by
  obtain ⟨sent, dropped, made, ht, hrecord, hn, hperm, hdue, hgone⟩ := h
  have there := hb.trans (hperm.trans ((ha.append_left dropped).append_left sent))
  exact ⟨sent, dropped, made, ht, hrecord, hn, there, hdue, hgone⟩

/-- What is left of the rest is what is left of the whole. -/
theorem perm_settled {sent sent' dropped dropped' : List (Pushed σ α)}
    (h : before.Perm (sent ++ (dropped ++ between)))
    (h' : between.Perm (sent' ++ (dropped' ++ after))) :
    before.Perm (sent ++ sent' ++ (dropped ++ dropped' ++ after)) := by
  have spread := (h'.append_left dropped).append_left sent
  have swapped := (List.perm_append_comm_assoc dropped sent' (dropped' ++ after)).append_left sent
  simpa using h.trans (spread.trans swapped)

theorem Settles.trans (h : Settles out now before between s t m)
    (h' : Settles out now between after t u n) : Settles out now before after s u (m + n) := by
  obtain ⟨sent, dropped, made, ht, hrecord, rfl, hperm, hdue, hgone⟩ := h
  obtain ⟨sent', dropped', made', hu, hrecord', rfl, hperm', hdue', hgone'⟩ := h'
  refine ⟨sent ++ sent', dropped ++ dropped', made ++ made', by simp [hu, ht],
    by simp [hrecord, hrecord'], by simp, perm_settled hperm hperm', ?_, ?_⟩
  · intro x hx
    exact (List.mem_append.mp hx).elim (hdue x) (hdue' x)
  · intro x hx
    rcases List.mem_append.mp hx with hx | hx
    · obtain ⟨o, ho, h⟩ := hgone x hx
      exact ⟨o, List.mem_append_left _ ho, h⟩
    · obtain ⟨o, ho, h⟩ := hgone' x hx
      exact ⟨o, List.mem_append_right _ ho, h⟩

/-- Items nobody touches are still there. -/
theorem Settles.append (h : Settles out now before after s t n) (rest : List (Pushed σ α)) :
    Settles out now (before ++ rest) (after ++ rest) s t n := by
  obtain ⟨sent, dropped, made, ht, hrecord, hn, hperm, hdue, hgone⟩ := h
  exact ⟨sent, dropped, made, ht, hrecord, hn, by simpa using hperm.append_right rest, hdue, hgone⟩

theorem Settles.behind (h : Settles out now before after s t n) (rest : List (Pushed σ α)) :
    Settles out now (rest ++ before) (rest ++ after) s t n :=
  (h.append rest).of_perm List.perm_append_comm List.perm_append_comm

theorem offer_cases (out : Outlet σ α S) (sink : σ) (x : Pushed σ α)
    (s : (S × List (Pushed σ α)) × List (Offer σ (Pushed σ α))) :
    ∃ answer t, out.tracing.recording.offer sink x s = (answer, t) ∧
      t.2 = s.2 ++ [⟨sink, x, answer⟩] ∧
      t.1.2 = if answer = .delivered then s.1.2 ++ [x] else s.1.2 :=
  ⟨_, _, rfl, rfl, rfl⟩

/-- One item that is offered. -/
theorem Settles.delivered {x : Pushed σ α} {o : Offer σ (Pushed σ α)} (hdue : x.due ≤ now)
    (hrecord : t.2 = s.2 ++ [o]) (ht : t.1.2 = s.1.2 ++ [x]) :
    Settles out now (x :: after) after s t 1 :=
  ⟨[x], [], [o], ht, hrecord, rfl, .refl _, by simpa using hdue, by simp⟩

theorem Settles.full {o : Offer σ (Pushed σ α)} (hrecord : t.2 = s.2 ++ [o])
    (ht : t.1.2 = s.1.2) : Settles out now after after s t 0 :=
  ⟨[], [], [o], by simp [ht], hrecord, rfl, .refl _, by simp, by simp⟩

theorem Settles.gone {dropped : List (Pushed σ α)} {o : Offer σ (Pushed σ α)}
    (hrecord : t.2 = s.2 ++ [o]) (ht : t.1.2 = s.1.2) (ho : o.answer = .gone)
    (hkey : ∀ x ∈ dropped, out.key o.sink = out.key x.sink) :
    Settles out now (dropped ++ after) after s t 0 :=
  ⟨[], dropped, [o], by simp [ht], hrecord, rfl, .refl _, by simp,
    fun x hx => ⟨o, List.mem_singleton_self o, ho, hkey x hx⟩⟩

/-- The items of one destination: those behind the first that cannot be delivered stay, or are
dropped with it. -/
theorem offerInTurn_settles {key : Nat} {items : List (DueItem σ (Pushed σ α))}
    (own : ∀ e ∈ items, Labelled e ∧ out.key e.sink = key) (due : ∀ e ∈ items, e.due ≤ now)
    (s : (S × List (Pushed σ α)) × List (Offer σ (Pushed σ α))) :
    let r := offerInTurn out.tracing.recording items s
    Settles out now (items.map (·.item)) (r.2.1.map (·.item)) s r.2.2 r.1 ∧ r.2.1 ⊆ items := by
  induction items generalizing s with
  | nil => exact ⟨.refl _ _, fun _ h => h⟩
  | cons e items ih =>
    obtain ⟨⟨hl, hkey⟩, hown⟩ := List.forall_mem_cons.mp own
    obtain ⟨hd, hdues⟩ := List.forall_mem_cons.mp due
    obtain ⟨answer, t, ho, hrecord, ht⟩ := offer_cases out e.sink e.item s
    cases answer with
    | delivered =>
      obtain ⟨hrest, hsub⟩ := ih hown hdues t
      have first : Settles out now (e.item :: items.map (·.item)) (items.map (·.item)) s t 1 :=
        .delivered (by rw [hl.1]; exact hd) hrecord ht
      simp only [offerInTurn, ho]
      exact ⟨Nat.add_comm 1 _ ▸ first.trans hrest, List.subset_cons_of_subset e hsub⟩
    | full =>
      simp only [offerInTurn, ho]
      exact ⟨.full hrecord ht, fun _ h => h⟩
    | gone =>
      simp only [offerInTurn, ho]
      refine ⟨?_, List.nil_subset _⟩
      have dropped : ∀ x ∈ (e :: items).map (·.item), out.key e.sink = out.key x.sink := by
        intro x hx
        obtain ⟨e', he', rfl⟩ := List.mem_map.mp hx
        obtain ⟨hl', hkey'⟩ := own e' he'
        rw [hl'.2, hkey', hkey]
      have settled : Settles out now ((e :: items).map (·.item) ++ []) [] s t 0 :=
        .gone hrecord ht rfl dropped
      rwa [List.append_nil] at settled

/-- No destination is tried before its items are due. -/
def Ripe (stalled : List (StalledItems σ (Pushed σ α))) : Prop :=
  ∀ d ∈ stalled, ∀ e ∈ d.items, e.due ≤ d.retryAt

/-- Besides, none is to be tried yet. -/
def LeftAlone (now : Time) (stalled : List (StalledItems σ (Pushed σ α))) : Prop :=
  ∀ d ∈ stalled, now < d.retryAt ∧ ∀ e ∈ d.items, e.due ≤ d.retryAt

theorem LeftAlone.ripe {stalled : List (StalledItems σ (Pushed σ α))}
    (h : LeftAlone now stalled) : Ripe stalled := fun d hd => (h d hd).2

/-- Due items that are held back now are due when they are tried again. -/
theorem leftAlone_stall {es : List (DueItem σ (Pushed σ α))} (due : ∀ e ∈ es, e.due ≤ now) :
    now < now + retryDelay ∧ ∀ e ∈ es, e.due ≤ now + retryDelay :=
  ⟨lt_retryAt now, fun e he => Int.le_trans (due e he) (Int.le_of_lt (lt_retryAt now))⟩

theorem retry_settles {stalled : List (StalledItems σ (Pushed σ α))} (tidy : Tidy out stalled)
    (ripe : Ripe stalled) (s : (S × List (Pushed σ α)) × List (Offer σ (Pushed σ α))) :
    let r := retry out.tracing.recording now stalled s
    Settles out now (stalledItems stalled) (stalledItems r.2.1) s r.2.2 r.1 ∧
      LeftAlone now r.2.1 := by
  induction stalled generalizing s with
  | nil => exact ⟨.refl _ _, by simp [LeftAlone, retry]⟩
  | cons d ds ih =>
    obtain ⟨hd, hds⟩ := List.forall_mem_cons.mp ripe
    have hown := tidy.own d List.mem_cons_self
    by_cases wait : now < d.retryAt
    · obtain ⟨hrest, halone⟩ := ih tidy.tail.2 hds s
      simp only [retry, wait, if_true, stalledItems_cons]
      exact ⟨hrest.behind (d.items.map (·.item)), List.forall_mem_cons.mpr ⟨⟨wait, hd⟩, halone⟩⟩
    · -- readings may jump back, but whoever is tried again holds nothing that is not due by then
      have due : ∀ e ∈ d.items, e.due ≤ now := fun e he =>
        Int.le_trans (hd e he) (Int.not_lt.mp wait)
      obtain ⟨hturn, hsub⟩ := offerInTurn_settles hown due s
      obtain ⟨m, left, t, ho⟩ : ∃ m left t,
        offerInTurn out.tracing.recording d.items s = (m, left, t) := ⟨_, _, _, rfl⟩
      rw [ho] at hturn hsub
      obtain ⟨hrest, halone⟩ := ih tidy.tail.2 hds t
      have settled := (hturn.append (stalledItems ds)).trans (hrest.behind (left.map (·.item)))
      simp only [retry, wait, if_false, ho]
      cases left with
      | nil => exact ⟨settled, halone⟩
      | cons e es =>
        exact ⟨settled, List.forall_mem_cons.mpr
          ⟨leftAlone_stall fun e' he' => due e' (hsub he'), halone⟩⟩

theorem LeftAlone.holdBack {key : Nat} {e : DueItem σ (Pushed σ α)}
    {stalled : List (StalledItems σ (Pushed σ α))} (h : LeftAlone now stalled)
    (due : e.due ≤ now) : LeftAlone now (holdBack key e stalled) := by
  induction stalled with
  | nil => exact h
  | cons d ds ih =>
    obtain ⟨⟨wait, hd⟩, hds⟩ := List.forall_mem_cons.mp h
    by_cases hk : d.key = key
    · rw [DelayQueue.holdBack, if_pos hk]
      refine List.forall_mem_cons.mpr ⟨⟨wait, ?_⟩, hds⟩
      intro e' he'
      rcases List.mem_append.mp he' with he' | he'
      · exact hd e' he'
      · obtain rfl := List.mem_singleton.mp he'
        exact Int.le_trans due (Int.le_of_lt wait)
    · rw [DelayQueue.holdBack, if_neg hk]
      exact List.forall_mem_cons.mpr ⟨⟨wait, hd⟩, ih hds⟩

/-- What has become due is delivered, dropped, or held back until after this clock reading. -/
theorem offerDue_settles {es : List (DueItem σ (Pushed σ α))}
    {stalled : List (StalledItems σ (Pushed σ α))} (labelled : ∀ e ∈ es, Labelled e)
    (due : ∀ e ∈ es, e.due ≤ now) (alone : LeftAlone now stalled)
    (s : (S × List (Pushed σ α)) × List (Offer σ (Pushed σ α))) :
    let r := offerDue out.tracing.recording now es stalled s
    Settles out now (es.map (·.item) ++ stalledItems stalled) (stalledItems r.2.1) s r.2.2 r.1 ∧
      LeftAlone now r.2.1 := by
  induction es generalizing stalled s with
  | nil => exact ⟨.refl _ _, alone⟩
  | cons e es ih =>
    obtain ⟨hl, hlabelled⟩ := List.forall_mem_cons.mp labelled
    obtain ⟨hd, hdues⟩ := List.forall_mem_cons.mp due
    by_cases full : out.tracing.recording.key e.sink ∈ fullKeys stalled
    · -- nothing is offered: the item moves behind those its destination has
      obtain ⟨hrest, hkept⟩ := ih hlabelled hdues (alone.holdBack hd) s
      rw [offerDue_held full]
      refine ⟨hrest.of_perm ?_ (.refl _), hkept⟩
      exact List.perm_middle.symm.trans ((holdBack_perm full).symm.append_left _)
    · obtain ⟨answer, t, ho, hrecord, ht⟩ := offer_cases out e.sink e.item s
      cases answer with
      | delivered =>
        obtain ⟨hrest, hkept⟩ := ih hlabelled hdues alone t
        have first : Settles out now (e.item :: (es.map (·.item) ++ stalledItems stalled))
            (es.map (·.item) ++ stalledItems stalled) s t 1 :=
          .delivered (by rw [hl.1]; exact hd) hrecord ht
        rw [offerDue_delivered full ho]
        exact ⟨Nat.add_comm 1 _ ▸ first.trans hrest, hkept⟩
      | full =>
        let later := stalled ++ [⟨out.key e.sink, now + retryDelay, [e]⟩]
        have alone' : LeftAlone now later :=
          List.forall_mem_append.mpr ⟨alone, List.forall_mem_singleton.mpr
            (leftAlone_stall (List.forall_mem_singleton.mpr hd))⟩
        obtain ⟨hrest, hkept⟩ := ih hlabelled hdues alone' t
        have first : Settles out now (es.map (·.item) ++ stalledItems later)
            (es.map (·.item) ++ stalledItems later) s t 0 := .full hrecord ht
        have moved : ((e :: es).map (·.item) ++ stalledItems stalled).Perm
            (es.map (·.item) ++ stalledItems later) := by
          simpa [later, stalledItems] using (List.perm_append_singleton e.item
            (es.map (·.item) ++ stalledItems stalled)).symm
        have both := first.trans hrest
        rw [Nat.zero_add] at both
        rw [offerDue_full full ho]
        exact ⟨both.of_perm moved (.refl _), hkept⟩
      | gone =>
        obtain ⟨hrest, hkept⟩ := ih hlabelled hdues alone t
        have first : Settles out now ([e.item] ++ (es.map (·.item) ++ stalledItems stalled))
            (es.map (·.item) ++ stalledItems stalled) s t 0 :=
          .gone hrecord ht rfl (by simp [hl.2])
        rw [offerDue_gone full ho]
        have both := first.trans hrest
        rw [Nat.zero_add] at both
        exact ⟨both, hkept⟩

/-- A clock reading settles what was waiting: nothing appears, nothing is delivered twice, and what
is delivered is counted. -/
theorem fire_settles {q : DelayQueue σ (Pushed σ α)} (tidy : Tidy out q.stalled)
    (labelled : ∀ e ∈ q.waiting, Labelled e) (ripe : Ripe q.stalled) (now : Time)
    (s : (S × List (Pushed σ α)) × List (Offer σ (Pushed σ α))) :
    let r := q.fire out.tracing.recording now s
    Settles out now q.held r.2.1.held s r.2.2 r.1 ∧ Ripe r.2.1.stalled := by
  obtain ⟨hretry, halone⟩ : _ ∧ LeftAlone now _ := retry_settles tidy ripe s
  have first : ∀ e ∈ q.waiting.takeWhile (fun e => e.due ≤ now), Labelled e ∧ e.due ≤ now :=
    fun e he => ⟨labelled e ((List.takeWhile_sublist _).subset he),
      by simpa using List.mem_takeWhile_imp he⟩
  obtain ⟨hdue, halone'⟩ := offerDue_settles (fun e he => (first e he).1)
    (fun e he => (first e he).2) halone (retry out.tracing.recording now q.stalled s).2.2
  have due := (hretry.behind ((q.waiting.takeWhile fun e => e.due ≤ now).map (·.item))).trans hdue
  have parts : q.waiting.takeWhile (fun e => e.due ≤ now) ++
      q.waiting.dropWhile (fun e => e.due ≤ now) = q.waiting := List.takeWhile_append_dropWhile
  refine ⟨(due.append ((q.waiting.dropWhile fun e => e.due ≤ now).map (·.item))).of_perm ?_
    List.perm_append_comm, halone'.ripe⟩
  rw [held, ← parts, List.map_append]
  simpa using List.perm_append_comm.append_left _

end

/-- What waits after a run. -/
def waitingAfter (out : Outlet σ α S) (events : List (QueueEvent σ α S)) (s : S) :
    List (Pushed σ α) := (tracedRun out events s).1.held

/-- What a clock reading after a run offers. -/
def offersAt (out : Outlet σ α S) (events : List (QueueEvent σ α S)) (s : S) (now : Time) :
    List (Offer σ (Pushed σ α)) :=
  ((tracedRun out events s).1.fire out.tracing.recording now ((tracedRun out events s).2, [])).2.2.2

/-- At some clock reading the item was no more, and a sink of its key said that it is gone. -/
def Dropped (out : Outlet σ α S) (events : List (QueueEvent σ α S)) (s : S) (x : Pushed σ α) :
    Prop :=
  ∃ before now after, events = before ++ .fire now :: after ∧ x ∈ waitingAfter out before s ∧
    x ∉ waitingAfter out (before ++ [.fire now]) s ∧
    ∃ o ∈ offersAt out before s now, o.answer = .gone ∧ out.key o.sink = out.key x.sink

section

variable {out : Outlet σ α S} {events : List (QueueEvent σ α S)} {s : S}

theorem Dropped.concat {x : Pushed σ α} (h : Dropped out events s x) (e : QueueEvent σ α S) :
    Dropped out (events ++ [e]) s x := by
  obtain ⟨before, now, after, rfl, h⟩ := h
  exact ⟨before, now, after ++ [e], by simp, h⟩

theorem pushes_nodup (events : List (QueueEvent σ α S)) : (pushes events).Nodup :=
  (pushes_pairwise events).imp fun h heq => Nat.ne_of_lt h (congrArg Pushed.place heq)

/-- With the record of its offers a clock reading does what it does without. -/
theorem fire_recording (out : Outlet σ α S) (q : DelayQueue σ α) (now : Time) (s : S) :
    q.fire out now s = ((q.fire out.recording now (s, [])).1,
      (q.fire out.recording now (s, [])).2.1, (q.fire out.recording now (s, [])).2.2.1) := by
  have h := fire_map out.recording_blind q now (s, [])
  rwa [map_id, map_id] at h

/-- What a clock reading after a run settles. -/
theorem fire_step (ripe : Ripe (tracedRun out events s).1.stalled) (now : Time) :
    Ripe (tracedRun out (events ++ [.fire now]) s).1.stalled ∧
    ∃ sent dropped,
      deliveries out (events ++ [.fire now]) s = deliveries out events s ++ sent ∧
      ((run out events s).1.fire out now (run out events s).2).1 = sent.length ∧
      (∀ x ∈ sent, x.due ≤ now) ∧
      (waitingAfter out events s).Perm
        (sent ++ (dropped ++ waitingAfter out (events ++ [.fire now]) s)) ∧
      ∀ x ∈ dropped, ∃ o ∈ offersAt out events s now,
        o.answer = .gone ∧ out.key o.sink = out.key x.sink := by
  have orderly := tracedRun_orderly out events s
  obtain ⟨⟨sent, dropped, made, hsent, hmade, hn, hperm, hdue, hgone⟩, hripe⟩ :=
    fire_settles orderly.tidy orderly.labelled ripe now ((tracedRun out events s).2, [])
  have recorded := fire_recording out.tracing (tracedRun out events s).1 now
    (tracedRun out events s).2
  have erased := fire_map out.tracing_blind (tracedRun out events s).1 now
    (tracedRun out events s).2
  have after : tracedRun out (events ++ [.fire now]) s =
      ((tracedRun out events s).1.fire out.tracing now (tracedRun out events s).2).2 :=
    tracedRun_concat out events _ s
  rw [recorded] at after erased
  rw [deliveries, waitingAfter, waitingAfter, after, tracedRun_erase, erased]
  refine ⟨hripe, sent, dropped, hsent, hn, hdue, hperm, ?_⟩
  intro x hx
  obtain ⟨o, ho, h⟩ := hgone x hx
  rw [List.nil_append] at hmade
  exact ⟨o, by rw [offersAt, hmade]; exact ho, h⟩

/-- The state of a run: every item pushed so far was delivered, was dropped, or waits. -/
structure Accounted (out : Outlet σ α S) (events : List (QueueEvent σ α S)) (s : S) : Prop where
  ripe : Ripe (tracedRun out events s).1.stalled
  account : ∃ dropped, (∀ x ∈ dropped, Dropped out events s x) ∧
    (pushes events).Perm (deliveries out events s ++ (dropped ++ waitingAfter out events s))

theorem Accounted.waiting_nodup (h : Accounted out events s) :
    (waitingAfter out events s).Nodup := by
  obtain ⟨_, dropped, _, hperm⟩ := h
  have all := hperm.nodup_iff.mp (pushes_nodup events)
  exact (List.nodup_append.mp (List.nodup_append.mp all).2.1).2.1

theorem Accounted.push (h : Accounted out events s) (due : Time) (item : α) (sink : σ) :
    Accounted out (events ++ [.push due item sink]) s := by
  obtain ⟨hripe, dropped, hdropped, hperm⟩ := h
  let x : Pushed σ α := ⟨events.length, due, item, sink⟩
  have after : tracedRun out (events ++ [.push due item sink]) s =
      ((tracedRun out events s).1.push due x sink, (tracedRun out events s).2) :=
    tracedRun_concat out events _ s
  have pushed : pushes (events ++ [.push due item sink]) = pushes events ++ [x] :=
    pushes_concat events _
  have waits : (waitingAfter out (events ++ [.push due item sink]) s).Perm
      (waitingAfter out events s ++ [x]) := by
    rw [waitingAfter, after]
    exact (((insertByDue_perm _ _).map _).append_right _).trans
      (List.perm_append_singleton _ _).symm
  have same : deliveries out (events ++ [.push due item sink]) s = deliveries out events s := by
    rw [deliveries, after]
    rfl
  refine ⟨by rw [after]; exact hripe, dropped, fun y hy => (hdropped y hy).concat _, ?_⟩
  rw [pushed, same]
  exact ((hperm.append_right [x]).trans (by simp)).trans
    ((waits.symm.append_left dropped).append_left _)

theorem Accounted.fire (h : Accounted out events s) (now : Time) :
    Accounted out (events ++ [.fire now]) s := by
  have hnodup := h.waiting_nodup
  obtain ⟨hripe, dropped, hdropped, hperm⟩ := h
  obtain ⟨hripe', sent, dropped', hsent, _, _, hsettled, hgone⟩ := fire_step hripe now
  have pushed : pushes (events ++ [.fire now]) = pushes events := by
    rw [pushes_concat]
    exact List.append_nil _
  have account := perm_settled hperm hsettled
  rw [← hsent, ← pushed] at account
  refine ⟨hripe', dropped ++ dropped', ?_, account⟩
  intro x hx
  rcases List.mem_append.mp hx with hx | hx
  · exact (hdropped x hx).concat _
  · -- it is dropped now and was not before: it waited, and is not among what is left
    have waited : x ∈ waitingAfter out events s :=
      hsettled.mem_iff.mpr (List.mem_append_right _ (List.mem_append_left _ hx))
    have apart := (List.nodup_append.mp (hsettled.nodup_iff.mp hnodup)).2.1
    have left : x ∉ waitingAfter out (events ++ [.fire now]) s := fun hin =>
      (List.nodup_append.mp apart).2.2 x hx x hin rfl
    exact ⟨events, now, [], rfl, waited, left, hgone x hx⟩

theorem Accounted.change (h : Accounted out events s) (f : S → S) :
    Accounted out (events ++ [.change f]) s := by
  obtain ⟨hripe, dropped, hdropped, hperm⟩ := h
  have after : tracedRun out (events ++ [.change f]) s = ((tracedRun out events s).1,
      f (tracedRun out events s).2.1, (tracedRun out events s).2.2) :=
    tracedRun_concat out events _ s
  have pushed : pushes (events ++ [.change f]) = pushes events := by
    rw [pushes_concat]
    exact List.append_nil _
  refine ⟨by rw [after]; exact hripe, dropped, fun x hx => (hdropped x hx).concat _, ?_⟩
  rw [pushed, waitingAfter, deliveries, after]
  exact hperm

theorem run_accounted (out : Outlet σ α S) (events : List (QueueEvent σ α S)) (s : S) :
    Accounted out events s := by
  induction events using List.reverseRecOn with
  | nil => exact ⟨by simp [tracedRun, run, Ripe], [], by simp, .refl _⟩
  | append_singleton events e ih =>
    cases e with
    | push due item sink => exact ih.push due item sink
    | fire now => exact ih.fire now
    | change f => exact ih.change f

/-- Whatever the sinks answer and whatever the clock reads: at every moment an item that was pushed
was delivered, or was dropped where a sink of its key was gone, or waits and is counted, and just
one of these, once. Items are delivered by clock readings alone, none before it is due, and each
reading tells how many. -/
theorem every_item_is_accounted_for (out : Outlet σ α S) (events : List (QueueEvent σ α S))
    (s : S) :
    (run out events s).1 = (tracedRun out events s).1.map Pushed.item ∧
    (run out events s).1.length = (waitingAfter out events s).length ∧
    (pushes events).Nodup ∧
    (∃ dropped, (∀ x ∈ dropped, Dropped out events s x) ∧
      (pushes events).Perm (deliveries out events s ++ (dropped ++ waitingAfter out events s))) ∧
    ∀ e : QueueEvent σ α S, ∃ sent,
      deliveries out (events ++ [e]) s = deliveries out events s ++ sent ∧
      match e with
      | .fire now => ((run out events s).1.fire out now (run out events s).2).1 = sent.length ∧
          ∀ x ∈ sent, x.due ≤ now
      | _ => sent = [] := by
  have accounted := run_accounted out events s
  have erased := tracedRun_erase out events s
  refine ⟨by rw [erased], ?_, pushes_nodup events, accounted.account, ?_⟩
  · rw [erased, length_map]
    exact (length_held _).symm
  · intro e
    cases e with
    | push due item sink =>
      exact ⟨[], by rw [deliveries, tracedRun_concat, List.append_nil]; rfl, rfl⟩
    | fire now =>
      obtain ⟨_, sent, _, hsent, hcount, hdue, _⟩ := fire_step accounted.ripe now
      exact ⟨sent, hsent, hcount, hdue⟩
    | change f => exact ⟨[], by rw [deliveries, tracedRun_concat, List.append_nil]; rfl, rfl⟩

end

end DelayQueue

end Switchboard
