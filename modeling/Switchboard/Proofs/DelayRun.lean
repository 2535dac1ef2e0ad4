import Mathlib.Data.List.Induction
import Switchboard.Delay.Queue

namespace Switchboard

variable {σ α β S T : Type}

/-- What may happen to a queue: besides pushes and clock readings, the surroundings in which the
sinks find their answers may change in any way. -/
inductive QueueEvent (σ α S : Type) where
  | push (due : Time) (item : α) (sink : σ)
  | fire (now : Time)
  | change (f : S → S)

/-- An item with the place of its push among the events. -/
structure Pushed (σ α : Type) where
  place : Nat
  due : Time
  item : α
  sink : σ

def QueueEvent.pushed? (place : Nat) : QueueEvent σ α S → Option (Pushed σ α)
  | .push due item sink => some ⟨place, due, item, sink⟩
  | _ => none

/-- The event for a queue that knows its items by their pushes, beside a record of deliveries. -/
def QueueEvent.traced (place : Nat) :
    QueueEvent σ α S → QueueEvent σ (Pushed σ α) (S × List (Pushed σ α))
  | .push due item sink => .push due ⟨place, due, item, sink⟩ sink
  | .fire now => .fire now
  | .change f => .change fun s => (f s.1, s.2)

/-- The same outlet, with a record of what it delivers. -/
def Outlet.tracing (out : Outlet σ α S) : Outlet σ (Pushed σ α) (S × List (Pushed σ α)) where
  key := out.key
  offer sink p s :=
    let r := out.offer sink p.item s.1
    (r.1, r.2, if r.1 = .delivered then s.2 ++ [p] else s.2)

namespace DelayQueue

def step (out : Outlet σ α S) (w : DelayQueue σ α × S) : QueueEvent σ α S → DelayQueue σ α × S
  | .push due item sink => (w.1.push due item sink, w.2)
  | .fire now => (w.1.fire out now w.2).2
  | .change f => (w.1, f w.2)

def run (out : Outlet σ α S) (events : List (QueueEvent σ α S)) (s : S) : DelayQueue σ α × S :=
  events.foldl (step out) ({}, s)

def pushes (events : List (QueueEvent σ α S)) : List (Pushed σ α) :=
  (events.mapIdx fun i e => e.pushed? i).filterMap id

def tracedRun (out : Outlet σ α S) (events : List (QueueEvent σ α S)) (s : S) :
    DelayQueue σ (Pushed σ α) × S × List (Pushed σ α) :=
  run out.tracing (events.mapIdx fun i e => e.traced i) (s, [])

/-- What a run delivers, in the order of the deliveries. -/
def deliveries (out : Outlet σ α S) (events : List (QueueEvent σ α S)) (s : S) :
    List (Pushed σ α) := (tracedRun out events s).2.2

theorem run_concat (out : Outlet σ α S) (events : List (QueueEvent σ α S)) (e : QueueEvent σ α S)
    (s : S) : run out (events ++ [e]) s = step out (run out events s) e := by
  simp [run]

theorem tracedRun_concat (out : Outlet σ α S) (events : List (QueueEvent σ α S))
    (e : QueueEvent σ α S) (s : S) :
    tracedRun out (events ++ [e]) s =
      step out.tracing (tracedRun out events s) (e.traced events.length) := by
  simp only [tracedRun, List.mapIdx_concat, run_concat]

theorem pushes_concat (events : List (QueueEvent σ α S)) (e : QueueEvent σ α S) :
    pushes (events ++ [e]) = pushes events ++ (e.pushed? events.length).toList := by
  cases h : e.pushed? events.length <;> simp [pushes, List.mapIdx_concat, h]

theorem lt_retryAt (now : Time) : now < now + retryDelay :=
  Int.lt_add_of_pos_right now (by decide)

/-- The destinations that were full. -/
def fullKeys (stalled : List (StalledItems σ α)) : List Nat := stalled.map (·.key)

theorem any_key_iff {stalled : List (StalledItems σ α)} {key : Nat} :
    (stalled.any fun d => d.key == key) = true ↔ key ∈ fullKeys stalled := by
  simp [fullKeys]

section

variable {out : Outlet σ α S} {now : Time} {e : DueItem σ α} {es : List (DueItem σ α)}
  {stalled : List (StalledItems σ α)} {s t : S}

theorem offerDue_held (h : out.key e.sink ∈ fullKeys stalled) :
    offerDue out now (e :: es) stalled s =
      offerDue out now es (holdBack (out.key e.sink) e stalled) s := by
  rw [offerDue, if_pos (any_key_iff.mpr h)]

theorem offerDue_delivered (h : out.key e.sink ∉ fullKeys stalled)
    (answer : out.offer e.sink e.item s = (.delivered, t)) :
    offerDue out now (e :: es) stalled s =
      ((offerDue out now es stalled t).1 + 1, (offerDue out now es stalled t).2) := by
  rw [offerDue, if_neg (mt any_key_iff.mp h), answer]

theorem offerDue_full (h : out.key e.sink ∉ fullKeys stalled)
    (answer : out.offer e.sink e.item s = (.full, t)) :
    offerDue out now (e :: es) stalled s =
      offerDue out now es (stalled ++ [⟨out.key e.sink, now + retryDelay, [e]⟩]) t := by
  rw [offerDue, if_neg (mt any_key_iff.mp h), answer]

theorem offerDue_gone (h : out.key e.sink ∉ fullKeys stalled)
    (answer : out.offer e.sink e.item s = (.gone, t)) :
    offerDue out now (e :: es) stalled s = offerDue out now es stalled t := by
  rw [offerDue, if_neg (mt any_key_iff.mp h), answer]

theorem insertByDue_pairwise (h : es.Pairwise fun a b => a.due ≤ b.due) :
    (insertByDue e es).Pairwise fun a b => a.due ≤ b.due := by
  induction es with
  | nil => simp [insertByDue]
  | cons x xs ih =>
    obtain ⟨hx, hxs⟩ := List.pairwise_cons.mp h
    by_cases hlt : e.due < x.due
    · rw [insertByDue, if_pos hlt]
      refine List.pairwise_cons.mpr ⟨fun y hy => ?_, h⟩
      rcases List.mem_cons.mp hy with rfl | hy
      · exact Int.le_of_lt hlt
      · exact Int.le_trans (Int.le_of_lt hlt) (hx y hy)
    · rw [insertByDue, if_neg hlt]
      refine List.pairwise_cons.mpr ⟨fun y hy => ?_, ih hxs⟩
      rcases mem_insertByDue.mp hy with rfl | hy
      · exact Int.not_lt.mp hlt
      · exact hx y hy

theorem fullKeys_holdBack (key : Nat) (e : DueItem σ α) (stalled : List (StalledItems σ α)) :
    fullKeys (holdBack key e stalled) = fullKeys stalled := by
  induction stalled with
  | nil => rfl
  | cons d ds ih =>
    by_cases h : d.key = key
    · simp [holdBack, fullKeys, h]
    · simpa [holdBack, fullKeys, h] using ih

/-- Destinations that were full have their own items, each in one place. -/
structure Apart (out : Outlet σ α S) (stalled : List (StalledItems σ α)) : Prop where
  distinct : (fullKeys stalled).Nodup
  own : ∀ d ∈ stalled, ∀ e ∈ d.items, out.key e.sink = d.key

theorem Apart.tail {d : StalledItems σ α} (h : Apart out (d :: stalled)) :
    d.key ∉ fullKeys stalled ∧ Apart out stalled := by
  obtain ⟨hd, hds⟩ := List.nodup_cons.mp h.distinct
  exact ⟨hd, hds, fun d' hd' => h.own d' (List.mem_cons_of_mem _ hd')⟩

theorem Apart.cons {d : StalledItems σ α} (h : Apart out stalled) (hd : d.key ∉ fullKeys stalled)
    (own : ∀ e ∈ d.items, out.key e.sink = d.key) : Apart out (d :: stalled) :=
  ⟨List.nodup_cons.mpr ⟨hd, h.distinct⟩, List.forall_mem_cons.mpr ⟨own, h.own⟩⟩

theorem Apart.holdBack (h : Apart out stalled) {key : Nat} (he : out.key e.sink = key) :
    Apart out (holdBack key e stalled) := by
  induction stalled with
  | nil => exact h
  | cons d ds ih =>
    obtain ⟨hd, tail⟩ := h.tail
    have own := h.own d List.mem_cons_self
    by_cases hkey : d.key = key
    · rw [DelayQueue.holdBack, if_pos hkey]
      refine Apart.cons tail hd ?_
      intro e' he'
      rcases List.mem_append.mp he' with he' | he'
      · exact own e' he'
      · rw [List.mem_singleton.mp he', he, hkey]
    · rw [DelayQueue.holdBack, if_neg hkey]
      exact (ih tail).cons (by rwa [fullKeys_holdBack]) own

theorem Apart.append_new (h : Apart out stalled) (hk : out.key e.sink ∉ fullKeys stalled)
    (retryAt : Time) : Apart out (stalled ++ [⟨out.key e.sink, retryAt, [e]⟩]) := by
  induction stalled with
  | nil =>
    refine Apart.cons h hk ?_
    exact fun e' he' => by rw [List.mem_singleton.mp he']
  | cons d ds ih =>
    obtain ⟨hd, tail⟩ := h.tail
    obtain ⟨hne, hk⟩ := not_or.mp (mt List.mem_cons.mpr hk)
    refine Apart.cons (ih tail hk) ?_ (h.own d List.mem_cons_self)
    simpa [fullKeys, Ne.symm hne] using hd

end

end DelayQueue

/-! Other items in the place of the items change nothing, as long as the sinks cannot tell. -/

def DueItem.map (f : α → β) (e : DueItem σ α) : DueItem σ β := ⟨e.due, f e.item, e.sink⟩

def StalledItems.map (f : α → β) (d : StalledItems σ α) : StalledItems σ β :=
  ⟨d.key, d.retryAt, d.items.map (DueItem.map f)⟩

def DelayQueue.map (f : α → β) (q : DelayQueue σ α) : DelayQueue σ β :=
  ⟨q.waiting.map (DueItem.map f), q.stalled.map (StalledItems.map f)⟩

/-- The sinks answer items as they answer what `f` makes of them. -/
structure Outlet.Blind (out : Outlet σ α S) (out' : Outlet σ β T) (f : α → β) (g : S → T) :
    Prop where
  key : out'.key = out.key
  offer : ∀ sink item s, out'.offer sink (f item) (g s) =
    ((out.offer sink item s).1, g (out.offer sink item s).2)

theorem Outlet.tracing_blind (out : Outlet σ α S) :
    out.tracing.Blind out Pushed.item Prod.fst := ⟨rfl, fun _ _ _ => rfl⟩

namespace DelayQueue

variable {out : Outlet σ α S} {out' : Outlet σ β T} {f : α → β} {g : S → T}

theorem fullKeys_map (f : α → β) (stalled : List (StalledItems σ α)) :
    fullKeys (stalled.map (StalledItems.map f)) = fullKeys stalled := by
  simp [fullKeys, StalledItems.map]

theorem insertByDue_map (f : α → β) (e : DueItem σ α) (xs : List (DueItem σ α)) :
    (insertByDue e xs).map (DueItem.map f) = insertByDue (e.map f) (xs.map (DueItem.map f)) := by
  induction xs with
  | nil => rfl
  | cons x xs ih =>
    by_cases h : e.due < x.due
    · simp [insertByDue, h, DueItem.map]
    · simpa [insertByDue, h, DueItem.map] using ih

theorem offerInTurn_map (blind : out.Blind out' f g) (items : List (DueItem σ α)) (s : S) :
    offerInTurn out' (items.map (DueItem.map f)) (g s) =
      ((offerInTurn out items s).1, (offerInTurn out items s).2.1.map (DueItem.map f),
        g (offerInTurn out items s).2.2) := by
  induction items generalizing s with
  | nil => rfl
  | cons e items ih =>
    obtain ⟨answer, t, h⟩ : ∃ answer t, out.offer e.sink e.item s = (answer, t) := ⟨_, _, rfl⟩
    have h' : out'.offer e.sink (f e.item) (g s) = (answer, g t) := by rw [blind.offer, h]
    cases answer <;> simp [offerInTurn, DueItem.map, h, h', ih]

theorem retry_map (blind : out.Blind out' f g) (now : Time) (ds : List (StalledItems σ α))
    (s : S) :
    retry out' now (ds.map (StalledItems.map f)) (g s) =
      ((retry out now ds s).1, (retry out now ds s).2.1.map (StalledItems.map f),
        g (retry out now ds s).2.2) := by
  induction ds generalizing s with
  | nil => rfl
  | cons d ds ih =>
    by_cases h : now < d.retryAt
    · simp [retry, StalledItems.map, h, ih]
    · cases hl : (offerInTurn out d.items s).2.1 <;>
        simp [retry, StalledItems.map, h, ih, offerInTurn_map blind, hl]

theorem holdBack_map (f : α → β) (key : Nat) (e : DueItem σ α) (ds : List (StalledItems σ α)) :
    (holdBack key e ds).map (StalledItems.map f) =
      holdBack key (e.map f) (ds.map (StalledItems.map f)) := by
  induction ds with
  | nil => rfl
  | cons d ds ih => by_cases h : d.key = key <;> simp [holdBack, StalledItems.map, h, ih]

theorem offerDue_map (blind : out.Blind out' f g) (now : Time) (es : List (DueItem σ α))
    (stalled : List (StalledItems σ α)) (s : S) :
    offerDue out' now (es.map (DueItem.map f)) (stalled.map (StalledItems.map f)) (g s) =
      ((offerDue out now es stalled s).1,
        (offerDue out now es stalled s).2.1.map (StalledItems.map f),
        g (offerDue out now es stalled s).2.2) := by
  induction es generalizing stalled s with
  | nil => rfl
  | cons e es ih =>
    have hkey : out'.key (e.map f).sink = out.key e.sink := by rw [blind.key]; rfl
    by_cases hs : out.key e.sink ∈ fullKeys stalled
    · have hs' : out'.key (e.map f).sink ∈ fullKeys (stalled.map (StalledItems.map f)) := by
        rwa [fullKeys_map, hkey]
      rw [List.map_cons, offerDue_held hs', offerDue_held hs, hkey, ← holdBack_map, ih]
    · have hs' : out'.key (e.map f).sink ∉ fullKeys (stalled.map (StalledItems.map f)) := by
        rwa [fullKeys_map, hkey]
      obtain ⟨answer, t, h⟩ : ∃ answer t, out.offer e.sink e.item s = (answer, t) := ⟨_, _, rfl⟩
      have h' : out'.offer (e.map f).sink (e.map f).item (g s) = (answer, g t) :=
        (blind.offer e.sink e.item s).trans (by rw [h])
      cases answer with
      | delivered =>
        rw [List.map_cons, offerDue_delivered hs' h', offerDue_delivered hs h, ih]
      | full =>
        rw [List.map_cons, offerDue_full hs' h', offerDue_full hs h, hkey, ← ih]
        simp [StalledItems.map]
      | gone => rw [List.map_cons, offerDue_gone hs' h', offerDue_gone hs h, ih]

theorem fire_map (blind : out.Blind out' f g) (q : DelayQueue σ α) (now : Time) (s : S) :
    (q.map f).fire out' now (g s) =
      ((q.fire out now s).1, (q.fire out now s).2.1.map f, g (q.fire out now s).2.2) := by
  have due : ((fun e : DueItem σ β => decide (e.due ≤ now)) ∘ DueItem.map f) =
      fun e : DueItem σ α => decide (e.due ≤ now) := rfl
  simp only [fire, DelayQueue.map, retry_map blind, List.takeWhile_map, List.dropWhile_map, due,
    offerDue_map blind]

/-- The record of a run is one of the run itself: without it the same happens. -/
theorem tracedRun_erase (out : Outlet σ α S) (events : List (QueueEvent σ α S)) (s : S) :
    run out events s =
      ((tracedRun out events s).1.map Pushed.item, (tracedRun out events s).2.1) := by
  induction events using List.reverseRecOn with
  | nil => rfl
  | append_singleton events e ih =>
    rw [run_concat, tracedRun_concat, ih]
    cases e with
    | push due item sink => simp [step, QueueEvent.traced, push, DelayQueue.map, insertByDue_map,
        DueItem.map]
    | fire now => simp [step, QueueEvent.traced, fire_map out.tracing_blind]
    | change f => rfl

end DelayQueue

end Switchboard
