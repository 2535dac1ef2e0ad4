import Mathlib.Data.List.Sort
import Mathlib.Data.List.TakeWhile
import Switchboard.Proofs.DelayFront

namespace Switchboard

variable {σ α S : Type}

/-- Due first, or due at the same time and pushed first. -/
def Pushed.Precedes (x y : Pushed σ α) : Prop :=
  x.due < y.due ∨ x.due = y.due ∧ x.place < y.place

theorem Pushed.Precedes.trans {x y z : Pushed σ α} (h : x.Precedes y) (h' : y.Precedes z) :
    x.Precedes z := by
  rcases h with h | ⟨h, hp⟩
  · rcases h' with h' | ⟨h', _⟩
    · exact .inl (Int.lt_trans h h')
    · exact .inl (h' ▸ h)
  · rcases h' with h' | ⟨h', hp'⟩
    · exact .inl (h ▸ h')
    · exact .inr ⟨h.trans h', Nat.lt_trans hp hp'⟩

theorem Pushed.Precedes.asymm {x y : Pushed σ α} (h : x.Precedes y) : ¬ y.Precedes x := by
  intro h'
  rcases h.trans h' with hlt | ⟨_, hlt⟩
  · exact Int.lt_irrefl _ hlt
  · exact Nat.lt_irrefl _ hlt

theorem Pushed.precedes_of_le {x y : Pushed σ α} (hd : x.due ≤ y.due) (hp : x.place < y.place) :
    x.Precedes y := (Int.lt_or_eq_of_le hd).imp_right fun h => ⟨h, hp⟩

namespace DelayQueue

variable {events : List (QueueEvent σ α S)} {e : QueueEvent σ α S} {x y : Pushed σ α}

/-- After its push a clock reading has come up to the due time of the item. -/
def ReachedAt (events : List (QueueEvent σ α S)) (x : Pushed σ α) (k : Nat) : Prop :=
  x.place < k ∧ ∃ now, events[k]? = some (.fire now) ∧ x.due ≤ now

/-- The order in which items may be delivered: the second is due later, or was pushed only after a
clock reading had come up to the first. -/
def InOrder (events : List (QueueEvent σ α S)) (x y : Pushed σ α) : Prop :=
  x.Precedes y ∨ ∃ k, ReachedAt events x k ∧ k < y.place

theorem mem_pushes : x ∈ pushes events ↔ events[x.place]? = some (.push x.due x.item x.sink) := by
  simp only [pushes, List.mem_filterMap, List.mem_mapIdx, id]
  constructor
  · rintro ⟨_, ⟨i, hi, rfl⟩, hx⟩
    cases he : events[i] with
    | push due item sink =>
      rw [he] at hx
      obtain rfl := Option.some.inj hx
      simp [List.getElem?_eq_getElem hi, he]
    | fire => rw [he] at hx; cases hx
    | change => rw [he] at hx; cases hx
  · intro h
    obtain ⟨hi, he⟩ := List.getElem?_eq_some_iff.mp h
    exact ⟨_, ⟨x.place, hi, rfl⟩, by rw [he]; rfl⟩

theorem place_lt_of_mem_pushes (h : x ∈ pushes events) : x.place < events.length :=
  (List.getElem?_eq_some_iff.mp (mem_pushes.mp h)).1

theorem pushes_pairwise (events : List (QueueEvent σ α S)) :
    (pushes events).Pairwise fun x y => x.place < y.place := by
  induction events using List.reverseRecOn with
  | nil => exact List.Pairwise.nil
  | append_singleton events e ih =>
    rw [pushes_concat]
    refine List.pairwise_append.mpr ⟨ih, by cases e.pushed? events.length <;> simp, ?_⟩
    intro x hx y hy
    cases e with
    | push due item sink =>
      obtain rfl := List.mem_singleton.mp hy
      exact place_lt_of_mem_pushes hx
    | fire => cases hy
    | change => cases hy

theorem ReachedAt.concat {k : Nat} (h : ReachedAt events x k) : ReachedAt (events ++ [e]) x k := by
  obtain ⟨hk, now, hn, hd⟩ := h
  exact ⟨hk, now, List.getElem?_append_left (List.getElem?_eq_some_iff.mp hn).1 ▸ hn, hd⟩

theorem InOrder.concat (h : InOrder events x y) : InOrder (events ++ [e]) x y :=
  h.imp_right fun ⟨k, hk, hy⟩ => ⟨k, hk.concat, hy⟩

/-- The state of a run: what has been offered was due, stands in order, and comes before what
waits. -/
structure Orderly (out : Outlet σ α S) (events : List (QueueEvent σ α S))
    (q : DelayQueue σ (Pushed σ α)) (delivered : List (Pushed σ α)) : Prop where
  tidy : Tidy out q.stalled
  labelled : ∀ e ∈ q.waiting, Labelled e
  waits : ∀ e ∈ q.waiting, e.item ∈ pushes events
  sorted : q.waiting.Pairwise fun a b => a.item.Precedes b.item
  offered : ∀ key, ∀ x ∈ front out key q.stalled delivered,
    x ∈ pushes events ∧ ∃ k, ReachedAt events x k
  ordered : ∀ key, (front out key q.stalled delivered).Pairwise (InOrder events)
  before : ∀ key, ∀ x ∈ front out key q.stalled delivered, ∀ e ∈ q.waiting,
    out.key e.sink = key → InOrder events x e.item

/-- The item pushed last waits behind all that are not due later. -/
theorem insertByDue_sorted {e : DueItem σ (Pushed σ α)} {xs : List (DueItem σ (Pushed σ α))}
    (he : Labelled e) (hxs : ∀ x ∈ xs, Labelled x) (last : ∀ x ∈ xs, x.item.place < e.item.place)
    (h : xs.Pairwise fun a b => a.item.Precedes b.item) :
    (insertByDue e xs).Pairwise fun a b => a.item.Precedes b.item := by
  induction xs with
  | nil => simp [insertByDue]
  | cons x xs ih =>
    obtain ⟨hx, htail⟩ := List.pairwise_cons.mp h
    have hlx := hxs x List.mem_cons_self
    by_cases hlt : e.due < x.due
    · rw [insertByDue, if_pos hlt]
      have first : e.item.Precedes x.item := .inl (by rw [he.1, hlx.1]; exact hlt)
      refine List.pairwise_cons.mpr ⟨?_, h⟩
      intro y hy
      rcases List.mem_cons.mp hy with rfl | hy
      · exact first
      · exact first.trans (hx y hy)
    · rw [insertByDue, if_neg hlt]
      refine List.pairwise_cons.mpr ⟨?_, ih (fun y hy => hxs y (List.mem_cons_of_mem _ hy))
        (fun y hy => last y (List.mem_cons_of_mem _ hy)) htail⟩
      intro y hy
      rcases mem_insertByDue.mp hy with rfl | hy
      · have hdue : x.item.due ≤ y.item.due := by rw [he.1, hlx.1]; exact Int.not_lt.mp hlt
        exact Pushed.precedes_of_le hdue (last x List.mem_cons_self)
      · exact hx y hy

variable {out : Outlet σ α S} {q : DelayQueue σ (Pushed σ α)} {delivered : List (Pushed σ α)}

theorem Orderly.push (h : Orderly out events q delivered) (due : Time) (item : α) (sink : σ) :
    Orderly out (events ++ [.push due item sink])
      (q.push due ⟨events.length, due, item, sink⟩ sink) delivered := by
  have last : ∀ e ∈ q.waiting, e.item.place < events.length :=
    fun e he => place_lt_of_mem_pushes (h.waits e he)
  have known : ∀ x ∈ pushes events, x ∈ pushes (events ++ [.push due item sink]) := by
    intro x hx
    rw [pushes_concat]
    exact List.mem_append_left _ hx
  refine ⟨h.tidy, ?_, ?_, insertByDue_sorted ⟨rfl, rfl⟩ h.labelled last h.sorted, ?_, ?_, ?_⟩
  · intro e he
    rcases mem_insertByDue.mp he with rfl | he
    · exact ⟨rfl, rfl⟩
    · exact h.labelled e he
  · intro e he
    rcases mem_insertByDue.mp he with rfl | he
    · exact mem_pushes.mpr (by simp)
    · exact known _ (h.waits e he)
  · intro key x hx
    obtain ⟨hp, k, hk⟩ := h.offered key x hx
    exact ⟨known x hp, k, hk.concat⟩
  · exact fun key => (h.ordered key).imp InOrder.concat
  · intro key x hx e he hkey
    rcases mem_insertByDue.mp he with rfl | he
    · obtain ⟨_, k, hk⟩ := h.offered key x hx
      obtain ⟨_, now, hn, _⟩ := id hk
      exact .inr ⟨k, hk.concat, (List.getElem?_eq_some_iff.mp hn).1⟩
    · exact (h.before key x hx e he hkey).concat

theorem Orderly.concat (h : Orderly out events q delivered)
    (hp : e.pushed? events.length = none) : Orderly out (events ++ [e]) q delivered := by
  have same : pushes (events ++ [e]) = pushes events := by simp [pushes_concat, hp]
  refine ⟨h.tidy, h.labelled, by rw [same]; exact h.waits, h.sorted, ?_, ?_, ?_⟩
  · intro key x hx
    obtain ⟨hin, k, hk⟩ := h.offered key x hx
    exact ⟨by rw [same]; exact hin, k, hk.concat⟩
  · exact fun key => (h.ordered key).imp InOrder.concat
  · exact fun key x hx e he hkey => (h.before key x hx e he hkey).concat

/-- Whatever the sinks answer, a clock reading only moves items up to the front, in order. -/
theorem Orderly.fire (h : Orderly out events q delivered) (now : Time) (s : S) :
    Orderly out (events ++ [.fire now]) (q.fire out.tracing now (s, delivered)).2.1
      (q.fire out.tracing now (s, delivered)).2.2.2 := by
  obtain ⟨n, q', t, more, hf, hwait, htidy, hfront⟩ :=
    fire_front h.tidy h.labelled now (s, delivered)
  have old := h.concat (e := .fire now) rfl
  have parts : q.waiting.takeWhile (fun e => e.due ≤ now) ++
      q.waiting.dropWhile (fun e => e.due ≤ now) = q.waiting := List.takeWhile_append_dropWhile
  have due : ∀ e ∈ q.waiting.takeWhile (fun e => e.due ≤ now), e ∈ q.waiting ∧ e.due ≤ now :=
    fun e he => ⟨(List.takeWhile_sublist _).subset he, by simpa using List.mem_takeWhile_imp he⟩
  have later : ∀ e ∈ q'.waiting, e ∈ q.waiting := by
    rw [hwait]
    exact fun e he => (List.dropWhile_sublist _).subset he
  have sorted := h.sorted
  rw [← parts] at sorted
  obtain ⟨hsdue, _, hcross⟩ := List.pairwise_append.mp sorted
  -- what is in front afterwards was in front before, or has just become due
  have origin : ∀ key, ∀ x ∈ front out key q'.stalled more,
      x ∈ front out key q.stalled delivered ∨
        ∃ e ∈ q.waiting.takeWhile (fun e => e.due ≤ now), out.key e.sink = key ∧ e.item = x := by
    intro key x hx
    rcases List.mem_append.mp ((hfront key).subset hx) with hx | hx
    · exact .inl hx
    · obtain ⟨hmem, hkey⟩ := List.mem_filter.mp hx
      obtain ⟨e, he, rfl⟩ := List.mem_map.mp hmem
      rw [(h.labelled e (due e he).1).2] at hkey
      exact .inr ⟨e, he, by simpa using hkey, rfl⟩
  rw [hf]
  refine ⟨htidy, fun e he => h.labelled e (later e he), fun e he => old.waits e (later e he),
    ?_, ?_, ?_, ?_⟩
  · rw [hwait]
    exact h.sorted.sublist (List.dropWhile_sublist _)
  · intro key x hx
    rcases origin key x hx with hx | ⟨e, he, _, rfl⟩
    · exact old.offered key x hx
    · obtain ⟨hw, hd⟩ := due e he
      refine ⟨old.waits e hw, events.length, place_lt_of_mem_pushes (h.waits e hw), now, by simp,
        ?_⟩
      rw [(h.labelled e hw).1]
      exact hd
  · intro key
    refine List.Pairwise.sublist (hfront key) (List.pairwise_append.mpr ⟨old.ordered key, ?_, ?_⟩)
    · exact ((List.pairwise_map.mpr (hsdue.imp fun hp => Or.inl hp)).sublist List.filter_sublist)
    · intro x hx y hy
      obtain ⟨hmem, hkey⟩ := List.mem_filter.mp hy
      obtain ⟨e, he, rfl⟩ := List.mem_map.mp hmem
      rw [(h.labelled e (due e he).1).2] at hkey
      exact old.before key x hx e (due e he).1 (by simpa using hkey)
  · intro key x hx e he hkey
    rcases origin key x hx with hx | ⟨e', he', _, rfl⟩
    · exact old.before key x hx e (later e he) hkey
    · exact .inl (hcross e' he' e (hwait ▸ he))

theorem tracedRun_orderly (out : Outlet σ α S) (events : List (QueueEvent σ α S)) (s : S) :
    Orderly out events (tracedRun out events s).1 (deliveries out events s) := by
  induction events using List.reverseRecOn with
  | nil =>
    change Orderly out [] {} []
    exact ⟨⟨List.nodup_nil, by simp⟩, by simp, by simp, List.Pairwise.nil,
      by simp [front, ofKey, heldFor], fun key => List.Pairwise.nil,
      by simp [front, ofKey, heldFor]⟩
  | append_singleton events e ih =>
    unfold deliveries
    rw [tracedRun_concat]
    cases e with
    | push due item sink => exact ih.push due item sink
    | fire now => exact ih.fire now _
    | change f => exact ih.concat rfl

theorem deliveries_ordered (out : Outlet σ α S) (events : List (QueueEvent σ α S)) (s : S)
    (key : Nat) : (ofKey out key (deliveries out events s)).Pairwise (InOrder events) :=
  ((tracedRun_orderly out events s).ordered key).sublist (List.sublist_append_left _ _)

theorem mem_pushes_of_mem_deliveries {s : S} (h : x ∈ deliveries out events s) :
    x ∈ pushes events := by
  have hx : x ∈ ofKey out (out.key x.sink) (deliveries out events s) :=
    List.mem_filter.mpr ⟨h, by simp⟩
  exact ((tracedRun_orderly out events s).offered _ x (List.mem_append_left _ hx)).1

theorem place_lt_of_inOrder {ps : List (Pushed σ α)}
    (dues : ps.Pairwise fun a b => a.due ≤ b.due)
    (places : ps.Pairwise fun a b => a.place < b.place) (hx : x ∈ ps) (hy : y ∈ ps)
    (h : InOrder events x y) : x.place < y.place := by
  rcases h with hp | ⟨k, ⟨hk, _⟩, hky⟩
  · obtain ⟨i, hi, rfl⟩ := List.getElem_of_mem hx
    obtain ⟨j, hj, rfl⟩ := List.getElem_of_mem hy
    rcases Nat.lt_trichotomy i j with hij | rfl | hji
    · exact List.pairwise_iff_getElem.mp places i j hi hj hij
    · exact absurd hp hp.asymm
    · have hd := List.pairwise_iff_getElem.mp dues j i hj hi hji
      have hpl := List.pairwise_iff_getElem.mp places j i hj hi hji
      exact absurd hp (Pushed.precedes_of_le hd hpl).asymm
  · exact Nat.lt_trans hk hky

/-- Items whose dues never decrease leave in the order in which they came. -/
theorem deliveries_sublist_pushes (s : S) {key : Nat}
    (dues : (ofKey out key (pushes events)).Pairwise fun a b => a.due ≤ b.due) :
    (ofKey out key (deliveries out events s)).Sublist (ofKey out key (pushes events)) := by
  have places := (pushes_pairwise events).filter fun p => out.key p.sink == key
  have known : ofKey out key (deliveries out events s) ⊆ ofKey out key (pushes events) := by
    intro x hx
    obtain ⟨hmem, hkey⟩ := List.mem_filter.mp hx
    exact List.mem_filter.mpr ⟨mem_pushes_of_mem_deliveries hmem, hkey⟩
  have sorted : (ofKey out key (deliveries out events s)).Pairwise
      fun a b => a.place < b.place := by
    refine (deliveries_ordered out events s key).imp_of_mem ?_
    intro x y hx hy h
    exact place_lt_of_inOrder dues places (known hx) (known hy) h
  have distinct : (ofKey out key (deliveries out events s)).Nodup :=
    sorted.imp fun h heq => Nat.ne_of_lt h (congrArg Pushed.place heq)
  exact List.sublist_of_subperm_of_pairwise (List.subperm_of_subset distinct known) sorted places

/-- Whatever the sinks answer and whatever the clock reads: an item is delivered only in its turn
among those of its destination, unless it was pushed after the clock had come up to the other. The
first part says that the deliveries are those of the run itself. -/
theorem deliveries_in_order (out : Outlet σ α S) (events : List (QueueEvent σ α S)) (s : S) :
    (run out events s =
        ((tracedRun out events s).1.map Pushed.item, (tracedRun out events s).2.1) ∧
      ∀ x ∈ deliveries out events s, x ∈ pushes events) ∧
    (∀ x y, out.key x.sink = out.key y.sink → x.Precedes y →
      [y, x].Sublist (deliveries out events s) →
        ∃ k now, y.place < k ∧ k < x.place ∧ events[k]? = some (.fire now) ∧ y.due ≤ now) ∧
    ∀ key, (ofKey out key (pushes events)).Pairwise (fun a b => a.due ≤ b.due) →
      (ofKey out key (deliveries out events s)).Sublist (ofKey out key (pushes events)) := by
  refine ⟨⟨tracedRun_erase out events s, fun x => mem_pushes_of_mem_deliveries⟩, ?_,
    fun key => deliveries_sublist_pushes s⟩
  intro x y hkey hxy hyx
  have both : [y, x].Sublist (ofKey out (out.key y.sink) (deliveries out events s)) := by
    have := hyx.filter fun p => out.key p.sink == out.key y.sink
    simpa [ofKey, hkey] using this
  have order := (deliveries_ordered out events s (out.key y.sink)).sublist both
  rcases List.rel_of_pairwise_cons order List.mem_cons_self with hp | ⟨k, ⟨hk, now, hn, hd⟩, hkx⟩
  · exact absurd hp hxy.asymm
  · exact ⟨k, now, hk, hkx, hn, hd⟩

end DelayQueue

end Switchboard
