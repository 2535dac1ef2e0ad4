import Switchboard.Proofs.DelayAccount
import Switchboard.Proofs.HandoverPuts

namespace Switchboard

variable {σ α S V : Type}

/-- The sinks of key `k` answer by what `view` shows of the surroundings, just as those of `own` do,
and offers to other sinks leave what it shows. -/
structure Outlet.Isolated (out : Outlet σ α S) (k : Nat) (own : Outlet σ α V) (view : S → V) :
    Prop where
  key : own.key = out.key
  offer : ∀ sink item s, out.key sink = k →
    own.offer sink item (view s) = ((out.offer sink item s).1, view (out.offer sink item s).2)
  others : ∀ sink item s, out.key sink ≠ k → view (out.offer sink item s).2 = view s

def Outlet.offersTo (out : Outlet σ α S) (k : Nat) (offers : List (Offer σ α)) :
    List (Offer σ α) := offers.filter fun o => out.key o.sink == k

/-- With a record of the offers the view shows those to its own sinks. -/
theorem Outlet.Isolated.recording {out : Outlet σ α S} {own : Outlet σ α V} {view : S → V} {k : Nat}
    (h : out.Isolated k own view) :
    out.recording.Isolated k own.recording fun s => (view s.1, out.offersTo k s.2) where
  key := h.key
  offer sink item s hk := by
    have hk' : out.key sink = k := hk
    simp [Outlet.recording, h.offer sink item s.1 hk, Outlet.offersTo, hk']
  others sink item s hk := by
    have hk' : out.key sink ≠ k := hk
    simp [Outlet.recording, h.others sink item s.1 hk, Outlet.offersTo, hk']

namespace Handover

/-- The channel of one codec, by itself. -/
def channelOutlet : Outlet DelaySink Packet DueChannel where
  key := DelaySink.key
  offer _ packet c :=
    if !c.connected then (.gone, c)
    else if capacity ≤ c.packets.length then (.full, c)
    else (.delivered, { c with packets := c.packets ++ [packet] })

/-- A codec's channel answers by what it holds, and packets for other codecs do not change it. -/
theorem outlet_isolated (k : Nat) :
    outlet.Isolated k channelOutlet fun h => h.channel k where
  key := rfl
  offer sink packet h hk := by
    obtain rfl : sink.key = k := hk
    cases hc : (h.channel sink.key).connected with
    | false => simp [outlet, offer, channelOutlet, hc]
    | true =>
      by_cases hfull : capacity ≤ (h.channel sink.key).packets.length
      · simp [outlet, offer, channelOutlet, hc, hfull]
      · have put := h.channel_setChannel sink.key sink.key
          { packets := (h.channel sink.key).packets ++ [packet] }
        rw [if_pos rfl] at put
        simp only [outlet, offer, channelOutlet, hc, hfull, Bool.not_true, Bool.false_eq_true,
          if_false]
        exact congrArg (Prod.mk Answer.delivered) put.symm
  others sink packet h hk := by
    have hk' : sink.key ≠ k := hk
    rcases h.offer_cases ⟨0, packet, sink⟩ with ⟨_, ho⟩ | ⟨_, ho⟩ | ⟨_, h', ho, put⟩
    · rw [ho]
    · rw [ho]
    · rw [ho]
      simp [put.channel, forKey, hk']

end Handover

namespace DelayQueue

/-- The part of the queue that is for one key. -/
def only (out : Outlet σ α S) (k : Nat) (q : DelayQueue σ α) : DelayQueue σ α :=
  ⟨q.waiting.filter fun e => out.key e.sink == k, q.stalled.filter fun d => d.key == k⟩

/-- What waits is in order, and what is held back is so under the keys of its sinks. -/
structure Separate (out : Outlet σ α S) (q : DelayQueue σ α) : Prop where
  sorted : q.waiting.Pairwise fun a b => a.due ≤ b.due
  apart : Apart out q.stalled

section

variable {out : Outlet σ α S} {own : Outlet σ α V} {view : S → V} {k : Nat}

theorem offerInTurn_own (h : out.Isolated k own view) {items : List (DueItem σ α)}
    (mine : ∀ e ∈ items, out.key e.sink = k) (s : S) :
    offerInTurn own items (view s) = ((offerInTurn out items s).1, (offerInTurn out items s).2.1,
      view (offerInTurn out items s).2.2) := by
  induction items generalizing s with
  | nil => rfl
  | cons e items ih =>
    obtain ⟨he, hitems⟩ := List.forall_mem_cons.mp mine
    obtain ⟨answer, t, ho⟩ : ∃ answer t, out.offer e.sink e.item s = (answer, t) := ⟨_, _, rfl⟩
    have ho' : own.offer e.sink e.item (view s) = (answer, view t) := by
      rw [h.offer _ _ _ he, ho]
    cases answer <;> simp [offerInTurn, ho, ho', ih hitems]

theorem offerInTurn_other (h : out.Isolated k own view) {items : List (DueItem σ α)}
    (theirs : ∀ e ∈ items, out.key e.sink ≠ k) (s : S) :
    view (offerInTurn out items s).2.2 = view s := by
  induction items generalizing s with
  | nil => rfl
  | cons e items ih =>
    obtain ⟨he, hitems⟩ := List.forall_mem_cons.mp theirs
    obtain ⟨answer, t, ho⟩ : ∃ answer t, out.offer e.sink e.item s = (answer, t) := ⟨_, _, rfl⟩
    have unseen : view t = view s := by rw [← h.others _ e.item s he, ho]
    cases answer <;> simp [offerInTurn, ho, ih hitems, unseen]

theorem retry_only (now : Time) (h : out.Isolated k own view) {ds : List (StalledItems σ α)}
    (mine : ∀ d ∈ ds, ∀ e ∈ d.items, out.key e.sink = d.key) (s : S) :
    (retry own now (ds.filter fun d => d.key == k) (view s)).2 =
      ((retry out now ds s).2.1.filter fun d => d.key == k, view (retry out now ds s).2.2) := by
  induction ds generalizing s with
  | nil => rfl
  | cons d ds ih =>
    obtain ⟨hd, hds⟩ := List.forall_mem_cons.mp mine
    by_cases hk : d.key = k
    · rw [List.filter_cons_of_pos (by simpa using hk)]
      by_cases early : now < d.retryAt
      · simp [retry, early, ih hds, hk]
      · have first := offerInTurn_own h (fun e he => (hd e he).trans hk) s
        cases hleft : (offerInTurn out d.items s).2.1 with
        | nil => simp [retry, early, first, ih hds, hleft]
        | cons e left => simp [retry, early, first, ih hds, hleft, hk]
    · rw [List.filter_cons_of_neg (by simpa using hk)]
      by_cases early : now < d.retryAt
      · simp [retry, early, ih hds, hk]
      · have unseen := offerInTurn_other h (fun e he => by rw [hd e he]; exact hk) s
        cases hleft : (offerInTurn out d.items s).2.1 with
        | nil => simp [retry, early, ← ih hds, hleft, unseen]
        | cons e left => simp [retry, early, ← ih hds, hleft, hk, unseen]

theorem holdBack_own (e : DueItem σ α) (ds : List (StalledItems σ α)) :
    (holdBack k e ds).filter (fun d => d.key == k) =
      holdBack k e (ds.filter fun d => d.key == k) := by
  induction ds with
  | nil => rfl
  | cons d ds ih => by_cases hd : d.key = k <;> simp [holdBack, hd, ih]

theorem holdBack_other {key : Nat} (hk : key ≠ k) (e : DueItem σ α)
    (ds : List (StalledItems σ α)) :
    (holdBack key e ds).filter (fun d => d.key == k) = ds.filter fun d => d.key == k := by
  induction ds with
  | nil => rfl
  | cons d ds ih =>
    by_cases hd : d.key = key
    · simp [holdBack, hd, hk]
    · simp [holdBack, hd, List.filter_cons, ih]

theorem mem_fullKeys_only (ds : List (StalledItems σ α)) :
    k ∈ fullKeys (ds.filter fun d => d.key == k) ↔ k ∈ fullKeys ds := by
  simp [fullKeys]

theorem offerDue_only (now : Time) (h : out.Isolated k own view) (es : List (DueItem σ α))
    (stalled : List (StalledItems σ α)) (s : S) :
    (offerDue own now (es.filter fun e => out.key e.sink == k)
        (stalled.filter fun d => d.key == k) (view s)).2 =
      ((offerDue out now es stalled s).2.1.filter fun d => d.key == k,
        view (offerDue out now es stalled s).2.2) := by
  induction es generalizing stalled s with
  | nil => rfl
  | cons e es ih =>
    obtain ⟨answer, t, ho⟩ : ∃ answer t, out.offer e.sink e.item s = (answer, t) := ⟨_, _, rfl⟩
    by_cases hk : out.key e.sink = k
    · have hkey : own.key e.sink = k := by rw [h.key, hk]
      have ho' : own.offer e.sink e.item (view s) = (answer, view t) := by
        rw [h.offer _ _ _ hk, ho]
      rw [List.filter_cons_of_pos (by simpa using hk)]
      by_cases held : k ∈ fullKeys stalled
      · have held' : k ∈ fullKeys (stalled.filter fun d => d.key == k) :=
          (mem_fullKeys_only stalled).mpr held
        rw [offerDue_held (hkey ▸ held'), offerDue_held (hk ▸ held), hkey, hk, ← holdBack_own, ih]
      · have held' : own.key e.sink ∉ fullKeys (stalled.filter fun d => d.key == k) := by
          rw [hkey, mem_fullKeys_only]
          exact held
        rw [← hk] at held
        cases answer with
        | delivered => rw [offerDue_delivered held' ho', offerDue_delivered held ho, ih]
        | full =>
          rw [offerDue_full held' ho', offerDue_full held ho, ← ih]
          simp [hkey, hk]
        | gone => rw [offerDue_gone held' ho', offerDue_gone held ho, ih]
    · have unseen : view t = view s := by rw [← h.others _ e.item s hk, ho]
      rw [List.filter_cons_of_neg (by simpa using hk)]
      by_cases held : out.key e.sink ∈ fullKeys stalled
      · rw [offerDue_held held, ← ih, holdBack_other hk]
      · cases answer with
        | delivered => rw [offerDue_delivered held ho, ← ih, unseen]
        | full =>
          rw [offerDue_full held ho, ← ih, unseen]
          simp [hk]
        | gone => rw [offerDue_gone held ho, ← ih, unseen]

/-- In the order of their times the items that are due are a first part. -/
theorem split_due (now : Time) {es : List (DueItem σ α)}
    (sorted : es.Pairwise fun a b => a.due ≤ b.due) :
    es.takeWhile (fun e => e.due ≤ now) = es.filter (fun e => e.due ≤ now) ∧
      es.dropWhile (fun e => e.due ≤ now) = es.filter fun e => !decide (e.due ≤ now) := by
  induction es with
  | nil => exact ⟨rfl, rfl⟩
  | cons e es ih =>
    obtain ⟨he, hes⟩ := List.pairwise_cons.mp sorted
    by_cases due : e.due ≤ now
    · simp [due, ih hes]
    · have later : ∀ x ∈ es, ¬x.due ≤ now := fun x hx hdue => due (Int.le_trans (he x hx) hdue)
      have none_due : es.filter (fun e => e.due ≤ now) = [] :=
        List.filter_eq_nil_iff.mpr fun x hx => by simpa using later x hx
      have all_left : es.filter (fun e => !decide (e.due ≤ now)) = es :=
        List.filter_eq_self.mpr fun x hx => by simpa using later x hx
      simp [due, none_due, all_left]

/-- A clock reading does to the part for one key what it does to that part alone. -/
theorem fire_only (now : Time) (h : out.Isolated k own view) {q : DelayQueue σ α}
    (separate : q.Separate out) (s : S) :
    ((q.only out k).fire own now (view s)).2 =
      ((q.fire out now s).2.1.only out k, view (q.fire out now s).2.2) := by
  obtain ⟨first, rest⟩ := split_due now separate.sorted
  obtain ⟨first', rest'⟩ := split_due now (separate.sorted.filter fun e => out.key e.sink == k)
  have retried := retry_only now h separate.apart.own s
  have offered := offerDue_only now h (q.waiting.filter fun e => e.due ≤ now)
    (retry out now q.stalled s).2.1 (retry out now q.stalled s).2.2
  simp only [fire, only, first, rest, first'.trans (List.filter_comm _ _ _),
    rest'.trans (List.filter_comm _ _ _), retried, offered]

theorem filter_insertByDue (p : DueItem σ α → Bool) (e : DueItem σ α) {es : List (DueItem σ α)}
    (sorted : es.Pairwise fun a b => a.due ≤ b.due) :
    (insertByDue e es).filter p = if p e then insertByDue e (es.filter p) else es.filter p := by
  induction es with
  | nil => simp [insertByDue, List.filter_cons]
  | cons x xs ih =>
    obtain ⟨hx, hxs⟩ := List.pairwise_cons.mp sorted
    by_cases hlt : e.due < x.due
    · have first : insertByDue e ((x :: xs).filter p) = e :: (x :: xs).filter p := by
        cases hp : (x :: xs).filter p with
        | nil => rfl
        | cons y ys =>
          have hy : y ∈ x :: xs := List.mem_of_mem_filter (hp ▸ List.mem_cons_self)
          have later : e.due < y.due := by
            rcases List.mem_cons.mp hy with rfl | hy
            · exact hlt
            · exact Int.lt_of_lt_of_le hlt (hx y hy)
          rw [insertByDue, if_pos later]
      rw [insertByDue, if_pos hlt, first, List.filter_cons]
    · rw [insertByDue, if_neg hlt]
      by_cases hp : p x = true
      · rw [List.filter_cons_of_pos hp, List.filter_cons_of_pos hp, ih hxs, insertByDue,
          if_neg hlt]
        split <;> rfl
      · rw [List.filter_cons_of_neg hp, List.filter_cons_of_neg hp, ih hxs]

/-- A push for one key is seen in its own part alone, wherever it lines up among the others. -/
theorem Separate.push_only {q : DelayQueue σ α} (h : q.Separate out) (due : Time) (item : α)
    (sink : σ) :
    (q.push due item sink).only out k =
      if out.key sink = k then (q.only out k).push due item sink else q.only out k := by
  rw [DelayQueue.push, only, filter_insertByDue _ _ h.sorted]
  by_cases hk : out.key sink = k <;> simp [hk, only, DelayQueue.push]

theorem Separate.push {q : DelayQueue σ α} (h : q.Separate out) (due : Time) (item : α)
    (sink : σ) : (q.push due item sink).Separate out :=
  ⟨insertByDue_pairwise h.sorted, h.apart⟩

theorem retry_apart (now : Time) {ds : List (StalledItems σ α)} (h : Apart out ds) (s : S) :
    Apart out (retry out now ds s).2.1 ∧
      (fullKeys (retry out now ds s).2.1).Sublist (fullKeys ds) := by
  induction ds generalizing s with
  | nil => exact ⟨h, .refl _⟩
  | cons d ds ih =>
    obtain ⟨hd, tail⟩ := h.tail
    have own := h.own d List.mem_cons_self
    by_cases early : now < d.retryAt
    · obtain ⟨apart, keys⟩ := ih tail s
      simp only [retry, early, if_true]
      exact ⟨apart.cons (fun hmem => hd (keys.subset hmem)) own, keys.cons_cons d.key⟩
    · obtain ⟨apart, keys⟩ := ih tail (offerInTurn out d.items s).2.2
      have left : _ ∧ ∀ e ∈ (offerInTurn out d.items s).2.1, out.key e.sink = d.key :=
        offerInTurn_holds (I := fun _ => True) (fun _ _ _ _ => trivial) own trivial
      simp only [retry, early, if_false]
      split
      next => exact ⟨apart, keys.cons d.key⟩
      next => exact ⟨apart.cons (fun hmem => hd (keys.subset hmem)) left.2, keys.cons_cons d.key⟩

theorem offerDue_apart (now : Time) (es : List (DueItem σ α)) {stalled : List (StalledItems σ α)}
    (h : Apart out stalled) (s : S) : Apart out (offerDue out now es stalled s).2.1 := by
  induction es generalizing stalled s with
  | nil => exact h
  | cons e es ih =>
    obtain ⟨answer, t, ho⟩ : ∃ answer t, out.offer e.sink e.item s = (answer, t) := ⟨_, _, rfl⟩
    by_cases held : out.key e.sink ∈ fullKeys stalled
    · rw [offerDue_held held]
      exact ih (h.holdBack rfl) s
    · cases answer with
      | delivered =>
        rw [offerDue_delivered held ho]
        exact ih h t
      | full =>
        rw [offerDue_full held ho]
        exact ih (h.append_new held _) t
      | gone =>
        rw [offerDue_gone held ho]
        exact ih h t

theorem Separate.fire {q : DelayQueue σ α} (h : q.Separate out) (now : Time) (s : S) :
    (q.fire out now s).2.1.Separate out :=
  ⟨h.sorted.sublist (List.dropWhile_sublist _), offerDue_apart now _ (retry_apart now h.apart s).1 _⟩

end

end DelayQueue

/-- Some order in which to go through a list. -/
structure Arrangement (α : Type) where
  arrange : List α → List α
  perm : ∀ xs, (arrange xs).Perm xs

namespace DelayQueue

/-- The same queue, which goes through the destinations that were full in another order. -/
def arranged (order : Arrangement (StalledItems σ α)) (q : DelayQueue σ α) : DelayQueue σ α :=
  { q with stalled := order.arrange q.stalled }

/-- What each clock reading of a run offers to the sinks, and what they say. `orders` tells in which
order each reading goes through the destinations that were full. -/
def offersMade (out : Outlet σ α S) (orders : Nat → Arrangement (StalledItems σ α)) :
    List (QueueEvent σ α S) → DelayQueue σ α → S → List (List (Offer σ α))
  | [], _, _ => []
  | .push due item sink :: events, q, s => offersMade out orders events (q.push due item sink) s
  | .change f :: events, q, s => offersMade out orders events q (f s)
  | .fire now :: events, q, s =>
    let q := q.arranged (orders 0)
    let next := (q.fire out now s).2
    (q.fire out.recording now (s, [])).2.2.2 ::
      offersMade out (fun i => orders (i + 1)) events next.1 next.2

/-- An event that is not a push for another key. -/
def concerns (out : Outlet σ α S) (k : Nat) : QueueEvent σ α S → Bool
  | .push _ _ sink => out.key sink == k
  | _ => true

section

variable {out : Outlet σ α S} {own : Outlet σ α V} {view : S → V} {k : Nat}

/-- A key has one place at most among those that were full, so their order does not show. -/
theorem filter_key_of_perm {ds ds' : List (StalledItems σ α)} (distinct : (fullKeys ds).Nodup)
    (h : ds'.Perm ds) (k : Nat) :
    ds'.filter (fun d => d.key == k) = ds.filter fun d => d.key == k := by
  have same := h.filter fun d => d.key == k
  cases hf : ds.filter fun d => d.key == k with
  | nil =>
    rw [hf] at same
    exact List.perm_nil.mp same
  | cons d rest =>
    have alone : rest = [] := by
      refine List.eq_nil_iff_forall_not_mem.mpr fun d' hd' => ?_
      have key_of (x) (hx : x ∈ d :: rest) : x.key = k := by
        have hmem : x ∈ ds.filter fun d => d.key == k := hf ▸ hx
        simpa using (List.mem_filter.mp hmem).2
      have nodup := distinct.sublist ((List.filter_sublist (p := fun d => d.key == k)).map _)
      rw [hf, List.map_cons, key_of d List.mem_cons_self] at nodup
      exact (List.nodup_cons.mp nodup).1
        (List.mem_map.mpr ⟨d', hd', key_of d' (List.mem_cons_of_mem _ hd')⟩)
    rw [hf, alone] at same
    rw [alone]
    exact List.perm_singleton.mp same

theorem Separate.arranged {q : DelayQueue σ α} (h : q.Separate out)
    (order : Arrangement (StalledItems σ α)) :
    (q.arranged order).Separate out ∧ (q.arranged order).only out k = q.only out k := by
  have same := order.perm q.stalled
  refine ⟨⟨h.sorted, (same.map _).nodup_iff.mpr h.apart.distinct,
    fun d hd => h.apart.own d (same.subset hd)⟩, ?_⟩
  rw [only, only, DelayQueue.arranged, filter_key_of_perm h.apart.distinct same]

/-- What a clock reading offers to the sinks of one key, and how it leaves them, can be told from
their own part. -/
theorem Separate.fire_alike (isolated : out.Isolated k own view) {q q' : DelayQueue σ α}
    (h : q.Separate out) (h' : q'.Separate out) (hq : q.only out k = q'.only out k) {s s' : S}
    (hs : view s = view s') (now : Time) :
    out.offersTo k (q.fire out.recording now (s, [])).2.2.2 =
        out.offersTo k (q'.fire out.recording now (s', [])).2.2.2 ∧
      (q.fire out now s).2.1.only out k = (q'.fire out now s').2.1.only out k ∧
      view (q.fire out now s).2.2 = view (q'.fire out now s').2.2 := by
  have alone {q : DelayQueue σ α} (h : q.Separate out) (s : S) :
      ((q.only out k).fire own.recording now (view s, [])).2 =
        ((q.fire out now s).2.1.only out k, view (q.fire out now s).2.2,
          out.offersTo k (q.fire out.recording now (s, [])).2.2.2) := by
    rw [fire_recording out q now s]
    exact fire_only now isolated.recording ⟨h.sorted, h.apart.distinct, h.apart.own⟩ (s, [])
  have both := alone h' s'
  rw [← hq, ← hs, alone h s] at both
  simp only [Prod.mk.injEq] at both
  exact ⟨both.2.2, both.1, both.2.1⟩

theorem offersMade_alike (isolated : out.Isolated k own view) {events : List (QueueEvent σ α S)}
    (changes : ∀ f, .change f ∈ events → ∀ s t, view s = view t → view (f s) = view (f t))
    (orders orders' : Nat → Arrangement (StalledItems σ α)) {q q' : DelayQueue σ α} {s s' : S}
    (h : q.Separate out) (h' : q'.Separate out) (hq : q.only out k = q'.only out k)
    (hs : view s = view s') :
    (offersMade out orders events q s).map (out.offersTo k) =
      (offersMade out orders' (events.filter (concerns out k)) q' s').map (out.offersTo k) := by
  induction events generalizing orders orders' q q' s s' with
  | nil => rfl
  | cons event events ih =>
    have later := fun f hf => changes f (List.mem_cons_of_mem _ hf)
    cases event with
    | push due item sink =>
      by_cases hk : out.key sink = k
      · rw [List.filter_cons_of_pos (by simpa [concerns] using hk)]
        refine ih later orders orders' (h.push ..) (h'.push ..) ?_ hs
        rw [h.push_only, h'.push_only, hq]
      · rw [List.filter_cons_of_neg (by simpa [concerns] using hk)]
        refine ih later orders orders' (h.push ..) h' ?_ hs
        rw [h.push_only, if_neg hk, hq]
    | change f =>
      rw [List.filter_cons_of_pos rfl]
      exact ih later orders orders' h h' hq (changes f List.mem_cons_self _ _ hs)
    | fire now =>
      rw [List.filter_cons_of_pos rfl]
      obtain ⟨hp, hpq⟩ := h.arranged (k := k) (orders 0)
      obtain ⟨hp', hpq'⟩ := h'.arranged (k := k) (orders' 0)
      obtain ⟨same, hnext, hview⟩ :=
        hp.fire_alike isolated hp' (hpq.trans (hq.trans hpq'.symm)) hs now
      exact List.cons_eq_cons.mpr ⟨same, ih later _ _ (hp.fire now _) (hp'.fire now _) hnext hview⟩

/-- The items of one key are offered and taken just as if nothing was ever pushed for others: if its
sinks answer by what they were offered alone, then no clock reading deals with them otherwise. It
does not matter what the other sinks hold and answer, nor in which order those that were full are
tried. -/
theorem keys_do_not_meet (isolated : out.Isolated k own view)
    (events : List (QueueEvent σ α S))
    (changes : ∀ f, .change f ∈ events → ∀ s t, view s = view t → view (f s) = view (f t))
    (orders orders' : Nat → Arrangement (StalledItems σ α)) {s s' : S} (same : view s = view s') :
    (offersMade out orders events {} s).map (out.offersTo k) =
      (offersMade out orders' (events.filter (concerns out k)) {} s').map (out.offersTo k) :=
  offersMade_alike isolated changes orders orders' ⟨.nil, List.nodup_nil, by simp⟩
    ⟨.nil, List.nodup_nil, by simp⟩ rfl same

end

/-- One channel is full and one is gone, and only the third gets what it is sent. The other run has
neither, and what the first holds is taken out in between. -/
theorem keys_do_not_meet_of_channels :
    let text (t : String) : Packet := ⟨"srv", .text t⟩
    let busy : Handover := { channels :=
      [(1, { packets := List.replicate 256 (text "") }), (2, { connected := false })] }
    let events : List (QueueEvent DelaySink Packet Handover) :=
      [.push 5 (text "a") ⟨1, none⟩, .push 5 (text "b") ⟨3, some 7⟩, .push 4 (text "c") ⟨2, none⟩,
        .push 4 (text "d") ⟨3, none⟩, .fire 5, .change fun h => h.setChannel 1 {},
        .push 9 (text "e") ⟨3, none⟩, .fire 2000]
    let alone := offersMade Handover.outlet (fun _ => ⟨id, fun _ => .refl _⟩)
      (events.filter (concerns Handover.outlet 3)) {} {}
    (offersMade Handover.outlet (fun _ => ⟨List.reverse, List.reverse_perm⟩) events {} busy).map
        (Handover.outlet.offersTo 3) = alone.map (Handover.outlet.offersTo 3) ∧
      alone = [[⟨⟨3, none⟩, text "d", .delivered⟩, ⟨⟨3, some 7⟩, text "b", .delivered⟩],
        [⟨⟨3, none⟩, text "e", .delivered⟩]] := by
  intro text busy events alone
  refine ⟨keys_do_not_meet (Handover.outlet_isolated 3) events ?_ _ _ rfl, rfl⟩
  intro f hf h h' same
  obtain rfl : f = fun h => h.setChannel 1 {} := by simpa [events] using hf
  simpa [Handover.channel_setChannel] using same

end DelayQueue

end Switchboard
