import Mathlib.Data.List.Nodup
import Switchboard.Proofs.DelayIdle
import Switchboard.Proofs.DelayRun

namespace Switchboard

namespace DelayQueue

variable {σ α S : Type} {out : Outlet σ α S} {key k : Nat} {now : Time}
  {stalled : List (StalledItems σ (Pushed σ α))} {e : DueItem σ (Pushed σ α)}

/-- The item knows its own due time and sink. -/
def Labelled (e : DueItem σ (Pushed σ α)) : Prop := e.item.due = e.due ∧ e.item.sink = e.sink

def ofKey (out : Outlet σ α S) (key : Nat) (ps : List (Pushed σ α)) : List (Pushed σ α) :=
  ps.filter fun p => out.key p.sink == key

/-- The items held back for a destination. -/
def heldFor (key : Nat) : List (StalledItems σ (Pushed σ α)) → List (Pushed σ α)
  | [] => []
  | d :: ds => if d.key = key then d.items.map (·.item) ++ heldFor key ds else heldFor key ds

/-- The items of a destination that have been offered once, the delivered ones first. -/
def front (out : Outlet σ α S) (key : Nat) (stalled : List (StalledItems σ (Pushed σ α)))
    (delivered : List (Pushed σ α)) : List (Pushed σ α) :=
  ofKey out key delivered ++ heldFor key stalled

/-- Every destination holds back its own items, in one place. -/
structure Tidy (out : Outlet σ α S) (stalled : List (StalledItems σ (Pushed σ α))) : Prop where
  distinct : (fullKeys stalled).Nodup
  own : ∀ d ∈ stalled, ∀ e ∈ d.items, Labelled e ∧ out.key e.sink = d.key

theorem ofKey_append (ps qs : List (Pushed σ α)) :
    ofKey out key (ps ++ qs) = ofKey out key ps ++ ofKey out key qs := by simp [ofKey]

theorem ofKey_eq_self {ps : List (Pushed σ α)} (h : ∀ p ∈ ps, out.key p.sink = key) :
    ofKey out key ps = ps := by
  apply List.filter_eq_self.mpr
  intro p hp
  simpa using h p hp

theorem ofKey_eq_nil {ps : List (Pushed σ α)} (h : ∀ p ∈ ps, out.key p.sink = k)
    (hk : k ≠ key) : ofKey out key ps = [] := by
  apply List.filter_eq_nil_iff.mpr
  intro p hp
  simpa [h p hp] using hk

theorem heldFor_append (ds ds' : List (StalledItems σ (Pushed σ α))) :
    heldFor key (ds ++ ds') = heldFor key ds ++ heldFor key ds' := by
  induction ds with
  | nil => rfl
  | cons d ds ih => by_cases h : d.key = key <;> simp [heldFor, h, ih]

theorem heldFor_eq_nil (h : key ∉ fullKeys stalled) : heldFor key stalled = [] := by
  induction stalled with
  | nil => rfl
  | cons d ds ih =>
    simp only [fullKeys, List.map_cons, List.mem_cons, not_or] at h
    simp [heldFor, Ne.symm h.1, ih h.2]

theorem heldFor_holdBack (distinct : (fullKeys stalled).Nodup) (h : k ∈ fullKeys stalled) :
    heldFor key (holdBack k e stalled) =
      heldFor key stalled ++ if k = key then [e.item] else [] := by
  induction stalled with
  | nil => simp [fullKeys] at h
  | cons d ds ih =>
    obtain ⟨hnot, hds⟩ := List.nodup_cons.mp distinct
    by_cases hd : d.key = k
    · by_cases hk : k = key
      · have hnil : heldFor key ds = [] := heldFor_eq_nil (by rw [← hk, ← hd]; exact hnot)
        simp [holdBack, heldFor, hd, hk, hnil]
      · simp [holdBack, heldFor, hd, hk]
    · have hin : k ∈ fullKeys ds := by
        rcases List.mem_cons.mp h with he | hin
        · exact absurd he.symm hd
        · exact hin
      rw [DelayQueue.holdBack, if_neg hd, heldFor, heldFor, ih hds hin]
      by_cases hk : d.key = key <;> simp [hk]

theorem Tidy.tail {d : StalledItems σ (Pushed σ α)} (h : Tidy out (d :: stalled)) :
    d.key ∉ fullKeys stalled ∧ Tidy out stalled := by
  obtain ⟨hnot, hnodup⟩ := List.nodup_cons.mp h.distinct
  exact ⟨hnot, hnodup, fun d' hd' => h.own d' (List.mem_cons_of_mem _ hd')⟩

theorem tidy_iff : Tidy out stalled ↔
    Apart out.tracing stalled ∧ ∀ d ∈ stalled, ∀ e ∈ d.items, Labelled e :=
  ⟨fun h => ⟨⟨h.distinct, fun d hd e he => (h.own d hd e he).2⟩,
    fun d hd e he => (h.own d hd e he).1⟩,
  fun h => ⟨h.1.distinct, fun d hd e he => ⟨h.2 d hd e he, h.1.own d hd e he⟩⟩⟩

theorem Tidy.holdBack (h : Tidy out stalled) (he : Labelled e) (hk : out.key e.sink = k) :
    Tidy out (holdBack k e stalled) := by
  obtain ⟨apart, labelled⟩ := tidy_iff.mp h
  exact tidy_iff.mpr ⟨apart.holdBack hk, holdBack_holds he labelled⟩

theorem Tidy.append_new (h : Tidy out stalled) (he : Labelled e)
    (hk : out.key e.sink ∉ fullKeys stalled) (retryAt : Time) :
    Tidy out (stalled ++ [⟨out.key e.sink, retryAt, [e]⟩]) := by
  obtain ⟨apart, labelled⟩ := tidy_iff.mp h
  refine tidy_iff.mpr ⟨apart.append_new hk retryAt, fun d hd => ?_⟩
  rcases List.mem_append.mp hd with hd | hd
  · exact labelled d hd
  · obtain rfl := List.mem_singleton.mp hd
    exact fun e' he' => List.mem_singleton.mp he' ▸ he

/-- Of the items offered in turn a first part is delivered; what is held back comes after it. -/
theorem offerInTurn_sent (out : Outlet σ α S) (items : List (DueItem σ (Pushed σ α)))
    (s : S × List (Pushed σ α)) :
    ∃ sent, (offerInTurn out.tracing items s).2.2.2 = s.2 ++ sent ∧
      (sent ++ (offerInTurn out.tracing items s).2.1.map (·.item)).Sublist (items.map (·.item)) ∧
      (offerInTurn out.tracing items s).2.1.Sublist items := by
  induction items generalizing s with
  | nil => exact ⟨[], by simp [offerInTurn]⟩
  | cons e items ih =>
    obtain ⟨answer, t, h⟩ : ∃ answer t, out.offer e.sink e.item.item s.1 = (answer, t) :=
      ⟨_, _, rfl⟩
    cases answer with
    | delivered =>
      obtain ⟨sent, hs, hsub, hleft⟩ := ih (t, s.2 ++ [e.item])
      refine ⟨e.item :: sent, ?_, ?_, ?_⟩
      · simpa [offerInTurn, Outlet.tracing, h] using hs
      · simpa [offerInTurn, Outlet.tracing, h] using hsub
      · simpa [offerInTurn, Outlet.tracing, h] using hleft.cons e
    | full => exact ⟨[], by simp [offerInTurn, Outlet.tracing, h]⟩
    | gone => exact ⟨[], by simp [offerInTurn, Outlet.tracing, h]⟩

theorem Tidy.cons {d : StalledItems σ (Pushed σ α)} (h : Tidy out stalled)
    (hk : d.key ∉ fullKeys stalled) (hd : ∀ e ∈ d.items, Labelled e ∧ out.key e.sink = d.key) :
    Tidy out (d :: stalled) := by
  refine ⟨List.nodup_cons.mpr ⟨hk, h.distinct⟩, ?_⟩
  intro d' hd'
  rcases List.mem_cons.mp hd' with rfl | hd'
  · exact hd
  · exact h.own d' hd'

/-- One destination and then the others: what is delivered of its items comes before what is held
back of them, and the others do not matter to it. -/
theorem front_cons_sublist {d : StalledItems σ (Pushed σ α)}
    {kept kept' : List (StalledItems σ (Pushed σ α))} {before after : List (Pushed σ α)}
    (sent left : List (Pushed σ α))
    (hd : ∀ e ∈ d.items, Labelled e ∧ out.key e.sink = d.key)
    (hk : d.key ∉ fullKeys stalled) (hk' : d.key ∉ fullKeys kept)
    (part : (sent ++ left).Sublist (d.items.map (·.item)))
    (held : heldFor key kept' = (if d.key = key then left else []) ++ heldFor key kept)
    (rest : (front out key kept after).Sublist (front out key stalled (before ++ sent))) :
    (front out key kept' after).Sublist (front out key (d :: stalled) before) := by
  have own : ∀ p ∈ sent, out.key p.sink = d.key := by
    intro p hp
    obtain ⟨e, he, rfl⟩ := List.mem_map.mp (part.subset (List.mem_append_left _ hp))
    obtain ⟨hl, hkey⟩ := hd e he
    rw [hl.2, hkey]
  unfold front at rest ⊢
  rw [held, heldFor]
  rw [ofKey_append] at rest
  by_cases h : d.key = key
  · rw [h] at hk hk' own
    rw [heldFor_eq_nil hk, heldFor_eq_nil hk', ofKey_eq_self own] at rest
    simp only [h, if_true, heldFor_eq_nil hk, heldFor_eq_nil hk', List.append_nil] at rest ⊢
    have := rest.append (List.Sublist.refl left)
    rw [List.append_assoc] at this
    exact this.trans ((List.Sublist.refl _).append part)
  · rw [ofKey_eq_nil own h] at rest
    simpa [h] using rest

/-- A retry keeps the order of every destination. -/
theorem retry_front (now : Time) (tidy : Tidy out stalled) (s : S × List (Pushed σ α)) :
    Tidy out (retry out.tracing now stalled s).2.1 ∧
      (fullKeys (retry out.tracing now stalled s).2.1).Sublist (fullKeys stalled) ∧
      ∀ key, (front out key (retry out.tracing now stalled s).2.1
        (retry out.tracing now stalled s).2.2.2).Sublist (front out key stalled s.2) := by
  induction stalled generalizing s with
  | nil => exact ⟨tidy, List.Sublist.refl _, fun _ => List.Sublist.refl _⟩
  | cons d ds ih =>
    obtain ⟨hk, htail⟩ := tidy.tail
    have hd := tidy.own d List.mem_cons_self
    by_cases wait : now < d.retryAt
    · obtain ⟨htidy, hkeys, hfront⟩ := ih htail s
      have hk' := fun h => hk (hkeys.subset h)
      simp only [retry, wait, if_true]
      refine ⟨htidy.cons hk' hd, hkeys.cons_cons d.key, fun key => ?_⟩
      exact front_cons_sublist [] (d.items.map (·.item)) hd hk hk' (List.Sublist.refl _)
        (by by_cases h : d.key = key <;> simp [heldFor, h]) (by simpa using hfront key)
    · obtain ⟨sent, hs, hpart, hsub⟩ := offerInTurn_sent out d.items s
      obtain ⟨left, t, ho⟩ : ∃ left t, (offerInTurn out.tracing d.items s).2 = (left, t) :=
        ⟨_, _, rfl⟩
      rw [ho] at hs hpart hsub
      obtain ⟨htidy, hkeys, hfront⟩ := ih htail t
      have hk' := fun h => hk (hkeys.subset h)
      simp only [retry, wait, if_false, ho]
      rw [hs] at hfront
      cases left with
      | nil =>
        refine ⟨htidy, hkeys.cons d.key, fun key => ?_⟩
        exact front_cons_sublist sent [] hd hk hk' hpart (by simp) (hfront key)
      | cons e es =>
        refine ⟨htidy.cons hk' fun e' he' => hd e' (hsub.subset he'), hkeys.cons_cons d.key,
          fun key => ?_⟩
        exact front_cons_sublist sent ((e :: es).map (·.item)) hd hk hk' hpart
          (by by_cases h : d.key = key <;> simp [heldFor, h]) (hfront key)

theorem ofKey_singleton (he : Labelled e) :
    ofKey out key [e.item] = if out.key e.sink = key then [e.item] else [] := by
  simp [ofKey, List.filter_singleton, he.2]

/-- What becomes due lines up behind what has been offered before. -/
theorem offerDue_front (now : Time) {es : List (DueItem σ (Pushed σ α))}
    (labelled : ∀ e ∈ es, Labelled e) (tidy : Tidy out stalled) (s : S × List (Pushed σ α)) :
    Tidy out (offerDue out.tracing now es stalled s).2.1 ∧
      ∀ key, (front out key (offerDue out.tracing now es stalled s).2.1
        (offerDue out.tracing now es stalled s).2.2.2).Sublist
          (front out key stalled s.2 ++ ofKey out key (es.map (·.item))) := by
  induction es generalizing stalled s with
  | nil => exact ⟨tidy, fun key => by simp [offerDue, ofKey]⟩
  | cons e es ih =>
    have he := labelled e List.mem_cons_self
    have hes := fun e' he' => labelled e' (List.mem_cons_of_mem _ he')
    have split : ∀ key, ofKey out key ((e :: es).map (·.item)) =
        (if out.key e.sink = key then [e.item] else []) ++ ofKey out key (es.map (·.item)) := by
      intro key
      rw [← ofKey_singleton he, ← ofKey_append]
      rfl
    by_cases full : out.key e.sink ∈ fullKeys stalled
    · obtain ⟨htidy, hfront⟩ := ih hes (tidy.holdBack he rfl) s
      rw [offerDue_held (show out.tracing.key e.sink ∈ fullKeys stalled from full)]
      refine ⟨htidy, fun key => ?_⟩
      have := hfront key
      rw [front, front, heldFor_holdBack tidy.distinct full] at this
      rw [split, front, front]
      simp only [List.append_assoc] at this ⊢
      exact this
    · have free : out.tracing.key e.sink ∉ fullKeys stalled := full
      obtain ⟨answer, t, ho⟩ : ∃ answer t, out.offer e.sink e.item.item s.1 = (answer, t) :=
        ⟨_, _, rfl⟩
      cases answer with
      | delivered =>
        have ho' : out.tracing.offer e.sink e.item s = (.delivered, t, s.2 ++ [e.item]) := by
          simp [Outlet.tracing, ho]
        obtain ⟨htidy, hfront⟩ := ih hes tidy (t, s.2 ++ [e.item])
        rw [offerDue_delivered free ho']
        refine ⟨htidy, fun key => (hfront key).trans ?_⟩
        rw [split, front, front, ofKey_append, ofKey_singleton he]
        by_cases hk : out.key e.sink = key
        · simp [hk, heldFor_eq_nil (hk ▸ full)]
        · simp [hk]
      | full =>
        have ho' : out.tracing.offer e.sink e.item s = (.full, t, s.2) := by
          simp [Outlet.tracing, ho]
        obtain ⟨htidy, hfront⟩ := ih hes (tidy.append_new he full (now + retryDelay)) (t, s.2)
        rw [offerDue_full free ho']
        refine ⟨htidy, fun key => (hfront key).trans ?_⟩
        rw [split, front, front, heldFor_append]
        by_cases hk : out.key e.sink = key <;> simp [heldFor, hk]
      | gone =>
        have ho' : out.tracing.offer e.sink e.item s = (.gone, t, s.2) := by
          simp [Outlet.tracing, ho]
        obtain ⟨htidy, hfront⟩ := ih hes tidy (t, s.2)
        rw [offerDue_gone free ho']
        refine ⟨htidy, fun key => (hfront key).trans ?_⟩
        rw [split]
        exact (List.Sublist.refl _).append (List.sublist_append_right _ _)

theorem fire_front {q : DelayQueue σ (Pushed σ α)} (tidy : Tidy out q.stalled)
    (labelled : ∀ e ∈ q.waiting, Labelled e) (now : Time) (s : S × List (Pushed σ α)) :
    ∃ n q' t delivered, q.fire out.tracing now s = (n, q', t, delivered) ∧
      q'.waiting = q.waiting.dropWhile (fun e => e.due ≤ now) ∧ Tidy out q'.stalled ∧
      ∀ key, (front out key q'.stalled delivered).Sublist (front out key q.stalled s.2 ++
        ofKey out key ((q.waiting.takeWhile fun e => e.due ≤ now).map (·.item))) := by
  obtain ⟨htidy, _, hretry⟩ := retry_front now tidy s
  obtain ⟨htidy', hdue⟩ := offerDue_front now
    (fun e he => labelled e ((List.takeWhile_sublist _).subset he)) htidy
    (retry out.tracing now q.stalled s).2.2
  exact ⟨_, _, _, _, rfl, rfl, htidy', fun key =>
    (hdue key).trans ((hretry key).append (List.Sublist.refl _))⟩

end DelayQueue

end Switchboard
