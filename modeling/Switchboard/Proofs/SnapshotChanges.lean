import Switchboard.Proofs.FileReplica

namespace Switchboard

namespace ListenerChange

namespace Snapshot

/-- Every id has the same entry in both snapshots, as far as descriptions can be told apart. -/
def Same (s t : Snapshot) : Prop := ∀ id, (s.get? id == t.get? id) = true

theorem named_ofList (configs : List ListenerConfig) : (ofList configs).Named := by
  suffices ∀ t : Snapshot, t.Named → (configs.foldl (fun t c => t.insert c.id c) t).Named from
    this .empty nofun
  induction configs with
  | nil => exact fun t ht => ht
  | cons d configs ih =>
    refine fun t ht => ih _ fun id c hc => ?_
    rw [Table.get?_insert] at hc
    split at hc
    next hid => exact Option.some.inj hc ▸ hid.symm
    next => exact ht id c hc

end Snapshot

variable {previous next : Snapshot} {id : String} {old new : Option ListenerConfig}
  {x : ListenerChange} {done rest : List ListenerChange}

theorem outcome_of_entryChange? (h : entryChange? old new = some x) : x.outcome = new := by
  rcases entryChange?_cases h with ⟨hk, _, hnew⟩ | ⟨hk, _, hnew⟩ | ⟨hk, _, hnew⟩ <;>
    simp [outcome, hk, hnew]

/-- Removals come first. -/
theorem between_removals_first (previous next : Snapshot) :
    (between previous next).Pairwise fun x y => y.kind = .remove → x.kind = .remove := by
  have gone : ∀ x ∈ removals previous next, x.kind = .remove := by
    intro x hx
    obtain ⟨e, _, rfl⟩ := List.mem_map.mp hx
    rfl
  have there : ∀ x ∈ next.entries.filterMap fun e => change? previous e.1 e.2,
      x.kind ≠ .remove := by
    intro x hx hk
    obtain ⟨e, _, he⟩ := List.mem_filterMap.mp hx
    rw [change?_eq_entryChange?] at he
    rcases entryChange?_cases he with ⟨_, _, hnone⟩ | ⟨hadd, _⟩ | ⟨hupdate, _⟩
    · cases hnone
    · cases hk.symm.trans hadd
    · cases hk.symm.trans hupdate
  have anyhow (xs : List ListenerChange) : xs.Pairwise fun _ _ => True :=
    List.pairwise_of_forall fun _ _ => trivial
  refine List.pairwise_append.mpr ⟨?_, ?_, fun x hx _ _ _ => gone x hx⟩
  · exact (anyhow _).imp_of_mem fun hx _ _ _ => gone _ hx
  · exact (anyhow _).imp_of_mem fun _ hy _ hk => absurd hk (there _ hy)

/-- The first changes have brought the ids they are about to the second snapshot, and left all
others. -/
theorem done_get? (hp : previous.Named) (hn : next.Named) (h : between previous next = done ++ rest)
    (id : String) : (done.foldl apply previous).get? id =
      if id ∈ done.map (fun x => x.config.id) then next.get? id else previous.get? id := by
  split
  next hmem =>
    obtain ⟨x, hx, rfl⟩ := List.mem_map.mp hmem
    have once := between_ids_nodup hp hn
    rw [h, List.map_append] at once
    obtain ⟨id, hentry⟩ := mem_between.mp (h ▸ List.mem_append_left rest hx)
    rw [foldl_apply_get? once.of_append_left hx, outcome_of_entryChange? hentry,
      entryChange?_id hp hn hentry]
  next hother => exact foldl_apply_other hother previous

/-- When something is added or changed, all that the second snapshot lacks is gone already. -/
theorem gone_by_then (hp : previous.Named) (hn : next.Named)
    (h : between previous next = done ++ x :: rest) (hx : x.kind ≠ .remove)
    (hid : next.get? id = none) : (done.foldl apply previous).get? id = none := by
  rw [done_get? hp hn h]
  split
  next => exact hid
  next hother =>
    cases hold : previous.get? id with
    | none => rfl
    | some c =>
      have hentry : entryChange? (previous.get? id) (next.get? id) = some ⟨.remove, c⟩ := by
        rw [hold, hid]
        rfl
      have hmem : ⟨.remove, c⟩ ∈ done ++ x :: rest := h ▸ mem_between.mpr ⟨id, hentry⟩
      rcases List.mem_append.mp hmem with hdone | hlater
      · exact absurd (List.mem_map.mpr ⟨_, hdone, hp id c hold⟩) hother
      · -- a removal does not come behind `x`
        rcases List.mem_cons.mp hlater with rfl | hlater
        · exact absurd rfl hx
        · have first := between_removals_first previous next
          rw [h, List.pairwise_append] at first
          exact absurd ((List.pairwise_cons.mp first.2.1).1 _ hlater rfl) hx

theorem port_is_free (hp : previous.Named) (hn : next.Named)
    (h : between previous next = done ++ x :: rest) (hx : x.kind ≠ .remove)
    (freed : ∀ id c, previous.get? id = some c → c.port = x.config.port → next.get? id = none)
    (alone : ∀ id c, next.get? id = some c → c.port = x.config.port → id = x.config.id)
    {c : ListenerConfig} (hc : (done.foldl apply previous).get? id = some c) :
    c.port ≠ x.config.port := by
  intro hport
  have there := hc
  rw [done_get? hp hn h] at there
  split at there
  next hmem =>
    obtain rfl := alone id c there hport
    have once := between_ids_nodup hp hn
    rw [h, List.map_append, List.map_cons] at once
    exact List.disjoint_of_nodup_append once hmem List.mem_cons_self
  next => rw [gone_by_then hp hn h hx (freed id c there hport)] at hc; cases hc

/-- Between two snapshots there is exactly one change for every id whose entries differ: a removal,
an addition or an update with the new entry. Removals come first, and there is no change at all if
the snapshots are the same. With entries under their own ids, carrying out the changes one after the
other leads from the first snapshot to the second, and a port that only removed listeners had is
free when it is bound again. -/
theorem between_leads_to_next (previous next : Snapshot) :
    (∃ ids : List String, ids.Nodup ∧
      (∀ id, id ∈ ids ↔ (previous.get? id == next.get? id) = false) ∧
      (between previous next).map some =
        ids.map fun id => entryChange? (previous.get? id) (next.get? id)) ∧
    ((between previous next).Pairwise fun x y => y.kind = .remove → x.kind = .remove) ∧
    (between previous next = [] ↔ previous.Same next) ∧
    (previous.Named → next.Named →
      (∀ x ∈ between previous next,
        entryChange? (previous.get? x.config.id) (next.get? x.config.id) = some x) ∧
      ((between previous next).foldl apply previous).Same next ∧
      ∀ done x rest, between previous next = done ++ x :: rest → x.kind ≠ .remove →
        (∀ id c, previous.get? id = some c → c.port = x.config.port → next.get? id = none) →
        (∀ id c, next.get? id = some c → c.port = x.config.port → id = x.config.id) →
          ∀ id c, (done.foldl apply previous).get? id = some c → c.port ≠ x.config.port) := by
  refine ⟨?_, between_removals_first previous next, between_eq_nil_iff, fun hp hn => ⟨?_, ?_, ?_⟩⟩
  · refine ⟨(compared previous next).filter fun id =>
      (entryChange? (previous.get? id) (next.get? id)).isSome,
      (compared_nodup previous next).filter _, fun id => ?_, ?_⟩
    · rw [List.mem_filter, ← Bool.not_eq_true, ← entryChange?_eq_none_iff, ← Ne,
        Option.ne_none_iff_isSome]
      refine ⟨And.right, fun h => ⟨?_, h⟩⟩
      obtain ⟨x, hx⟩ := Option.isSome_iff_exists.mp h
      exact mem_compared_of_entryChange? hx
    · rw [between_eq, List.map_filterMap_some_eq_filter_map_isSome, List.filter_map]
      rfl
  · intro x hx
    obtain ⟨id, hentry⟩ := mem_between.mp hx
    rwa [entryChange?_id hp hn hentry]
  · intro id
    rw [done_get? hp hn (List.append_nil _).symm]
    split
    next => exact BEq.rfl
    next hother =>
      refine entryChange?_eq_none_iff.mp (Option.eq_none_iff_forall_ne_some.mpr fun x hx => ?_)
      exact hother (List.mem_map.mpr ⟨x, mem_between.mpr ⟨id, hx⟩, entryChange?_id hp hn hx⟩)
  · exact fun done x rest h hx freed alone id c => port_is_free hp hn h hx freed alone

theorem between_leads_to_next_of_reused_port :
    let previous := Snapshot.ofList [.new "a" 1, .new "b" 2, .new "k" 3]
    let next := Snapshot.ofList
      [{ ListenerConfig.new "b" 2 with name := "bee" }, .new "c" 1, .new "k" 3]
    let done := (between previous next).take 2
    previous.Named ∧ next.Named ∧
      (between previous next).map (fun x => (x.kind, x.config.id)) =
        [(.remove, "a"), (.update, "b"), (.add, "c")] ∧
      ((between previous next).foldl apply previous).Same next ∧
      ∀ id c, (done.foldl apply previous).get? id = some c → c.port ≠ 1 := by
  intro previous next done
  have hp : previous.Named := Snapshot.named_ofList _
  have hn : next.Named := Snapshot.named_ofList _
  have ids : (between previous next).map (fun x => (x.kind, x.config.id)) =
      [(.remove, "a"), (.update, "b"), (.add, "c")] := by decide +kernel
  have last : between previous next = done ++ ⟨.add, .new "c" 1⟩ :: [] := rfl
  have before : ∀ e ∈ previous.entries, e.2.port = 1 → e.1 = "a" := by decide +kernel
  have after : ∀ e ∈ next.entries, e.2.port = 1 → e.1 = "c" := by decide +kernel
  obtain ⟨-, -, -, replay⟩ := between_leads_to_next previous next
  obtain ⟨-, same, free⟩ := replay hp hn
  refine ⟨hp, hn, ids, same, free done _ [] last (by decide) ?_ ?_⟩
  · intro id c hc hport
    obtain rfl := before (id, c) (Table.mem_entries_iff.mpr hc) hport
    rfl
  · exact fun id c hc => after (id, c) (Table.mem_entries_iff.mpr hc)

end ListenerChange

end Switchboard
