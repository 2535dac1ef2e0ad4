import Mathlib.Data.List.Induction
import Mathlib.Data.List.Nodup
import Switchboard.Listener.File

namespace Switchboard

open ListenerChange

variable {previous next : Snapshot} {id : String}

namespace ListenerChange.Snapshot

/-- Every entry stands under its own id. -/
def Named (t : Snapshot) : Prop := ∀ id c, t.get? id = some c → c.id = id

/-- Every entry is valid and stands under its own id. -/
def Sound (t : Snapshot) : Prop := ∀ id c, t.get? id = some c → c.id = id ∧ c.validate = .ok ()

theorem Sound.named {t : Snapshot} (h : t.Sound) : t.Named := fun id c hc => (h id c hc).1

end ListenerChange.Snapshot

namespace ListenerChange

/-- The change that leads from one entry of an id to another. -/
def entryChange? : Option ListenerConfig → Option ListenerConfig → Option ListenerChange
  | none, none => none
  | some old, none => some ⟨.remove, old⟩
  | none, some c => some ⟨.add, c⟩
  | some old, some c => if old == c then none else some ⟨.update, c⟩

theorem change?_eq_entryChange? (previous : Snapshot) (id : String) (c : ListenerConfig) :
    change? previous id c = entryChange? (previous.get? id) (some c) := by
  unfold change?
  cases previous.get? id <;> rfl

theorem entryChange?_eq_none_iff {old new : Option ListenerConfig} :
    entryChange? old new = none ↔ (old == new) = true := by
  cases old with
  | none => cases new <;> simp [entryChange?]
  | some o => cases new <;> simp [entryChange?]

/-- The ids in the order in which they are compared: those that are gone come first. -/
def compared (previous next : Snapshot) : List String :=
  (previous.entries.filter fun e => !next.contains e.1).map (·.1) ++ next.entries.map (·.1)

theorem between_eq (previous next : Snapshot) :
    between previous next =
      (compared previous next).filterMap fun id =>
        entryChange? (previous.get? id) (next.get? id) := by
  rw [between, compared, List.filterMap_append, List.filterMap_map, List.filterMap_map]
  congr 1
  · rw [removals, ← List.filterMap_eq_map]
    refine List.filterMap_congr fun e he => ?_
    obtain ⟨hentry, habsent⟩ := List.mem_filter.mp he
    have hp := Table.mem_entries_iff.mp hentry
    have hn : next.get? e.1 = none := by simpa [Table.contains] using habsent
    simp only [Function.comp_apply, hp, hn]
    rfl
  · refine List.filterMap_congr fun e he => ?_
    rw [change?_eq_entryChange?, ← Table.mem_entries_iff.mp he]
    rfl

theorem mem_compared :
    id ∈ compared previous next ↔ (previous.get? id).isSome ∨ (next.get? id).isSome := by
  have listed (t : Snapshot) : id ∈ t.entries.map (·.1) ↔ (t.get? id).isSome := by
    simp [Option.isSome_iff_exists, ← Table.mem_entries_iff]
  have gone : id ∈ (previous.entries.filter fun e => !next.contains e.1).map (·.1) ↔
      (previous.get? id).isSome ∧ next.get? id = none := by
    simp [Option.isSome_iff_exists, ← Table.mem_entries_iff, Table.contains]
  rw [compared, List.mem_append, gone, listed]
  cases next.get? id <;> simp

theorem entries_names_nodup {α : Type} (t : Table α) : (t.entries.map (·.1)).Nodup := by
  refine List.pairwise_map.mpr (t.ordered.imp fun {a b} hlt heq => ?_)
  exact String.lt_irrefl a.1 (heq ▸ hlt)

/-- No id is compared twice. -/
theorem compared_nodup (previous next : Snapshot) : (compared previous next).Nodup := by
  refine List.nodup_append'.mpr ⟨(entries_names_nodup previous).sublist
    (List.filter_sublist.map _), entries_names_nodup next, fun id hgone hnext => ?_⟩
  obtain ⟨e, he, rfl⟩ := List.mem_map.mp hgone
  obtain ⟨e', he', hid⟩ := List.mem_map.mp hnext
  have absent : next.get? e.1 = none := by
    simpa [Table.contains] using (List.mem_filter.mp he).2
  have present : next.get? e.1 = some e'.2 := hid ▸ Table.mem_entries_iff.mp he'
  rw [absent] at present
  cases present

theorem mem_compared_of_entryChange? {x : ListenerChange}
    (h : entryChange? (previous.get? id) (next.get? id) = some x) : id ∈ compared previous next := by
  refine mem_compared.mpr ?_
  cases hp : previous.get? id with
  | some old => exact .inl rfl
  | none =>
    cases hn : next.get? id with
    | some c => exact .inr rfl
    | none =>
      rw [hp, hn] at h
      cases h

/-- Two snapshots lead to a change for exactly the ids whose entries differ. -/
theorem mem_between {x : ListenerChange} :
    x ∈ between previous next ↔ ∃ id, entryChange? (previous.get? id) (next.get? id) = some x := by
  rw [between_eq, List.mem_filterMap]
  exact ⟨fun ⟨id, _, h⟩ => ⟨id, h⟩, fun ⟨id, h⟩ => ⟨id, mem_compared_of_entryChange? h, h⟩⟩

/-- No change is needed exactly between snapshots that are the same, as far as descriptions can be
told apart. -/
theorem between_eq_nil_iff :
    between previous next = [] ↔ ∀ id, (previous.get? id == next.get? id) = true := by
  rw [List.eq_nil_iff_forall_not_mem]
  constructor
  · intro h id
    refine entryChange?_eq_none_iff.mp (Option.eq_none_iff_forall_ne_some.mpr fun x hx => ?_)
    exact h x (mem_between.mpr ⟨id, hx⟩)
  · intro same x hx
    obtain ⟨id, hentry⟩ := mem_between.mp hx
    rw [entryChange?_eq_none_iff.mpr (same id)] at hentry
    cases hentry

theorem entryChange?_cases {old new : Option ListenerConfig} {x : ListenerChange}
    (h : entryChange? old new = some x) :
    (x.kind = .remove ∧ old = some x.config ∧ new = none) ∨
      (x.kind = .add ∧ old = none ∧ new = some x.config) ∨
      (x.kind = .update ∧ old.isSome = true ∧ new = some x.config) := by
  cases old with
  | none =>
    cases new with
    | none => cases h
    | some c =>
      obtain rfl := Option.some.inj h
      exact .inr (.inl ⟨rfl, rfl, rfl⟩)
  | some o =>
    cases new with
    | none =>
      obtain rfl := Option.some.inj h
      exact .inl ⟨rfl, rfl, rfl⟩
    | some c =>
      simp only [entryChange?] at h
      split at h
      · cases h
      · obtain rfl := Option.some.inj h
        exact .inr (.inr ⟨rfl, rfl, rfl⟩)

theorem entryChange?_id {x : ListenerChange} (hp : previous.Named) (hn : next.Named)
    (h : entryChange? (previous.get? id) (next.get? id) = some x) : x.config.id = id := by
  rcases entryChange?_cases h with ⟨_, hold, _⟩ | ⟨_, _, hnew⟩ | ⟨_, _, hnew⟩
  · exact hp id _ hold
  · exact hn id _ hnew
  · exact hn id _ hnew

/-- No id is changed twice. -/
theorem between_ids_nodup (hp : previous.Named) (hn : next.Named) :
    ((between previous next).map fun x => x.config.id).Nodup := by
  rw [between_eq, List.map_filterMap]
  refine (compared_nodup previous next).filterMap ?_
  intro a b id ha hb
  obtain ⟨x, hx, rfl⟩ := Option.map_eq_some_iff.mp ha
  obtain ⟨y, hy, hid⟩ := Option.map_eq_some_iff.mp hb
  rw [← entryChange?_id hp hn hx, ← entryChange?_id hp hn hy]
  exact hid.symm

end ListenerChange

namespace ListenerFile

variable {f : ListenerFile} {text : String}

/-- What one more description makes of the entry of an id that was `old` before. -/
def entered (old : Option ListenerConfig) (id : String) (entry : Option ListenerConfig)
    (c : ListenerConfig) : Option ListenerConfig :=
  if c.id = id then match c.validate with
    | .ok () => some c
    | .error _ => old.or entry
  else entry

theorem enter_get? (previous next : Snapshot) (c : ListenerConfig) (id : String) :
    (enter previous next c).get? id = entered (previous.get? id) id (next.get? id) c := by
  unfold enter entered
  by_cases hid : c.id = id
  · subst hid
    rw [if_pos rfl]
    cases c.validate with
    | ok => simp [Table.get?_insert]
    | error e => cases hp : previous.get? c.id <;> simp [Table.get?_insert]
  · rw [if_neg hid]
    cases c.validate with
    | ok => simp [Table.get?_insert, Ne.symm hid]
    | error e => cases previous.get? c.id <;> simp [Table.get?_insert, Ne.symm hid]

theorem foldl_enter_get? (previous next : Snapshot) (configs : List ListenerConfig) (id : String) :
    (configs.foldl (enter previous) next).get? id =
      configs.foldl (entered (previous.get? id) id) (next.get? id) := by
  induction configs generalizing next with
  | nil => rfl
  | cons c configs ih => rw [List.foldl_cons, ih, enter_get?, List.foldl_cons]

/-- What descriptions make of an id is valid and stands under it, if that was so before. -/
theorem entered_sound {old entry : Option ListenerConfig} {configs : List ListenerConfig}
    (hold : ∀ c, old = some c → c.id = id ∧ c.validate = .ok ())
    (hentry : ∀ c, entry = some c → c.id = id ∧ c.validate = .ok ()) :
    ∀ c, configs.foldl (entered old id) entry = some c → c.id = id ∧ c.validate = .ok () := by
  induction configs generalizing entry with
  | nil => exact hentry
  | cons d configs ih =>
    refine ih ?_
    intro c hc
    unfold entered at hc
    split at hc
    next hid =>
      split at hc
      next hvalid =>
        obtain rfl := Option.some.inj hc
        exact ⟨hid, hvalid⟩
      next =>
        cases hold' : old with
        | none => exact hentry c (by simpa [hold'] using hc)
        | some o => exact hold c (by simpa [hold'] using hc)
    next => exact hentry c hc

/-- Going through the descriptions again with what they made of an id changes nothing. -/
theorem entered_again (old : Option ListenerConfig) (id : String)
    (configs : List ListenerConfig) :
    configs.foldl (entered (configs.foldl (entered old id) none) id) none =
      configs.foldl (entered old id) none := by
  induction configs using List.reverseRecOn with
  | nil => rfl
  | append_singleton configs c ih =>
    simp only [List.foldl_append, List.foldl_cons, List.foldl_nil]
    by_cases hid : c.id = id
    · cases hv : c.validate with
      | ok => simp [entered, hid, hv]
      | error e =>
        simp only [entered, hid, hv, if_true]
        cases old with
        | some o => rfl
        | none =>
          rw [Option.none_or]
          cases hr : configs.foldl (entered none id) none with
          | some v => rfl
          | none => rw [Option.none_or, hr]
    · simp only [entered, hid, if_false]
      exact ih

theorem parse?_get? {previous next : Snapshot} {text : String}
    (h : parse? previous text = some next) :
    ∃ configs, ListenerConfig.listOfText? text = some configs ∧
      ∀ id, next.get? id = configs.foldl (entered (previous.get? id) id) none := by
  obtain ⟨configs, hread, rfl⟩ := Option.map_eq_some_iff.mp h
  exact ⟨configs, hread, fun id => foldl_enter_get? previous .empty configs id⟩

theorem parse?_sound (hp : previous.Sound) (h : parse? previous text = some next) :
    next.Sound := by
  obtain ⟨configs, _, hget⟩ := parse?_get? h
  intro id c hc
  rw [hget id] at hc
  exact entered_sound (hp id) (by simp) c hc

/-- Whether a text describes anything does not depend on what was there before. -/
theorem parse?_isSome (previous previous' : Snapshot) (text : String) :
    (parse? previous text).isSome = (parse? previous' text).isSome := by
  simp [parse?]

/-- What a text makes of an id depends only on the entry that the id had before. -/
theorem parse?_congr {previous' next' : Snapshot} (h : parse? previous text = some next)
    (h' : parse? previous' text = some next') (hid : previous.get? id = previous'.get? id) :
    next.get? id = next'.get? id := by
  obtain ⟨configs, hread, hget⟩ := parse?_get? h
  obtain ⟨configs', hread', hget'⟩ := parse?_get? h'
  obtain rfl : configs = configs' := Option.some.inj (hread.symm.trans hread')
  rw [hget id, hget' id, hid]

/-- A text that was read describes what it made. -/
theorem parse?_again {again : Snapshot} (h : parse? previous text = some next)
    (h' : parse? next text = some again) (id : String) : again.get? id = next.get? id := by
  obtain ⟨configs, hread, hget⟩ := parse?_get? h
  obtain ⟨configs', hread', hget'⟩ := parse?_get? h'
  obtain rfl : configs = configs' := Option.some.inj (hread.symm.trans hread')
  rw [hget' id, hget id]
  exact entered_again (previous.get? id) id configs

/-- What the file describes as it is now, if it can be read. -/
def described? (f : ListenerFile) : Option Snapshot :=
  (f.stored.bind Utf8.decode?).bind (parse? f.snapshot)

/-- The text that is not read again describes the snapshot. -/
def Settled (f : ListenerFile) : Prop :=
  ∀ text, f.content = some text → ∀ next, parse? f.snapshot text = some next →
    ∀ id, next.get? id = f.snapshot.get? id

/-- What a poll does: it reports what differs between the snapshots before and after it, and the
new one is what the file describes, if it describes anything. -/
structure Polled (f : ListenerFile) : Prop where
  changes : ∀ x, x ∈ f.poll.1 ↔
    ∃ id, entryChange? (f.snapshot.get? id) (f.poll.2.snapshot.get? id) = some x
  once : (f.poll.1.map fun x => x.config.id).Nodup
  sound : f.poll.2.snapshot.Sound
  settled : f.poll.2.Settled
  described : ∀ next, f.described? = some next → ∀ id, next.get? id = f.poll.2.snapshot.get? id
  read : f.poll.1 ≠ [] → f.described?.isSome = true

theorem entryChange?_self (entry : Option ListenerConfig) : entryChange? entry entry = none :=
  entryChange?_eq_none_iff.mpr BEq.rfl

/-- A poll that reads nothing new leaves the snapshot. -/
theorem polled_of_unread (hs : f.snapshot.Sound) (hnone : f.poll.1 = [])
    (hsame : f.poll.2.snapshot = f.snapshot) (settled : f.poll.2.Settled)
    (described : ∀ next, f.described? = some next → ∀ id, next.get? id = f.snapshot.get? id) :
    f.Polled where
  changes x := by simp [hnone, hsame, entryChange?_self]
  once := by simp [hnone]
  sound := hsame ▸ hs
  settled := settled
  described := hsame ▸ described
  read hne := absurd hnone hne

theorem poll_polled (hs : f.snapshot.Sound) (h : f.Settled) : f.Polled := by
  cases ht : f.stored.bind Utf8.decode? with
  | none =>
    have hp : f.poll = ([], f) := by simp [poll, ht]
    refine polled_of_unread hs (by rw [hp]) (by rw [hp]) (by rw [hp]; exact h) ?_
    simp [described?, ht]
  | some text =>
    by_cases hc : f.content = some text
    · have hp : f.poll = ([], f) := by simp [poll, ht, hc]
      refine polled_of_unread hs (by rw [hp]) (by rw [hp]) (by rw [hp]; exact h) ?_
      intro next hn
      exact h text hc next (by simpa [described?, ht] using hn)
    · cases hr : parse? f.snapshot text with
      | none =>
        have hp : f.poll = ([], { f with content := some text }) := by simp [poll, ht, hc, hr]
        refine polled_of_unread hs (by rw [hp]) (by rw [hp]) ?_ (by simp [described?, ht, hr])
        rw [hp]
        intro text' htext next hn
        obtain rfl : text = text' := Option.some.inj htext
        exact absurd (hr.symm.trans hn) (by simp)
      | some next =>
        have hp : f.poll =
            (between f.snapshot next, { f with content := some text, snapshot := next }) := by
          simp [poll, ht, hc, hr]
        have hnext := parse?_sound hs hr
        refine ⟨fun x => by rw [hp]; exact mem_between, ?_, by rw [hp]; exact hnext, ?_, ?_,
          fun _ => by simp [described?, ht, hr]⟩
        · rw [hp]
          exact between_ids_nodup hs.named hnext.named
        · rw [hp]
          intro text' htext again hagain
          obtain rfl : text = text' := Option.some.inj htext
          exact parse?_again hr hagain
        · intro next' hn id
          obtain rfl : next = next' := by simpa [described?, ht, hr] using hn
          rw [hp]

theorem forget_cases (f : ListenerFile) (x : ListenerChange) :
    f.forget x = f ∨ (f.forget x).content = none := by
  unfold forget
  split
  · exact .inr rfl
  · exact .inl rfl

theorem rejected_settled (h : f.Settled) (xs : List ListenerChange) : (f.rejected xs).Settled := by
  induction xs generalizing f with
  | nil => exact h
  | cons x xs ih =>
    refine ih ?_
    rcases forget_cases f x with hsame | hnone
    · rwa [hsame]
    · intro text htext
      rw [hnone] at htext
      cases htext

theorem rejected_get? {xs : List ListenerChange} (hk : ∀ x ∈ xs, x.kind ≠ .remove) (id : String) :
    (f.rejected xs).snapshot.get? id =
      if id ∈ xs.map (fun x => x.config.id) then none else f.snapshot.get? id := by
  induction xs generalizing f with
  | nil => rfl
  | cons x xs ih =>
    have forgotten : (f.forget x).snapshot.get? id =
        if id = x.config.id then none else f.snapshot.get? id := by
      unfold forget
      split
      next => exact Table.get?_erase _ _ _
      next hno =>
        have absent : f.snapshot.get? x.config.id = none := by
          simpa [Table.contains, hk x List.mem_cons_self] using hno
        by_cases hid : id = x.config.id
        · rw [if_pos hid, hid, absent]
        · rw [if_neg hid]
    rw [rejected, List.foldl_cons]
    refine (ih fun y hy => hk y (List.mem_cons_of_mem _ hy)).trans ?_
    rw [forgotten, List.map_cons]
    by_cases hid : id = x.config.id <;> simp [hid]

end ListenerFile

end Switchboard
