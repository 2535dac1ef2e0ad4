import Switchboard.Proofs.FileSnapshots

namespace Switchboard

open ListenerChange

namespace ListenerChange

/-- What a change makes of the entry of its id. -/
def outcome (x : ListenerChange) : Option ListenerConfig :=
  if x.kind = .remove then none else some x.config

/-- What a change makes of a table of descriptions. -/
def apply (t : Snapshot) (x : ListenerChange) : Snapshot :=
  match x.outcome with
  | none => t.erase x.config.id
  | some c => t.insert x.config.id c

/-- What is left of a table when a change is handed back: what was to be there is not. -/
def revoke (t : Snapshot) (x : ListenerChange) : Snapshot :=
  if x.kind = .remove then t else t.erase x.config.id

/-- A change that has something to say to a table: it adds an id that is missing, or it changes or
removes one that is there. -/
inductive MeantFor (t : Snapshot) (x : ListenerChange) : Prop
  | add (kind : x.kind = .add) (absent : t.get? x.config.id = none)
  | update {old : ListenerConfig} (kind : x.kind = .update)
      (present : t.get? x.config.id = some old) (differs : (old == x.config) = false)
  | remove {old : ListenerConfig} (kind : x.kind = .remove)
      (present : t.get? x.config.id = some old)

variable {t : Snapshot} {x : ListenerChange} {xs : List ListenerChange} {id : String}
  {old new : Option ListenerConfig}

theorem apply_get? (t : Snapshot) (x : ListenerChange) (id : String) :
    (apply t x).get? id = if id = x.config.id then x.outcome else t.get? id := by
  unfold apply
  cases x.outcome with
  | none => exact Table.get?_erase ..
  | some c => exact Table.get?_insert ..

theorem revoke_get? (t : Snapshot) (x : ListenerChange) (id : String) :
    (revoke t x).get? id =
      if x.kind ≠ .remove ∧ id = x.config.id then none else t.get? id := by
  unfold revoke
  by_cases hk : x.kind = .remove
  · simp [hk]
  · rw [if_neg hk, Table.get?_erase]
    simp [hk]

theorem foldl_apply_other (h : id ∉ xs.map fun x => x.config.id) (t : Snapshot) :
    (xs.foldl apply t).get? id = t.get? id := by
  induction xs generalizing t with
  | nil => rfl
  | cons x xs ih =>
    obtain ⟨hne, hxs⟩ := not_or.mp (mt List.mem_cons.mpr h)
    rw [List.foldl_cons, ih hxs, apply_get?, if_neg hne]

/-- Changes of different ids do not get in each other's way. -/
theorem foldl_apply_get? (once : (xs.map fun x => x.config.id).Nodup) (hx : x ∈ xs)
    (t : Snapshot) : (xs.foldl apply t).get? x.config.id = x.outcome := by
  induction xs generalizing t with
  | nil => cases hx
  | cons y ys ih =>
    obtain ⟨alone, once⟩ := List.nodup_cons.mp once
    rw [List.foldl_cons]
    rcases List.mem_cons.mp hx with rfl | hx
    · rw [foldl_apply_other alone, apply_get?, if_pos rfl]
    · exact ih once hx _

/-- The change between two entries of an id is meant for every table that has the first of them,
and makes the second of it. -/
theorem meantFor_of_entryChange? (h : entryChange? old new = some x)
    (same : (t.get? x.config.id == old) = true) : x.MeantFor t ∧ x.outcome = new := by
  cases old with
  | none =>
    cases new with
    | none => cases h
    | some c =>
      obtain rfl := Option.some.inj h
      exact ⟨.add rfl (by simpa using same), rfl⟩
  | some o =>
    obtain ⟨held, present, hsame⟩ :
        ∃ held, t.get? x.config.id = some held ∧ (held == o) = true := by
      cases ht : t.get? x.config.id with
      | none => simp [ht] at same
      | some held => exact ⟨held, rfl, by simpa [ht] using same⟩
    cases new with
    | none =>
      obtain rfl := Option.some.inj h
      exact ⟨.remove rfl present, rfl⟩
    | some c =>
      simp only [entryChange?] at h
      split at h
      next => cases h
      next hne =>
        obtain rfl := Option.some.inj h
        refine ⟨.update rfl present ?_, rfl⟩
        rw [BEq.congr_left hsame]
        simpa using hne

theorem same_trans {a b c : Option ListenerConfig} (h : (a == b) = true) (h' : (b == c) = true) :
    (a == c) = true := by
  cases a with
  | none => cases b with
    | none => exact h'
    | some b => cases h
  | some a => cases b with
    | none => cases h
    | some b => cases c with
      | none => cases h'
      | some c =>
        have first : (a == b) = true := h
        have second : (b == c) = true := h'
        exact (BEq.trans first second : (a == c) = true)

end ListenerChange

namespace ListenerFile

variable {f : ListenerFile} {x : ListenerChange} {xs : List ListenerChange} {id : String}

theorem forget_get? (f : ListenerFile) (x : ListenerChange) (id : String) :
    (f.forget x).snapshot.get? id =
      if x.kind ≠ .remove ∧ id = x.config.id then none else f.snapshot.get? id := by
  unfold forget
  by_cases hk : x.kind = .remove
  · simp [hk]
  · by_cases hin : f.snapshot.contains x.config.id = true
    · rw [if_pos ⟨hk, hin⟩, Table.get?_erase]
      simp [hk]
    · have absent : f.snapshot.get? x.config.id = none := by simpa [Table.contains] using hin
      rw [if_neg fun h => hin h.2]
      by_cases hid : id = x.config.id
      · simp [hid, absent]
      · simp [hid]

/-- What is handed back is forgotten, and nothing is entered anew. -/
theorem rejected_get?_cases (f : ListenerFile) (xs : List ListenerChange) (id : String) :
    (f.rejected xs).snapshot.get? id = none ∨
      (f.rejected xs).snapshot.get? id = f.snapshot.get? id := by
  induction xs generalizing f with
  | nil => exact .inr rfl
  | cons x xs ih =>
    rcases ih (f.forget x) with hnone | hsame
    · exact .inl hnone
    · rw [forget_get?] at hsame
      split at hsame
      · exact .inl hsame
      · exact .inr hsame

theorem rejected_sound (h : f.snapshot.Sound) (xs : List ListenerChange) :
    (f.rejected xs).snapshot.Sound := by
  intro id c hc
  rcases rejected_get?_cases f xs id with hnone | hsame
  · rw [hnone] at hc
    cases hc
  · exact h id c (hsame ▸ hc)

theorem rejected_absent (hx : x ∈ xs)
    (h : x.kind = .remove → f.snapshot.get? x.config.id = none) :
    (f.rejected xs).snapshot.get? x.config.id = none := by
  induction xs generalizing f with
  | nil => cases hx
  | cons y ys ih =>
    have forgotten : x = y ∨ x.kind = .remove → (f.forget y).snapshot.get? x.config.id = none := by
      rintro (rfl | hk)
      · rw [forget_get?]
        by_cases hk : x.kind = .remove
        · simp [hk, h hk]
        · simp [hk]
      · rw [forget_get?, h hk, ite_self]
    rcases List.mem_cons.mp hx with heq | hx
    · rcases rejected_get?_cases (f.forget y) ys x.config.id with hnone | hsame
      · exact hnone
      · exact hsame.trans (forgotten (.inl heq))
    · exact ih hx fun hk => forgotten (.inr hk)

theorem foldl_entered (old entry : Option ListenerConfig) (id : String)
    (configs : List ListenerConfig) :
    configs.foldl (entered old id) entry =
      (configs.filter fun c => c.id = id).foldl (entered old id) entry := by
  rw [List.foldl_filter]
  congr 1
  funext entry c
  by_cases hid : c.id = id <;> simp [entered, hid]

/-- An id that is only described in invalid ways is left as it was. -/
theorem foldl_entered_of_invalid {old entry : Option ListenerConfig}
    {entries : List ListenerConfig} (some : entries ≠ []) (named : ∀ c ∈ entries, c.id = id)
    (invalid : ∀ c ∈ entries, c.validate ≠ .ok ()) :
    entries.foldl (entered old id) entry = old.or entry := by
  induction entries generalizing entry with
  | nil => exact absurd rfl some
  | cons c cs ih =>
    obtain ⟨hid, named⟩ := List.forall_mem_cons.mp named
    obtain ⟨hc, invalid⟩ := List.forall_mem_cons.mp invalid
    have here : entered old id entry c = old.or entry := by
      cases hv : c.validate with
      | ok => exact absurd hv hc
      | error e => simp [entered, hid, hv]
    rw [List.foldl_cons, here]
    by_cases hcs : cs = []
    · rw [hcs]
      rfl
    · rw [ih hcs named invalid]
      cases old <;> rfl

theorem foldl_entered_of_last {old entry : Option ListenerConfig} {entries : List ListenerConfig}
    {c : ListenerConfig} (last : entries.getLast? = some c) (hid : c.id = id)
    (valid : c.validate = .ok ()) : entries.foldl (entered old id) entry = some c := by
  obtain ⟨init, rfl⟩ := List.getLast?_eq_some_iff.mp last
  simp [entered, hid, valid]

/-- The descriptions in what a file holds, if it can be read and is an array of them. -/
def descriptions? (stored : Option Bytes) : Option (List ListenerConfig) :=
  (stored.bind Utf8.decode?).bind ListenerConfig.listOfText?

theorem described?_eq (f : ListenerFile) :
    f.described? = (descriptions? f.stored).map fun configs =>
      configs.foldl (enter f.snapshot) .empty := by
  unfold described? descriptions? parse?
  cases f.stored.bind Utf8.decode? <;> rfl

/-- What cannot be read or describes nothing changes nothing. -/
theorem poll_of_nothing (h : descriptions? f.stored = none) :
    f.poll.1 = [] ∧ f.poll.2.snapshot = f.snapshot := by
  cases ht : f.stored.bind Utf8.decode? with
  | none => simp [poll, ht]
  | some text =>
    have hnone : parse? f.snapshot text = none := by
      simpa [descriptions?, ht, parse?] using h
    by_cases hc : f.content = some text
    · simp [poll, ht, hc]
    · simp [poll, ht, hc, hnone]

theorem poll_content {text : String} (h : f.stored.bind Utf8.decode? = some text) :
    f.poll.2.content = some text := by
  unfold poll
  rw [h]
  by_cases hc : f.content = some text
  · simp [hc]
  · cases hp : parse? f.snapshot text <;> simp [hc, hp]

theorem poll_of_unread (h : f.stored.bind Utf8.decode? = none) : f.poll = ([], f) := by
  simp [poll, h]

theorem poll_of_same {text : String} (h : f.stored.bind Utf8.decode? = some text)
    (hc : f.content = some text) : f.poll = ([], f) := by
  simp [poll, h, hc]

end ListenerFile

/-- What can happen to a file that is polled. -/
inductive FileEvent where
  /-- The file holds this by now, or there is none, and it is polled. -/
  | poll (stored : Option Bytes)
  /-- Changes that the last poll reported are handed back, by their places. -/
  | reject (places : List Nat)

namespace FileEvent

/-- The descriptions that are read. -/
def descriptions? : FileEvent → Option (List ListenerConfig)
  | poll stored => ListenerFile.descriptions? stored
  | reject _ => none

/-- No text is read and nothing is handed back. -/
def Still : FileEvent → Prop
  | poll stored => stored.bind Utf8.decode? = none
  | reject places => places = []

end FileEvent

/-- A file, the changes it reported last, and the descriptions held by someone who carries out all
that it reports. -/
structure FileReplica where
  file : ListenerFile := {}
  last : List ListenerChange := []
  held : Snapshot := .empty

namespace FileReplica

def handedBack (r : FileReplica) (places : List Nat) : List ListenerChange :=
  places.filterMap fun i => r.last[i]?

def step (r : FileReplica) : FileEvent → FileReplica
  | .poll stored =>
    let (changes, file) := ListenerFile.poll { r.file with stored }
    ⟨file, changes, changes.foldl apply r.held⟩
  | .reject places =>
    { r with
      file := r.file.rejected (r.handedBack places)
      held := (r.handedBack places).foldl revoke r.held }

def run (events : List FileEvent) : FileReplica := events.foldl step {}

theorem run_append (events more : List FileEvent) :
    run (events ++ more) = more.foldl step (run events) :=
  List.foldl_append

/-- What is held is what the file's snapshot says. -/
structure InStep (r : FileReplica) : Prop where
  sound : r.file.snapshot.Sound
  settled : r.file.Settled
  agrees : ∀ id, (r.held.get? id == r.file.snapshot.get? id) = true
  removed : ∀ x ∈ r.last, x.kind = .remove → r.file.snapshot.get? x.config.id = none

variable {r : FileReplica} {stored : Option Bytes} {x : ListenerChange} {id : String}

theorem InStep.polled (h : r.InStep) (stored : Option Bytes) :
    ListenerFile.Polled { r.file with stored } :=
  ListenerFile.poll_polled (f := { r.file with stored }) h.sound h.settled

theorem InStep.reported (h : r.InStep) (hx : x ∈ (r.step (.poll stored)).last) :
    x.MeantFor r.held ∧ x.outcome = (r.step (.poll stored)).file.snapshot.get? x.config.id := by
  have polled := h.polled stored
  obtain ⟨id, hentry⟩ := (polled.changes x).mp hx
  obtain rfl := entryChange?_id h.sound.named polled.sound.named hentry
  exact meantFor_of_entryChange? hentry (h.agrees x.config.id)

/-- An id is reported only if its entry becomes another one. -/
theorem InStep.unreported (h : r.InStep)
    (hsame : entryChange? (r.file.snapshot.get? id)
      ((r.step (.poll stored)).file.snapshot.get? id) = none) :
    ∀ x ∈ (r.step (.poll stored)).last, x.config.id ≠ id := by
  rintro x hx rfl
  obtain ⟨id, hentry⟩ := ((h.polled stored).changes x).mp hx
  obtain rfl := entryChange?_id h.sound.named (h.polled stored).sound.named hentry
  exact absurd (hsame.symm.trans hentry) (by simp)

/-- Carrying out what a poll reports leads to the new snapshot. -/
theorem InStep.poll_agrees (h : r.InStep) (stored : Option Bytes) (id : String) :
    ((r.step (.poll stored)).held.get? id ==
      (r.step (.poll stored)).file.snapshot.get? id) = true := by
  have polled := h.polled stored
  cases hentry : entryChange? (r.file.snapshot.get? id)
      ((r.step (.poll stored)).file.snapshot.get? id) with
  | some x =>
    have hx : x ∈ (r.step (.poll stored)).last := (polled.changes x).mpr ⟨id, hentry⟩
    obtain rfl := entryChange?_id h.sound.named polled.sound.named hentry
    have carried : (r.step (.poll stored)).held.get? x.config.id = x.outcome :=
      foldl_apply_get? polled.once hx r.held
    rw [carried, (h.reported hx).2]
    exact BEq.rfl
  | none =>
    -- Entries that are the same to a poll need not be equal, so `held` may keep the older one.
    have other : id ∉ (r.step (.poll stored)).last.map fun x => x.config.id := by
      intro hmem
      obtain ⟨x, hx, hid⟩ := List.mem_map.mp hmem
      exact h.unreported hentry x hx hid
    have untouched : (r.step (.poll stored)).held.get? id = r.held.get? id :=
      foldl_apply_other other r.held
    rw [untouched]
    exact same_trans (h.agrees id) (entryChange?_eq_none_iff.mp hentry)

theorem agrees_of_handedBack {file : ListenerFile} {held : Snapshot}
    (h : ∀ id, (held.get? id == file.snapshot.get? id) = true) (xs : List ListenerChange)
    (id : String) :
    ((xs.foldl revoke held).get? id == (file.rejected xs).snapshot.get? id) = true := by
  induction xs generalizing file held with
  | nil => exact h id
  | cons x xs ih =>
    -- Both sides lose the same id, unless the change was a removal.
    have step : ∀ id, ((revoke held x).get? id == (file.forget x).snapshot.get? id) = true := by
      intro id
      rw [revoke_get?, ListenerFile.forget_get?]
      split
      · rfl
      · exact h id
    exact ih step

theorem InStep.step (h : r.InStep) (e : FileEvent) : (r.step e).InStep := by
  cases e with
  | poll stored =>
    have polled := h.polled stored
    refine ⟨polled.sound, polled.settled, h.poll_agrees stored, ?_⟩
    intro x hx hk
    rw [← (h.reported hx).2, outcome, if_pos hk]
  | reject places =>
    refine ⟨ListenerFile.rejected_sound h.sound _, ListenerFile.rejected_settled h.settled _,
      agrees_of_handedBack h.agrees _, ?_⟩
    intro x hx hk
    rcases ListenerFile.rejected_get?_cases r.file (r.handedBack places) x.config.id with
      hnone | hsame
    · exact hnone
    · exact hsame.trans (h.removed x hx hk)

theorem foldl_step_inStep (h : r.InStep) (events : List FileEvent) :
    (events.foldl FileReplica.step r).InStep := by
  induction events generalizing r with
  | nil => exact h
  | cons e events ih => exact ih (h.step e)

theorem run_inStep (events : List FileEvent) : (run events).InStep := by
  refine foldl_step_inStep ⟨?_, ?_, fun _ => rfl, ?_⟩ events
  · rintro id c ⟨⟩
  · rintro text ⟨⟩
  · rintro x ⟨⟩

theorem InStep.poll_described (h : r.InStep) {configs : List ListenerConfig}
    (hd : ListenerFile.descriptions? stored = some configs) (id : String) :
    (r.step (.poll stored)).file.snapshot.get? id =
      (configs.filter fun c => c.id = id).foldl
        (ListenerFile.entered (r.file.snapshot.get? id) id) none := by
  have described : ({ r.file with stored } : ListenerFile).described? =
      some (configs.foldl (ListenerFile.enter r.file.snapshot) .empty) := by
    rw [ListenerFile.described?_eq, hd]
    rfl
  rw [← ListenerFile.foldl_entered]
  exact ((h.polled stored).described _ described id).symm.trans
    (ListenerFile.foldl_enter_get? r.file.snapshot .empty configs id)

/-- An id with invalid descriptions alone keeps its entry. -/
theorem InStep.poll_invalid (h : r.InStep) {configs : List ListenerConfig}
    (hd : ListenerFile.descriptions? stored = some configs) (some : ∃ c ∈ configs, c.id = id)
    (invalid : ∀ c ∈ configs, c.id = id → c.validate ≠ .ok ()) :
    (r.step (.poll stored)).file.snapshot.get? id = r.file.snapshot.get? id := by
  obtain ⟨c, hc, hid⟩ := some
  have entries : ∀ d ∈ configs.filter fun d => d.id = id, d ∈ configs ∧ d.id = id := by simp
  rw [h.poll_described hd, ListenerFile.foldl_entered_of_invalid
    (List.ne_nil_of_mem (List.mem_filter.mpr ⟨hc, by simpa using hid⟩))
    (fun d hd => (entries d hd).2) (fun d hd => invalid d (entries d hd).1 (entries d hd).2)]
  exact Option.or_none

/-- A missing id is added if the last of its descriptions is valid. -/
theorem InStep.poll_missing (h : r.InStep) (missing : r.file.snapshot.get? id = none)
    {configs : List ListenerConfig} (hd : ListenerFile.descriptions? stored = some configs)
    {c : ListenerConfig} (hlast : (configs.filter fun d => d.id = id).getLast? = some c)
    (valid : c.validate = .ok ()) : ⟨.add, c⟩ ∈ (r.step (.poll stored)).last := by
  have hid : c.id = id := by simpa using (List.mem_filter.mp (List.mem_of_getLast? hlast)).2
  have entered : ({ r.file with stored } : ListenerFile).poll.2.snapshot.get? id = some c :=
    (h.poll_described hd id).trans (ListenerFile.foldl_entered_of_last hlast hid valid)
  have before : ({ r.file with stored } : ListenerFile).snapshot.get? id = none := missing
  refine ((h.polled stored).changes _).mpr ⟨id, ?_⟩
  rw [entered, before]
  rfl

/-- An id that is missing stays missing until descriptions are read. -/
theorem missing_until_read (h : r.file.snapshot.get? id = none) {events : List FileEvent}
    (unread : ∀ e ∈ events, e.descriptions? = none) :
    (events.foldl FileReplica.step r).file.snapshot.get? id = none := by
  induction events generalizing r with
  | nil => exact h
  | cons e events ih =>
    obtain ⟨he, unread⟩ := List.forall_mem_cons.mp unread
    refine ih ?_ unread
    cases e with
    | poll stored =>
      have same := (ListenerFile.poll_of_nothing (f := { r.file with stored }) he).2
      exact (congrArg (Table.get? · id) same).trans h
    | reject places =>
      rcases ListenerFile.rejected_get?_cases r.file (r.handedBack places) id with hnone | hsame
      · exact hnone
      · exact hsame.trans h

theorem content_of_still {text : String} (h : r.file.content = some text)
    {events : List FileEvent} (still : ∀ e ∈ events, e.Still) :
    (events.foldl FileReplica.step r).file.content = some text := by
  induction events generalizing r with
  | nil => exact h
  | cons e events ih =>
    obtain ⟨he, still⟩ := List.forall_mem_cons.mp still
    refine ih ?_ still
    cases e with
    | poll stored =>
      have same := ListenerFile.poll_of_unread (f := { r.file with stored }) he
      exact (congrArg (fun p => p.2.content) same).trans h
    | reject places =>
      obtain rfl : places = [] := he
      exact h

/-- What was read is known as long as nothing else happens to the file. -/
theorem content_after_poll {before between : List FileEvent} {text : String}
    (hread : stored.bind Utf8.decode? = some text) (still : ∀ e ∈ between, e.Still) :
    (run (before ++ .poll stored :: between)).file.content = some text := by
  rw [run_append, List.foldl_cons]
  refine content_of_still ?_ still
  exact ListenerFile.poll_content (f := { (run before).file with stored }) hread

theorem missing_after_reject {before between : List FileEvent} {places : List Nat}
    (hx : x ∈ (run before).handedBack places) (unread : ∀ e ∈ between, e.descriptions? = none) :
    (run (before ++ .reject places :: between)).file.snapshot.get? x.config.id = none := by
  obtain ⟨i, _, hi⟩ := List.mem_filterMap.mp hx
  rw [run_append, List.foldl_cons]
  exact missing_until_read (ListenerFile.rejected_absent hx
    ((run_inStep before).removed x (List.mem_of_getElem? hi))) unread

/-- Who carries out what the polls of a file report, and gives up what is handed back, always holds
what the snapshot says. A poll reports at most one change for an id, and only one that makes a
difference to what is held; all that is to be added or changed is valid. A file that cannot be read,
describes nothing or is as it was reports nothing, and neither does an id with invalid descriptions
alone. What was handed back is added by the next poll that reads descriptions, if the last of its id
is valid. -/
theorem replica_follows_the_file (past : List FileEvent) :
    let r := run past
    (∀ id, (r.held.get? id == r.file.snapshot.get? id) = true) ∧
    (∀ stored, let next := r.step (.poll stored)
      (next.last.map fun x => x.config.id).Nodup ∧
      (∀ x ∈ next.last, x.MeantFor r.held ∧ (x.kind ≠ .remove → x.config.validate = .ok ())) ∧
      (ListenerFile.descriptions? stored = none →
        next.last = [] ∧ next.file.snapshot = r.file.snapshot) ∧
      ∀ configs id, ListenerFile.descriptions? stored = some configs →
        (∃ c ∈ configs, c.id = id) → (∀ c ∈ configs, c.id = id → c.validate ≠ .ok ()) →
          next.file.snapshot.get? id = r.file.snapshot.get? id ∧
          ∀ x ∈ next.last, x.config.id ≠ id) ∧
    (∀ before stored between again text,
      past = before ++ .poll stored :: between → (∀ e ∈ between, e.Still) →
      stored.bind Utf8.decode? = some text → again.bind Utf8.decode? = some text →
        (r.step (.poll again)).last = [] ∧
        (r.step (.poll again)).file.snapshot = r.file.snapshot) ∧
    ∀ before places between stored configs c,
      past = before ++ .reject places :: between → (∀ e ∈ between, e.descriptions? = none) →
      ListenerFile.descriptions? stored = some configs →
      ∀ x ∈ (run before).handedBack places,
        (configs.filter fun d => d.id = x.config.id).getLast? = some c → c.validate = .ok () →
          ⟨.add, c⟩ ∈ (r.step (.poll stored)).last := by
  intro r
  have inStep : r.InStep := run_inStep past
  refine ⟨inStep.agrees, fun stored => ⟨(inStep.polled stored).once, ?_, ?_, ?_⟩, ?_, ?_⟩
  · intro x hx
    obtain ⟨meant, outcome⟩ := inStep.reported hx
    refine ⟨meant, fun hk => ?_⟩
    rw [ListenerChange.outcome, if_neg hk] at outcome
    exact ((inStep.polled stored).sound _ _ outcome.symm).2
  · exact fun hd => ListenerFile.poll_of_nothing (f := { r.file with stored }) hd
  · intro configs id hd some invalid
    have kept := inStep.poll_invalid hd some invalid
    have same := ListenerFile.entryChange?_self (r.file.snapshot.get? id)
    exact ⟨kept, inStep.unreported (by rw [kept, same])⟩
  · rintro before stored between again text rfl still hread hagain
    have same := ListenerFile.poll_of_same (f := { r.file with stored := again }) hagain
      (content_after_poll hread still)
    exact ⟨congrArg Prod.fst same, congrArg (fun p => p.2.snapshot) same⟩
  · rintro before places between stored configs c rfl unread hd x hx hlast valid
    exact inStep.poll_missing (missing_after_reject hx unread) hd hlast valid

/-- A file with one listener on port 1. -/
def oneListener : Option Bytes := some (Utf8.encode "[\x7b\"id\":\"a\",\"port\":1\x7d]")

example : (run [.poll oneListener, .reject [0], .poll none, .poll oneListener]).last.map
    (fun x => (x.kind, x.config.id)) = [(.add, "a")] := by decide +kernel

end FileReplica

end Switchboard
