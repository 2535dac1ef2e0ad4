import Switchboard.Proofs.AppliedChanges
import Switchboard.Proofs.FileSnapshots
import Switchboard.Proofs.ServerFrame

namespace Switchboard

open ListenerChange

/-- What a change makes of the listener of its id, and whether it is handed back. -/
inductive ListenerChange.Carried (x : ListenerChange) :
    Option Listener → Option Listener → (back : Bool) → Prop
  | bound {l} (kind : x.kind = .add) (config : l.config = x.config) : Carried x none (some l) false
  | unbound (kind : x.kind = .add) : Carried x none none true
  | updated {l l'} (kind : x.kind = .update) (port : x.config.port = l.config.port)
      (id : l'.config.id = l.config.id) (config : (l'.config == x.config) = true) :
      Carried x (some l) (some l') false
  | refused {l} (kind : x.kind = .update) (port : x.config.port ≠ l.config.port) :
      Carried x (some l) (some l) false
  | removed {l} (kind : x.kind = .remove) : Carried x (some l) none false

/-- Only a new listener that could not be bound is handed back. -/
theorem ListenerChange.Carried.handedBack {x : ListenerChange} {l l' : Option Listener}
    (h : x.Carried l l' true) : x.kind = .add ∧ l' = none := by
  cases h with
  | unbound kind => exact ⟨kind, rfl⟩

/-- A change that fits the listener of its id: new ones are added, others are updated or removed. -/
structure ListenerChange.Fits (x : ListenerChange) (before : Option Listener) : Prop where
  valid : x.kind ≠ .remove → x.config.validate = .ok ()
  named : ∀ l, before = some l → l.config.id = x.config.id
  present : before.isSome = decide (x.kind ≠ .add)

namespace Server

variable {N T H : Type} [Network N] {s : Server N T H} {x : ListenerChange}

theorem apply_carried (fits : x.Fits (s.listeners.get? x.config.id)) :
    (∀ id, id ≠ x.config.id → (s.apply x).2.listeners.get? id = s.listeners.get? id) ∧
      (s.apply x).2.source = s.source ∧
      x.Carried (s.listeners.get? x.config.id) ((s.apply x).2.listeners.get? x.config.id)
        (s.handsBack x) := by
  have applied := apply_applied s x
  obtain ⟨_, hsource, _, hothers⟩ := applied.frame
  refine ⟨hothers, hsource, ?_⟩
  have updates {l : Listener} (kind : x.kind ≠ .remove)
      (present : s.listeners.get? x.config.id = some l) : x.kind = .update := by
    have hadd := fits.present
    rw [present] at hadd
    cases hk : x.kind <;> simp_all
  rw [handsBack]
  generalize s.apply x = r at applied
  obtain ⟨result, s'⟩ := r
  cases applied with
  | invalid kind refusal =>
    rw [fits.valid kind] at refusal
    cases refusal
  | bound kind absent =>
    rw [absent, Table.get?_insert, if_pos rfl]
    exact .bound kind rfl
  | unbound kind absent =>
    simp only [absent, isHandedBack, kind]
    exact .unbound kind
  | updated kind present port id config =>
    rw [present, Table.get?_insert, if_pos rfl]
    exact .updated (updates kind present) port id config
  | unchanged kind present config =>
    rw [present]
    exact .updated (updates kind present) (ListenerConfig.beq_iff.mp config).2.2.1.symm rfl config
  | foreign kind present id => exact absurd (fits.named _ present).symm id
  | refused kind present port =>
    simp only [present, isHandedBack, updates kind present]
    exact .refused (updates kind present) port
  | missing kind absent =>
    have hadd := fits.present
    simp [absent, kind] at hadd
  | removed kind present =>
    rw [present, Table.get?_erase, if_pos rfl]
    exact .removed kind

/-- Changes of different ids are carried out side by side. -/
theorem applyAll_carried {xs : List ListenerChange} (s : Server N T H)
    (once : (xs.map fun x => x.config.id).Nodup)
    (fits : ∀ x ∈ xs, x.Fits (s.listeners.get? x.config.id)) :
    let r := applyAll xs s
    r.2.source = s.source ∧ r.1 ⊆ xs ∧
      (∀ id, id ∉ xs.map (fun x => x.config.id) → r.2.listeners.get? id = s.listeners.get? id) ∧
      ∀ x ∈ xs, ∃ back : Bool, (back = true ↔ x ∈ r.1) ∧
        x.Carried (s.listeners.get? x.config.id) (r.2.listeners.get? x.config.id) back := by
  induction xs generalizing s with
  | nil => exact ⟨rfl, fun _ h => h, fun _ _ => rfl, by simp⟩
  | cons x xs ih =>
    obtain ⟨hnew, once⟩ := List.nodup_cons.mp once
    obtain ⟨hx, hxs⟩ := List.forall_mem_cons.mp fits
    obtain ⟨hothers, hsource, hcarried⟩ := apply_carried hx
    have elsewhere : ∀ y ∈ xs, y.config.id ≠ x.config.id := fun y hy heq =>
      hnew (List.mem_map.mpr ⟨y, hy, heq⟩)
    obtain ⟨hsource', hsub, hothers', hcarried'⟩ := ih (s.apply x).2 once
      (fun y hy => by rw [hothers _ (elsewhere y hy)]; exact hxs y hy)
    rw [applyAll_cons]
    refine ⟨hsource'.trans hsource, ?_, ?_, ?_⟩
    · intro y hy
      rcases List.mem_append.mp hy with hy | hy
      · split at hy
        · rw [List.mem_singleton.mp hy]
          exact List.mem_cons_self
        · cases hy
      · exact List.mem_cons_of_mem _ (hsub hy)
    · intro id hid
      obtain ⟨hne, hid⟩ := not_or.mp (mt List.mem_cons.mpr hid)
      exact (hothers' id hid).trans (hothers id hne)
    · intro y hy
      rcases List.mem_cons.mp hy with rfl | hy
      · refine ⟨s.handsBack y, ?_, ?_⟩
        · have later : y ∉ (applyAll xs (s.apply y).2).1 := fun h =>
            hnew (List.mem_map_of_mem (hsub h))
          cases s.handsBack y <;> simp [later]
        · rw [hothers' _ hnew]
          exact hcarried
      · obtain ⟨back, hback, hy'⟩ := hcarried' y hy
        refine ⟨back, ?_, ?_⟩
        · have hne : y ≠ x := fun h => elsewhere y hy (h ▸ rfl)
          rw [hback]
          split <;> simp [hne]
        · rw [hothers _ (elsewhere y hy)] at hy'
          exact hy'

/-- A listener is as the file wants it, but for a port it cannot be moved to. -/
def Agrees : Option Listener → Option ListenerConfig → Prop
  | none, none => True
  | some l, some c => (l.config == c) = true ∨ c.port ≠ l.config.port
  | _, _ => False

/-- Listeners and file agree about every id, and what the file holds was read before. -/
structure InStep (s : Server N ListenerFile H) : Prop where
  sound : s.source.snapshot.Sound
  settled : s.source.Settled
  named : ∀ id l, s.listeners.get? id = some l → l.config.id = id
  agrees : ∀ id, Agrees (s.listeners.get? id) (s.source.snapshot.get? id)

theorem Agrees.isSome_eq : {l : Option Listener} → {c : Option ListenerConfig} → Agrees l c →
    l.isSome = c.isSome
  | none, none, _ => rfl
  | some _, some _, _ => rfl
  | none, some _, h => h.elim
  | some _, none, h => h.elim

theorem Agrees.of_unchanged {l : Option Listener} {old new : Option ListenerConfig}
    (h : Agrees l old) (hnone : entryChange? old new = none) : Agrees l new := by
  cases old with
  | none =>
    cases new with
    | none => exact h
    | some c => cases hnone
  | some o =>
    cases new with
    | none => cases hnone
    | some c =>
      have hoc : (o == c) = true := by
        by_contra hne
        simp [entryChange?, hne] at hnone
      cases l with
      | none => exact h
      | some l =>
        rcases h with heq | hport
        · exact .inl (BEq.trans heq hoc)
        · exact .inr ((ListenerConfig.beq_iff.mp hoc).2.2.1 ▸ hport)

/-- A change that is carried out makes the listener agree with the new entry, and one that is handed
back leaves neither. -/
theorem Agrees.of_carried {x : ListenerChange} {l l' : Option Listener} {back : Bool}
    {old new : Option ListenerConfig} (hx : entryChange? old new = some x)
    (h : x.Carried l l' back) : Agrees l' (if back then none else new) := by
  have hcases := entryChange?_cases hx
  cases h with
  | bound kind config =>
    obtain ⟨_, rfl⟩ : old = none ∧ new = some x.config := by simpa [kind] using hcases
    exact .inl (config ▸ BEq.rfl)
  | unbound => trivial
  | updated kind _ _ config =>
    obtain ⟨_, rfl⟩ : old.isSome = true ∧ new = some x.config := by simpa [kind] using hcases
    exact .inl config
  | refused kind port =>
    obtain ⟨_, rfl⟩ : old.isSome = true ∧ new = some x.config := by simpa [kind] using hcases
    exact .inr port
  | removed kind =>
    obtain ⟨_, rfl⟩ : old = some x.config ∧ new = none := by simpa [kind] using hcases
    trivial

omit [Network N] in
/-- What is reported fits the listeners that are there. -/
theorem InStep.fits {s : Server N ListenerFile H} (h : s.InStep) {x : ListenerChange}
    (hx : x ∈ s.source.poll.1) : x.Fits (s.listeners.get? x.config.id) := by
  have polled := ListenerFile.poll_polled h.sound h.settled
  obtain ⟨id, hentry⟩ := (polled.changes x).mp hx
  obtain rfl := entryChange?_id h.sound.named polled.sound.named hentry
  have present := (h.agrees x.config.id).isSome_eq
  have named : ∀ l, s.listeners.get? x.config.id = some l → l.config.id = x.config.id :=
    h.named x.config.id
  rcases entryChange?_cases hentry with ⟨hk, hold, _⟩ | ⟨hk, hold, hnew⟩ | ⟨hk, hold, hnew⟩
  · exact ⟨fun hne => absurd hk hne, named, by simp [present, hold, hk]⟩
  · exact ⟨fun _ => (polled.sound _ _ hnew).2, named, by simp [present, hold, hk]⟩
  · exact ⟨fun _ => (polled.sound _ _ hnew).2, named, by simp [present, hold, hk]⟩

theorem reconcile_eq (s : Server N ListenerFile H) :
    s.reconcile.listeners =
        (applyAll s.source.poll.1 { s with source := s.source.poll.2 }).2.listeners ∧
      s.reconcile.source =
        (applyAll s.source.poll.1 { s with source := s.source.poll.2 }).2.source.rejected
          (applyAll s.source.poll.1 { s with source := s.source.poll.2 }).1 := by
  let r := applyAll s.source.poll.1 { s with source := s.source.poll.2 }
  have unfolded : s.reconcile =
      if r.1.isEmpty then r.2 else { r.2 with source := r.2.source.rejected r.1 } := rfl
  rw [unfolded]
  by_cases hnone : r.1.isEmpty = true
  · rw [if_pos hnone]
    exact ⟨rfl, by rw [List.isEmpty_iff.mp hnone]; rfl⟩
  · rw [if_neg hnone]
    exact ⟨rfl, rfl⟩

/-- What a reconciliation does to an id: its change is carried out, and if it is handed back the
file forgets the id; without a change only the snapshot is the new one. -/
theorem InStep.reconcile_entry {s : Server N ListenerFile H} (h : s.InStep) (id : String) :
    (∃ x ∈ s.source.poll.1, ∃ back : Bool,
      entryChange? (s.source.snapshot.get? id) (s.source.poll.2.snapshot.get? id) = some x ∧
      x.Carried (s.listeners.get? id) (s.reconcile.listeners.get? id) back ∧
      s.reconcile.source.snapshot.get? id =
        if back then none else s.source.poll.2.snapshot.get? id) ∨
    (entryChange? (s.source.snapshot.get? id) (s.source.poll.2.snapshot.get? id) = none ∧
      s.reconcile.listeners.get? id = s.listeners.get? id ∧
      s.reconcile.source.snapshot.get? id = s.source.poll.2.snapshot.get? id) := by
  have polled := ListenerFile.poll_polled h.sound h.settled
  obtain ⟨hlisteners, hsource⟩ := reconcile_eq s
  obtain ⟨hkept, hsub, hothers, hcarried⟩ :=
    applyAll_carried { s with source := s.source.poll.2 } polled.once fun x hx => h.fits hx
  rw [hkept] at hsource
  have added : ∀ x ∈ (applyAll s.source.poll.1 { s with source := s.source.poll.2 }).1,
      x.kind ≠ .remove := by
    intro x hx
    obtain ⟨back, hback, hx'⟩ := hcarried x (hsub hx)
    rw [hback.mpr hx] at hx'
    simp [hx'.handedBack.1]
  have forgotten := ListenerFile.rejected_get? (f := s.source.poll.2) added id
  rw [← hsource] at forgotten
  cases hentry : entryChange? (s.source.snapshot.get? id) (s.source.poll.2.snapshot.get? id) with
  | none =>
    have absent : id ∉ s.source.poll.1.map fun x => x.config.id := by
      intro hmem
      obtain ⟨x, hx, rfl⟩ := List.mem_map.mp hmem
      obtain ⟨id', hx'⟩ := (polled.changes x).mp hx
      rw [entryChange?_id h.sound.named polled.sound.named hx', hx'] at hentry
      cases hentry
    refine .inr ⟨rfl, ?_, ?_⟩
    · rw [hlisteners]
      exact hothers id absent
    · rw [forgotten, if_neg fun hmem => absent (List.map_subset _ hsub hmem)]
  | some x =>
    have hx := (polled.changes x).mpr ⟨id, hentry⟩
    obtain rfl := entryChange?_id h.sound.named polled.sound.named hentry
    obtain ⟨back, hback, hx'⟩ := hcarried x hx
    refine .inl ⟨x, hx, back, rfl, ?_, ?_⟩
    · rw [hlisteners]
      exact hx'
    · rw [forgotten]
      have iff : x.config.id ∈ (applyAll s.source.poll.1 { s with source := s.source.poll.2 }).1.map
          (fun x => x.config.id) ↔ back = true := by
        rw [hback]
        constructor
        · intro hmem
          obtain ⟨y, hy, hid⟩ := List.mem_map.mp hmem
          rwa [← List.inj_on_of_nodup_map polled.once (hsub hy) hx hid]
        · exact fun hmem => List.mem_map_of_mem hmem
      simp only [iff]

theorem InStep.reconcile {s : Server N ListenerFile H} (h : s.InStep) : s.reconcile.InStep := by
  have polled := ListenerFile.poll_polled h.sound h.settled
  obtain ⟨_, hsource⟩ := reconcile_eq s
  obtain ⟨hkept, _⟩ :=
    applyAll_carried { s with source := s.source.poll.2 } polled.once fun x hx => h.fits hx
  rw [hkept] at hsource
  refine ⟨?_, ?_, ?_, ?_⟩
  · intro id c hc
    refine polled.sound id c ?_
    rcases h.reconcile_entry id with ⟨x, _, back, _, _, hentry⟩ | ⟨_, _, hentry⟩
    · rw [hentry] at hc
      cases back with
      | false => exact hc
      | true => cases hc
    · exact hentry ▸ hc
  · rw [hsource]
    exact ListenerFile.rejected_settled polled.settled _
  · intro id l hl
    rcases h.reconcile_entry id with ⟨x, hx, back, hentry, hcarried, _⟩ | ⟨_, hsame, _⟩
    · obtain rfl := entryChange?_id h.sound.named polled.sound.named hentry
      rw [hl] at hcarried
      generalize hbefore : s.listeners.get? x.config.id = before at hcarried
      cases hcarried with
      | bound _ config => rw [config]
      | updated _ _ hid => exact hid.trans (h.named _ _ hbefore)
      | refused => exact h.named _ _ hbefore
    · exact h.named id l (hsame ▸ hl)
  · intro id
    rcases h.reconcile_entry id with ⟨x, _, back, hentry, hcarried, hafter⟩ | ⟨hentry, hl, hc⟩
    · rw [hafter]
      exact .of_carried hentry hcarried
    · rw [hl, hc]
      exact (h.agrees id).of_unchanged hentry

/-- What may happen between two rounds of a server: time passes, the network changes in any way, and
the file holds something else or is gone. -/
structure Interlude (N : Type) where
  microseconds : Nat
  network : N → N
  stored : Option Bytes

def meanwhile (s : Server N ListenerFile H) (i : Interlude N) : Server N ListenerFile H :=
  let s := s.elapse i.microseconds
  { s with network := i.network s.network, source := { s.source with stored := i.stored } }

/-- The changes that the source reports in a round after an interlude. -/
def offers (s : Server N ListenerFile H) (i : Interlude N) : List ListenerChange :=
  (s.meanwhile i).source.poll.1

variable [Handler H]

def round (s : Server N ListenerFile H) (i : Interlude N) : Server N ListenerFile H :=
  (s.meanwhile i).iterate

def rounds (past : List (Interlude N)) (s : Server N ListenerFile H) : Server N ListenerFile H :=
  past.foldl round s

omit [Network N] [Handler H] in
theorem InStep.meanwhile {s : Server N ListenerFile H} (h : s.InStep) (i : Interlude N) :
    (s.meanwhile i).InStep := ⟨h.sound, h.settled, h.named, h.agrees⟩

omit [Network N] [Handler H] in
theorem InStep.of_frame {s s' : Server N ListenerFile H} (h : s.InStep) (frame : Frame s s') :
    s'.InStep := by
  obtain ⟨_, hlisteners, hsource, _⟩ := frame
  refine ⟨?_, ?_, ?_, ?_⟩
  · exact hsource ▸ h.sound
  · exact hsource ▸ h.settled
  · exact hlisteners ▸ h.named
  · rw [hlisteners, hsource]
    exact h.agrees

/-- A round after an interlude reconciles what was there with what is stored now. -/
theorem round_eq (s : Server N ListenerFile H) (i : Interlude N) :
    ∃ t : Server N ListenerFile H, s.round i = t.reconcile ∧ t.listeners = s.listeners ∧
      t.source = (s.meanwhile i).source ∧ (s.InStep → t.InStep) := by
  have frame := served_frame (s.meanwhile i)
  exact ⟨_, iterate_eq _, frame.2.1, frame.2.2.1, fun h => (h.meanwhile i).of_frame frame⟩

theorem rounds_inStep (config : ServerConfig) (network : N) (registry : HandlerRegistry H)
    (past : List (Interlude N)) : (rounds past (.new config network {} registry)).InStep := by
  induction past using List.reverseRecOn with
  | nil => exact ⟨by rintro id c ⟨⟩, by rintro text ⟨⟩, by rintro id l ⟨⟩, fun _ => trivial⟩
  | append_singleton past i ih =>
    obtain ⟨t, hround, _, _, ht⟩ :=
      round_eq (rounds past (.new config network {} registry)) i
    rw [rounds, List.foldl_append, List.foldl_cons, List.foldl_nil]
    exact hround ▸ (ht ih).reconcile

omit [Network N] [Handler H] in
theorem InStep.unbound_iff {s : Server N ListenerFile H} (h : s.InStep) (id : String) :
    s.listeners.contains id = s.source.snapshot.contains id := (h.agrees id).isSome_eq

omit [Network N] [Handler H] in
/-- What the file describes and is not bound is offered. -/
theorem InStep.offers_unbound {s : Server N ListenerFile H} (h : s.InStep) {i : Interlude N}
    {wanted : Snapshot} {id : String} {c : ListenerConfig}
    (hw : (s.meanwhile i).source.described? = some wanted) (hc : wanted.get? id = some c)
    (hid : s.listeners.contains id = false) : ⟨.add, c⟩ ∈ s.offers i := by
  have polled := ListenerFile.poll_polled (h.meanwhile i).sound (h.meanwhile i).settled
  have absent : (s.meanwhile i).source.snapshot.get? id = none := by
    rw [h.unbound_iff id] at hid
    change s.source.snapshot.get? id = none
    simpa [Table.contains] using hid
  refine (polled.changes _).mpr ⟨id, ?_⟩
  rw [absent, ← polled.described wanted hw id, hc]
  rfl

omit [Network N] [Handler H] in
/-- A change that is offered comes from what the file describes. -/
theorem InStep.offers_described {s : Server N ListenerFile H} (h : s.InStep) {i : Interlude N}
    {x : ListenerChange} (hx : x ∈ s.offers i) :
    ∃ wanted, (s.meanwhile i).source.described? = some wanted ∧
      entryChange? (s.source.snapshot.get? x.config.id) (wanted.get? x.config.id) = some x := by
  have polled := ListenerFile.poll_polled (h.meanwhile i).sound (h.meanwhile i).settled
  obtain ⟨wanted, hwanted⟩ := Option.isSome_iff_exists.mp
    (polled.read (List.ne_nil_of_mem hx))
  obtain ⟨id, hentry⟩ := (polled.changes x).mp hx
  obtain rfl := entryChange?_id (h.meanwhile i).sound.named polled.sound.named hentry
  refine ⟨wanted, hwanted, ?_⟩
  rw [polled.described wanted hwanted]
  exact hentry

/-- A listener that could not be bound is offered again as long as the file stays. -/
theorem InStep.offers_again {s : Server N ListenerFile H} (h : s.InStep) {i later : Interlude N}
    {c : ListenerConfig} (hadd : ⟨.add, c⟩ ∈ s.offers i)
    (hunbound : (s.round i).listeners.contains c.id = false) (hsame : later.stored = i.stored)
    (h' : (s.round i).InStep) : ⟨.add, c⟩ ∈ (s.round i).offers later := by
  obtain ⟨wanted, hwanted, hentry⟩ := h.offers_described hadd
  obtain ⟨absent, hc⟩ : s.source.snapshot.get? c.id = none ∧ wanted.get? c.id = some c := by
    simpa using entryChange?_cases hentry
  obtain ⟨text, htext, hparse⟩ := Option.bind_eq_some_iff.mp hwanted
  obtain ⟨wanted', hparse'⟩ := Option.isSome_iff_exists.mp
    ((ListenerFile.parse?_isSome s.source.snapshot (s.round i).source.snapshot text).symm.trans
      (Option.isSome_iff_exists.mpr ⟨wanted, hparse⟩))
  have hwanted' : ((s.round i).meanwhile later).source.described? = some wanted' := by
    refine Option.bind_eq_some_iff.mpr ⟨text, ?_, hparse'⟩
    rw [← htext]
    exact congrArg (·.bind Utf8.decode?) hsame
  have absent' : (s.round i).source.snapshot.get? c.id = none := by
    rw [h'.unbound_iff] at hunbound
    simpa [Table.contains] using hunbound
  refine h'.offers_unbound hwanted' ?_ hunbound
  rw [← hc]
  exact (ListenerFile.parse?_congr hparse hparse' (absent.trans absent'.symm)).symm

/-- What a round does to the listener and the snapshot entry of an id that the file describes and
that is bound. -/
theorem InStep.round_bound {s : Server N ListenerFile H} (h : s.InStep) {i : Interlude N}
    {wanted : Snapshot} {id : String} {c live : ListenerConfig}
    (hwanted : (s.meanwhile i).source.described? = some wanted) (hc : wanted.get? id = some c)
    (hlive : s.definition? id = some live) :
    (s.round i).source.snapshot.get? id = some c ∧
      (c.port ≠ live.port → (s.round i).definition? id = some live) ∧
      (c.port = live.port → ∃ live', (s.round i).definition? id = some live' ∧
        (live' == c) = true) := by
  obtain ⟨l, hl, rfl⟩ := Option.map_eq_some_iff.mp hlive
  obtain ⟨t, hround, hlisteners, hsource, ht⟩ := round_eq s i
  have polled := ListenerFile.poll_polled (h.meanwhile i).sound (h.meanwhile i).settled
  have hnew : t.source.poll.2.snapshot.get? id = some c := by
    rw [hsource, ← polled.described wanted hwanted, hc]
  rw [hround]
  rcases (ht h).reconcile_entry id with ⟨x, hx, back, hentry, hcarried, hafter⟩ |
    ⟨hentry, hsame, hafter⟩
  · rw [hnew] at hentry hafter
    rw [hlisteners, hl] at hcarried
    have hdef : t.reconcile.definition? id = (t.reconcile.listeners.get? id).map (·.config) := rfl
    rw [hdef]
    generalize t.reconcile.listeners.get? id = l' at hcarried
    have hcases := entryChange?_cases hentry
    cases hcarried with
    | updated kind port _ config =>
      obtain ⟨_, rfl⟩ : (t.source.snapshot.get? id).isSome = true ∧ c = x.config := by
        simpa [kind] using hcases
      refine ⟨hafter, fun hne => absurd port hne, fun _ => ⟨_, rfl, config⟩⟩
    | refused kind port =>
      obtain ⟨_, rfl⟩ : (t.source.snapshot.get? id).isSome = true ∧ c = x.config := by
        simpa [kind] using hcases
      exact ⟨hafter, fun _ => rfl, fun heq => absurd heq port⟩
    | removed kind => simp [kind] at hcases
  · rw [hlisteners, hl] at hsame
    have agrees := ((ht h).agrees id).of_unchanged hentry
    rw [hlisteners, hl, hnew] at agrees
    refine ⟨hafter.trans hnew, fun _ => ?_, fun hport => ⟨l.config, ?_, ?_⟩⟩
    · rw [definition?, hsame]
      rfl
    · rw [definition?, hsame]
      rfl
    · exact agrees.resolve_right fun hne => hne hport

/-- Listeners follow a file that is read in every round, whatever the file holds by then, whatever
can be bound and whatever clients do. What is bound is what the snapshot has, as it stands there but
for a port that cannot be changed. What cannot be bound is offered again as long as the file stays
the same; a listener that is to be moved to another port stays as it is, with the entry it does not
follow; and once the file has its port again, it follows. -/
theorem listeners_follow_the_file (config : ServerConfig) (network : N)
    (registry : HandlerRegistry H) (past : List (Interlude N)) :
    let s := rounds past (.new config network {} registry)
    (∀ id, s.listeners.contains id = s.source.snapshot.contains id) ∧
    (∀ id live wanted, s.definition? id = some live → s.source.snapshot.get? id = some wanted →
      (live == wanted) = true ∨ wanted.port ≠ live.port) ∧
    ∀ i : Interlude N,
      (∀ c, ⟨.add, c⟩ ∈ s.offers i → (s.round i).listeners.contains c.id = false →
        ∀ later : Interlude N, later.stored = i.stored →
          ⟨.add, c⟩ ∈ (s.round i).offers later) ∧
      ∀ wanted, (s.meanwhile i).source.described? = some wanted →
        (∀ id c, wanted.get? id = some c → s.listeners.contains id = false →
          ⟨.add, c⟩ ∈ s.offers i) ∧
        ∀ id c live, wanted.get? id = some c → s.definition? id = some live →
          (s.round i).source.snapshot.get? id = some c ∧
          (c.port ≠ live.port → (s.round i).definition? id = some live) ∧
          (c.port = live.port → ∃ live', (s.round i).definition? id = some live' ∧
            (live' == c) = true) := by
  intro s
  have inStep : s.InStep := rounds_inStep config network registry past
  refine ⟨inStep.unbound_iff, ?_, fun i => ⟨?_, ?_⟩⟩
  · intro id live wanted hlive hwanted
    obtain ⟨l, hl, rfl⟩ := Option.map_eq_some_iff.mp hlive
    have agrees := inStep.agrees id
    rw [hl, hwanted] at agrees
    exact agrees
  · intro c hadd hunbound later hsame
    have next : (s.round i).InStep := by
      have := rounds_inStep config network registry (past ++ [i])
      rwa [rounds, List.foldl_append] at this
    exact inStep.offers_again hadd hunbound hsame next
  · intro wanted hwanted
    refine ⟨fun id c hc hunbound => inStep.offers_unbound hwanted hc hunbound, ?_⟩
    exact fun id c live hc hlive => inStep.round_bound hwanted hc hlive

end Server

end Switchboard
