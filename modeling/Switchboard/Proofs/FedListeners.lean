import Switchboard.Listener.Feed
import Switchboard.Proofs.AppliedChanges
import Switchboard.Proofs.ServerFrame

namespace Switchboard

/-- What a listener is made from, and where it is bound. -/
structure Binding where
  config : ListenerConfig
  address : Address

/-- What a change makes of a table of bindings, if an attempt to bind its port would be answered in
that way. -/
def ListenerChange.rule (c : ListenerChange) (answer : Option Address) (t : Table Binding) :
    Table Binding :=
  if ListenerFeed.isValid c then
    match t.get? c.config.id, c.kind with
    | some _, .remove => t.erase c.config.id
    | some b, _ =>
      if c.config.port = b.config.port then t.insert c.config.id { b with config := c.config }
      else t
    | none, .add => match answer with
      | some address => t.insert c.config.id ⟨c.config, address⟩
      | none => t
    | none, _ => t
  else t

/-- What changes make of a table, one after the other, each with the answer to its attempt. -/
def folded (tried : List (ListenerChange × Option Address)) (t : Table Binding) : Table Binding :=
  tried.foldl (fun t x => x.1.rule x.2 t) t

theorem folded_append (tried more : List (ListenerChange × Option Address)) (t : Table Binding) :
    folded (tried ++ more) t = folded more (folded tried t) :=
  List.foldl_append

namespace ListenerChange

variable {c : ListenerChange} {t : Table Binding} {b : Binding}

theorem rule_of_invalid (invalid : ListenerFeed.isValid c = false) (answer : Option Address) :
    c.rule answer t = t := by
  simp [rule, invalid]

theorem rule_of_present (valid : ListenerFeed.isValid c = true)
    (present : t.get? c.config.id = some b) (kind : c.kind ≠ .remove) (answer : Option Address) :
    c.rule answer t = if c.config.port = b.config.port
      then t.insert c.config.id { b with config := c.config } else t := by
  cases hk : c.kind <;> simp_all [rule]

theorem rule_of_absent (valid : ListenerFeed.isValid c = true)
    (absent : t.get? c.config.id = none) (kind : c.kind = .add) (answer : Option Address) :
    c.rule answer t = match answer with
      | some address => t.insert c.config.id ⟨c.config, address⟩
      | none => t := by
  simp [rule, valid, absent, kind]

theorem rule_of_missing (absent : t.get? c.config.id = none) (kind : c.kind ≠ .add)
    (answer : Option Address) : c.rule answer t = t := by
  cases hk : c.kind <;> simp_all [rule]

theorem rule_of_removal (present : t.get? c.config.id = some b) (kind : c.kind = .remove)
    (answer : Option Address) : c.rule answer t = t.erase c.config.id := by
  simp [rule, ListenerFeed.isValid, present, kind]

/-- An id stays where it is bound until it is removed. -/
theorem rule_address {id : String} (hb : t.get? id = some b)
    (stays : c.kind = .remove → c.config.id ≠ id) (answer : Option Address) :
    ∃ b', (c.rule answer t).get? id = some b' ∧ b'.address = b.address := by
  by_cases hid : c.config.id = id
  · cases hv : ListenerFeed.isValid c with
    | false => exact ⟨b, by rw [rule_of_invalid hv, hb], rfl⟩
    | true =>
      rw [rule_of_present hv (hid ▸ hb) fun hk => stays hk hid]
      split
      · exact ⟨_, (Table.get?_insert ..).trans (if_pos hid.symm), rfl⟩
      · exact ⟨b, hb, rfl⟩
  · have other : (c.rule answer t).get? id = t.get? id := by
      unfold rule
      split
      · split
        · rw [Table.get?_erase, if_neg (Ne.symm hid)]
        · split
          · rw [Table.get?_insert, if_neg (Ne.symm hid)]
          · rfl
        · split
          · rw [Table.get?_insert, if_neg (Ne.symm hid)]
          · rfl
        · rfl
      · rfl
    exact ⟨b, other.trans hb, rfl⟩

end ListenerChange

theorem folded_address {tried : List (ListenerChange × Option Address)} {t : Table Binding}
    {id : String} {b : Binding} (hb : t.get? id = some b)
    (stays : ∀ x ∈ tried, x.1.kind = .remove → x.1.config.id ≠ id) :
    ∃ b', (folded tried t).get? id = some b' ∧ b'.address = b.address := by
  induction tried generalizing t b with
  | nil => exact ⟨b, hb, rfl⟩
  | cons x xs ih =>
    obtain ⟨hx, hxs⟩ := List.forall_mem_cons.mp stays
    obtain ⟨b₁, hb₁, haddress₁⟩ := ListenerChange.rule_address hb hx x.2
    obtain ⟨b₂, hb₂, haddress₂⟩ := ih hb₁ hxs
    exact ⟨b₂, hb₂, haddress₂.trans haddress₁⟩

namespace Server

variable {N H : Type}

/-- A listener is as a binding says. -/
def Stands : Option Listener → Option Binding → Prop
  | none, none => True
  | some l, some b => (l.config == b.config) = true ∧ l.address = b.address
  | _, _ => False

theorem Stands.of_some {l : Listener} {b : Option Binding} (h : Stands (some l) b) :
    ∃ b', b = some b' ∧ (l.config == b'.config) = true ∧ l.address = b'.address := by
  cases b with
  | none => exact h.elim
  | some b => exact ⟨b, rfl, h⟩

theorem Stands.of_none {b : Option Binding} (h : Stands none b) : b = none := by
  cases b with
  | none => rfl
  | some b => exact h.elim

/-- The listeners are those of a table, and their two indexes are inverse to each other. -/
structure Follows {T : Type} (s : Server N T H) (t : Table Binding) : Prop where
  named : ∀ id l, s.listeners.get? id = some l → l.config.id = id
  stands : ∀ id, Stands (s.listeners.get? id) (t.get? id)
  inverse : ∀ token id, s.tokenIds.lookup token = some id ↔
    ∃ l, s.listeners.get? id = some l ∧ l.token = token
  taken : ∀ id l, s.listeners.get? id = some l → l.token < s.nextToken

section

variable {T : Type} {s s' : Server N T H} {t : Table Binding} {id : String} {l : Listener}
  {b : Binding} {config : ListenerConfig} {network : N}

theorem Follows.of_same (h : Follows s t) (listeners : s'.listeners = s.listeners)
    (tokenIds : s'.tokenIds = s.tokenIds) (nextToken : s.nextToken ≤ s'.nextToken) :
    Follows s' t where
  named := listeners ▸ h.named
  stands := listeners ▸ h.stands
  inverse := by rw [listeners, tokenIds]; exact h.inverse
  taken id l hl := Nat.lt_of_lt_of_le (h.taken id l (listeners ▸ hl)) nextToken

theorem Follows.bind (h : Follows s t) (absent : s.listeners.get? config.id = none)
    (address : Address) :
    Follows { s with
      network
      listeners := s.listeners.insert config.id ⟨config, s.nextToken, address⟩
      tokenIds := (s.nextToken, config.id) :: s.tokenIds.filter fun e => e.1 != s.nextToken
      nextToken := s.nextToken + 1 } (t.insert config.id ⟨config, address⟩) where
  named id l hl := by
    rw [Table.get?_insert] at hl
    split at hl
    next hid => cases hl; exact hid.symm
    next => exact h.named id l hl
  stands id := by
    rw [Table.get?_insert, Table.get?_insert]
    split
    · exact ⟨BEq.rfl, rfl⟩
    · exact h.stands id
  inverse token id := by
    rw [Table.get?_insert, lookup_cons_ite]
    -- the token is new: those of all listeners are below it
    by_cases htoken : token = s.nextToken
    · rw [if_pos htoken, Option.some.injEq]
      constructor
      · rintro rfl
        exact ⟨_, if_pos rfl, htoken.symm⟩
      · rintro ⟨l, hl, rfl⟩
        split at hl
        next hid => exact hid.symm
        next => exact absurd htoken (Nat.ne_of_lt (h.taken id l hl))
    · rw [if_neg htoken, lookup_filter_ne htoken, h.inverse]
      split
      next hid =>
        rw [hid, absent]
        simpa using fun heq : s.nextToken = token => htoken heq.symm
      next => rfl
  taken id l hl := by
    rw [Table.get?_insert] at hl
    split at hl
    next => cases hl; exact Nat.lt_succ_self _
    next => exact Nat.lt_succ_of_lt (h.taken id l hl)

theorem Follows.replace (h : Follows s t) (present : s.listeners.get? id = some l)
    (hb : t.get? id = some b) {next : ListenerConfig} (hid : next.id = l.config.id)
    (same : (next == config) = true) :
    Follows { s with listeners := s.listeners.insert id { l with config := next } }
      (t.insert id { b with config }) where
  named id' l' hl := by
    rw [Table.get?_insert] at hl
    split at hl
    next heq => cases hl; exact hid.trans ((h.named _ _ present).trans heq.symm)
    next => exact h.named id' l' hl
  stands id' := by
    rw [Table.get?_insert, Table.get?_insert]
    split
    · have stood := h.stands id
      rw [present, hb] at stood
      exact ⟨same, stood.2⟩
    · exact h.stands id'
  inverse token id' := by
    rw [Table.get?_insert, h.inverse]
    split
    next heq => simp [heq, present]
    next => rfl
  taken id' l' hl := by
    rw [Table.get?_insert] at hl
    split at hl
    next => cases hl; exact h.taken id l present
    next => exact h.taken id' l' hl

theorem Follows.restate (h : Follows s t) (present : s.listeners.get? id = some l)
    (hb : t.get? id = some b) (same : (l.config == config) = true) :
    Follows s (t.insert id { b with config }) where
  named := h.named
  stands id' := by
    rw [Table.get?_insert]
    split
    next heq =>
      have stood := h.stands id
      rw [present, hb] at stood
      rw [heq, present]
      exact ⟨same, stood.2⟩
    next => exact h.stands id'
  inverse := h.inverse
  taken := h.taken

theorem Follows.drop (h : Follows s t) (present : s.listeners.get? id = some l) :
    Follows { s with
      network
      listeners := s.listeners.erase id
      tokenIds := s.tokenIds.filter fun e => e.1 != l.token } (t.erase id) where
  named id' l' hl := by
    rw [Table.get?_erase] at hl
    split at hl
    next => cases hl
    next => exact h.named id' l' hl
  stands id' := by
    rw [Table.get?_erase, Table.get?_erase]
    split
    · trivial
    · exact h.stands id'
  inverse token id' := by
    rw [Table.get?_erase]
    by_cases htoken : token = l.token
    · rw [htoken, lookup_filter_self]
      constructor
      · rintro ⟨⟩
      · rintro ⟨l', hl, hsame⟩
        split at hl
        next => cases hl
        next hne =>
          -- two listeners under one token would be found under one id
          have first := (h.inverse l.token id).mpr ⟨l, present, rfl⟩
          have second := (h.inverse l.token id').mpr ⟨l', hl, hsame⟩
          exact absurd (Option.some.inj (second.symm.trans first)) hne
    · rw [lookup_filter_ne htoken, h.inverse]
      split
      next heq =>
        rw [heq, present]
        simpa using fun heq : l.token = token => htoken heq.symm
      next => rfl
  taken id' l' hl := by
    rw [Table.get?_erase] at hl
    split at hl
    next => cases hl
    next => exact h.taken id' l' hl

end

section

variable {T : Type} [Network N] {s : Server N T H} {t : Table Binding} {c : ListenerChange}

/-- What the network would say if the port of a change were to be bound. -/
def answer (s : Server N T H) (c : ListenerChange) : Option Address :=
  (Network.bind s.network s.nextToken s.config.bindHost c.config.port).1

/-- Changes as they are carried out in turn, those that are not valid left out, each with what the
network would say by then. -/
def tried : List ListenerChange → Server N T H → List (ListenerChange × Option Address)
  | [], _ => []
  | c :: cs, s =>
    (c, s.answer c) :: tried cs (if ListenerFeed.isValid c then (s.apply c).2 else s)

theorem tried_changes (cs : List ListenerChange) (s : Server N T H) :
    (tried cs s).map (·.1) = cs := by
  induction cs generalizing s with
  | nil => rfl
  | cons c cs ih => rw [tried, List.map_cons, ih]

/-- A change that is valid does what the rule says. -/
theorem Follows.apply (h : Follows s t) (valid : ListenerFeed.isValid c = true) :
    Follows (s.apply c).2 (c.rule (s.answer c) t) := by
  have stands := h.stands c.config.id
  have applied := apply_applied s c
  rw [answer]
  generalize s.apply c = r at applied ⊢
  obtain ⟨result, s'⟩ := r
  cases applied with
  | invalid kind refusal => simp [ListenerFeed.isValid, kind, refusal] at valid
  | bound kind absent answer =>
    rw [absent] at stands
    rw [ListenerChange.rule_of_absent valid stands.of_none kind, answer]
    exact h.bind absent _
  | unbound kind absent answer =>
    rw [absent] at stands
    rw [ListenerChange.rule_of_absent valid stands.of_none kind, answer]
    exact h.of_same rfl rfl (Nat.le_succ _)
  | updated kind present port id config =>
    rw [present] at stands
    obtain ⟨b, hb, same, _⟩ := stands.of_some
    rw [ListenerChange.rule_of_present valid hb kind,
      if_pos (port.trans (ListenerConfig.beq_iff.mp same).2.2.1)]
    exact h.replace present hb id config
  | unchanged kind present config =>
    rw [present] at stands
    obtain ⟨b, hb, same, _⟩ := stands.of_some
    have port := (ListenerConfig.beq_iff.mp config).2.2.1
    rw [ListenerChange.rule_of_present valid hb kind,
      if_pos (port.symm.trans (ListenerConfig.beq_iff.mp same).2.2.1)]
    exact h.restate present hb config
  | foreign kind present id => exact absurd (h.named _ _ present).symm id
  | refused kind present port =>
    rw [present] at stands
    obtain ⟨b, hb, same, _⟩ := stands.of_some
    rw [ListenerChange.rule_of_present valid hb kind,
      if_neg fun heq => port (heq.trans (ListenerConfig.beq_iff.mp same).2.2.1.symm)]
    exact h
  | missing kind absent =>
    rw [absent] at stands
    rw [ListenerChange.rule_of_missing stands.of_none kind]
    exact h
  | removed kind present =>
    rw [present] at stands
    obtain ⟨b, hb, _⟩ := stands.of_some
    rw [ListenerChange.rule_of_removal hb kind]
    exact h.drop present

/-- Changes that are carried out in turn do what the rule says of all of them. -/
theorem Follows.applyAll (h : Follows s t) (cs : List ListenerChange) :
    Follows (applyAll (cs.filter ListenerFeed.isValid) s).2 (folded (tried cs s) t) := by
  induction cs generalizing s t with
  | nil => exact h
  | cons c cs ih =>
    cases hv : ListenerFeed.isValid c with
    | false =>
      rw [List.filter_cons_of_neg (by simp [hv]), tried, hv, folded, List.foldl_cons,
        ListenerChange.rule_of_invalid hv]
      exact ih h
    | true =>
      rw [List.filter_cons_of_pos hv, tried, hv, if_pos rfl, folded, List.foldl_cons, applyAll_cons]
      exact ih (h.apply hv)

end

/-- What may happen to a server that is fed by hand: a change is sent, time passes, the network
changes in any way, and the server does a round. -/
inductive FeedEvent (N : Type) where
  | send (change : ListenerChange)
  | pass (microseconds : Nat)
  | disturb (network : N)
  | round

variable [Network N] [Handler H]

def feedStep (s : Server N ListenerFeed H) : FeedEvent N → Server N ListenerFeed H
  | .send c => { s with source := s.source.send c }
  | .pass n => s.elapse n
  | .disturb network => { s with network }
  | .round => s.iterate

def fed (events : List (FeedEvent N)) (s : Server N ListenerFeed H) : Server N ListenerFeed H :=
  events.foldl feedStep s

def sent (events : List (FeedEvent N)) : List ListenerChange :=
  events.filterMap fun
    | .send c => some c
    | _ => none

/-- The changes that are tried in an event: all that wait, once a round has served the clients. -/
def triedAt (s : Server N ListenerFeed H) : FeedEvent N → List (ListenerChange × Option Address)
  | .round => tried s.served.source.waiting { s.served with source := s.served.source.poll.2 }
  | _ => []

def triedIn : List (FeedEvent N) → Server N ListenerFeed H →
    List (ListenerChange × Option Address)
  | [], _ => []
  | e :: events, s => s.triedAt e ++ triedIn events (s.feedStep e)

omit [Handler H] in
theorem reconcile_feed (s : Server N ListenerFeed H) : s.reconcile =
    (applyAll (s.source.waiting.filter ListenerFeed.isValid)
      { s with source := s.source.poll.2 }).2 := by
  simp only [reconcile]
  split <;> rfl

variable {s : Server N ListenerFeed H} {t : Table Binding}

/-- Whatever happens, the listeners follow the rule. -/
theorem Follows.feedStep (h : Follows s t) (e : FeedEvent N) :
    Follows (s.feedStep e) (folded (s.triedAt e) t) := by
  cases e with
  | send c => exact h.of_same rfl rfl (Nat.le_refl _)
  | pass n => exact h.of_same rfl rfl (Nat.le_refl _)
  | disturb network => exact h.of_same rfl rfl (Nat.le_refl _)
  | round =>
    obtain ⟨_, listeners, _, tokenIds, nextToken⟩ := served_frame s
    rw [Server.feedStep, iterate_eq, reconcile_feed]
    have served : Follows { s.served with source := s.served.source.poll.2 } t :=
      h.of_same listeners tokenIds nextToken
    exact served.applyAll s.served.source.waiting

theorem Follows.fed (h : Follows s t) (events : List (FeedEvent N)) :
    Follows (fed events s) (folded (triedIn events s) t) := by
  induction events generalizing s t with
  | nil => exact h
  | cons e events ih =>
    rw [triedIn, folded_append]
    exact ih (h.feedStep e)

/-- What is sent waits until the next round, and is tried then. -/
theorem feedStep_sent (s : Server N ListenerFeed H) (e : FeedEvent N) :
    (s.triedAt e).map (·.1) ++ (s.feedStep e).source.waiting = s.source.waiting ++ sent [e] := by
  cases e with
  | send c => rfl
  | pass n => exact (List.append_nil _).symm
  | disturb network => exact (List.append_nil _).symm
  | round =>
    have source := (served_frame s).2.2.1
    rw [Server.feedStep, iterate_eq, reconcile_feed, triedAt, tried_changes, applyAll_source,
      source]
    rfl

theorem fed_sent (events : List (FeedEvent N)) (s : Server N ListenerFeed H) :
    (triedIn events s).map (·.1) ++ (fed events s).source.waiting =
      s.source.waiting ++ sent events := by
  induction events generalizing s with
  | nil => exact (List.append_nil _).symm
  | cons e events ih =>
    have split : sent (e :: events) = sent [e] ++ sent events :=
      List.filterMap_append (l := [e])
    calc (triedIn (e :: events) s).map (·.1) ++ (fed (e :: events) s).source.waiting
        = (s.triedAt e).map (·.1) ++ ((triedIn events (s.feedStep e)).map (·.1) ++
            (fed events (s.feedStep e)).source.waiting) := by
          rw [triedIn, List.map_append, List.append_assoc]
          rfl
      _ = (s.triedAt e).map (·.1) ++ (s.feedStep e).source.waiting ++ sent events := by
          rw [ih, List.append_assoc]
      _ = s.source.waiting ++ sent (e :: events) := by
          rw [feedStep_sent, split, List.append_assoc]

/-- The listeners of a server that is fed changes by hand, valid or not, are what the rule makes of
the changes one after the other, however these are spread over rounds, whatever can be bound by then
and whatever clients do. Its two indexes are inverse to each other, a change that fails leaves its
listeners as they are, and a listener stays where it is bound until a removal of its id is
tried. -/
theorem listeners_follow_the_rule (config : ServerConfig) (network : N)
    (registry : HandlerRegistry H) (events : List (FeedEvent N)) :
    let start : Server N ListenerFeed H := .new config network {} registry
    let s := fed events start
    (triedIn events start).map (·.1) ++ s.source.waiting = sent events ∧
    (∀ id, Stands (s.listeners.get? id) ((folded (triedIn events start) .empty).get? id)) ∧
    (∀ token id, s.tokenIds.lookup token = some id ↔
      ∃ l, s.listeners.get? id = some l ∧ l.token = token) ∧
    (∀ (s : Server N ListenerFeed H) c e, (s.apply c).1 = .error e →
      (s.apply c).2.listeners = s.listeners ∧ (s.apply c).2.tokenIds = s.tokenIds) ∧
    ∀ id address more, s.address? id = some address →
      (∀ x ∈ triedIn more s, x.1.kind = .remove → x.1.config.id ≠ id) →
      (fed more s).address? id = some address := by
  intro start s
  have fresh : Follows start .empty :=
    ⟨by rintro id l ⟨⟩, fun _ => trivial, fun token id => by simp [start, Server.new],
      by rintro id l ⟨⟩⟩
  have follows : Follows s (folded (triedIn events start) .empty) := fresh.fed events
  refine ⟨fed_sent events start, follows.stands, follows.inverse, fun s c e failed => ?_, ?_⟩
  · have applied := apply_applied s c
    rw [failed] at applied
    exact applied.failed
  · intro id address more haddress stays
    obtain ⟨l, hl, rfl⟩ := Option.map_eq_some_iff.mp haddress
    have stands := follows.stands id
    rw [hl] at stands
    obtain ⟨b, hb, _, stood⟩ := stands.of_some
    -- the table says where the listener is bound, before and after
    obtain ⟨b', hb', kept⟩ := folded_address hb stays
    have later := (follows.fed more).stands id
    rw [hb'] at later
    cases hl' : (fed more s).listeners.get? id with
    | none =>
      rw [hl'] at later
      exact later.elim
    | some l' =>
      rw [hl'] at later
      rw [address?, hl', Option.map_some, later.2, kept, stood]

end Server

end Switchboard
