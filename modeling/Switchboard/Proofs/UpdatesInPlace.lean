import Mathlib.Data.List.Induction
import Switchboard.Server.Listeners

namespace Switchboard

namespace ListenerConfig

variable {live update : ListenerConfig}

/-- Work on a live description that may fail. What it has changed by then stays changed. -/
abbrev InPlace := EStateM Error ListenerConfig

/-- Takes a property over from an update that differs in it, and gives its name. -/
def takeOver {α : Type} [BEq α] (name : String) (property : ListenerConfig → α)
    (put : ListenerConfig → α → ListenerConfig) (update : ListenerConfig) :
    InPlace (List String) := do
  if property update != property (← get) then
    modify (put · (property update))
    return [name]
  else return []

/-- `applyUpdate` as it goes through the properties of a live description. -/
def updateInPlace (update : ListenerConfig) : InPlace (List String) := do
  if update.id != (← get).id then
    throw (.config (.foreignUpdate update.id (← get).id))
  if update.port != (← get).port then
    throw (.unchangeable (← get).id "port")
  let name ← takeOver "name" (·.name) (fun c name => { c with name }) update
  let codec ← takeOver "codec" (·.codec) (fun c codec => { c with codec }) update
  let inspector ←
    takeOver "inspector" (·.inspector) (fun c inspector => { c with inspector }) update
  let handlers ← takeOver "handlers" (·.handlers) (fun c handlers => { c with handlers }) update
  return name ++ codec ++ inspector ++ handlers

/-- The answer to an update, and the live description behind it. -/
def receive (live update : ListenerConfig) : Except Error (List String) × ListenerConfig :=
  match (updateInPlace update).run live with
  | .ok names next => (.ok names, next)
  | .error e next => (.error e, next)

section

variable {α : Type} [BEq α] (name : String) (property : ListenerConfig → α)
  (put : ListenerConfig → α → ListenerConfig)

theorem run_takeOver (live update : ListenerConfig) :
    (takeOver name property put update).run live =
      .ok (if property update != property live then [name] else [])
        (if property update != property live then put live (property update) else live) := by
  cases h : property update != property live with
  | false => simp [takeOver, h]
  | true => simp [takeOver, h, -bind_pure_comp]

/-- Where equal values are the same, it does not matter whether one is taken over. -/
theorem run_takeOver_of_lawful [LawfulBEq α] (put_own : ∀ c, put c (property c) = c)
    (live update : ListenerConfig) :
    (takeOver name property put update).run live =
      .ok (if property update != property live then [name] else [])
        (put live (property update)) := by
  rw [run_takeOver]
  by_cases h : property update = property live
  · simp [h, put_own]
  · simp [h]

end

/-- Refused, an update has changed nothing yet; else it has made of the live description what
`applyUpdate` says. -/
theorem receive_eq (live update : ListenerConfig) :
    live.receive update = match live.applyUpdate update with
      | .ok (names, next) => (.ok names, next)
      | .error e => (.error e, live) := by
  by_cases hid : update.id = live.id
  case neg => simp [receive, updateInPlace, applyUpdate, hid]
  by_cases hport : update.port = live.port
  case neg => simp [receive, updateInPlace, applyUpdate, hid, hport]
  -- equal handlers need not be the same, so that it matters whether they are taken over
  cases hhandlers : update.handlers != live.handlers <;>
    simp [receive, updateInPlace, applyUpdate, changes, run_takeOver_of_lawful, run_takeOver, hid,
      hport, hhandlers, -bind_pure_comp]

theorem applyUpdate_eq (live update : ListenerConfig) :
    live.applyUpdate update =
      (live.receive update).1.map fun names => (names, (live.receive update).2) := by
  rw [receive_eq]
  cases live.applyUpdate update <;> rfl

/-- The properties that are taken over from an update are those in which it differs. -/
theorem mem_changes_iff {property : String} :
    property ∈ live.changes update ↔
      property = "name" ∧ update.name ≠ live.name ∨
      property = "codec" ∧ update.codec ≠ live.codec ∨
      property = "inspector" ∧ update.inspector ≠ live.inspector ∨
      property = "handlers" ∧ (update.handlers != live.handlers) = true := by
  have part (differs : Bool) (name : String) :
      property ∈ (if differs = true then [name] else []) ↔ property = name ∧ differs = true := by
    cases differs <;> simp
  simp only [changes, List.mem_append, part]
  simp only [bne_iff_ne, or_assoc]

theorem changes_sublist (live update : ListenerConfig) :
    (live.changes update).Sublist ["name", "codec", "inspector", "handlers"] := by
  have part (differs : Bool) (name : String) :
      (if differs = true then [name] else []).Sublist [name] := by
    cases differs <;> simp
  exact (((part _ _).append (part _ _)).append (part _ _)).append (part _ _)

/-- An update may be carried out on a listener that has its id and its port. -/
def Suits (live update : ListenerConfig) : Prop := update.id = live.id ∧ update.port = live.port

/-- What an update makes of a live description. Handlers that are equal stay as they are. -/
def updated (live update : ListenerConfig) : ListenerConfig :=
  { update with
    handlers := if update.handlers != live.handlers then update.handlers else live.handlers }

theorem receive_of_suits (h : live.Suits update) :
    live.receive update = (.ok (live.changes update), live.updated update) := by
  obtain ⟨hid, hport⟩ := h
  simp [receive_eq, applyUpdate, updated, hid, hport]

/-- Why an update is refused that may not be carried out: for its id, and else for its port. -/
def refusal (live update : ListenerConfig) : Error :=
  if update.id = live.id then .unchangeable live.id "port"
  else .config (.foreignUpdate update.id live.id)

theorem receive_of_not_suits (h : ¬ live.Suits update) :
    live.receive update = (.error (live.refusal update), live) := by
  by_cases hid : update.id = live.id
  · have hport : update.port ≠ live.port := fun hport => h ⟨hid, hport⟩
    simp [receive_eq, applyUpdate, refusal, hid, hport]
  · simp [receive_eq, applyUpdate, refusal, hid]

theorem updated_beq (live update : ListenerConfig) : (live.updated update == update) = true := by
  refine beq_iff.mpr ⟨rfl, rfl, rfl, rfl, rfl, ?_⟩
  simp only [updated]
  split
  next => exact BEq.rfl
  next same => exact BEq.symm (by simpa [bne] using same)

theorem updated_eq_self (h : live.Suits update) (none_changed : live.changes update = []) :
    live.updated update = live := by
  obtain ⟨hname, hcodec, hinspector, hhandlers⟩ := changes_eq_nil_iff.mp none_changed
  obtain ⟨hid, hport⟩ := h
  cases live
  simp_all [updated, bne]

/-- A setting of zero is not taken over for one of minus zero, which is the same number. -/
example :
    let zero : HandlerConfig := ⟨"scale", .num (.double .zero)⟩
    let minusZero : HandlerConfig := ⟨"scale", .num (.double Binary64.zero.neg)⟩
    updated { new "a" 7000 with handlers := [minusZero] }
      { new "a" 7000 with handlers := [zero] } =
      { new "a" 7000 with handlers := [minusZero] } := rfl

/-- The live description behind updates. -/
def receiveAll (live : ListenerConfig) (updates : List ListenerConfig) : ListenerConfig :=
  updates.foldl (fun live update => (live.receive update).2) live

theorem receiveAll_concat (live : ListenerConfig) (updates : List ListenerConfig)
    (update : ListenerConfig) :
    live.receiveAll (updates ++ [update]) = ((live.receiveAll updates).receive update).2 := by
  simp [receiveAll]

theorem receive_place (live update : ListenerConfig) :
    (live.receive update).2.id = live.id ∧ (live.receive update).2.port = live.port := by
  by_cases h : live.Suits update
  · rw [receive_of_suits h]
    exact h
  · rw [receive_of_not_suits h]
    exact ⟨rfl, rfl⟩

theorem receiveAll_place (live : ListenerConfig) (updates : List ListenerConfig) :
    (live.receiveAll updates).id = live.id ∧ (live.receiveAll updates).port = live.port := by
  induction updates generalizing live with
  | nil => exact ⟨rfl, rfl⟩
  | cons update updates ih =>
    obtain ⟨hid, hport⟩ := receive_place live update
    obtain ⟨hid', hport'⟩ := ih (live.receive update).2
    exact ⟨hid'.trans hid, hport'.trans hport⟩

/-- The updates that may be carried out stay the same. -/
theorem receiveAll_suits_iff (live : ListenerConfig) (updates : List ListenerConfig) :
    (live.receiveAll updates).Suits update ↔ live.Suits update := by
  obtain ⟨hid, hport⟩ := receiveAll_place live updates
  rw [Suits, Suits, hid, hport]

/-- Of the updates that may be carried out the last one lives. -/
theorem receiveAll_last (original : ListenerConfig) (updates : List ListenerConfig) :
    (original.receiveAll updates = original ∧ ∀ u ∈ updates, ¬ original.Suits u) ∨
    ∃ before last after, updates = before ++ last :: after ∧ original.Suits last ∧
      (∀ u ∈ after, ¬ original.Suits u) ∧ (original.receiveAll updates == last) = true := by
  induction updates using List.reverseRecOn with
  | nil => exact .inl ⟨rfl, fun _ h => absurd h List.not_mem_nil⟩
  | append_singleton updates update ih =>
    rw [receiveAll_concat]
    by_cases h : original.Suits update
    · refine .inr ⟨updates, update, [], rfl, h, fun _ h => absurd h List.not_mem_nil, ?_⟩
      rw [receive_of_suits ((receiveAll_suits_iff original updates).mpr h)]
      exact updated_beq _ _
    · rw [receive_of_not_suits (mt (receiveAll_suits_iff original updates).mp h)]
      rcases ih with ⟨same, others⟩ | ⟨before, last, after, rfl, suits, others, lives⟩
      · refine .inl ⟨same, List.forall_mem_append.mpr ⟨others, ?_⟩⟩
        exact List.forall_mem_singleton.mpr h
      · refine .inr ⟨before, last, after ++ [update], by simp, suits, ?_, lives⟩
        exact List.forall_mem_append.mpr ⟨others, List.forall_mem_singleton.mpr h⟩

/-- An update that was carried out has nothing left to change. -/
theorem receive_again (live update : ListenerConfig) :
    (live.updated update).receive update = (.ok [], live.updated update) := by
  have suits : (live.updated update).Suits update := ⟨rfl, rfl⟩
  have same : (live.updated update).changes update = [] := by
    obtain ⟨_, hname, _, hcodec, hinspector, hhandlers⟩ := beq_iff.mp (updated_beq live update)
    exact changes_eq_nil_iff.mpr
      ⟨hname.symm, hcodec.symm, hinspector.symm, BEq.symm hhandlers⟩
  rw [receive_of_suits suits, same, updated_eq_self suits same]

/-- Whatever updates a live description was given, its id and its port are the first ones, and it
equals the last update with these, or is as it was. The next update is carried out if it has that
id and that port, and else changes nothing. If it is carried out, the live description then equals
it, the answer names in their order the properties that differed, and the same update once more
changes nothing. What is carried out property by property is what `applyUpdate` gives at once. -/
theorem updated_as_a_whole_or_not_at_all (original : ListenerConfig)
    (updates : List ListenerConfig) :
    let live := original.receiveAll updates
    live.id = original.id ∧ live.port = original.port ∧
    (live = original ∧ (∀ u ∈ updates, ¬ original.Suits u) ∨
      ∃ before last after, updates = before ++ last :: after ∧ original.Suits last ∧
        (∀ u ∈ after, ¬ original.Suits u) ∧ (live == last) = true) ∧
    ∀ update answer next, live.receive update = (answer, next) →
      live.applyUpdate update = answer.map (fun names => (names, next)) ∧
      ((∃ names, answer = .ok names) ↔ update.id = live.id ∧ update.port = live.port) ∧
      (∀ e, answer = .error e → next = live ∧ e = live.refusal update) ∧
      ∀ names, answer = .ok names →
        (next == update) = true ∧
        names.Sublist ["name", "codec", "inspector", "handlers"] ∧
        (∀ property, property ∈ names ↔
          property = "name" ∧ update.name ≠ live.name ∨
          property = "codec" ∧ update.codec ≠ live.codec ∨
          property = "inspector" ∧ update.inspector ≠ live.inspector ∨
          property = "handlers" ∧ (update.handlers != live.handlers) = true) ∧
        next.receive update = (.ok [], next) := by
  intro live
  obtain ⟨hid, hport⟩ := receiveAll_place original updates
  refine ⟨hid, hport, receiveAll_last original updates, ?_⟩
  intro update answer next given
  have at_once := applyUpdate_eq live update
  rw [given] at at_once
  refine ⟨at_once, ?_⟩
  by_cases suits : live.Suits update
  · obtain ⟨rfl, rfl⟩ := Prod.mk.inj ((receive_of_suits suits).symm.trans given)
    refine ⟨⟨fun _ => suits, fun _ => ⟨_, rfl⟩⟩, fun _ he => (nomatch he), ?_⟩
    intro names hnames
    obtain rfl := Except.ok.inj hnames
    exact ⟨updated_beq live update, changes_sublist live update, fun _ => mem_changes_iff,
      receive_again live update⟩
  · obtain ⟨rfl, rfl⟩ := Prod.mk.inj ((receive_of_not_suits suits).symm.trans given)
    refine ⟨⟨?_, fun h => absurd h suits⟩, ?_, fun _ hnames => (nomatch hnames)⟩
    · rintro ⟨names, hnames⟩
      exact nomatch hnames
    · intro e he
      exact ⟨rfl, (Except.error.inj he).symm⟩

/-- An update that renames the listener and moves it is refused as a whole, and the next one is
compared with what was there before. -/
theorem updated_as_a_whole_or_not_at_all_of_moved :
    let renamed : ListenerConfig := { ListenerConfig.new "a" 7000 with name := "b" }
    let moved : ListenerConfig := { ListenerConfig.new "a" 7001 with name := "c" }
    let timed : ListenerConfig := { ListenerConfig.new "a" 7000 with inspector := .idleTimeout 5 }
    (ListenerConfig.new "a" 7000).receiveAll [renamed, moved] = renamed ∧
      renamed.receive moved = (.error (.unchangeable "a" "port"), renamed) ∧
      renamed.receive timed = (.ok ["name", "inspector"], timed) ∧
      timed.receive timed = (.ok [], timed) := by
  intro renamed moved timed
  obtain ⟨_, _, _, behind⟩ := updated_as_a_whole_or_not_at_all (.new "a" 7000) [renamed, moved]
  have first : (ListenerConfig.new "a" 7000).receive renamed = (.ok ["name"], renamed) :=
    (receive_of_suits (⟨rfl, rfl⟩ : Suits (.new "a" 7000) renamed)).trans rfl
  have second : renamed.receive moved = (.error (.unchangeable "a" "port"), renamed) :=
    (receive_of_not_suits fun h => absurd h.2 (by decide)).trans rfl
  have third : renamed.receive timed = (.ok ["name", "inspector"], timed) :=
    (receive_of_suits (⟨rfl, rfl⟩ : renamed.Suits timed)).trans rfl
  have live : (ListenerConfig.new "a" 7000).receiveAll [renamed, moved] = renamed := by
    simp only [receiveAll, List.foldl_cons, List.foldl_nil, first, second]
  rw [live] at behind
  obtain ⟨_, _, _, carried_out⟩ := behind timed _ _ third
  obtain ⟨_, _, _, again⟩ := carried_out _ rfl
  exact ⟨live, second, third, again⟩

end ListenerConfig

namespace Server

variable {N T H : Type}

/-- An update given to a server is answered by the live description of its listener, and reaches
no other one. -/
theorem updateListener_receives {s : Server N T H} {config live : ListenerConfig}
    (valid : config.validate = .ok ()) (bound : s.definition? config.id = some live) :
    (s.updateListener config).1 = (live.receive config).1 ∧
      ∀ id, (s.updateListener config).2.definition? id =
        if id = config.id then some (live.receive config).2 else s.definition? id := by
  obtain ⟨l, hl, rfl⟩ := Option.map_eq_some_iff.mp bound
  have same (id : String) :
      s.definition? id = if id = config.id then some l.config else s.definition? id := by
    split
    next h => rw [h, bound]
    next => rfl
  have at_once := ListenerConfig.applyUpdate_eq l.config config
  by_cases suits : l.config.Suits config
  case neg =>
    rw [ListenerConfig.receive_of_not_suits suits] at at_once ⊢
    simp only [updateListener, valid, hl, at_once, Except.map]
    exact ⟨trivial, same⟩
  rw [ListenerConfig.receive_of_suits suits] at at_once ⊢
  simp only [updateListener, valid, hl, at_once, Except.map, List.isEmpty_iff, true_and]
  intro id
  split
  next nothing =>
    rw [ListenerConfig.updated_eq_self suits nothing]
    exact same id
  next =>
    simp only [definition?, Table.get?_insert]
    split <;> rfl

theorem definition?_updateListener (s : Server N T H) (update : ListenerConfig) (id : String) :
    (s.updateListener update).2.definition? id = (s.definition? id).map fun live =>
      if update.id = id ∧ update.validate.isOk then (live.receive update).2 else live := by
  cases valid : update.validate with
  | error e => simp [updateListener, valid, Except.isOk, Except.toBool]
  | ok =>
    cases bound : s.definition? update.id with
    | none =>
      have absent : s.listeners.get? update.id = none := Option.map_eq_none_iff.mp bound
      simp only [updateListener, valid, absent]
      by_cases hid : update.id = id
      · rw [← hid, bound]
        rfl
      · simp [hid]
    | some live =>
      rw [(updateListener_receives valid bound).2 id]
      by_cases hid : update.id = id
      · simp [← hid, bound, Except.isOk, Except.toBool]
      · simp [hid, Ne.symm hid]

/-- Each listener of a server lives through those updates that are valid and have its id. -/
theorem definition?_foldl_updateListener (s : Server N T H) (updates : List ListenerConfig)
    (id : String) :
    (updates.foldl (fun s update => (s.updateListener update).2) s).definition? id =
      (s.definition? id).map fun live =>
        live.receiveAll (updates.filter fun u => u.id = id ∧ u.validate.isOk) := by
  induction updates generalizing s with
  | nil => simp [ListenerConfig.receiveAll]
  | cons update updates ih =>
    rw [List.foldl_cons, ih, definition?_updateListener, Option.map_map]
    congr 1
    funext live
    by_cases reached : update.id = id ∧ update.validate.isOk
    · simp [reached, ListenerConfig.receiveAll]
    · simp [reached]

end Server

end Switchboard
