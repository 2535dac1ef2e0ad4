import Switchboard.Server.Listeners

namespace Switchboard

namespace Server

variable {N T H : Type} [Network N]

/-- All that a change can do to a server, and what is reported of it. -/
inductive Applied (s : Server N T H) (c : ListenerChange) : Except Error Unit → Server N T H → Prop
  | invalid {e n} (kind : c.kind ≠ .remove) (refusal : c.config.validate = .error e)
      (taken : s.nextToken ≤ n) : Applied s c (.error (.config e)) { s with nextToken := n }
  | bound {address network} (kind : c.kind = .add)
      (absent : s.listeners.get? c.config.id = none)
      (answer : Network.bind s.network s.nextToken s.config.bindHost c.config.port =
        (some address, network)) :
      Applied s c (.ok ()) { s with
        network
        listeners := s.listeners.insert c.config.id ⟨c.config, s.nextToken, address⟩
        tokenIds := (s.nextToken, c.config.id) :: s.tokenIds.filter fun e => e.1 != s.nextToken
        nextToken := s.nextToken + 1 }
  | unbound {network} (kind : c.kind = .add) (absent : s.listeners.get? c.config.id = none)
      (answer : Network.bind s.network s.nextToken s.config.bindHost c.config.port =
        (none, network)) :
      Applied s c (.error .io) { s with network, nextToken := s.nextToken + 1 }
  | updated {l next} (kind : c.kind ≠ .remove) (present : s.listeners.get? c.config.id = some l)
      (port : c.config.port = l.config.port) (id : next.id = l.config.id)
      (config : (next == c.config) = true) :
      Applied s c (.ok ())
        { s with listeners := s.listeners.insert c.config.id { l with config := next } }
  | unchanged {l} (kind : c.kind ≠ .remove) (present : s.listeners.get? c.config.id = some l)
      (config : (l.config == c.config) = true) : Applied s c (.ok ()) s
  | foreign {l} (kind : c.kind ≠ .remove) (present : s.listeners.get? c.config.id = some l)
      (id : c.config.id ≠ l.config.id) :
      Applied s c (.error (.config (.foreignUpdate c.config.id l.config.id))) s
  | refused {l} (kind : c.kind ≠ .remove) (present : s.listeners.get? c.config.id = some l)
      (port : c.config.port ≠ l.config.port) :
      Applied s c (.error (.unchangeable l.config.id "port")) s
  | missing (kind : c.kind ≠ .add) (absent : s.listeners.get? c.config.id = none) :
      Applied s c (.error (.unknownListener c.config.id)) s
  | removed {l} (kind : c.kind = .remove) (present : s.listeners.get? c.config.id = some l) :
      Applied s c (.ok ()) { s with
        network := Network.release s.network l.token
        listeners := s.listeners.erase c.config.id
        tokenIds := s.tokenIds.filter fun e => e.1 != l.token }

variable {s : Server N T H} {c : ListenerChange}

theorem addListener_applied (kind : c.kind = .add)
    (absent : s.listeners.get? c.config.id = none) :
    Applied s c (s.addListener c.config).1 (s.addListener c.config).2 := by
  have hc : s.listeners.contains c.config.id = false := by simp [Table.contains, absent]
  cases hv : c.config.validate with
  | error e =>
    simp only [addListener, hv]
    exact .invalid (by simp [kind]) hv (Nat.le_succ _)
  | ok _ =>
    obtain ⟨answer, network, hbind⟩ : ∃ answer network, Network.bind s.network s.nextToken
      s.config.bindHost c.config.port = (answer, network) := ⟨_, _, rfl⟩
    cases answer with
    | none =>
      simp only [addListener, hv, hc, hbind, Bool.false_eq_true, if_false]
      exact .unbound kind absent hbind
    | some address =>
      simp only [addListener, hv, hc, hbind, Bool.false_eq_true, if_false]
      exact .bound kind absent hbind

theorem updateListener_applied (kind : c.kind ≠ .remove)
    (present : c.kind = .add → s.listeners.contains c.config.id = true) :
    Applied s c ((s.updateListener c.config).1.map fun _ => ()) (s.updateListener c.config).2 := by
  cases hv : c.config.validate with
  | error e =>
    simp only [updateListener, hv]
    exact .invalid kind hv (Nat.le_refl _)
  | ok _ =>
    cases hl : s.listeners.get? c.config.id with
    | none =>
      simp only [updateListener, hv, hl]
      exact .missing (fun h => by simpa [Table.contains, hl] using present h) hl
    | some l =>
      by_cases hid : c.config.id = l.config.id
      case neg =>
        have foreign : l.config.applyUpdate c.config =
            .error (.config (.foreignUpdate c.config.id l.config.id)) := by
          simp [ListenerConfig.applyUpdate, hid]
        simp only [updateListener, hv, hl, foreign]
        exact .foreign kind hl hid
      rcases ListenerConfig.applyUpdate_cases hid with ⟨hport, hrefused⟩ |
        ⟨hport, next, hid, hnext, hupdated, hnone⟩
      · simp only [updateListener, hv, hl, hrefused]
        exact .refused kind hl hport
      · by_cases hc : l.config.changes c.config = []
        · simp only [updateListener, hv, hl, hupdated, hc, List.isEmpty_nil, if_true]
          exact .unchanged kind hl (hnone hc)
        · simp only [updateListener, hv, hl, hupdated, List.isEmpty_iff, hc, if_false]
          exact .updated kind hl hport hid hnext

theorem apply_applied (s : Server N T H) (c : ListenerChange) :
    Applied s c (s.apply c).1 (s.apply c).2 := by
  cases hk : c.kind with
  | add =>
    cases hc : s.listeners.contains c.config.id with
    | true =>
      simp only [apply, hk, hc, if_true]
      exact updateListener_applied (by simp [hk]) fun _ => hc
    | false =>
      simp only [apply, hk, hc, Bool.false_eq_true, if_false]
      exact addListener_applied hk (by simpa [Table.contains] using hc)
  | update =>
    simp only [apply, hk]
    exact updateListener_applied (by simp [hk]) (by simp [hk])
  | remove =>
    cases hl : s.listeners.get? c.config.id with
    | none =>
      simp only [apply, hk, removeListener, hl]
      exact .missing (by simp [hk]) hl
    | some l =>
      simp only [apply, hk, removeListener, hl]
      exact .removed hk hl

/-- What a change leaves alone, whatever it does. -/
theorem Applied.frame {result : Except Error Unit} {s' : Server N T H}
    (h : Applied s c result s') :
    s'.config = s.config ∧ s'.source = s.source ∧ s.nextToken ≤ s'.nextToken ∧
      ∀ id, id ≠ c.config.id → s'.listeners.get? id = s.listeners.get? id := by
  cases h with
  | invalid _ _ taken => exact ⟨rfl, rfl, taken, fun _ _ => rfl⟩
  | bound =>
    exact ⟨rfl, rfl, Nat.le_succ _, fun id hid => (Table.get?_insert ..).trans (if_neg hid)⟩
  | unbound => exact ⟨rfl, rfl, Nat.le_succ _, fun _ _ => rfl⟩
  | updated =>
    exact ⟨rfl, rfl, Nat.le_refl _, fun id hid => (Table.get?_insert ..).trans (if_neg hid)⟩
  | unchanged => exact ⟨rfl, rfl, Nat.le_refl _, fun _ _ => rfl⟩
  | foreign => exact ⟨rfl, rfl, Nat.le_refl _, fun _ _ => rfl⟩
  | refused => exact ⟨rfl, rfl, Nat.le_refl _, fun _ _ => rfl⟩
  | missing => exact ⟨rfl, rfl, Nat.le_refl _, fun _ _ => rfl⟩
  | removed =>
    exact ⟨rfl, rfl, Nat.le_refl _, fun id hid => (Table.get?_erase ..).trans (if_neg hid)⟩

/-- A change that fails leaves the listeners as they were. -/
theorem Applied.failed {e : Error} {s' : Server N T H} (h : Applied s c (.error e) s') :
    s'.listeners = s.listeners ∧ s'.tokenIds = s.tokenIds := by
  cases h <;> exact ⟨rfl, rfl⟩

/-- Whether a change fails and is handed back. -/
def handsBack (s : Server N T H) (c : ListenerChange) : Bool :=
  match (s.apply c).1 with
  | .ok () => false
  | .error e => isHandedBack c.kind e

theorem applyAll_cons (c : ListenerChange) (cs : List ListenerChange) (s : Server N T H) :
    applyAll (c :: cs) s =
      ((if s.handsBack c then [c] else []) ++ (applyAll cs (s.apply c).2).1,
        (applyAll cs (s.apply c).2).2) := by
  obtain ⟨result, t, h⟩ : ∃ result t, s.apply c = (result, t) := ⟨_, _, rfl⟩
  rw [applyAll, handsBack, h]
  cases result with
  | ok => rfl
  | error e => cases hb : isHandedBack c.kind e <;> simp [hb]

theorem applyAll_source (cs : List ListenerChange) (s : Server N T H) :
    (applyAll cs s).2.source = s.source := by
  induction cs generalizing s with
  | nil => rfl
  | cons c cs ih =>
    rw [applyAll_cons]
    exact (ih (s.apply c).2).trans (apply_applied s c).frame.2.1

end Server

end Switchboard
