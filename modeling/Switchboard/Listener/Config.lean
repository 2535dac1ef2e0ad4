import Switchboard.Codec.Config
import Switchboard.Inspector.Config
import Switchboard.Text.Blank

namespace Switchboard

instance instEquivBEqList {α : Type} [BEq α] [EquivBEq α] : EquivBEq (List α) where
  symm {xs ys} h := by
    induction xs generalizing ys with
    | nil => cases ys with
      | nil => rfl
      | cons y ys => cases h
    | cons x xs ih => cases ys with
      | nil => cases h
      | cons y ys =>
        rw [List.cons_beq_cons, Bool.and_eq_true] at h ⊢
        exact ⟨BEq.symm h.1, ih h.2⟩
  trans {xs ys zs} h h' := by
    induction xs generalizing ys zs with
    | nil => cases ys with
      | nil => exact h'
      | cons y ys => cases h
    | cons x xs ih => cases ys with
      | nil => cases h
      | cons y ys => cases zs with
        | nil => cases h'
        | cons z zs =>
          rw [List.cons_beq_cons, Bool.and_eq_true] at h h' ⊢
          exact ⟨BEq.trans h.1 h'.1, ih h.2 h'.2⟩

/-- A handler by the kind it is registered under, with settings only it understands. -/
structure HandlerConfig where
  kind : String
  config : Json := .null
  deriving Repr

namespace HandlerConfig

instance : BEq HandlerConfig := ⟨fun a b => a.kind == b.kind && a.config == b.config⟩

instance : ReflBEq HandlerConfig where
  rfl {a} := by
    show (a.kind == a.kind && a.config == a.config) = true
    simp

instance : EquivBEq HandlerConfig where
  symm {a b} h := by
    obtain ⟨hk, hc⟩ := Bool.and_eq_true_iff.1 h
    exact Bool.and_eq_true_iff.2 ⟨BEq.symm hk, BEq.symm hc⟩
  trans {a b c} h h' := by
    obtain ⟨hk, hc⟩ := Bool.and_eq_true_iff.1 h
    obtain ⟨hk', hc'⟩ := Bool.and_eq_true_iff.1 h'
    exact Bool.and_eq_true_iff.2 ⟨BEq.trans hk hk', BEq.trans hc hc'⟩

def toJson (h : HandlerConfig) : Json := .ofFields [("config", h.config), ("type", .str h.kind)]

def read? : (room : Nat) → Document → Option HandlerConfig
  | 0, _ => none
  | room + 1, d => do
    match ← d.slots? ["type", "config"] with
    | [some kind, config] =>
      return ⟨← kind.text?, ← Document.orElse? config (Document.toJson? room) .null⟩
    | _ => none

end HandlerConfig

/-- The desired state of a listener. -/
structure ListenerConfig where
  id : String
  /-- For display only. -/
  name : String
  /-- Zero leaves the choice open; fixed once bound. -/
  port : UInt16
  codec : CodecConfig := .standard
  inspector : InspectorConfig := .passThrough
  /-- In the order in which they see packets. -/
  handlers : List HandlerConfig := []
  deriving Repr

namespace ListenerConfig

instance : BEq ListenerConfig := ⟨fun a b =>
  a.id == b.id && a.name == b.name && a.port == b.port && a.codec == b.codec &&
    a.inspector == b.inspector && a.handlers == b.handlers⟩

instance : ReflBEq ListenerConfig where
  rfl {a} := by
    show (a.id == a.id && a.name == a.name && a.port == a.port && a.codec == a.codec &&
      a.inspector == a.inspector && a.handlers == a.handlers) = true
    simp

theorem beq_iff {a b : ListenerConfig} : (a == b) = true ↔ a.id = b.id ∧ a.name = b.name ∧
    a.port = b.port ∧ a.codec = b.codec ∧ a.inspector = b.inspector ∧
    (a.handlers == b.handlers) = true := by
  change (a.id == b.id && a.name == b.name && a.port == b.port && a.codec == b.codec &&
    a.inspector == b.inspector && a.handlers == b.handlers) = true ↔ _
  simp only [Bool.and_eq_true, beq_iff_eq, and_assoc]

instance : EquivBEq ListenerConfig where
  symm h := by
    obtain ⟨hid, hname, hport, hcodec, hinspector, hhandlers⟩ := beq_iff.1 h
    exact beq_iff.2 ⟨hid.symm, hname.symm, hport.symm, hcodec.symm, hinspector.symm,
      BEq.symm hhandlers⟩
  trans h h' := by
    obtain ⟨hid, hname, hport, hcodec, hinspector, hhandlers⟩ := beq_iff.1 h
    obtain ⟨hid', hname', hport', hcodec', hinspector', hhandlers'⟩ := beq_iff.1 h'
    exact beq_iff.2 ⟨hid.trans hid', hname.trans hname', hport.trans hport', hcodec.trans hcodec',
      hinspector.trans hinspector', BEq.trans hhandlers hhandlers'⟩

/-- A listener for lines that inspects nothing and has no handlers, named by its id. -/
def new (id : String) (port : UInt16) : ListenerConfig := { id, name := id, port }

def withHandler (c : ListenerConfig) (kind : String) (config : Json) : ListenerConfig :=
  { c with handlers := c.handlers ++ [⟨kind, config⟩] }

/-- Refuses descriptions no listener can be made from. -/
def validate (c : ListenerConfig) : Except ConfigError Unit :=
  if (Text.trim c.id).isEmpty then .error .emptyListenerId
  else match c.handlers.find? fun h => h.kind.isEmpty with
    | some h => .error (.emptyHandlerKind c.id h.config)
    | none => c.codec.validate.mapError (.inListener c.id)

/-- The properties in which `update` differs, of those that may change. -/
def changes (live update : ListenerConfig) : List String :=
  (if update.name != live.name then ["name"] else []) ++
  (if update.codec != live.codec then ["codec"] else []) ++
  (if update.inspector != live.inspector then ["inspector"] else []) ++
  (if update.handlers != live.handlers then ["handlers"] else [])

/-- The live description with the properties of `update` and the names of those that changed; an
update with another id or port is refused. -/
def applyUpdate (live update : ListenerConfig) : Except Error (List String × ListenerConfig) :=
  if update.id != live.id then .error (.config (.foreignUpdate update.id live.id))
  else if update.port != live.port then .error (.unchangeable live.id "port")
  else .ok (live.changes update,
    { live with
      name := update.name
      codec := update.codec
      inspector := update.inspector
      handlers := if update.handlers != live.handlers then update.handlers else live.handlers })

/-- An update that names no change describes what is there already. -/
theorem changes_eq_nil_iff {live update : ListenerConfig} :
    live.changes update = [] ↔ update.name = live.name ∧ update.codec = live.codec ∧
      update.inspector = live.inspector ∧ (update.handlers == live.handlers) = true := by
  have part (b : Bool) (name : String) : (if (!b) = true then [name] else []) = [] ↔ b = true := by
    cases b <;> simp
  simp only [changes, List.append_eq_nil_iff, bne, part, beq_iff_eq, and_assoc]

/-- An update of a listener is refused for its port alone, and else makes it what it says. -/
theorem applyUpdate_cases {live update : ListenerConfig} (hid : update.id = live.id) :
    (update.port ≠ live.port ∧ live.applyUpdate update = .error (.unchangeable live.id "port")) ∨
    (update.port = live.port ∧ ∃ next, next.id = live.id ∧ (next == update) = true ∧
      live.applyUpdate update = .ok (live.changes update, next) ∧
      (live.changes update = [] → (live == update) = true)) := by
  by_cases hport : update.port = live.port
  · refine .inr ⟨hport, { live with
      name := update.name
      codec := update.codec
      inspector := update.inspector
      handlers := if update.handlers != live.handlers then update.handlers else live.handlers },
      rfl, ?_, by simp [applyUpdate, hid, hport], ?_⟩
    · refine beq_iff.2 ⟨hid.symm, rfl, hport.symm, rfl, rfl, ?_⟩
      cases h : update.handlers == live.handlers with
      | true => simpa [bne, h] using BEq.symm h
      | false => simp [bne, h]
    · intro hnone
      obtain ⟨hname, hcodec, hinspector, hhandlers⟩ := changes_eq_nil_iff.1 hnone
      exact beq_iff.2 ⟨hid.symm, hname.symm, hport.symm, hcodec.symm, hinspector.symm,
        BEq.symm hhandlers⟩
  · exact .inl ⟨hport, by simp [applyUpdate, hid, hport]⟩

def toJson (c : ListenerConfig) : Json := .ofFields
  [("codec", c.codec.toJson), ("handlers", .arr (c.handlers.map HandlerConfig.toJson)),
   ("id", .str c.id), ("inspector", c.inspector.toJson), ("name", .str c.name),
   ("port", .ofNat c.port.toNat)]

def readHandlers? : (room : Nat) → Document → Option (List HandlerConfig)
  | room + 1, .arr items => items.mapM (HandlerConfig.read? room)
  | _, _ => none

def read? : (room : Nat) → Document → Option ListenerConfig
  | 0, _ => none
  | room + 1, d => do
    match ← d.slots? ["id", "name", "port", "codec", "inspector", "handlers"] with
    | [some id, name, some port, codec, inspector, handlers] =>
      return {
        id := ← id.text?
        name := ← Document.orElse? name Document.text? ""
        port := ← port.uint16?
        codec := ← Document.orElse? codec (CodecConfig.read? false room) .standard
        inspector := ← Document.orElse? inspector (InspectorConfig.read? room) .passThrough
        handlers := ← Document.orElse? handlers (readHandlers? room) [] }
    | _ => none

def ofJson? (j : Json) : Option ListenerConfig := read? j.depth (.ofJson j)

def ofText? (s : String) : Option ListenerConfig :=
  (Document.ofText? s).bind (read? Document.nestingLimit)

/-- The descriptions in a JSON array. -/
def listOfText? (s : String) : Option (List ListenerConfig) := do
  match ← Document.ofText? s with
  | .arr items => items.mapM (read? (Document.nestingLimit - 1))
  | _ => none

end ListenerConfig

end Switchboard
