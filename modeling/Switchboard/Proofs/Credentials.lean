import Switchboard.Inspector.Config
import Switchboard.Proofs.AnyChunks
import Switchboard.Proofs.Lifetime
import Switchboard.Proofs.WholeTexts

namespace Switchboard

/-- A payload that is a text: as it is, as the octets it is written with, or as a string. -/
inductive Payload.HasText : Payload → String → Prop
  | text (t : String) : HasText (.text t) t
  | raw (t : String) : HasText (.raw (Utf8.encode t)) t
  | string (t : String) : HasText (.value (.str t)) t

namespace TokenGate

/-- The payload reads `user:secret` apart from blanks around it, with the first colon behind the
name of a user. -/
def Credentials (secret user : String) (payload : Payload) : Prop :=
  ∃ t, payload.HasText t ∧ Text.trim t = user ++ ":" ++ secret ∧ user ≠ "" ∧ ':' ∉ user.toList

/-- A gate that nobody has come to yet. -/
def shut (secret : String) (peer : Peer) (limit : Option Nat) (now : Time) : BuiltInspector :=
  .tokenAuth { idle := ⟨peer.text, limit, now⟩, peer, secret }

variable {secret user : String} {payload : Payload}

theorem credentials_eq_some {trimmed : String} :
    credentials payload = some trimmed ↔ ∃ t, payload.HasText t ∧ Text.trim t = trimmed := by
  constructor
  · intro h
    cases payload with
    | text t => exact ⟨t, .text t, by simpa [credentials] using h⟩
    | raw bytes =>
      obtain ⟨t, ht, trimmed⟩ := Option.map_eq_some_iff.mp h
      rw [Utf8.decode?_eq_some] at ht
      exact ⟨t, ht ▸ .raw t, trimmed⟩
    | value v =>
      cases v with
      | str t => exact ⟨t, .string t, by simpa [credentials] using h⟩
      | _ => cases h
  · rintro ⟨t, ht, rfl⟩
    cases ht with
    | text => rfl
    | raw => rw [credentials, Utf8.decode?_eq_some.mpr rfl]; rfl
    | string => rfl

theorem splitAtColon_eq_some {cs before behind : List Char} :
    splitAtColon cs = some (before, behind) ↔ cs = before ++ ':' :: behind ∧ ':' ∉ before := by
  rw [splitAtColon, List.span_eq_takeWhile_dropWhile]
  constructor
  · intro h
    have whole : cs.takeWhile (· != ':') ++ cs.dropWhile (· != ':') = cs :=
      List.takeWhile_append_dropWhile
    have free : ':' ∉ cs.takeWhile (· != ':') := fun hmem => by
      simpa using List.mem_takeWhile_imp hmem
    cases hrest : cs.dropWhile (· != ':') with
    | nil =>
      rw [hrest] at h
      cases h
    | cons c rest =>
      have colon := List.head?_dropWhile_not (· != ':') cs
      simp only [hrest, List.head?_cons, bne_eq_false_iff_eq] at colon
      rw [hrest, colon] at whole
      rw [hrest] at h
      cases h
      exact ⟨whole.symm, free⟩
  · rintro ⟨rfl, free⟩
    have passed : ∀ c ∈ before, (c != ':') = true := fun c hc => by
      simpa using fun h : c = ':' => free (h ▸ hc)
    rw [List.takeWhile_append_of_pos passed, List.dropWhile_append_of_pos passed]
    simp

/-- A gate lets in whoever shows credentials with its secret. -/
theorem user?_eq_some : user? secret payload = some user ↔ Credentials secret user payload := by
  constructor
  · intro h
    simp only [user?] at h
    split at h
    next before behind hsplit =>
      split at h
      next hname =>
        cases h
        obtain ⟨hcs, hcolon⟩ := splitAtColon_eq_some.mp hsplit
        cases htext : credentials payload with
        | none => simp [htext] at hcs
        | some trimmed =>
          obtain ⟨t, ht, rfl⟩ := credentials_eq_some.mp htext
          refine ⟨t, ht, String.toList_injective ?_, by simpa using hname.1, by simpa using hcolon⟩
          rw [htext, Option.getD_some] at hcs
          simp [hcs, ← hname.2]
      next => cases h
    next => cases h
  · rintro ⟨t, ht, htrim, hname, hcolon⟩
    have split : splitAtColon (Text.trim t).toList = some (user.toList, secret.toList) :=
      splitAtColon_eq_some.mpr ⟨by simp [htrim], hcolon⟩
    rw [user?, credentials_eq_some.mpr ⟨t, ht, rfl⟩, Option.getD_some, split]
    simp [hname]

end TokenGate

/-- What is seen of a packet: by the inspector, or by a handler on a connection of that id. -/
inductive Sight where
  | inspected (p : Packet)
  | shown (connectionId : String) (p : Packet)

/-- A packet that passes the inspector and is shown to `n` handlers as one from `name`. -/
def Sight.passing (name : String) (n : Nat) (p : Packet) : List Sight :=
  .inspected p :: List.replicate n (.shown name ⟨name, p.payload⟩)

def Call.sight? {H : Type} : Call H → Option Sight
  | .inspect p => some (.inspected p)
  | .offer _ connectionId p => some (.shown connectionId p)
  | _ => none

/-- What is seen of packets in calls, in that order. -/
def sights {H : Type} (calls : List (Call H)) : List Sight := calls.filterMap Call.sight?

@[simp] theorem sights_append {H : Type} (calls more : List (Call H)) :
    sights (calls ++ more) = sights calls ++ sights more :=
  List.filterMap_append

theorem sights_of_closes {H : Type} {calls : List (Call H)} (h : ∀ call ∈ calls, call.closes) :
    sights calls = [] := by
  refine List.filterMap_eq_nil_iff.mpr fun call hcall => ?_
  have := h call hcall
  cases call <;> simp_all [Call.closes, Call.sight?]

namespace Connection

variable {C H : Type} [Codec C]

/-- The packets that come of an event: those an open connection finds in bytes it is given. -/
def decodes (c : Connection C BuiltInspector H) : Event → List Packet
  | .op (.write bytes) => match c.stages with
    | some st => ((Codec.decode st.codec c.id bytes).1.toOption).getD []
    | none => []
  | _ => []

theorem eq_write_of_decodes {c : Connection C BuiltInspector H} {e : Event} {p : Packet}
    {ps : List Packet} (h : c.decodes e = p :: ps) :
    ∃ bytes st codec, e = .op (.write bytes) ∧ c.stages = some st ∧
      Codec.decode st.codec c.id bytes = (.ok (p :: ps), codec) := by
  cases e with
  | op op =>
    cases op with
    | write bytes =>
      cases hst : c.stages with
      | none => simp [decodes, hst] at h
      | some st =>
        obtain ⟨result, codec, hd⟩ : ∃ result codec,
          Codec.decode st.codec c.id bytes = (result, codec) := ⟨_, _, rfl⟩
        cases result with
        | error e => simp [decodes, hst, hd, Except.toOption] at h
        | ok packets =>
          obtain rfl : packets = p :: ps := by simpa [decodes, hst, hd, Except.toOption] using h
          exact ⟨bytes, st, codec, rfl, rfl, hd⟩
    | _ => cases h
  | drop => cases h

variable [Handler H]

/-- The packets that come of events, one after the other. -/
def received (c : Connection C BuiltInspector H) : List (DelayService × Event) → List Packet
  | [] => []
  | (s, e) :: events => c.decodes e ++ received (c.happen s e).1 events

/-- A connection of that id and with that many handlers, whose inspector is as described as long as
it is open. -/
structure Kept (P : BuiltInspector → Prop) (name : String) (n : Nat)
    (c : Connection C BuiltInspector H) : Prop where
  id : c.id = name
  stages : ∀ st, c.stages = some st → P st.inspector ∧ st.handlers.length = n

/-- Somebody was let in under that name. -/
def Admitted (name : String) (i : BuiltInspector) : Prop := i.Names name ∧ i.renames = true

/-- A gate that has let nobody in. -/
def Waits (secret : String) (peer : Peer) (i : BuiltInspector) : Prop :=
  ∃ g, i = .tokenAuth g ∧ g.authenticated = false ∧ g.secret = secret ∧ g.peer = peer

variable {P : BuiltInspector → Prop} {name secret : String} {peer : Peer} {n : Nat}
  {c : Connection C BuiltInspector H} {s : DelayService} {e : Event} {p : Packet}
  {ps : List Packet}

omit [Codec C] in
theorem offerAll_sights (p : Packet) (hs : List H) {ctx : Context} (hid : ctx.connectionId = name) :
    sights (offerAll p hs ctx).2.2.calls = List.replicate hs.length (.shown name p) := by
  rw [offerAll_calls, sights, List.filterMap_map, hid, ← List.map_const']
  exact congrFun List.filterMap_eq_map hs

omit [Codec C] in
/-- Every packet is shown to every handler before the next one is inspected, once somebody was let
in. -/
theorem inspectAll_admitted {i : BuiltInspector} (hi : Admitted name i) (now : Time)
    (packets : List Packet) (codec : C) (handlers : List H) {ctx : Context}
    (hid : ctx.connectionId = name) :
    ∃ j handlers' ctx' log,
      inspectAll now packets ⟨codec, i, handlers⟩ ctx = (none, ⟨codec, j, handlers'⟩, ctx', log) ∧
      Admitted name j ∧ handlers'.length = handlers.length ∧ ctx'.connectionId = name ∧
      sights log.calls = packets.flatMap (Sight.passing name handlers.length) := by
  induction packets generalizing i handlers ctx with
  | nil => exact ⟨i, handlers, ctx, {}, rfl, hi, rfl, hid, rfl⟩
  | cons p ps ih =>
    obtain ⟨j, hinspect, hj, hsame⟩ := hi.1.inspect (p := p) now (.inl hi.2)
    have named : { ctx with connectionId := Inspector.id j } = ctx := by rw [hj.id_eq, ← hid]
    have length := (offerAll_offered ⟨name, p.payload⟩ handlers ctx).length_eq
    obtain ⟨k, handlers', ctx', log, hrest, hk, hlength, hctx, hsights⟩ :=
      ih ⟨hj, hsame.trans hi.2⟩ (offerAll ⟨name, p.payload⟩ handlers ctx).1
        ((offerAll_connectionId ⟨name, p.payload⟩ handlers ctx).trans hid)
    refine ⟨k, handlers', ctx', Log.call (.inspect p) ++
      (offerAll ⟨name, p.payload⟩ handlers ctx).2.2 ++ log, ?_, hk, hlength.trans length.symm, hctx,
      ?_⟩
    · simp only [inspectAll, hinspect, named, hrest]
    · simp only [Log.calls_append, sights_append, offerAll_sights _ _ hid, hsights, ← length]
      rfl

theorem close_id (c : Connection C BuiltInspector H) (s : DelayService) :
    (c.close s).1.id = c.id := by
  cases hst : c.stages with
  | none => simp only [close, hst]
  | some st =>
    obtain ⟨ps, hps⟩ := callAll_context Handler.close (fun h ctx => .closeHandler h ctx.pending)
      st.handlers c.context
    simp only [close, hst, hps]
    rfl

theorem Kept.close (h : c.id = name) (s : DelayService) :
    Kept P name n (c.close s).1 ∧ sights (c.close s).2.2.calls = [] := by
  refine ⟨⟨(close_id c s).trans h, fun st hst => ?_⟩, sights_of_closes (close_calls c s)⟩
  rw [close_stages] at hst
  cases hst

/-- Nothing but packets can change who is connected. -/
theorem Kept.happen (h : Kept P name n c) (hnone : c.decodes e = []) (s : DelayService) :
    Kept P name n (c.happen s e).1 ∧ sights (c.happen s e).2.2.calls = [] := by
  cases hst : c.stages with
  | none =>
    obtain ⟨hclosed, hcontext, hlog⟩ := happen_of_closed hst s e
    refine ⟨⟨(congrArg Context.connectionId hcontext).trans h.id, fun st hst' => ?_⟩,
      by rw [hlog]; rfl⟩
    rw [hclosed] at hst'
    cases hst'
  | some st =>
    obtain ⟨hP, hn⟩ := h.stages st hst
    cases e with
    | op op =>
      cases op with
      | write bytes =>
        rcases write_cases hst bytes s with ⟨e, codec, hd, hw⟩ |
          ⟨packets, codec, refusal, left, ctx, log, hd, hi, hpassed, _⟩
        · simp only [Connection.happen, perform, hw]
          exact Kept.close (c := { c with stages := some { st with codec } }) h.id s
        · obtain rfl : packets = [] := by
            simpa [decodes, hst, hd, Except.toOption] using hnone
          cases hi
          simp only [Connection.happen, perform, hpassed rfl]
          exact ⟨⟨h.id, by rintro _ ⟨⟩; exact ⟨hP, hn⟩⟩, rfl⟩
      | read m =>
        obtain ⟨ps, hps⟩ := flush_context st c.context s
        simp only [Connection.happen, perform, read, hst, hps]
        refine ⟨⟨h.id, ?_⟩, rfl⟩
        rintro _ ⟨⟩
        exact ⟨hP, ((takeBuffered_called _ _).length_eq).symm.trans hn⟩
      | close => exact Kept.close h.id s
      | updateInterest => exact ⟨⟨h.id, h.stages⟩, rfl⟩
      | timedOut =>
        simp only [Connection.happen, perform, timedOut, hst]
        exact ⟨⟨h.id, by rintro _ ⟨⟩; exact ⟨hP, hn⟩⟩, rfl⟩
    | drop => exact Kept.close h.id s

/-- Whoever was let in keeps the name, and every packet is shown as one from it. -/
theorem Kept.admitted (h : Kept (Admitted name) name n c) (s : DelayService) (e : Event) :
    Kept (Admitted name) name n (c.happen s e).1 ∧
      sights (c.happen s e).2.2.calls = (c.decodes e).flatMap (Sight.passing name n) := by
  cases hd : c.decodes e with
  | nil => exact h.happen hd s
  | cons p ps =>
    obtain ⟨bytes, st, codec, rfl, hst, hdecode⟩ := eq_write_of_decodes hd
    obtain ⟨hi, hn⟩ := h.stages st hst
    obtain ⟨j, handlers, ctx, log, hinspect, hj, hlength, hid, hsights⟩ :=
      inspectAll_admitted hi s.now (p :: ps) codec st.handlers h.id
    simp only [Connection.happen, perform, write_of_decoded hst hdecode hinspect]
    exact ⟨⟨hid, by rintro _ ⟨⟩; exact ⟨hj, hlength.trans hn⟩⟩, hn ▸ hsights⟩

/-- The first packet decides: with the credentials that are asked for somebody is let in and the
others of the batch are shown, without them the connection is closed and nothing more is seen. -/
theorem Kept.first (h : Kept (Waits secret peer) peer.text n c) (hd : c.decodes e = p :: ps)
    (s : DelayService) :
    (∃ user, TokenGate.Credentials secret user p.payload ∧
      let name := TokenGate.identity user peer
      Kept (Admitted name) name n (c.happen s e).1 ∧
      sights (c.happen s e).2.2.calls = .inspected p :: ps.flatMap (Sight.passing name n)) ∨
    (∀ user, ¬ TokenGate.Credentials secret user p.payload) ∧ Over (c.happen s e).1 ∧
      sights (c.happen s e).2.2.calls = [.inspected p] := by
  obtain ⟨bytes, ⟨_, i, handlers⟩, codec, rfl, hst, hdecode⟩ := eq_write_of_decodes hd
  obtain ⟨⟨g, rfl, hg, rfl, rfl⟩, hn⟩ := h.stages _ hst
  have first := TokenGate.inspect_first hg s.now p
  cases huser : TokenGate.user? g.secret p.payload with
  | some user =>
    rw [huser] at first
    obtain ⟨g', hinspect, hnames⟩ := first
    let named := { c.context with connectionId := TokenGate.identity user g.peer }
    obtain ⟨j, handlers', ctx, log, hrest, hj, hlength, hid, hsights⟩ := inspectAll_admitted
      ⟨hnames, rfl⟩ s.now ps codec handlers
      (show named.connectionId = TokenGate.identity user g.peer from rfl)
    have hall : inspectAll s.now (p :: ps) ⟨codec, BuiltInspector.tokenAuth g, handlers⟩ c.context =
        (none, ⟨codec, j, handlers'⟩, ctx, Log.call (.inspect p) ++ log) := by
      simp only [named] at hrest
      simp only [inspectAll, hinspect, hnames.id_eq, hrest]
    refine .inl ⟨user, TokenGate.user?_eq_some.mp huser, ?_⟩
    simp only [Connection.happen, perform, write_of_decoded hst hdecode hall]
    refine ⟨⟨hid, by rintro _ ⟨⟩; exact ⟨hj, hlength.trans hn⟩⟩, ?_⟩
    rw [Log.calls_append, sights_append, hsights, hn]
    rfl
  | none =>
    rw [huser] at first
    obtain ⟨failure, g', hinspect⟩ := first
    have hall : inspectAll s.now (p :: ps) ⟨codec, BuiltInspector.tokenAuth g, handlers⟩ c.context =
        (some failure, ⟨codec, .tokenAuth g', handlers⟩,
          { c.context with connectionId := Inspector.id (BuiltInspector.tokenAuth g') },
          Log.call (.inspect p)) := by
      simp only [inspectAll, hinspect]
    refine .inr ⟨fun user hcred => ?_, ?_⟩
    · rw [TokenGate.user?_eq_some.mpr hcred] at huser
      cases huser
    simp only [Connection.happen, perform, write_of_refused hst hdecode hall]
    refine ⟨close_over rfl s, ?_⟩
    rw [Log.calls_append, sights_append, sights_of_closes (close_calls _ s)]
    rfl

/-- From then on it stays so, whatever happens. -/
theorem Kept.admitted_run (h : Kept (Admitted name) name n c) (calls : List (Call H))
    (events : List (DelayService × Event)) :
    let r := events.foldl step (c, calls)
    Kept (Admitted name) name n r.1 ∧
      sights r.2 = sights calls ++ (received c events).flatMap (Sight.passing name n) := by
  induction events generalizing c calls with
  | nil => exact ⟨h, by simp [received]⟩
  | cons event events ih =>
    obtain ⟨s, e⟩ := event
    obtain ⟨hnext, hsights⟩ := h.admitted s e
    obtain ⟨hlast, hrest⟩ := ih hnext (calls ++ (c.happen s e).2.2.calls)
    refine ⟨hlast, hrest.trans ?_⟩
    simp [received, hsights]

theorem Kept.waiting_run (h : Kept (Waits secret peer) peer.text n c) (calls : List (Call H))
    (events : List (DelayService × Event)) :
    let r := events.foldl step (c, calls)
    match received c events with
    | [] => r.1.id = peer.text ∧ sights r.2 = sights calls
    | first :: later =>
      (∃ user, TokenGate.Credentials secret user first.payload ∧
        let name := TokenGate.identity user peer
        Kept (Admitted name) name n r.1 ∧ sights r.2 =
          sights calls ++ .inspected first :: later.flatMap (Sight.passing name n)) ∨
      (∀ user, ¬ TokenGate.Credentials secret user first.payload) ∧ Over r.1 ∧
        sights r.2 = sights calls ++ [.inspected first] := by
  induction events generalizing c calls with
  | nil => exact ⟨h.id, rfl⟩
  | cons event events ih =>
    obtain ⟨s, e⟩ := event
    let made := calls ++ (c.happen s e).2.2.calls
    -- until a packet comes the gate waits; the first one decides about all that follow
    cases hd : c.decodes e with
    | nil =>
      obtain ⟨hnext, hnone⟩ := h.happen hd s
      have hrest := ih hnext made
      simp only [made, sights_append, hnone, List.append_nil] at hrest
      simpa only [received, hd, List.nil_append, List.foldl_cons, step] using hrest
    | cons p ps =>
      simp only [received, hd, List.cons_append]
      rcases h.first hd s with ⟨user, hcred, hnext, hsights⟩ | ⟨hnobody, hover, hsights⟩
      · obtain ⟨hlast, hrest⟩ := hnext.admitted_run made events
        refine .inl ⟨user, hcred, hlast, hrest.trans ?_⟩
        simp [made, hsights]
      · have hstays : events.foldl step ((c.happen s e).1, made) = ((c.happen s e).1, made) :=
          hover.foldl_step made events
        refine .inr ⟨hnobody, ?_⟩
        rw [List.foldl_cons, step, hstays]
        exact ⟨hover, by simp [made, hsights]⟩

theorem new_kept (ctx : Context) (codec : C) (handlers : List H) {i : BuiltInspector}
    (hid : i.id = name) (hP : P i) :
    let r := Connection.new ctx codec i handlers
    Kept P name handlers.length r.1 ∧ sights r.2.calls = [] := by
  let note (h : H) (ctx : Context) : Call H := .activate h ctx.connectionId
  have unseen (ctx : Context) : sights (callAll Handler.active note handlers ctx).2.2.calls = [] :=
    List.filterMap_eq_nil_iff.mpr (callAll_calls_of_note _ _ fun _ _ => rfl)
  have called (ctx : Context) : CalledAll handlers (callAll Handler.active note handlers ctx).1 :=
    callAll_called handlers ctx fun _ v => .active v .same
  have named : (Connection.new ctx codec i handlers).1.id = name := by
    obtain ⟨ps, hps⟩ := callAll_context Handler.active note handlers
      { ctx with connectionId := Inspector.id i }
    simp only [Connection.new, Connection.id, note, hps]
    exact hid
  cases hwaker : ctx.waker with
  | none =>
    simp only [Connection.new, hwaker] at named ⊢
    exact ⟨⟨named, by rintro _ ⟨⟩; exact ⟨hP, (called _).length_eq.symm⟩⟩, unseen _⟩
  | some w =>
    simp only [Connection.new, hwaker] at named ⊢
    exact ⟨⟨named, by rintro _ ⟨⟩; exact ⟨hP, (called _).length_eq.symm⟩⟩, unseen _⟩

/-- Behind a gate nothing is shown to a handler, and the connection bears its address as its id,
until a first packet has come. If that packet holds credentials with the secret it is shown to
nobody, the connection is called `user@peer` from then on, whatever happens, and every packet behind
it, in the same bytes or later ones, is shown to every handler once, as one from that id and on a
connection of that id, with the payload it came with. If not, the connection is over and nothing of
what happens later is noticed. -/
theorem credentials_first (secret : String) (peer : Peer) (limit : Option Nat) (now : Time)
    (ctx : Context) (codec : C) (handlers : List H) (events : List (DelayService × Event)) :
    let after := life ctx codec (TokenGate.shut secret peer limit now) handlers
    match received (after []).1 events with
    | [] => (after events).1.id = peer.text ∧ sights (after events).2 = []
    | first :: later =>
      (∃ user, TokenGate.Credentials secret user first.payload ∧
        let name := TokenGate.identity user peer
        (∀ more, (after (events ++ more)).1.id = name) ∧
        sights (after events).2 =
          .inspected first :: later.flatMap (Sight.passing name handlers.length)) ∨
      (∀ user, ¬ TokenGate.Credentials secret user first.payload) ∧
        sights (after events).2 = [.inspected first] ∧ Over (after events).1 ∧
        ∀ more, after (events ++ more) = after events := by
  intro after
  obtain ⟨waiting, unseen⟩ : Kept (Waits secret peer) peer.text handlers.length (after []).1 ∧
      sights (after []).2 = [] :=
    new_kept ctx codec handlers rfl ⟨_, rfl, rfl, rfl, rfl⟩
  have hafter (events : List (DelayService × Event)) :
      after events = events.foldl step ((after []).1, (after []).2) := rfl
  have run := waiting.waiting_run (after []).2 events
  rw [← hafter, unseen] at run
  cases hreceived : received (after []).1 events with
  | nil => simpa only [hreceived] using run
  | cons first later =>
    simp only [hreceived, List.nil_append] at run
    rcases run with ⟨user, hcred, hlet, hsights⟩ | ⟨hnobody, hover, hsights⟩
    · refine .inl ⟨user, hcred, fun more => ?_, hsights⟩
      rw [hafter, List.foldl_append, ← hafter]
      exact (hlet.admitted_run (after events).2 more).1.id
    · refine .inr ⟨hnobody, hsights, hover, fun more => ?_⟩
      rw [hafter, List.foldl_append, ← hafter]
      exact hover.foldl_step (after events).2 more

/-- Such a gate is what a configuration describes. -/
example (secret : String) (milliseconds : UInt64) (peer : Peer) (now : Time) :
    (InspectorConfig.tokenAuth secret milliseconds).build peer now = TokenGate.shut secret peer
      (IdleTimer.new peer (some milliseconds.toNat) now).limit now :=
  rfl

end Connection

end Switchboard
