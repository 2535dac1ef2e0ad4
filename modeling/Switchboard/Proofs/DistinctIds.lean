import Switchboard.Proofs.Credentials
import Switchboard.Proofs.RoomHolders

namespace Switchboard

open Connection

/-- Who is at the other end of a connection: an address, and perhaps a user. -/
structure Identity where
  peer : Peer
  user : Option String := none

namespace Identity

/-- The id of a connection with such an identity. -/
def text (i : Identity) : String :=
  match i.user with
  | none => i.peer.text
  | some user => TokenGate.identity user i.peer

theorem eq_of_append_at {us vs ps qs : List Char} (hp : '@' ∉ ps) (hq : '@' ∉ qs)
    (h : us ++ '@' :: ps = vs ++ '@' :: qs) : us = vs ∧ ps = qs := by
  -- the sign in front of an address is the last one, whatever stands in front of it
  rcases List.append_eq_append_iff.mp h with ⟨as, rfl, hrest⟩ | ⟨as, rfl, hrest⟩
  · cases as with
    | nil => exact ⟨(List.append_nil us).symm, (List.cons.inj hrest).2⟩
    | cons a as =>
      have later : ps = as ++ '@' :: qs := (List.cons.inj hrest).2
      exact absurd (later ▸ List.mem_append_right as List.mem_cons_self) hp
  · cases as with
    | nil => exact ⟨List.append_nil vs, (List.cons.inj hrest).2.symm⟩
    | cons a as =>
      have later : qs = as ++ '@' :: ps := (List.cons.inj hrest).2
      exact absurd (later ▸ List.mem_append_right as List.mem_cons_self) hq

theorem peer_eq_of_text {p q : Peer} (h : p.text = q.text) : p = q := by
  cases p
  cases q
  cases h
  rfl

theorem identity_toList (user : String) (peer : Peer) :
    (TokenGate.identity user peer).toList = user.toList ++ '@' :: peer.text.toList := by
  simp [TokenGate.identity]

/-- An id tells who is there: no name that a user may choose reads like another's. -/
theorem text_injective {i j : Identity} (h : i.text = j.text) : i = j := by
  obtain ⟨p, user⟩ := i
  obtain ⟨q, user'⟩ := j
  have free (r : Peer) : '@' ∉ r.text.toList := r.not_mem_text (by decide)
  have plain (user : String) (p q : Peer) : p.text ≠ TokenGate.identity user q := by
    intro h
    refine free p ?_
    rw [h, identity_toList]
    simp
  cases user with
  | none =>
    cases user' with
    | none => exact congrArg (Identity.mk · none) (peer_eq_of_text h)
    | some v => exact absurd h (plain v p q)
  | some u =>
    cases user' with
    | none => exact absurd h.symm (plain u q p)
    | some v =>
      have same := congrArg String.toList h
      rw [text, text, identity_toList, identity_toList] at same
      obtain ⟨huser, hpeer⟩ := eq_of_append_at (free p) (free q) same
      rw [String.toList_injective huser, peer_eq_of_text (String.toList_injective hpeer)]

/-- What inspecting packets can make of an identity: one without a user gets the user of the first
that holds the secret. -/
inductive Becomes (secret? : Option String) (packets : List Packet) (i : Identity) : Identity → Prop
  | same : Becomes secret? packets i i
  | named {secret user : String} {p : Packet} (nameless : i.user = none)
      (asked : secret? = some secret) (mem : p ∈ packets)
      (shown : TokenGate.Credentials secret user p.payload) :
      Becomes secret? packets i ⟨i.peer, some user⟩

variable {secret? : Option String} {packets more : List Packet} {i j k : Identity}

theorem Becomes.mono (h : i.Becomes secret? packets j) (hsub : packets ⊆ more) :
    i.Becomes secret? more j := by
  cases h with
  | same => exact .same
  | named nameless asked mem shown => exact .named nameless asked (hsub mem) shown

/-- An identity is given once. -/
theorem Becomes.settled (h : i.Becomes secret? packets j) (h' : j.Becomes secret? more k) :
    j = i ∨ k = j := by
  cases h with
  | same => exact .inl rfl
  | named =>
    cases h' with
    | same => exact .inr rfl
    | named nameless => cases nameless

theorem Becomes.trans (h : i.Becomes secret? packets j) (h' : j.Becomes secret? more k) :
    i.Becomes secret? (packets ++ more) k := by
  rcases h.settled h' with rfl | rfl
  · exact h'.mono (List.subset_append_right _ _)
  · exact h.mono (List.subset_append_left _ _)

/-- Names from in between are names from before or after. -/
theorem Becomes.names (h : i.Becomes secret? packets j) (h' : j.Becomes secret? more k)
    {name : String} (hname : name = j.text ∨ name = k.text) : name = i.text ∨ name = k.text := by
  rcases h.settled h' with rfl | rfl
  · exact hname
  · exact .inr (hname.elim id id)

theorem Becomes.peer (h : i.Becomes secret? packets j) : j.peer = i.peer := by
  cases h <;> rfl

end Identity

namespace BuiltInspector

/-- The inspector says that this is who is connected, and lets nobody in twice. -/
def Bears (i : Identity) : BuiltInspector → Prop
  | .passThrough id => i.user = none ∧ id = i.text
  | .idleTimeout t => i.user = none ∧ t.id = i.text
  | .tokenAuth g => g.authenticated = i.user.isSome ∧ g.peer = i.peer ∧ g.idle.id = i.text

def secret? : BuiltInspector → Option String
  | .tokenAuth g => some g.secret
  | _ => none

variable {i : Identity} {b : BuiltInspector}

theorem Bears.id_eq (h : b.Bears i) : Inspector.id b = i.text := by
  cases b with
  | passThrough => exact h.2
  | idleTimeout => exact h.2
  | tokenAuth => exact h.2.2

theorem build_bears (config : InspectorConfig) (peer : Peer) (now : Time) :
    (config.build peer now).Bears { peer } := by
  cases config with
  | passThrough => exact ⟨rfl, rfl⟩
  | idleTimeout => exact ⟨rfl, rfl⟩
  | tokenAuth => exact ⟨rfl, rfl, rfl⟩

theorem Bears.inspect (h : b.Bears i) (now : Time) (p : Packet) :
    (Inspector.inspect b now p).2.secret? = b.secret? ∧
      ∃ j, (Inspector.inspect b now p).2.Bears j ∧ i.Becomes b.secret? [p] j := by
  cases b with
  | passThrough => exact ⟨rfl, i, h, .same⟩
  | idleTimeout => exact ⟨rfl, i, h, .same⟩
  | tokenAuth g =>
    obtain ⟨hopen, hpeer, hid⟩ := h
    cases hg : g.authenticated with
    | true =>
      rw [hg] at hopen
      simp only [Inspector.inspect, BuiltInspector.inspect, TokenGate.inspect, hg, if_true]
      exact ⟨rfl, i, ⟨hopen, hpeer, hid⟩, .same⟩
    | false =>
      rw [hg] at hopen
      have nameless : i.user = none := by simpa using hopen
      cases huser : TokenGate.user? g.secret p.payload with
      | none =>
        simp only [Inspector.inspect, BuiltInspector.inspect, TokenGate.inspect, hg, huser,
          Bool.false_eq_true, if_false]
        exact ⟨rfl, i, ⟨hopen, hpeer, hid⟩, .same⟩
      | some user =>
        have named := Identity.Becomes.named (i := i) nameless rfl (List.mem_singleton_self p)
          (TokenGate.user?_eq_some.mp huser)
        simp only [Inspector.inspect, BuiltInspector.inspect, TokenGate.inspect, hg, huser,
          Bool.false_eq_true, if_false]
        exact ⟨rfl, ⟨i.peer, some user⟩,
          ⟨rfl, hpeer, congrArg (TokenGate.identity user) hpeer⟩, named⟩

end BuiltInspector

/-- The id a handler finds its connection under when it is called. -/
def Call.connectionId? {H : Type} : Call H → Option String
  | .activate _ name => some name
  | .offer _ name _ => some name
  | _ => none

/-- The ids under which handlers are called. -/
def calledAs {H : Type} (calls : List (Call H)) : List String := calls.filterMap Call.connectionId?

@[simp] theorem calledAs_append {H : Type} (calls more : List (Call H)) :
    calledAs (calls ++ more) = calledAs calls ++ calledAs more := List.filterMap_append

theorem calledAs_of_closes {H : Type} {calls : List (Call H)} (h : ∀ call ∈ calls, call.closes) :
    calledAs calls = [] := by
  refine List.filterMap_eq_nil_iff.mpr fun call hcall => ?_
  have := h call hcall
  cases call <;> simp_all [Call.closes, Call.connectionId?]

/-- The packets that are inspected. -/
def inspectedIn {H : Type} (calls : List (Call H)) : List Packet := calls.filterMap Call.inspected?

@[simp] theorem inspectedIn_append {H : Type} (calls more : List (Call H)) :
    inspectedIn (calls ++ more) = inspectedIn calls ++ inspectedIn more := List.filterMap_append

namespace Connection

variable {C H : Type} [Handler H] {i : Identity} {c : Connection C BuiltInspector H}

/-- A connection with an identity: it is at that address and goes by that id. -/
structure Bears (i : Identity) (c : Connection C BuiltInspector H) : Prop where
  peer : c.context.peer = i.peer
  id : c.id = i.text
  inspector : ∀ st, c.stages = some st → st.inspector.Bears i

/-- The secret that credentials have to hold. -/
def secret? (c : Connection C BuiltInspector H) : Option String :=
  c.stages.bind fun st => st.inspector.secret?

omit [Handler H] in
theorem Bears.hear (h : c.Bears i) (ps : List Packet) : (c.hear ps).Bears i :=
  ⟨h.peer, h.id, h.inspector⟩

omit [Handler H] in
theorem Bears.text_ne (h : c.Bears i) {j : Identity} (hj : j.peer ≠ c.context.peer) :
    j.text ≠ c.id := by
  intro same
  obtain rfl : j = i := Identity.text_injective (same.trans h.id)
  exact hj h.peer.symm

omit [Handler H] in
/-- Handlers do not change the id they are called under. -/
theorem calledAs_callAll {react : H → View → Reaction H} {note : H → Context → Call H}
    (hn : ∀ h ctx, (note h ctx).connectionId? = some ctx.connectionId) (hs : List H)
    (ctx : Context) :
    ∀ name ∈ calledAs (callAll react note hs ctx).2.2.calls, name = ctx.connectionId := by
  induction hs generalizing ctx with
  | nil => exact nofun
  | cons h hs ih =>
    intro name hname
    obtain ⟨call, hcall, hid⟩ := List.mem_filterMap.mp hname
    rcases List.mem_cons.mp hcall with rfl | hcall
    · exact (Option.some.inj ((hn h ctx).symm.trans hid)).symm
    · have later := ih _ name (List.mem_filterMap.mpr ⟨call, hcall, hid⟩)
      rwa [absorb_connectionId] at later

theorem calledAs_offerAll (q : Packet) (hs : List H) (ctx : Context) :
    ∀ name ∈ calledAs (offerAll q hs ctx).2.2.calls, name = ctx.connectionId :=
  calledAs_callAll (fun _ _ => rfl) hs ctx

theorem inspectedIn_offerAll (q : Packet) (hs : List H) (ctx : Context) :
    inspectedIn (offerAll q hs ctx).2.2.calls = [] := by
  rw [offerAll_calls]
  simp [inspectedIn, Call.inspected?]

/-- One packet after the other is inspected, and handlers are called under the id from before or
under the one that is left. -/
theorem inspectAll_bears (now : Time) (packets : List Packet) (codec : C) {b : BuiltInspector}
    (hb : b.Bears i) (handlers : List H) {ctx : Context} (hid : ctx.connectionId = i.text) :
    let r := inspectAll now packets ⟨codec, b, handlers⟩ ctx
    ∃ j, r.2.1.inspector.Bears j ∧ r.2.2.1.connectionId = j.text ∧
      i.Becomes b.secret? (inspectedIn r.2.2.2.calls) j ∧
      ∀ name ∈ calledAs r.2.2.2.calls, name = i.text ∨ name = j.text := by
  induction packets generalizing i b handlers ctx with
  | nil => exact ⟨i, hb, hid, .same, List.forall_mem_nil _⟩
  | cons p ps ih =>
    obtain ⟨verdict, b', hinspect⟩ : ∃ verdict b', Inspector.inspect b now p = (verdict, b') :=
      ⟨_, _, rfl⟩
    obtain ⟨hsecret, k, hk, hbecomes⟩ := hb.inspect now p
    simp only [hinspect] at hsecret hk
    let named := { ctx with connectionId := Inspector.id b' }
    have hnamed : named.connectionId = k.text := hk.id_eq
    cases verdict with
    | pass q =>
      obtain ⟨j, hj, hlast, hrest, hnames⟩ := ih hk (offerAll q handlers named).1
        ((offerAll_connectionId q handlers named).trans hnamed)
      simp only [hsecret] at hrest
      simp only [inspectAll, hinspect, Log.calls_append, inspectedIn_append, inspectedIn_offerAll,
        calledAs_append, List.append_nil]
      refine ⟨j, hj, hlast, hbecomes.trans hrest, fun name hname => hbecomes.names hrest ?_⟩
      rcases List.mem_append.mp hname with hoffered | hlater
      · exact .inl ((calledAs_offerAll q handlers named name hoffered).trans hnamed)
      · exact hnames name hlater
    | filter =>
      obtain ⟨j, hj, hlast, hrest, hnames⟩ := ih hk handlers hnamed
      simp only [hsecret] at hrest
      simp only [inspectAll, hinspect, Log.calls_append, inspectedIn_append, calledAs_append]
      exact ⟨j, hj, hlast, hbecomes.trans hrest,
        fun name hname => hbecomes.names hrest (hnames name hname)⟩
    | reject failure =>
      simp only [inspectAll, hinspect]
      exact ⟨k, hk, hnamed, hbecomes, List.forall_mem_nil _⟩

variable [Codec C]

theorem close_peer (c : Connection C BuiltInspector H) (s : DelayService) :
    (c.close s).1.context.peer = c.context.peer := by
  cases hst : c.stages with
  | none => simp only [close, hst]
  | some st =>
    obtain ⟨ps, hps⟩ := callAll_context Handler.close (fun h ctx => .closeHandler h ctx.pending)
      st.handlers c.context
    simp only [close, hst, hps]
    rfl

theorem Bears.close (hpeer : c.context.peer = i.peer) (hid : c.id = i.text) (s : DelayService) :
    (c.close s).1.Bears i ∧ inspectedIn (c.close s).2.2.calls = [] ∧
      calledAs (c.close s).2.2.calls = [] := by
  refine ⟨⟨(close_peer c s).trans hpeer, (close_id c s).trans hid, fun st hst => ?_⟩,
    inspected_eq_nil_of_closes (close_calls c s), calledAs_of_closes (close_calls c s)⟩
  rw [close_stages] at hst
  cases hst

/-- Whatever a connection does, its identity stays, or a user is let in whose credentials it was
shown. -/
theorem Bears.perform (h : c.Bears i) (s : DelayService) (op : Op) :
    ∃ j, (c.perform s op).1.Bears j ∧
      i.Becomes c.secret? (inspectedIn (c.perform s op).2.2.calls) j ∧
      ∀ name ∈ calledAs (c.perform s op).2.2.calls, name = i.text ∨ name = j.text := by
  cases hst : c.stages with
  | none =>
    obtain ⟨hclosed, hcontext, hlog⟩ := perform_of_closed (s := s) hst op
    refine ⟨i, ⟨hcontext ▸ h.peer, ?_, fun st hst' => ?_⟩, .same, ?_⟩
    · exact (congrArg Context.connectionId hcontext).trans h.id
    · rw [hclosed] at hst'
      cases hst'
    · rw [hlog]
      exact List.forall_mem_nil _
  | some st =>
    have hi := h.inspector st hst
    cases op with
    | write bytes =>
      rcases write_cases hst bytes s with ⟨e, codec, _, hw⟩ |
        ⟨packets, codec, refusal, left, ctx, log, _, hinspected, hpassed, hrefused⟩
      · obtain ⟨hclosed, hnone, hnobody⟩ := Bears.close
          (c := { c with stages := some { st with codec } }) h.peer h.id s
        simp only [Connection.perform, hw, hnone, hnobody]
        exact ⟨i, hclosed, .same, List.forall_mem_nil _⟩
      · obtain ⟨j, hj, hid, hbecomes, hnames⟩ :=
          inspectAll_bears s.now packets codec hi st.handlers h.id
        have hpeer := (inspectAll_frame s.now packets { st with codec } c.context).2
        have hsecret : c.secret? = st.inspector.secret? := by simp [secret?, hst]
        simp only [hinspected] at hj hid hbecomes hnames hpeer
        have hpeer' : ctx.peer = j.peer := hpeer.trans (h.peer.trans hbecomes.peer.symm)
        rw [hsecret]
        cases refusal with
        | none =>
          simp only [Connection.perform, hpassed rfl]
          exact ⟨j, ⟨hpeer', hid, by rintro _ ⟨⟩; exact hj⟩, hbecomes, hnames⟩
        | some failure =>
          obtain ⟨hclosed, hnone, hnobody⟩ := Bears.close
            (c := { c with context := ctx, stages := some left }) hpeer' hid s
          simp only [Connection.perform, hrefused failure rfl, Log.calls_append,
            inspectedIn_append, calledAs_append, hnone, hnobody, List.append_nil]
          exact ⟨j, hclosed, hbecomes, hnames⟩
    | read n =>
      obtain ⟨ps, hps⟩ := flush_context st c.context s
      simp only [Connection.perform, read, hst, hps]
      exact ⟨i, ⟨h.peer, h.id, by rintro _ ⟨⟩; exact hi⟩, .same, List.forall_mem_nil _⟩
    | close =>
      obtain ⟨hclosed, hnone, hnobody⟩ := Bears.close h.peer h.id s
      simp only [Connection.perform, hnone, hnobody]
      exact ⟨i, hclosed, .same, List.forall_mem_nil _⟩
    | updateInterest => exact ⟨i, ⟨h.peer, h.id, h.inspector⟩, .same, List.forall_mem_nil _⟩
    | timedOut =>
      simp only [Connection.perform, timedOut, hst]
      exact ⟨i, ⟨h.peer, h.id, by rintro _ ⟨⟩; exact hi⟩, .same, List.forall_mem_nil _⟩

/-- Handlers are told of a new connection under its address. -/
theorem new_bears (ctx : Context) (codec : C) (handlers : List H) {b : BuiltInspector}
    (hb : b.Bears { peer := ctx.peer }) :
    let r := Connection.new ctx codec b handlers
    r.1.Bears { peer := ctx.peer } ∧ ∀ name ∈ calledAs r.2.calls, name = ctx.peer.text := by
  intro r
  have kept := (new_kept (P := BuiltInspector.Bears { peer := ctx.peer }) ctx codec handlers
    hb.id_eq hb).1
  refine ⟨⟨new_peer ctx codec b handlers, kept.id, fun st hst => (kept.stages st hst).1⟩, ?_⟩
  have told : ∀ name ∈ calledAs (callAll Handler.active (fun h ctx => .activate h ctx.connectionId)
      handlers { ctx with connectionId := Inspector.id b }).2.2.calls, name = ctx.peer.text :=
    fun name hname => (calledAs_callAll (fun _ _ => rfl) handlers _ name hname).trans hb.id_eq
  cases hw : ctx.waker with
  | none =>
    simp only [hw] at told
    simp only [r, Connection.new, hw]
    exact told
  | some w =>
    simp only [hw] at told
    simp only [r, Connection.new, hw]
    exact told

end Connection

namespace Hub

variable {C I H : Type} {h : Hub C I H} {token u : Nat} {c d : Connection C I H}

/-- Who is there after a connection has done something was there before or is that connection, and
has perhaps heard more. -/
theorem perform_origin [Codec C] [Inspector I] [Handler H] {op : Op}
    (hd : (h.perform token op).get? u = some d) :
    ∃ d₀ ps, d = d₀.hear ps ∧ (h.get? u = some d₀ ∨
      ∃ c, h.get? u = some c ∧ u = token ∧ d₀ = (c.perform h.delays op).1) := by
  cases hc : h.get? token with
  | none =>
    rw [perform_of_none hc] at hd
    exact ⟨d, [], by rw [hear_nil]; rfl, .inl hd⟩
  | some c =>
    rw [perform_of_some hc] at hd
    obtain ⟨d₀, ⟨rfl, rfl⟩ | ⟨_, hd₀⟩, rfl⟩ := settle_cases hd
    · exact ⟨_, _, rfl, .inr ⟨c, hc, rfl, rfl⟩⟩
    · exact ⟨d₀, _, rfl, .inl hd₀⟩

end Hub

/-- The inspector of a new connection is one for its address, and has let nobody in. -/
def GatheringEvent.Made {C H : Type} : GatheringEvent C BuiltInspector H → Prop
  | connect _ _ peer _ stages => stages.inspector.Bears { peer }
  | _ => True

namespace Gathering

variable {C H : Type} [Codec C] [Handler H] {events : List (GatheringEvent C BuiltInspector H)}
  {token : Nat} {i j : Identity} {c : Connection C BuiltInspector H}

/-- A user of that name was let in: the connection, at that address, was shown credentials. -/
def LetIn (events : List (GatheringEvent C BuiltInspector H)) (token : Nat) (peer : Peer)
    (user : String) : Prop :=
  ∃ m ∈ moments events, ∃ c op secret p, m.event = .act token op ∧
    m.before.hub.get? token = some c ∧ c.context.peer = peer ∧ c.secret? = some secret ∧
    p ∈ inspectedIn (c.perform m.before.hub.delays op).2.2.calls ∧
    TokenGate.Credentials secret user p.payload

/-- The user of an identity, if there is one, was let in. -/
def StemsFrom (events : List (GatheringEvent C BuiltInspector H)) (token : Nat) (i : Identity) :
    Prop := ∀ user, i.user = some user → LetIn events token i.peer user

theorem StemsFrom.concat (h : StemsFrom events token i) (e : GatheringEvent C BuiltInspector H) :
    StemsFrom (events ++ [e]) token i := by
  intro user huser
  obtain ⟨m, hm, rest⟩ := h user huser
  exact ⟨m, by rw [moments_concat]; exact List.mem_append_left _ hm, rest⟩

theorem StemsFrom.act {op : Op} (h : StemsFrom events token i)
    (hc : (run events).hub.get? token = some c) (hb : c.Bears i)
    (hbecomes : i.Becomes c.secret?
      (inspectedIn (c.perform (run events).hub.delays op).2.2.calls) j) :
    StemsFrom (events ++ [.act token op]) token j := by
  cases hbecomes with
  | same => exact h.concat _
  | named nameless asked mem shown =>
    rintro user ⟨⟩
    refine ⟨⟨run events, .act token op⟩, ?_, c, op, _, _, rfl, hc, hb.peer, asked, mem, shown⟩
    rw [moments_concat]
    exact List.mem_append_right _ List.mem_cons_self

/-- Every connection has an identity, and its user was let in. -/
theorem run_bears (made : ∀ e ∈ events, e.Made) {u : Nat} {d : Connection C BuiltInspector H}
    (hd : (run events).hub.get? u = some d) : ∃ i, d.Bears i ∧ StemsFrom events u i := by
  induction events using List.reverseRecOn generalizing u d with
  | nil => cases hd
  | append_singleton events e ih =>
    obtain ⟨hpast, hlast⟩ := List.forall_mem_append.mp made
    have he : e.Made := hlast e List.mem_cons_self
    have before {u : Nat} {d : Connection C BuiltInspector H} (ps : List Packet)
        (hd : (run events).hub.get? u = some d) :
        ∃ i, (d.hear ps).Bears i ∧ StemsFrom (events ++ [e]) u i := by
      obtain ⟨i, hb, hstems⟩ := ih hpast hd
      exact ⟨i, hb.hear ps, hstems.concat e⟩
    have performed {token : Nat} {op : Op} (hact : e = .act token op ∨ u ≠ token)
        (hd : ((run events).hub.perform token op).get? u = some d) :
        ∃ i, d.Bears i ∧ StemsFrom (events ++ [e]) u i := by
      obtain ⟨d₀, ps, rfl, hd₀ | ⟨c, hc, rfl, rfl⟩⟩ := Hub.perform_origin hd
      · exact before ps hd₀
      · obtain rfl := hact.resolve_right (by simp)
        obtain ⟨i, hb, hstems⟩ := ih hpast hc
        obtain ⟨j, hj, hbecomes, _⟩ := hb.perform (run events).hub.delays op
        exact ⟨j, hj.hear ps, hstems.act hc hb hbecomes⟩
    rw [run_concat] at hd
    cases e with
    | connect serverId listenerId peer waker stages =>
      obtain ⟨d₀, ⟨rfl, rfl⟩ | ⟨_, hd₀⟩, rfl⟩ := Hub.settle_cases hd
      · have fresh := (new_bears (.new serverId listenerId peer waker) stages.codec
          stages.handlers he).1
        exact ⟨{ peer }, fresh.hear _, nofun⟩
      · exact before _ hd₀
    | act token op => exact performed (.inl rfl) hd
    | drop token =>
      rw [Gathering.step, (Hub.drop_spec (run events).hub token).1] at hd
      by_cases hu : u = token
      · rw [if_pos hu] at hd
        cases hd
      · rw [if_neg hu] at hd
        exact performed (.inr hu) hd
    | elapse delays =>
      obtain ⟨i, hb, hstems⟩ := before [] hd
      rw [Hub.hear_nil] at hb
      exact ⟨i, hb, hstems⟩

/-- Connections from different addresses have different ids, whatever is shown to their inspectors,
and while one of them acts its handlers never see it under the id of another; neither do those of a
connection that is new. Whenever two connections have the same id, in one run or in two, they are at
the same address, and if the id names a user, that user was let in on both. -/
theorem ids_tell_connections_apart (made : ∀ e ∈ events, e.Made) :
    let w := run events
    (∀ more : List (GatheringEvent C BuiltInspector H), (∀ e ∈ more, e.Made) → ∀ t u c d,
      w.hub.get? t = some c → (run more).hub.get? u = some d → c.id = d.id →
        ∃ i : Identity, c.id = i.text ∧ c.context.peer = i.peer ∧ d.context.peer = i.peer ∧
          StemsFrom events t i ∧ StemsFrom more u i) ∧
    (∀ t u c d, w.hub.get? t = some c → w.hub.get? u = some d →
      c.context.peer ≠ d.context.peer → c.id ≠ d.id ∧
        ∀ op, ∀ name ∈ calledAs (c.perform w.hub.delays op).2.2.calls, name ≠ d.id) ∧
    ∀ serverId listenerId peer waker (stages : Stages C BuiltInspector H),
      stages.inspector.Bears { peer } → ∀ name ∈ calledAs
        (w.hub.connect w.nextToken (.new serverId listenerId peer waker) stages).2,
        ∀ u d, w.hub.get? u = some d → d.context.peer ≠ peer → name ≠ d.id := by
  intro w
  refine ⟨fun more made' t u c d hc hd hid => ?_, fun t u c d hc hd hpeers => ?_, ?_⟩
  · obtain ⟨i, hi, hstems⟩ := run_bears made hc
    obtain ⟨j, hj, hstems'⟩ := run_bears made' hd
    obtain rfl : i = j := Identity.text_injective (hi.id.symm.trans (hid.trans hj.id))
    exact ⟨i, hi.id, hi.peer, hj.peer, hstems, hstems'⟩
  · obtain ⟨i, hi, _⟩ := run_bears made hc
    obtain ⟨k, hk, _⟩ := run_bears made hd
    rw [hi.peer] at hpeers
    refine ⟨hi.id ▸ hk.text_ne hpeers, fun op name hname => ?_⟩
    obtain ⟨j, _, hbecomes, hnames⟩ := hi.perform w.hub.delays op
    rcases hnames name hname with rfl | rfl
    · exact hk.text_ne hpeers
    · exact hk.text_ne (hbecomes.peer ▸ hpeers)
  · intro serverId listenerId peer waker stages hb name hname u d hd hpeers
    obtain ⟨k, hk, _⟩ := run_bears made hd
    obtain rfl := (new_bears (.new serverId listenerId peer waker) stages.codec
      stages.handlers hb).2 name hname
    exact hk.text_ne (j := { peer }) (Ne.symm hpeers)

/-- Two gates with the same secret; the first is shown a user whose name ends like the id of the
second. -/
def similarNames : List (GatheringEvent LineCodec BuiltInspector StandardHandler) :=
  let stages (peer : Peer) : Stages LineCodec BuiltInspector StandardHandler := {
    codec := { config := {}, hook := LineHook.text, framer := { borders := .ofPattern [10] } }
    inspector := (InspectorConfig.tokenAuth "pw" 0).build peer 0
    handlers := [.chat] }
  let first : Peer := ⟨"10.0.0.1:1", .refl true⟩
  let second : Peer := ⟨"10.0.0.2:2", .refl true⟩
  [.connect "srv" "one" first none (stages first), .connect "srv" "one" second none (stages second),
    .act 0 (.write (Utf8.encode "u@10.0.0.2:pw\n")), .act 1 (.write (Utf8.encode "u:pw\n"))]

theorem similarNames_made : ∀ e ∈ similarNames, e.Made := by
  intro e he
  simp only [similarNames, List.mem_cons, List.not_mem_nil, or_false] at he
  rcases he with rfl | rfl | rfl | rfl
  · exact BuiltInspector.build_bears (.tokenAuth "pw" 0) _ 0
  · exact BuiltInspector.build_bears (.tokenAuth "pw" 0) _ 0
  · trivial
  · trivial

theorem ids_tell_connections_apart_of_similar :
    (∀ e ∈ similarNames, e.Made) ∧ ∃ c d, (run similarNames).hub.get? 0 = some c ∧
      (run similarNames).hub.get? 1 = some d ∧ c.context.peer ≠ d.context.peer ∧
      c.id = "u@10.0.0.2@10.0.0.1:1" ∧ d.id = "u@10.0.0.2:2" ∧ c.id ≠ d.id := by
  obtain ⟨-, apart, -⟩ := ids_tell_connections_apart similarNames_made
  obtain ⟨c, hc⟩ : ∃ c, (run similarNames).hub.get? 0 = some c :=
    Option.isSome_iff_exists.mp (by decide +kernel)
  obtain ⟨d, hd⟩ : ∃ d, (run similarNames).hub.get? 1 = some d :=
    Option.isSome_iff_exists.mp (by decide +kernel)
  have hpeers : ((run similarNames).hub.get? 0).map (fun c => (c.context.peer.text, c.id)) =
      some ("10.0.0.1:1", "u@10.0.0.2@10.0.0.1:1") := by decide +kernel
  have hpeers' : ((run similarNames).hub.get? 1).map (fun c => (c.context.peer.text, c.id)) =
      some ("10.0.0.2:2", "u@10.0.0.2:2") := by decide +kernel
  rw [hc] at hpeers
  rw [hd] at hpeers'
  obtain ⟨hfirst, hcid⟩ := Prod.mk.inj (Option.some.inj hpeers)
  obtain ⟨hsecond, hdid⟩ := Prod.mk.inj (Option.some.inj hpeers')
  have hne : c.context.peer ≠ d.context.peer := by
    intro same
    rw [same, hsecond] at hfirst
    simp at hfirst
  exact ⟨similarNames_made, c, d, hc, hd, hne, hcid, hdid, (apart 0 1 c d hc hd hne).1⟩

end Gathering

end Switchboard
