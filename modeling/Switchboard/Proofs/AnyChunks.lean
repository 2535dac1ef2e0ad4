import Switchboard.Proofs.LineWire
import Switchboard.Proofs.Replying

namespace Switchboard

/-- The inspector lets everything pass, as packets from `id`. -/
def BuiltInspector.Names (id : String) : BuiltInspector → Prop
  | .passThrough id' => id' = id
  | .idleTimeout t => t.id = id
  | .tokenAuth g => g.authenticated = true ∧ g.idle.id = id

/-- Whether the source of a packet is replaced by the id of the connection. -/
def BuiltInspector.renames : BuiltInspector → Bool
  | .tokenAuth _ => true
  | _ => false

/-- How a connection stands after payloads: credentials are missing, its handlers have been shown
some payloads as packets from an id, or it has been turned away. -/
inductive Standing where
  | waiting
  | talking (id : String) (shown : List Payload)
  | refused

/-- Only a gate that has let nobody in yet looks at payloads, and only at the first. -/
def BuiltInspector.standing : BuiltInspector → List Payload → Standing
  | .tokenAuth g, payloads =>
    if g.authenticated then .talking g.idle.id payloads
    else match payloads with
      | [] => .waiting
      | credentials :: payloads => match TokenGate.user? g.secret credentials with
        | some user => .talking (TokenGate.identity user g.peer) payloads
        | none => .refused
  | i, payloads => .talking i.id payloads

section

variable {id : String} {i : BuiltInspector} {p : Packet}

theorem BuiltInspector.Names.id_eq (h : i.Names id) : Inspector.id i = id := by
  cases i with
  | passThrough => exact h
  | idleTimeout => exact h
  | tokenAuth g => exact h.2

theorem BuiltInspector.Names.inspect (h : i.Names id) (now : Time)
    (hp : i.renames = true ∨ p.source = id) :
    ∃ j, Inspector.inspect i now p = (.pass ⟨id, p.payload⟩, j) ∧ j.Names id ∧
      j.renames = i.renames := by
  obtain ⟨source, payload⟩ := p
  cases i with
  | passThrough id' =>
    obtain rfl : source = id := hp.resolve_left (by simp [BuiltInspector.renames])
    exact ⟨.passThrough id', rfl, h, rfl⟩
  | idleTimeout t =>
    obtain rfl : source = id := hp.resolve_left (by simp [BuiltInspector.renames])
    exact ⟨.idleTimeout { t with lastSeen := now }, rfl, h, rfl⟩
  | tokenAuth g =>
    obtain ⟨hg, rfl⟩ := h
    refine ⟨.tokenAuth { g with idle := { g.idle with lastSeen := now } }, ?_, ⟨hg, rfl⟩, rfl⟩
    simp [Inspector.inspect, BuiltInspector.inspect, TokenGate.inspect, hg, Packet.withSource]

theorem TokenGate.inspect_first {g : TokenGate} (hg : g.authenticated = false) (now : Time)
    (p : Packet) :
    match user? g.secret p.payload with
    | some user => ∃ g', Inspector.inspect (BuiltInspector.tokenAuth g) now p =
        (.filter, .tokenAuth g') ∧ (BuiltInspector.tokenAuth g').Names (identity user g.peer)
    | none => ∃ failure g', Inspector.inspect (BuiltInspector.tokenAuth g) now p =
        (.reject failure, .tokenAuth g') := by
  cases hu : user? g.secret p.payload with
  | some user =>
    let g' : TokenGate := { g with
      authenticated := true
      idle := { g.idle with lastSeen := now, id := identity user g.peer } }
    refine ⟨g', ?_, rfl, rfl⟩
    simp [Inspector.inspect, BuiltInspector.inspect, TokenGate.inspect, hg, hu, g']
  | none =>
    refine ⟨⟨g.peer.text, "invalid credentials"⟩,
      { g with idle := { g.idle with lastSeen := now } }, ?_⟩
    simp [Inspector.inspect, BuiltInspector.inspect, TokenGate.inspect, hg, hu]

end

/-- More payloads are shown to handlers that are told of them, and change nothing for a connection
that has been turned away. -/
theorem BuiltInspector.standing_append (i : BuiltInspector) (ps qs : List Payload) :
    i.standing (ps ++ qs) = match i.standing ps with
      | .waiting => i.standing qs
      | .talking id shown => .talking id (shown ++ qs)
      | .refused => .refused := by
  cases i with
  | passThrough id => rfl
  | idleTimeout t => rfl
  | tokenAuth g =>
    cases hg : g.authenticated with
    | true => simp [standing, hg]
    | false =>
      cases ps with
      | nil => simp [standing, hg]
      | cons p ps => cases hu : TokenGate.user? g.secret p <;> simp [standing, hg, hu]

theorem BuiltInspector.gate_of_waiting {i : BuiltInspector} {ps : List Payload}
    (h : i.standing ps = .waiting) : ps = [] ∧ ∃ g, i = .tokenAuth g ∧ g.authenticated = false := by
  cases i with
  | passThrough id => cases h
  | idleTimeout t => cases h
  | tokenAuth g =>
    cases hg : g.authenticated with
    | true => simp [standing, hg] at h
    | false =>
      cases ps with
      | nil => exact ⟨rfl, g, rfl, hg⟩
      | cons p ps => cases hu : TokenGate.user? g.secret p <;> simp [standing, hg, hu] at h

namespace Connection

variable {C H : Type} [Handler H] {id : String} {i : BuiltInspector}

theorem offerAll_connectionId (q : Packet) (hs : List H) (ctx : Context) :
    (offerAll q hs ctx).2.1.connectionId = ctx.connectionId := by
  obtain ⟨qs, hqs⟩ := callAll_context (fun h v => Handler.read h v q)
    (fun h ctx => .offer h ctx.connectionId q) hs ctx
  simp only [offerAll, hqs]

/-- An inspector that lets everything pass leaves the handlers to be shown one payload after the
other. -/
theorem inspectAll_names (source : String) (hi : i.Names id) (now : Time)
    (payloads : List Payload) (hs : i.renames = true ∨ source = id) (codec : C)
    (handlers : List H) {ctx : Context} (hid : ctx.connectionId = id) :
    let r := offerEach id payloads handlers ctx
    ∃ j log, inspectAll now (payloads.map fun payload => ⟨source, payload⟩)
        ⟨codec, i, handlers⟩ ctx = (none, ⟨codec, j, r.1⟩, r.2.1, log) ∧
      log.offered = r.2.2.offered ∧ j.Names id ∧ j.renames = i.renames := by
  induction payloads generalizing i handlers ctx with
  | nil => exact ⟨i, {}, rfl, rfl, hi, rfl⟩
  | cons p ps ih =>
    obtain ⟨j, hinspect, hj, hsame⟩ := hi.inspect now (p := ⟨source, p⟩) hs
    have hid' : (offerAll ⟨id, p⟩ handlers ctx).2.1.connectionId = id := by
      rw [offerAll_connectionId, hid]
    obtain ⟨k, log, hrest, hlog, hk, hsame'⟩ := ih hj (hsame ▸ hs)
      (offerAll ⟨id, p⟩ handlers ctx).1 hid'
    have named : { ctx with connectionId := Inspector.id j } = ctx := by
      rw [hj.id_eq, ← hid]
    refine ⟨k, Log.call (.inspect ⟨source, p⟩) ++ (offerAll ⟨id, p⟩ handlers ctx).2.2 ++ log,
      ?_, ?_, hk, hsame'.trans hsame⟩
    · simp only [List.map_cons, inspectAll, hinspect, named, hrest]
      rfl
    · simp only [Log.offered] at hlog
      simp only [Log.offered, offerEach, Log.calls_append, List.filterMap_append, hlog]
      rfl

section

variable {I : Type} [Codec C] [Inspector I]

theorem write_of_decoded {c : Connection C I H} {st left : Stages C I H} {packets : List Packet}
    {codec : C} {ctx : Context} {log : Log H} {bytes : Bytes} {s : DelayService}
    (hst : c.stages = some st) (hd : Codec.decode st.codec c.id bytes = (.ok packets, codec))
    (hi : inspectAll s.now packets { st with codec } c.context = (none, left, ctx, log)) :
    c.write bytes s =
      (.ok bytes.length, { c with context := ctx, stages := some left }, s, log) := by
  simp only [write, hst, hd, hi]

theorem write_of_refused {c : Connection C I H} {st left : Stages C I H} {packets : List Packet}
    {codec : C} {ctx : Context} {log : Log H} {bytes : Bytes} {s : DelayService}
    {failure : AuthenticationFailure} (hst : c.stages = some st)
    (hd : Codec.decode st.codec c.id bytes = (.ok packets, codec))
    (hi : inspectAll s.now packets { st with codec } c.context = (some failure, left, ctx, log)) :
    let closed := close { c with context := ctx, stages := some left } s
    c.write bytes s =
      (.error (.authentication failure), closed.1, closed.2.1, log ++ closed.2.2) := by
  simp only [write, hst, hd, hi]

theorem close_stages (c : Connection C I H) (s : DelayService) : (c.close s).1.stages = none := by
  unfold close
  split
  next h => exact h
  next => rfl

theorem close_offered (c : Connection C I H) (s : DelayService) :
    (c.close s).2.2.offered = [] := by
  refine List.filterMap_eq_nil_iff.mpr fun call hcall => ?_
  have := close_calls c s call hcall
  cases call <;> simp_all [Call.closes, Call.offered?]

end

end Connection

/-- What happens at the two ends of a connection: bytes arrive, or output is taken. -/
inductive Traffic where
  | arrive (bytes : Bytes)
  | take (n : Nat)

/-- A connection, the output that was taken from it, and what its handlers were shown. -/
structure Session (C I H : Type) where
  connection : Connection C I H
  output : Bytes := []
  offered : List (H × String × Packet) := []

namespace Session

section

variable {C I H : Type} [Codec C] [Inspector I] [Handler H]

def step (s : Session C I H) (service : DelayService) : Traffic → Session C I H
  | .arrive bytes =>
    let (_, connection, _, log) := s.connection.write bytes service
    { s with connection, offered := s.offered ++ log.offered }
  | .take n => match s.connection.read n service with
    | (.ok bytes, connection, _) => { s with connection, output := s.output ++ bytes }
    | (.error _, connection, _) => { s with connection }

/-- A run of traffic, each with the time and the delayed output of others as they are by then. -/
def run (s : Session C I H) (events : List (DelayService × Traffic)) : Session C I H :=
  events.foldl (fun s e => s.step e.1 e.2) s

def arrived (events : List (DelayService × Traffic)) : Bytes :=
  events.flatMap fun e => match e.2 with
    | .arrive bytes => bytes
    | .take _ => []

theorem step_closed {s : Session C I H} (h : s.connection.stages = none) (service : DelayService)
    (t : Traffic) : s.step service t = s := by
  cases t with
  | arrive bytes =>
    simp only [step, Connection.write, h]
    simp [Log.offered]
  | take n => simp [step, Connection.read, h]

theorem run_closed {s : Session C I H} (h : s.connection.stages = none)
    (events : List (DelayService × Traffic)) : s.run events = s := by
  induction events with
  | nil => rfl
  | cons e events ih =>
    rw [run, List.foldl_cons, step_closed h]
    exact ih

end

variable {H : Type} [Handler H] {config : LineConfig} {hook : LineHook} {d w : Bytes}
  {records : List Bytes} {P : H → Prop} {id : String} {base : Context}
  {told : List H × Context × Log H} {st : Stages LineCodec BuiltInspector H}
  {s : Session LineCodec BuiltInspector H}

def wire (config : LineConfig) (d : Bytes) (ps : List Packet) : Bytes :=
  ps.flatMap (LineCodec.packetBytes config d)

/-- An open connection whose handlers were told what `told` comes of: what it has put out, what its
codec holds and the replies it still holds itself are all they answered. -/
structure Told (config : LineConfig) (d : Bytes) (base : Context)
    (told : List H × Context × Log H) (st : Stages LineCodec BuiltInspector H)
    (s : Session LineCodec BuiltInspector H) : Prop where
  stages : s.connection.stages = some st
  handlers : st.handlers = told.1
  offered : s.offered = told.2.2.offered
  account : ∃ held, s.connection.context = base.behind held ∧
    s.output ++ st.codec.output.toBytes ++ wire config d held = wire config d told.2.1.replies

omit [Handler H] in
@[simp] theorem wire_append (ps qs : List Packet) :
    wire config d (ps ++ qs) = wire config d ps ++ wire config d qs := List.flatMap_append

/-- Output is taken after the replies were encoded, and nothing of it is lost or doubled. -/
theorem Told.take (h : Told config d base told st s) (hp : Replying P) (hhs : ∀ h ∈ told.1, P h)
    (hbase : base.replies = []) (hc : st.codec.HasSeen config hook d w records)
    (service : DelayService) (n : Nat) :
    ∃ st', Told config d base told st' (s.step service (.take n)) ∧
      st'.inspector = st.inspector ∧ st'.codec.HasSeen config hook d w records ∧
      (s.step service (.take n)).connection.context = base ∧
      st'.codec.output.toBytes.length =
        (wire config d told.2.1.replies).length - s.output.length - n := by
  obtain ⟨held, hctx, haccount⟩ := h.account
  have hreplies : s.connection.context.replies = held := by
    rw [hctx, Context.behind, hbase, List.append_nil]
  have hcleared : { s.connection.context with replies := [] } = base := by
    rw [hctx, ← hbase]
    rfl
  obtain ⟨c₁, hencode, hc₁, hout₁⟩ := hc.encodeEach held service
  obtain ⟨c₂, hread, hc₂, hout₂⟩ := hc₁.read n service
  have hkept := Connection.takeBuffered_replying hp (h.handlers ▸ hhs) base
  have hstep : s.step service (.take n) = { s with
      connection := { s.connection with context := base, stages := some { st with codec := c₂ } }
      output := s.output ++ c₁.output.toBytes.take n } := by
    simp only [step, Connection.read, h.stages, Connection.flush, hreplies, hencode, hcleared,
      hkept, Codec.encodeEach, hread]
  have hwaiting : s.output ++ c₁.output.toBytes = wire config d told.2.1.replies := by
    rw [hout₁, ← List.append_assoc]
    exact haccount
  rw [hstep]
  refine ⟨{ st with codec := c₂ }, ⟨rfl, h.handlers, h.offered, [], rfl, ?_⟩, rfl, hc₂, rfl, ?_⟩
  · rw [hout₂, ← hwaiting]
    simp [wire]
  · rw [hout₂, ← hwaiting, List.length_drop, List.length_append]
    omega

/-- Bytes that arrive are shown to the handlers as what the records they end carry. -/
theorem Told.arrive {handlers : List H} {shown : List Payload}
    (h : Told config d base (Connection.offerEach id shown handlers base) st s) (hp : Replying P)
    (hhs : ∀ h ∈ handlers, P h) (hbase : base.replies = []) (hid : base.connectionId = id)
    (hi : st.inspector.Names id) (hb : hook.Blind)
    (hc : st.codec.HasSeen config hook d w records) (service : DelayService) (bytes : Bytes) :
    ∃ more st', Told config d base (Connection.offerEach id
          (shown ++ more.filterMap (LineCodec.payload? config hook)) handlers base) st'
        (s.step service (.arrive bytes)) ∧
      st'.inspector.Names id ∧ st'.codec.HasSeen config hook d (w ++ bytes) (records ++ more) := by
  obtain ⟨held, hctx, haccount⟩ := h.account
  have hnamed : s.connection.context.connectionId = id := by rw [hctx, ← hid]; rfl
  obtain ⟨more, c', hdecode, hc', hout⟩ := hc.decode hb id bytes
  rw [← show s.connection.id = id from hnamed] at hdecode
  let qs := more.filterMap (LineCodec.payload? config hook)
  obtain ⟨j, log, hinspect, hlog, hj, _⟩ := Connection.inspectAll_names s.connection.id hi
    service.now qs (.inr hnamed) c' st.handlers hnamed
  have hkept : ∀ h ∈ st.handlers, P h := by
    rw [h.handlers]
    exact Connection.offerEach_replying hp hhs id shown base
  obtain ⟨answers, hanswers⟩ := Connection.offerEach_answers hp hkept id qs hbase
  obtain ⟨all, hall⟩ := Connection.offerEach_context id shown handlers base
  have hall' : (Connection.offerEach id shown handlers base).2.1 = base.behind all := by
    rw [hall, hbase, List.nil_append, Context.behind, hbase, List.append_nil]
  obtain ⟨hhandlers, hcontext, hoffered⟩ := Connection.offerEach_append id shown qs handlers base
  rw [← h.handlers, hall', hanswers all] at hhandlers hcontext hoffered
  have hwrite := Connection.write_of_decoded h.stages hdecode hinspect
  rw [hctx, hanswers held] at hwrite hlog
  have hstep : s.step service (.arrive bytes) = { s with
      connection := { s.connection with
        context := base.behind (held ++ answers)
        stages := some ⟨c', j, (Connection.offerEach id qs st.handlers base).1⟩ }
      offered := s.offered ++ log.offered } := by
    simp only [step, hwrite]
  rw [hstep]
  refine ⟨more, _, ⟨rfl, hhandlers.symm, ?_, held ++ answers, rfl, ?_⟩, hj, hc'⟩
  · rw [hoffered, h.offered, hlog]
  · rw [hall'] at haccount
    rw [hcontext, hout, wire_append, ← List.append_assoc, haccount]
    simp [Context.behind, hbase]

omit [Handler H] in
/-- What a connection without replies has put out and its codec holds is all that was answered. -/
theorem Told.put_out (h : Told config d base told st s) (hbase : base.replies = [])
    (hctx : s.connection.context = base) :
    s.output ++ st.codec.output.toBytes = wire config d told.2.1.replies := by
  obtain ⟨held, hheld, haccount⟩ := h.account
  have hnone : held = [] := by
    have := congrArg Context.replies (hctx.symm.trans hheld)
    simpa [Context.behind, hbase] using this
  simpa [hnone, wire] using haccount

omit [Handler H] in
theorem Told.silent {handlers : List H} (h : Told config d base (handlers, base, {}) st s)
    (hbase : base.replies = []) (hctx : s.connection.context = base) :
    s.output = [] ∧ st.codec.output.toBytes = [] ∧ s.offered = [] := by
  have hput := h.put_out hbase hctx
  rw [hbase, wire, List.flatMap_nil, List.append_eq_nil_iff] at hput
  exact ⟨hput.1, hput.2, h.offered⟩

section

variable {handlers : List H} {g : TokenGate} {credentials : Payload} {user : String}
  {payloads : List Payload} {codec : LineCodec} {bytes : Bytes} (service : DelayService)

/-- Credentials that hold the secret let a connection in, and its handlers are shown what follows
them under its new id. -/
theorem Told.admit (h : Told config d base (handlers, base, {}) st s) (hp : Replying P)
    (hhs : ∀ h ∈ handlers, P h) (hbase : base.replies = []) (hctx : s.connection.context = base)
    (hi : st.inspector = .tokenAuth g) (hg : g.authenticated = false)
    (hout : codec.output = st.codec.output)
    (hdecode : Codec.decode st.codec s.connection.id bytes = (.ok ((credentials :: payloads).map
      fun payload => ⟨s.connection.id, payload⟩), codec))
    (hu : TokenGate.user? g.secret credentials = some user) :
    let id := TokenGate.identity user g.peer
    let base' := { base with connectionId := id }
    ∃ st', Told config d base' (Connection.offerEach id payloads handlers base') st'
        (s.step service (.arrive bytes)) ∧ st'.inspector.Names id ∧ st'.codec = codec := by
  intro id base'
  obtain ⟨hput, hwaiting, hoffered⟩ := h.silent hbase hctx
  have hhandlers : st.handlers = handlers := h.handlers
  have decided := TokenGate.inspect_first hg service.now ⟨s.connection.id, credentials⟩
  rw [hu] at decided
  obtain ⟨g', hinspect, hnames⟩ := decided
  obtain ⟨j, log, hrest, hlog, hj, _⟩ := Connection.inspectAll_names s.connection.id
    hnames service.now payloads (.inl rfl) codec handlers (show base'.connectionId = id from rfl)
  obtain ⟨answers, hanswers⟩ := Connection.offerEach_answers hp hhs id payloads
    (show base'.replies = [] from hbase)
  have hafter : (Connection.offerEach id payloads handlers base').2.1 = base'.behind answers :=
    congrArg (·.2.1) (hanswers [])
  have hinspected : Connection.inspectAll service.now
      ((credentials :: payloads).map fun payload => ⟨s.connection.id, payload⟩)
      { st with codec } s.connection.context =
        (none, ⟨codec, j, (Connection.offerEach id payloads handlers base').1⟩,
          (Connection.offerEach id payloads handlers base').2.1,
          Log.call (.inspect ⟨s.connection.id, credentials⟩) ++ log) := by
    simp only [List.map_cons, Connection.inspectAll, hi, hinspect, hnames.id_eq, hhandlers]
    rw [hctx]
    exact congrArg (fun r => (r.1, r.2.1, r.2.2.1,
      Log.call (.inspect ⟨s.connection.id, credentials⟩) ++ r.2.2.2)) hrest
  have hwrite := Connection.write_of_decoded h.stages hdecode hinspected
  have hstep : s.step service (.arrive bytes) = { s with
      connection := { s.connection with
        context := (Connection.offerEach id payloads handlers base').2.1
        stages := some ⟨codec, j, (Connection.offerEach id payloads handlers base').1⟩ }
      offered :=
        s.offered ++ (Log.call (.inspect ⟨s.connection.id, credentials⟩) ++ log).offered } := by
    simp only [step, hwrite]
  rw [hstep]
  refine ⟨_, ⟨rfl, rfl, ?_, answers, hafter, ?_⟩, hj, rfl⟩
  · rw [hoffered, ← hlog]
    rfl
  · rw [hafter, hput, hout, hwaiting]
    simp [Context.behind, base', hbase]

/-- Any other first packet closes a connection that has put out nothing. -/
theorem Told.refuse (h : Told config d base (handlers, base, {}) st s) (hbase : base.replies = [])
    (hctx : s.connection.context = base) (hi : st.inspector = .tokenAuth g)
    (hg : g.authenticated = false)
    (hdecode : Codec.decode st.codec s.connection.id bytes = (.ok ((credentials :: payloads).map
      fun payload => ⟨s.connection.id, payload⟩), codec))
    (hu : TokenGate.user? g.secret credentials = none) :
    (s.step service (.arrive bytes)).connection.stages = none ∧
      (s.step service (.arrive bytes)).output = [] ∧
      (s.step service (.arrive bytes)).offered = [] := by
  obtain ⟨hput, _, hoffered⟩ := h.silent hbase hctx
  have decided := TokenGate.inspect_first hg service.now ⟨s.connection.id, credentials⟩
  rw [hu] at decided
  obtain ⟨failure, g', hinspect⟩ := decided
  have hinspected : Connection.inspectAll service.now
      ((credentials :: payloads).map fun payload => ⟨s.connection.id, payload⟩)
      { st with codec } s.connection.context =
        (some failure, ⟨codec, .tokenAuth g', st.handlers⟩,
          { s.connection.context with connectionId := Inspector.id (BuiltInspector.tokenAuth g') },
          Log.call (.inspect ⟨s.connection.id, credentials⟩)) := by
    simp only [List.map_cons, Connection.inspectAll, hi, hinspect]
  have hwrite := Connection.write_of_refused h.stages hdecode hinspected
  simp only [step, hwrite]
  refine ⟨Connection.close_stages _ service, hput, ?_⟩
  simp only [Log.offered, Log.calls_append, List.filterMap_append, hoffered]
  exact Connection.close_offered _ service

end

/-- How a session stands: it is as it was at first, its handlers were told payloads from an id, or
it is over and has put out nothing. -/
def Stands (config : LineConfig) (d : Bytes) (i : BuiltInspector) (handlers : List H)
    (base : Context) (s : Session LineCodec BuiltInspector H) : Standing → Prop
  | .waiting => ∃ st, Told config d base (handlers, base, {}) st s ∧ st.inspector = i ∧
      s.connection.context = base
  | .talking id shown =>
    let base := { base with connectionId := id }
    ∃ st, Told config d base (Connection.offerEach id shown handlers base) st s ∧
      st.inspector.Names id
  | .refused => s.connection.stages = none ∧ s.output = [] ∧ s.offered = []

/-- A session that was given the bytes `w` stands as they say. The records in them are those that
some codec has seen, also after the connection was closed. -/
def Reached (config : LineConfig) (hook : LineHook) (d : Bytes) (i : BuiltInspector)
    (handlers : List H) (base : Context) (w : Bytes) (s : Session LineCodec BuiltInspector H) :
    Prop :=
  ∃ records, (∃ c : LineCodec, c.HasSeen config hook d w records) ∧
    (∀ st, s.connection.stages = some st → st.codec.HasSeen config hook d w records) ∧
    s.Stands config d i handlers base
      (i.standing (records.filterMap (LineCodec.payload? config hook)))

section

variable {i : BuiltInspector} {handlers : List H}

theorem Stands.take (hp : Replying P) (hhs : ∀ h ∈ handlers, P h) (hbase : base.replies = [])
    (hc : ∀ st, s.connection.stages = some st → st.codec.HasSeen config hook d w records)
    {standing : Standing} (h : s.Stands config d i handlers base standing)
    (service : DelayService) (n : Nat) :
    (s.step service (.take n)).Stands config d i handlers base standing ∧
      ∀ st, (s.step service (.take n)).connection.stages = some st →
        st.codec.HasSeen config hook d w records := by
  cases standing with
  | waiting =>
    obtain ⟨st, told, hi, _⟩ := h
    obtain ⟨st', told', hi', hc', hctx, _⟩ := told.take hp hhs hbase (hc st told.stages) service n
    refine ⟨⟨st', told', hi'.trans hi, hctx⟩, fun st'' h' => ?_⟩
    obtain rfl := Option.some.inj (told'.stages.symm.trans h')
    exact hc'
  | talking id shown =>
    obtain ⟨st, told, hi⟩ := h
    have hhs' := Connection.offerEach_replying hp hhs id shown { base with connectionId := id }
    obtain ⟨st', told', hi', hc', _⟩ := told.take hp hhs' hbase (hc st told.stages) service n
    refine ⟨⟨st', told', hi' ▸ hi⟩, fun st'' h' => ?_⟩
    obtain rfl := Option.some.inj (told'.stages.symm.trans h')
    exact hc'
  | refused =>
    obtain ⟨hclosed, hput, hoffered⟩ := h
    rw [step_closed hclosed]
    exact ⟨⟨hclosed, hput, hoffered⟩, hc⟩

theorem Stands.arrive_first {g : TokenGate} {payloads : List Payload} {codec : LineCodec}
    {bytes : Bytes} (service : DelayService) (hp : Replying P) (hhs : ∀ h ∈ handlers, P h)
    (hbase : base.replies = []) (hg : g.authenticated = false)
    (told : Told config d base (handlers, base, {}) st s) (hi : st.inspector = .tokenAuth g)
    (hctx : s.connection.context = base) (hout : codec.output = st.codec.output)
    (hdecode : Codec.decode st.codec s.connection.id bytes =
      (.ok (payloads.map fun payload => ⟨s.connection.id, payload⟩), codec)) :
    (s.step service (.arrive bytes)).Stands config d (.tokenAuth g) handlers base
        (BuiltInspector.standing (.tokenAuth g) payloads) ∧
      ∀ st', (s.step service (.arrive bytes)).connection.stages = some st' → st'.codec = codec := by
  cases payloads with
  | nil =>
    have hwrite := Connection.write_of_decoded (s := service) told.stages hdecode rfl
    have hstep : s.step service (.arrive bytes) = { s with
        connection := { s.connection with stages := some { st with codec } } } := by
      simp [step, hwrite, Log.offered]
    rw [hstep]
    refine ⟨?_, fun st' h' => (Option.some.inj h') ▸ rfl⟩
    simp only [BuiltInspector.standing, hg]
    refine ⟨{ st with codec }, ⟨rfl, told.handlers, told.offered, ?_⟩, hi, hctx⟩
    simp only [hout]
    exact told.account
  | cons credentials payloads =>
    simp only [BuiltInspector.standing, hg]
    cases hu : TokenGate.user? g.secret credentials with
    | some user =>
      obtain ⟨st', told', hi', hcodec⟩ :=
        told.admit service hp hhs hbase hctx hi hg hout hdecode hu
      refine ⟨⟨st', told', hi'⟩, fun st'' h' => ?_⟩
      obtain rfl := Option.some.inj (told'.stages.symm.trans h')
      exact hcodec
    | none =>
      have refused := told.refuse service hbase hctx hi hg hdecode hu
      refine ⟨refused, fun st' h' => ?_⟩
      rw [refused.1] at h'
      cases h'

theorem Reached.arrive (hp : Replying P) (hhs : ∀ h ∈ handlers, P h) (hbase : base.replies = [])
    (hb : hook.Blind) (h : s.Reached config hook d i handlers base w) (service : DelayService)
    (bytes : Bytes) :
    (s.step service (.arrive bytes)).Reached config hook d i handlers base (w ++ bytes) := by
  obtain ⟨records, ⟨c, hseen⟩, hc, hstands⟩ := h
  cases hstanding : i.standing (records.filterMap (LineCodec.payload? config hook)) with
  | waiting =>
    obtain ⟨hnone, g, rfl, hg⟩ := BuiltInspector.gate_of_waiting hstanding
    rw [hstanding] at hstands
    obtain ⟨st, told, hi, hctx⟩ := hstands
    obtain ⟨more, codec, hdecode, hseen', hout⟩ :=
      (hc st told.stages).decode hb s.connection.id bytes
    obtain ⟨hstands', hcodec⟩ :=
      Stands.arrive_first service hp hhs hbase hg told hi hctx hout hdecode
    refine ⟨records ++ more, ⟨codec, hseen'⟩, fun st' h' => hcodec st' h' ▸ hseen', ?_⟩
    rw [List.filterMap_append, hnone]
    exact hstands'
  | talking id shown =>
    rw [hstanding] at hstands
    obtain ⟨st, told, hi⟩ := hstands
    obtain ⟨more, st', told', hi', hc'⟩ :=
      told.arrive hp hhs hbase rfl hi hb (hc st told.stages) service bytes
    refine ⟨records ++ more, ⟨_, hc'⟩, fun st'' h' => ?_, ?_⟩
    · obtain rfl := Option.some.inj (told'.stages.symm.trans h')
      exact hc'
    · rw [List.filterMap_append, BuiltInspector.standing_append, hstanding]
      exact ⟨st', told', hi'⟩
  | refused =>
    rw [hstanding] at hstands
    obtain ⟨hclosed, hput, hoffered⟩ := hstands
    obtain ⟨more, c', _, hseen', _⟩ := hseen.decode hb s.connection.id bytes
    rw [step_closed hclosed]
    refine ⟨records ++ more, ⟨c', hseen'⟩, by simp [hclosed], ?_⟩
    rw [List.filterMap_append, BuiltInspector.standing_append, hstanding]
    exact ⟨hclosed, hput, hoffered⟩

theorem Reached.run (hp : Replying P) (hhs : ∀ h ∈ handlers, P h) (hbase : base.replies = [])
    (hb : hook.Blind) (h : s.Reached config hook d i handlers base w)
    (events : List (DelayService × Traffic)) :
    (s.run events).Reached config hook d i handlers base (w ++ arrived events) := by
  induction events generalizing s w with
  | nil => simpa [run, arrived] using h
  | cons e events ih =>
    obtain ⟨service, traffic⟩ := e
    cases traffic with
    | arrive bytes =>
      have := ih (h.arrive hp hhs hbase hb service bytes)
      rwa [List.append_assoc] at this
    | take n =>
      obtain ⟨records, hseen, hc, hstands⟩ := h
      obtain ⟨hstands', hc'⟩ := hstands.take hp hhs hbase hc service n
      exact ih ⟨records, hseen, hc', hstands'⟩

/-- A connection with a codec that looks at nothing but lines, before anything happens. -/
theorem new_reached (hp : Replying P) (hhs : ∀ h ∈ handlers, P h)
    (hl : config.maxLineLength = none) {codec : LineCodec}
    (hcodec : LineCodec.new config hook = .ok codec) (i : BuiltInspector)
    (serverId listenerId : String) (peer : Peer) (waker : Option Waker) :
    let base := { Context.new serverId listenerId peer waker with connectionId := Inspector.id i }
    let handlers' := (Connection.callAll Handler.active
      (fun h ctx => .activate h ctx.connectionId) handlers base).1
    ∃ d, config.charset.encode .strict config.delimiter = .ok d ∧ (∀ h ∈ handlers', P h) ∧
      Reached config hook d i handlers' base []
        { connection := (Connection.new (Context.new serverId listenerId peer waker) codec i
            handlers).1 } := by
  intro base handlers'
  obtain ⟨d, hseen, hempty⟩ := LineCodec.new_hasSeen hcodec hl
  have hd := LineCodec.new_delimiter hcodec
  rw [hseen.delimiter_eq] at hd
  let note : H → Context → Call H := fun h ctx => .activate h ctx.connectionId
  obtain ⟨hctx, hkept⟩ := Connection.callAll_active hp hhs note base
  have hnew : (Connection.new (Context.new serverId listenerId peer waker) codec i handlers).1 =
      ⟨base, some ⟨codec, i, handlers'⟩, .read⟩ := by
    have hlast : (Connection.callAll Handler.active note handlers base).2.1 = base := hctx
    let made (ctx : Context) : Connection LineCodec BuiltInspector H :=
      ⟨ctx, some ⟨codec, i, handlers'⟩, .read⟩
    cases waker with
    | none => exact congrArg made hlast
    | some w => exact congrArg made hlast
  rw [hnew]
  refine ⟨d, hd, hkept, [], ⟨codec, hseen⟩, fun st h' => ?_, ?_⟩
  · obtain rfl := Option.some.inj h'
    exact hseen
  · let st : Stages LineCodec BuiltInspector H := ⟨codec, i, handlers'⟩
    have told : Told config d base (handlers', base, {}) st
        { connection := ⟨base, some st, .read⟩ } := by
      refine ⟨rfl, rfl, rfl, [], rfl, ?_⟩
      simp [st, hempty, wire, base, Context.new]
    cases i with
    | passThrough id => exact ⟨st, told, rfl⟩
    | idleTimeout t => exact ⟨st, told, rfl⟩
    | tokenAuth g =>
      cases hg : g.authenticated with
      | true =>
        simp only [List.filterMap_nil, BuiltInspector.standing, hg]
        exact ⟨st, told, hg, rfl⟩
      | false =>
        simp only [List.filterMap_nil, BuiltInspector.standing, hg]
        exact ⟨st, told, rfl, rfl⟩

theorem start_reached (hp : Replying P) (hhs : ∀ h ∈ handlers, P h)
    (hl : config.maxLineLength = none) {codec : LineCodec}
    (hcodec : LineCodec.new config hook = .ok codec) (i : BuiltInspector)
    (serverId listenerId : String) (peer : Peer) (waker : Option Waker) :
    ∃ d handlers' base, (∀ h ∈ handlers', P h) ∧ base.replies = [] ∧
      Reached config hook d i handlers' base []
        { connection := (Connection.new (Context.new serverId listenerId peer waker) codec i
            handlers).1 } := by
  obtain ⟨d, _, hkept, hreached⟩ := new_reached hp hhs hl hcodec i serverId listenerId peer waker
  exact ⟨d, _, _, hkept, rfl, hreached⟩

/-- Once nothing waits, everything the handlers answered has been put out. -/
theorem Told.drained (h : Told config d base told st s) (hbase : base.replies = [])
    {service : DelayService} (hp : s.connection.pending service = false) :
    s.output = wire config d told.2.1.replies := by
  obtain ⟨held, hctx, haccount⟩ := h.account
  simp only [Connection.pending, h.stages, Bool.or_eq_false_iff] at hp
  obtain ⟨⟨⟨hreplies, hcodec⟩, _⟩, _⟩ := hp
  have hheld : held = [] := by
    simpa [hctx, Context.pending, Context.behind, hbase] using hreplies
  have hempty : st.codec.output.toBytes = [] := by
    rw [← Outbox.isEmpty_iff]
    simpa [Codec.pending, LineCodec.pending] using hcodec
  simpa [hheld, hempty, wire] using haccount

/-- Sessions that stand the same way and have nothing left to put out look the same. -/
theorem Stands.same {standing : Standing} {t : Session LineCodec BuiltInspector H}
    {service service' : DelayService} (h : s.Stands config d i handlers base standing)
    (h' : t.Stands config d i handlers base standing) (hbase : base.replies = [])
    (hs : s.connection.pending service = false) (ht : t.connection.pending service' = false) :
    s.offered = t.offered ∧ s.output = t.output := by
  cases standing with
  | waiting =>
    obtain ⟨st, told, _⟩ := h
    obtain ⟨st', told', _⟩ := h'
    exact ⟨told.offered.trans told'.offered.symm,
      (told.drained hbase hs).trans (told'.drained hbase ht).symm⟩
  | talking id shown =>
    obtain ⟨st, told, _⟩ := h
    obtain ⟨st', told', _⟩ := h'
    exact ⟨told.offered.trans told'.offered.symm,
      (told.drained hbase hs).trans (told'.drained hbase ht).symm⟩
  | refused => exact ⟨h.2.2.trans h'.2.2.symm, h.2.1.trans h'.2.1.symm⟩

def Drains (events : List (DelayService × Traffic)) : Prop :=
  ∀ e ∈ events, ∃ n, 0 < n ∧ e.2 = .take n

theorem Told.drain (h : Told config d base told st s) (hp : Replying P) (hhs : ∀ h ∈ told.1, P h)
    (hbase : base.replies = []) (hc : st.codec.HasSeen config hook d w records)
    {events : List (DelayService × Traffic)} (hd : Drains events) (hne : events ≠ []) :
    ∃ st', Told config d base told st' (s.run events) ∧ (s.run events).connection.context = base ∧
      st'.codec.output.toBytes.length ≤
        (wire config d told.2.1.replies).length - s.output.length - events.length := by
  induction events generalizing s st with
  | nil => exact absurd rfl hne
  | cons e events ih =>
    obtain ⟨⟨n, hn, he⟩, hd⟩ := List.forall_mem_cons.mp hd
    obtain ⟨st₁, told₁, _, hc₁, hctx₁, hleft⟩ := h.take hp hhs hbase hc e.1 n
    rw [← he] at told₁ hctx₁
    by_cases hlast : events = []
    · subst hlast
      exact ⟨st₁, told₁, hctx₁, by simp only [List.length_cons, List.length_nil]; omega⟩
    · obtain ⟨st₂, told₂, hctx₂, hleft₂⟩ := ih told₁ hc₁ hd hlast
      refine ⟨st₂, told₂, hctx₂, ?_⟩
      have hput := congrArg List.length (told₁.put_out hbase hctx₁)
      rw [List.length_append] at hput
      rw [List.length_cons]
      omega

theorem Told.drains (h : Told config d base told st s) (hp : Replying P) (hhs : ∀ h ∈ told.1, P h)
    (hbase : base.replies = []) (hc : st.codec.HasSeen config hook d w records) :
    ∃ k, ∀ events, Drains events → k ≤ events.length →
      ∀ service, (s.run events).connection.pending service = false := by
  refine ⟨(wire config d told.2.1.replies).length + 1, fun events hd hk service => ?_⟩
  have hne : events ≠ [] := by
    rintro rfl
    simp at hk
  obtain ⟨st', told', hctx, hleft⟩ := h.drain hp hhs hbase hc hd hne
  have hempty : st'.codec.output.isEmpty = true := by
    rw [Outbox.isEmpty_iff]
    exact List.length_eq_zero_iff.mp (by omega)
  have hidle : st'.handlers.any Handler.pending = false := by
    rw [told'.handlers, List.any_eq_false]
    exact fun h hh => by simp [hp.idle h (hhs h hh)]
  have hcodec : Codec.pending st'.codec service = false := by
    simp [Codec.pending, LineCodec.pending, hempty]
  have hinspector : Inspector.pending st'.inspector = false := rfl
  simp [Connection.pending, told'.stages, hctx, Context.pending, hbase, hcodec, hinspector, hidle]

theorem Stands.drains {standing : Standing} (hp : Replying P) (hhs : ∀ h ∈ handlers, P h)
    (hbase : base.replies = [])
    (hc : ∀ st, s.connection.stages = some st → st.codec.HasSeen config hook d w records)
    (h : s.Stands config d i handlers base standing) :
    ∃ k, ∀ events, Drains events → k ≤ events.length →
      ∀ service, (s.run events).connection.pending service = false := by
  cases standing with
  | waiting =>
    obtain ⟨st, told, _⟩ := h
    exact told.drains hp hhs hbase (hc st told.stages)
  | talking id shown =>
    obtain ⟨st, told, _⟩ := h
    exact told.drains hp (Connection.offerEach_replying hp hhs id shown _) hbase
      (hc st told.stages)
  | refused =>
    refine ⟨0, fun events _ _ service => ?_⟩
    rw [run_closed h.1]
    simp [Connection.pending, h.1]

/-- The chunks in which a stream arrives do not matter to a connection, nor do the reads in between.
Two runs that are given the same bytes and drained show the handlers the same packets under the
same ids and put out the same bytes, whether or not the credentials share a chunk with what follows
them, and also when the connection is turned away; and enough reads drain any run. Handlers only
reply, and the codec has a built-in hook and no limit. -/
theorem chunks_do_not_matter (hp : Replying P) (hhs : ∀ h ∈ handlers, P h)
    (hhook : hook = LineHook.text ∨ hook = LineHook.json) (hl : config.maxLineLength = none)
    {codec : LineCodec} (hcodec : LineCodec.new config hook = .ok codec) (i : BuiltInspector)
    (serverId listenerId : String) (peer : Peer) (waker : Option Waker) :
    let start : Session LineCodec BuiltInspector H :=
      { connection := (Connection.new (Context.new serverId listenerId peer waker) codec i
          handlers).1 }
    (∀ first second, arrived first = arrived second →
      ∀ service service', (start.run first).connection.pending service = false →
        (start.run second).connection.pending service' = false →
        (start.run first).offered = (start.run second).offered ∧
          (start.run first).output = (start.run second).output) ∧
    ∀ events, ∃ k, ∀ reads, Drains reads → k ≤ reads.length →
      ∀ service, (start.run (events ++ reads)).connection.pending service = false := by
  intro start
  have hb : hook.Blind := by
    rcases hhook with rfl | rfl
    · exact LineHook.text_blind
    · exact LineHook.json_blind
  obtain ⟨d, handlers', base, hhs', hbase, hstart⟩ :=
    start_reached hp hhs hl hcodec i serverId listenerId peer waker
  have reached (events) : (start.run events).Reached config hook d i handlers' base
      ([] ++ arrived events) := Reached.run hp hhs' hbase hb hstart events
  refine ⟨fun first second same service service' hfirst hsecond => ?_, fun events => ?_⟩
  · obtain ⟨records, ⟨c, hseen⟩, _, hstands⟩ := reached first
    obtain ⟨records', ⟨c', hseen'⟩, _, hstands'⟩ := reached second
    rw [← same] at hseen'
    obtain ⟨rfl, _⟩ := hseen.cuts.unique hseen'.cuts
    exact hstands.same hstands' hbase hfirst hsecond
  · obtain ⟨records, _, hc, hstands⟩ := reached events
    obtain ⟨k, hk⟩ := hstands.drains hp hhs' hbase hc
    refine ⟨k, fun reads hd hlen service => ?_⟩
    rw [run, List.foldl_append]
    exact hk reads hd hlen service

end

/-- Credentials and a text, in one chunk and in three with reads in between. -/
theorem chunks_do_not_matter_of_login :
    let peer : Peer := ⟨"10.0.0.1:80", by decide⟩
    let codec : LineCodec :=
      { config := {}, hook := LineHook.text, framer := { borders := .ofPattern [10] } }
    let handlers : List (StandardHandler ⊕ DiagnosticHandler) :=
      [.inl .echo, .inl (.uppercase "> "), .inr .whoami]
    let start : Session LineCodec BuiltInspector (StandardHandler ⊕ DiagnosticHandler) :=
      { connection := (Connection.new (Context.new "srv" "lines" peer none) codec
          (.tokenAuth { idle := .new peer none 0, peer, secret := "pw" }) handlers).1 }
    let first : List (DelayService × Traffic) :=
      [({}, .arrive [97, 58, 112, 119, 10, 104, 105, 10]), ({}, .take 100)]
    let second : List (DelayService × Traffic) :=
      [({}, .arrive [97, 58]), ({}, .take 1), ({}, .arrive [112, 119, 10, 104]),
        ({}, .take 0), ({}, .arrive [105, 10]), ({}, .take 2), ({}, .take 60)]
    (start.run first).offered = (start.run second).offered ∧
      (start.run first).output = (start.run second).output ∧
      (start.run second).offered.map (·.2) = List.replicate 3
        ("a@10.0.0.1:80", ⟨"a@10.0.0.1:80", .text "hi"⟩) := by
  intro peer codec handlers start first second
  have hcodec : LineCodec.new {} LineHook.text = .ok codec := by cbv
  have hhs : ∀ h ∈ handlers, Sum.elim (fun _ => True) (· = DiagnosticHandler.whoami) h := by
    simp [handlers]
  have same := (chunks_do_not_matter (Replying.standard.sum Replying.whoami) hhs (.inl rfl) rfl
    hcodec (.tokenAuth { idle := .new peer none 0, peer, secret := "pw" }) "srv" "lines" peer
    none).1
  obtain ⟨hoffered, houtput⟩ := same first second (by decide) {} {} (by cbv) (by cbv)
  exact ⟨hoffered, houtput, by cbv⟩

end Session

end Switchboard
