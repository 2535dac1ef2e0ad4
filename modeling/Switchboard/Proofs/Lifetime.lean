import Switchboard.Proofs.ConnectionSteps

namespace Switchboard

/-- What is closed with a connection. -/
inductive Part (H : Type) where
  | channel
  | codec
  | inspector
  | handler (h : H)

/-- All parts, in the order in which they are closed. -/
def Part.all {H : Type} (handlers : List H) : List (Part H) :=
  [channel, codec, inspector] ++ handlers.map handler

/-- The part that a call closes. -/
def Call.part? {H : Type} : Call H → Option (Part H)
  | .closeChannel => some .channel
  | .closeCodec => some .codec
  | .closeInspector => some .inspector
  | .closeHandler h _ => some (.handler h)
  | _ => none

/-- The handler after it was called some times. -/
inductive Called {H : Type} [Handler H] (h : H) : H → Prop
  | same : Called h h
  | active {h'} (v : View) (before : Called h h') : Called h (Handler.active h' v).handler
  | read {h'} (v : View) (p : Packet) (before : Called h h') :
      Called h (Handler.read h' v p).handler
  | takeBuffered {h'} (v : View) (before : Called h h') :
      Called h (Handler.takeBuffered h' v).handler

/-- The parts that calls close, in that order. -/
def closedParts {H : Type} (calls : List (Call H)) : List (Part H) := calls.filterMap Call.part?

section

variable {I H : Type}

@[simp] theorem closedParts_append (calls more : List (Call H)) :
    closedParts (calls ++ more) = closedParts calls ++ closedParts more :=
  List.filterMap_append

theorem Turn.closedParts_calls [Inspector I] (t : Turn I H) : closedParts t.calls = [] := by
  obtain ⟨⟨p, verdict, i⟩, hs⟩ := t
  cases verdict <;> simp [Turn.calls, closedParts, Call.part?]

theorem closedParts_turns [Inspector I] (ts : List (Turn I H)) :
    closedParts (ts.flatMap Turn.calls) = [] := by
  induction ts with
  | nil => rfl
  | cons t ts ih => simp [Turn.closedParts_calls, ih]

variable [Handler H]

theorem Called.trans {h h' h'' : H} (first : Called h h') (then_ : Called h' h'') :
    Called h h'' := by
  induction then_ with
  | same => exact first
  | active v _ ih => exact .active v ih
  | read v p _ ih => exact .read v p ih
  | takeBuffered v _ ih => exact .takeBuffered v ih

/-- Handlers that were called some times, each at its place. -/
abbrev CalledAll : List H → List H → Prop := List.Forall₂ Called

theorem CalledAll.refl (hs : List H) : CalledAll hs hs := List.forall₂_same.mpr fun _ _ => .same

theorem CalledAll.trans {hs hs' hs'' : List H} (first : CalledAll hs hs')
    (then_ : CalledAll hs' hs'') : CalledAll hs hs'' := by
  induction first generalizing hs'' with
  | nil => exact then_
  | cons h _ ih =>
    obtain ⟨_, _, h', rest, rfl⟩ := List.forall₂_cons_left_iff.mp then_
    exact .cons (h.trans h') (ih rest)

theorem Turns.called [Inspector I] {hs last : List H} {ts : List (Turn I H)}
    (turns : Turns hs ts last) : CalledAll hs last := by
  induction turns with
  | done => exact .refl _
  | @passed t q _ _ _ _ offered _ ih =>
    refine CalledAll.trans (offered.imp ?_) ih
    rintro h _ ⟨v, _, rfl⟩
    exact .read v q .same
  | withheld _ _ ih => exact ih

end

namespace Connection

variable {C I H : Type}

/-- What can happen to a connection: something is done to it, or it is dropped. -/
inductive Event where
  | op (op : Op)
  | drop

section

variable [Codec C] [Inspector I] [Handler H]

/-- A connection that is dropped is closed. -/
def happen (c : Connection C I H) (s : DelayService) :
    Event → Connection C I H × DelayService × Log H
  | .op op => c.perform s op
  | .drop => c.close s

theorem happen_of_closed {c : Connection C I H} (hst : c.stages = none) (s : DelayService)
    (e : Event) : (c.happen s e).1.stages = none ∧ (c.happen s e).1.context = c.context ∧
      (c.happen s e).2.2 = {} := by
  cases e with
  | op op => exact perform_of_closed hst op
  | drop => exact perform_of_closed hst .close

/-- One event, with the delayed output of all connections as it is by then. -/
def step (r : Connection C I H × List (Call H)) (e : DelayService × Event) :
    Connection C I H × List (Call H) :=
  let (c, _, log) := r.1.happen e.1 e.2
  (c, r.2 ++ log.calls)

/-- A connection after some events, and all the calls it has made since it was assembled. -/
def life (ctx : Context) (codec : C) (inspector : I) (handlers : List H)
    (events : List (DelayService × Event)) : Connection C I H × List (Call H) :=
  let (c, log) := Connection.new ctx codec inspector handlers
  events.foldl step (c, log.calls)

theorem life_append (ctx : Context) (codec : C) (inspector : I) (handlers : List H)
    (events more : List (DelayService × Event)) :
    life ctx codec inspector handlers (events ++ more) =
      more.foldl step (life ctx codec inspector handlers events) :=
  List.foldl_append

/-- Why an open connection comes to its end: it is closed or dropped, or it is given bytes that
cannot be decoded or that hold a packet the inspector refuses. -/
inductive EndedBy (c : Connection C I H) (s : DelayService) : Event → Prop
  | closed : EndedBy c s (.op .close)
  | dropped : EndedBy c s .drop
  | undecodable {st bytes e codec} (hst : c.stages = some st)
      (decoded : Codec.decode st.codec c.id bytes = (.error e, codec)) :
      EndedBy c s (.op (.write bytes))
  | refused {st bytes packets codec failure} (hst : c.stages = some st)
      (decoded : Codec.decode st.codec c.id bytes = (.ok packets, codec))
      (refusal : (inspections s.now st.inspector packets).findSome? Inspected.failure? =
        some failure) : EndedBy c s (.op (.write bytes))

/-- A connection that has come to its end: nothing is left of it to be called. -/
structure Over (c : Connection C I H) : Prop where
  closed : c.isOpen = false
  write : ∀ bytes s, c.write bytes s = (.error .closed, c, s, {})
  read : ∀ n s, c.read n s = (.error .closed, c, s)
  close : ∀ s, c.close s = (c, s, {})
  timedOut : ∀ now, c.timedOut now = (false, c)
  pending : ∀ s, c.pending s = false
  interest : c.interest = .read
  updateInterest : ∀ s, c.updateInterest s = c
  replies : c.context.replies = []

variable {c : Connection C I H} {st : Stages C I H} {s : DelayService} {e : Event}

theorem over_of_closed (hst : c.stages = none) (hinterest : c.interest = .read)
    (hreplies : c.context.replies = []) : Over c := by
  obtain ⟨ctx, stages, interest⟩ := c
  obtain rfl : stages = none := hst
  obtain rfl : interest = .read := hinterest
  exact ⟨rfl, fun _ _ => rfl, fun _ _ => rfl, fun _ => rfl, fun _ => rfl, fun _ => rfl, rfl,
    fun _ => rfl, hreplies⟩

theorem Over.happen (h : Over c) (s : DelayService) (e : Event) : c.happen s e = (c, s, {}) := by
  cases e with
  | op op =>
    cases op with
    | write bytes => simp only [Connection.happen, perform, h.write]
    | read n => simp only [Connection.happen, perform, h.read]
    | close => exact h.close s
    | updateInterest => simp only [Connection.happen, perform, h.updateInterest]
    | timedOut => simp only [Connection.happen, perform, h.timedOut]
  | drop => exact h.close s

/-- What is over stays as it is. -/
theorem Over.foldl_step (h : Over c) (calls : List (Call H))
    (events : List (DelayService × Event)) : events.foldl step (c, calls) = (c, calls) := by
  induction events with
  | nil => rfl
  | cons e events ih =>
    rw [List.foldl_cons, step, h.happen]
    simpa using ih

/-- An open connection that goes on: no part is closed. -/
structure GoesOn (handlers : List H) (c' : Connection C I H) (calls : List (Call H)) : Prop where
  stages : ∃ st', c'.stages = some st' ∧ CalledAll handlers st'.handlers
  calls : closedParts calls = []

/-- An open connection that comes to its end: after calls that close no part, every part is closed,
and nothing else is called. -/
structure Ends (handlers : List H) (c' : Connection C I H) (calls : List (Call H)) : Prop where
  calls : ∃ turns closing last, calls = turns ++ closing ∧ closedParts turns = [] ∧
    CalledAll handlers last ∧ closing.map Call.part? = (Part.all last).map some
  finished : Over c'

omit [Codec C] [Inspector I] in
theorem callAll_called {react : H → View → Reaction H} {note : H → Context → Call H}
    (hs : List H) (ctx : Context) (hreact : ∀ h v, Called h (react h v).handler) :
    CalledAll hs (callAll react note hs ctx).1 := by
  induction hs generalizing ctx with
  | nil => exact .nil
  | cons h hs ih => exact .cons (hreact h _) (ih _)

omit [Codec C] [Inspector I] in
theorem takeBuffered_called (hs : List H) (ctx : Context) :
    CalledAll hs (takeBuffered hs ctx).2.1 := by
  induction hs generalizing ctx with
  | nil => exact .nil
  | cons h hs ih => exact .cons (.takeBuffered ctx.view .same) (ih _)

omit [Codec C] [Inspector I] in
theorem callAll_close_parts (hs : List H) (ctx : Context) :
    (callAll Handler.close (fun h ctx => .closeHandler h ctx.pending) hs ctx).2.2.calls.map
      Call.part? = hs.map fun h => some (.handler h) := by
  induction hs generalizing ctx with
  | nil => rfl
  | cons h hs ih => exact congrArg (some (Part.handler h) :: ·) (ih _)

theorem new_goesOn (ctx : Context) (codec : C) (inspector : I) (handlers : List H) :
    GoesOn handlers (Connection.new ctx codec inspector handlers).1
      (Connection.new ctx codec inspector handlers).2.calls := by
  let note (h : H) (ctx : Context) : Call H := .activate h ctx.connectionId
  have silent (ctx : Context) : closedParts (callAll Handler.active note handlers ctx).2.2.calls =
      [] := List.filterMap_eq_nil_iff.mpr (callAll_calls_of_note _ _ fun _ _ => rfl)
  have called (ctx : Context) : CalledAll handlers (callAll Handler.active note handlers ctx).1 :=
    callAll_called handlers ctx fun _ v => .active v .same
  cases hwaker : ctx.waker with
  | none =>
    simp only [Connection.new, hwaker]
    exact ⟨⟨_, rfl, called _⟩, silent _⟩
  | some w =>
    simp only [Connection.new, hwaker]
    exact ⟨⟨_, rfl, called _⟩, silent _⟩

theorem close_parts (hst : c.stages = some st) (s : DelayService) :
    (c.close s).2.2.calls.map Call.part? = (Part.all st.handlers).map some := by
  simp only [close, hst, Part.all, Log.calls_append, List.map_append, callAll_close_parts,
    List.map_map]
  rfl

theorem close_over (hst : c.stages = some st) (s : DelayService) : Over (c.close s).1 := by
  simp only [close, hst]
  exact over_of_closed rfl rfl rfl

theorem close_ends (hst : c.stages = some st) (s : DelayService) :
    Ends st.handlers (c.close s).1 (c.close s).2.2.calls :=
  ⟨⟨[], _, st.handlers, rfl, rfl, .refl _, close_parts hst s⟩, close_over hst s⟩

/-- Bytes end a connection if they cannot be decoded or a packet in them is refused. -/
theorem write_goesOn_or_ends (hst : c.stages = some st) (bytes : Bytes) (s : DelayService) :
    ¬ EndedBy c s (.op (.write bytes)) ∧
        GoesOn st.handlers (c.write bytes s).2.1 (c.write bytes s).2.2.2.calls ∨
      EndedBy c s (.op (.write bytes)) ∧
        Ends st.handlers (c.write bytes s).2.1 (c.write bytes s).2.2.2.calls := by
  rcases write_cases hst bytes s with ⟨e, codec, hd, hw⟩ |
    ⟨packets, codec, refusal, left, ctx, log, hd, hi, hnone, hsome⟩
  · rw [hw]
    let c₁ := { c with stages := some { st with codec } }
    exact .inr ⟨.undecodable hst hd, close_ends (c := c₁) rfl s⟩
  · obtain ⟨turns, _, hturns, hcalls, hfail⟩ :=
      inspectAll_turns s.now packets { st with codec } c.context
    rw [hi] at hturns hcalls hfail
    have called : CalledAll st.handlers left.handlers := hturns.called
    have silent : closedParts log.calls = [] := by rw [hcalls, closedParts_turns]
    cases refusal with
    | none =>
      rw [hnone rfl]
      refine .inl ⟨?_, ⟨left, rfl, called⟩, silent⟩
      rintro (_ | _ | ⟨hst', hd'⟩ | ⟨hst', hd', refusal⟩)
      all_goals
        obtain rfl := Option.some.inj (hst.symm.trans hst')
        rw [hd] at hd'
      · cases hd'
      · obtain ⟨rfl, rfl⟩ : packets = _ ∧ codec = _ := by simpa using hd'
        rw [← hfail] at refusal
        cases refusal
    | some failure =>
      rw [hsome failure rfl]
      let c₁ := { c with context := ctx, stages := some left }
      refine .inr ⟨.refused hst hd hfail.symm, ⟨log.calls, (c₁.close s).2.2.calls, left.handlers,
        rfl, silent, called, close_parts (c := c₁) rfl s⟩, close_over (c := c₁) rfl s⟩

/-- An open connection goes on until something ends it. -/
theorem happen_goesOn_or_ends (hst : c.stages = some st) (s : DelayService) (e : Event) :
    ¬ EndedBy c s e ∧ GoesOn st.handlers (c.happen s e).1 (c.happen s e).2.2.calls ∨
      EndedBy c s e ∧ Ends st.handlers (c.happen s e).1 (c.happen s e).2.2.calls := by
  cases e with
  | op op =>
    cases op with
    | write bytes => exact write_goesOn_or_ends hst bytes s
    | read n =>
      refine .inl ⟨by rintro ⟨⟩, ?_, rfl⟩
      simp only [Connection.happen, perform, read, hst]
      exact ⟨_, rfl, takeBuffered_called _ _⟩
    | close => exact .inr ⟨.closed, close_ends hst s⟩
    | updateInterest => exact .inl ⟨by rintro ⟨⟩, ⟨st, hst, .refl _⟩, rfl⟩
    | timedOut =>
      refine .inl ⟨by rintro ⟨⟩, ?_, rfl⟩
      simp only [Connection.happen, perform, timedOut, hst]
      exact ⟨_, rfl, .refl _⟩
  | drop => exact .inr ⟨.dropped, close_ends hst s⟩

variable (ctx : Context) (codec : C) (inspector : I) (handlers : List H)
  (events : List (DelayService × Event))

/-- Nothing of what happened to the connection has ended it. -/
def Undisturbed : Prop :=
  ∀ before s e later, events = before ++ (s, e) :: later →
    ¬ EndedBy (life ctx codec inspector handlers before).1 s e

variable {ctx codec inspector handlers events}

theorem Undisturbed.snoc (h : Undisturbed ctx codec inspector handlers events)
    (hlast : ¬ EndedBy (life ctx codec inspector handlers events).1 s e) :
    Undisturbed ctx codec inspector handlers (events ++ [(s, e)]) := by
  intro before s' e' later heq
  -- what is asked about is the last event, or one of those before
  rcases later.eq_nil_or_concat with rfl | ⟨later, last, rfl⟩
  · obtain ⟨rfl, heq⟩ := List.append_inj' heq rfl
    obtain ⟨rfl, rfl⟩ : s = s' ∧ e = e' := by simpa using heq
    exact hlast
  · rw [List.concat_eq_append, ← List.cons_append, ← List.append_assoc] at heq
    exact h before s' e' later (List.append_inj' heq rfl).1

theorem life_snoc (ctx : Context) (codec : C) (inspector : I) (handlers : List H)
    (events : List (DelayService × Event)) (s : DelayService) (e : Event) :
    let r := life ctx codec inspector handlers events
    life ctx codec inspector handlers (events ++ [(s, e)]) =
      ((r.1.happen s e).1, r.2 ++ (r.1.happen s e).2.2.calls) := by
  rw [life_append]
  rfl

/-- As long as nothing has ended a connection it is open, and no part is closed. -/
theorem Undisturbed.goesOn (h : Undisturbed ctx codec inspector handlers events) :
    GoesOn handlers (life ctx codec inspector handlers events).1
      (life ctx codec inspector handlers events).2 := by
  induction events using List.reverseRecOn with
  | nil => exact new_goesOn ctx codec inspector handlers
  | append_singleton events last ih =>
    obtain ⟨s, e⟩ := last
    obtain ⟨⟨st, hst, called⟩, silent⟩ := ih fun before s' e' later heq =>
      h before s' e' (later ++ [(s, e)]) (by simp [heq])
    rw [life_snoc]
    rcases happen_goesOn_or_ends hst s e with ⟨_, ⟨st', hst', called'⟩, silent'⟩ | ⟨hend, _⟩
    · refine ⟨⟨st', hst', called.trans called'⟩, ?_⟩
      rw [closedParts_append, silent, silent', List.append_nil]
    · exact absurd hend (h events s e [] rfl)

/-- Whatever happens to a connection, it either goes on with no part closed, or what first ended it
has closed each part once: the channel, the codec, the inspector and then every handler in the
order in which they were declared. Nothing is called from then on, and nothing that happens changes
the connection any more: it is over. -/
theorem closed_once_and_for_good (ctx : Context) (codec : C) (inspector : I) (handlers : List H)
    (events : List (DelayService × Event)) :
    let after := life ctx codec inspector handlers
    (Undisturbed ctx codec inspector handlers events ∧ (after events).1.isOpen = true ∧
        closedParts (after events).2 = []) ∨
      ∃ before s e later turns closing last,
        events = before ++ (s, e) :: later ∧
        Undisturbed ctx codec inspector handlers before ∧ EndedBy (after before).1 s e ∧
        (after events).2 = (after before).2 ++ turns ++ closing ∧
        closedParts ((after before).2 ++ turns) = [] ∧
        closing.map Call.part? = (Part.all last).map some ∧ CalledAll handlers last ∧
        after events = after (before ++ [(s, e)]) ∧ Over (after events).1 := by
  intro after
  induction events using List.reverseRecOn with
  | nil =>
    have goesOn := new_goesOn ctx codec inspector handlers
    obtain ⟨st, hst, _⟩ := goesOn.stages
    refine .inl ⟨fun before s e later h => by simp at h, ?_, goesOn.calls⟩
    exact congrArg Option.isSome hst
  | append_singleton events last ih =>
    obtain ⟨s, e⟩ := last
    rcases ih with ⟨undisturbed, -⟩ | ⟨before, s', e', later, turns, closing, last, heq,
      undisturbed, hend, hcalls, hsilent, hparts, hcalled, hsame, hover⟩
    · obtain ⟨⟨st, hst, called⟩, silent⟩ := undisturbed.goesOn
      have hlife := life_snoc ctx codec inspector handlers events s e
      rcases happen_goesOn_or_ends hst s e with ⟨hgoes, -⟩ |
        ⟨hend, ⟨turns, closing, last, hcalls, silent', called', hparts⟩, hover⟩
      · have goesOn := (undisturbed.snoc hgoes).goesOn
        obtain ⟨st', hst', _⟩ := goesOn.stages
        exact .inl ⟨undisturbed.snoc hgoes, congrArg Option.isSome hst', goesOn.calls⟩
      · refine .inr ⟨events, s, e, [], turns, closing, last, rfl, undisturbed, hend, ?_, ?_,
          hparts, called.trans called', rfl, ?_⟩
        · simp only [after, hlife, hcalls, List.append_assoc]
        · rw [closedParts_append, silent, silent', List.append_nil]
        · simp only [after, hlife]
          exact hover
    · -- over already: the event is not noticed
      have hstays : after (events ++ [(s, e)]) = after events := by
        simp only [after, life_append] at hover ⊢
        exact hover.foldl_step _ _
      rw [hstays]
      exact .inr ⟨before, s', e', later ++ [(s, e)], turns, closing, last, by simp [heq],
        undisturbed, hend, hcalls, hsilent, hparts, hcalled, hsame, hover⟩

end

end Connection

end Switchboard
