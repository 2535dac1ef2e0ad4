import Switchboard.Handler.Sum
import Switchboard.Proofs.StandardSteps

namespace Switchboard

/-- Handlers that only ever answer what they are shown: they say nothing of their own accord, keep
no packets, and do not look at whether replies wait. -/
structure Replying {H : Type} [Handler H] (P : H → Prop) : Prop where
  quiet : ∀ h v p, P h → .reply p ∉ (Handler.active h v).requests
  active : ∀ h v, P h → P (Handler.active h v).handler
  read : ∀ h v p, P h → P (Handler.read h v p).handler
  blind : ∀ h v p pending, P h → Handler.read h { v with pending } p = Handler.read h v p
  keepsNothing : ∀ h v, P h → Handler.takeBuffered h v = { handler := h }
  idle : ∀ h, P h → Handler.pending h = false

namespace Replying

theorem standard : Replying fun _ : StandardHandler => True where
  quiet h v p _ hp := by by_cases hchat : h = .chat <;> simp [Handler.active, hchat] at hp
  active _ _ _ := trivial
  read _ _ _ _ := trivial
  blind _ _ _ _ _ := rfl
  keepsNothing _ _ _ := rfl
  idle _ _ := rfl

theorem whoami : Replying (· = DiagnosticHandler.whoami) where
  quiet _ _ _ _ := List.not_mem_nil
  active _ _ h := h
  read := by
    rintro _ v p rfl
    rfl
  blind := by
    rintro _ v p pending rfl
    rfl
  keepsNothing := by
    rintro _ v rfl
    rfl
  idle h hh := hh ▸ rfl

variable {A B : Type} [Handler A] [Handler B] {P : A → Prop} {Q : B → Prop}

theorem sum (ha : Replying P) (hb : Replying Q) : Replying (Sum.elim P Q) where
  quiet
    | .inl a, v, p, h => ha.quiet a v p h
    | .inr b, v, p, h => hb.quiet b v p h
  active
    | .inl a, v, h => ha.active a v h
    | .inr b, v, h => hb.active b v h
  read
    | .inl a, v, p, h => ha.read a v p h
    | .inr b, v, p, h => hb.read b v p h
  blind
    | .inl a, v, p, pending, h => congrArg (Reaction.map Sum.inl) (ha.blind a v p pending h)
    | .inr b, v, p, pending, h => congrArg (Reaction.map Sum.inr) (hb.blind b v p pending h)
  keepsNothing
    | .inl a, v, h => congrArg (Yield.map Sum.inl) (ha.keepsNothing a v h)
    | .inr b, v, h => congrArg (Yield.map Sum.inr) (hb.keepsNothing b v h)
  idle
    | .inl a, h => ha.idle a h
    | .inr b, h => hb.idle b h

end Replying

/-- The same context with other replies in front of its own. -/
def Context.behind (ctx : Context) (old : List Packet) : Context :=
  { ctx with replies := old ++ ctx.replies }

/-- Which handler is shown which packet, and under which id. -/
def Call.offered? {H : Type} : Call H → Option (H × String × Packet)
  | .offer h id p => some (h, id, p)
  | _ => none

def Log.offered {H : Type} (log : Log H) : List (H × String × Packet) :=
  log.calls.filterMap Call.offered?

namespace Connection

variable {H : Type} [Handler H] {P : H → Prop} {hs : List H}

theorem absorb_behind (rs : List Request) (ctx : Context) (old : List Packet) :
    absorb rs (ctx.behind old) = ((absorb rs ctx).1.behind old, (absorb rs ctx).2) := by
  induction rs generalizing ctx with
  | nil => rfl
  | cons r rs ih =>
    cases r with
    | reply p =>
      have queued : (ctx.behind old).reply p = (ctx.reply p).behind old := by
        simp [Context.reply, Context.behind]
      rw [absorb, queued]
      exact ih _
    | join => simp only [absorb, ih]
    | leave => simp only [absorb, ih]
    | say text =>
      simp only [absorb, ih]
      rfl

/-- Handlers that only reply make the same of a packet whatever replies wait already. -/
theorem offerAll_behind (hp : Replying P) (hhs : ∀ h ∈ hs, P h) (q : Packet) (ctx : Context)
    (old : List Packet) :
    offerAll q hs (ctx.behind old) = ((offerAll q hs ctx).1, (offerAll q hs ctx).2.1.behind old,
      (offerAll q hs ctx).2.2) := by
  induction hs generalizing ctx with
  | nil => rfl
  | cons h hs ih =>
    obtain ⟨hh, hhs⟩ := List.forall_mem_cons.mp hhs
    have same : Handler.read h (ctx.behind old).view q = Handler.read h ctx.view q :=
      hp.blind h ctx.view q _ hh
    have rest := ih hhs (absorb (Handler.read h ctx.view q).requests ctx).1
    simp only [offerAll] at rest
    simp only [offerAll, callAll, same, absorb_behind, rest]
    rfl

theorem offerAll_replying (hp : Replying P) (hhs : ∀ h ∈ hs, P h) (q : Packet) (ctx : Context) :
    ∀ h ∈ (offerAll q hs ctx).1, P h := by
  induction hs generalizing ctx with
  | nil => exact hhs
  | cons h hs ih =>
    obtain ⟨hh, hhs⟩ := List.forall_mem_cons.mp hhs
    exact List.forall_mem_cons.mpr ⟨hp.read h ctx.view q hh, ih hhs _⟩

/-- Shows the handlers payloads in turn, as packets from `id`. -/
def offerEach (id : String) : List Payload → List H → Context → List H × Context × Log H
  | [], hs, ctx => (hs, ctx, {})
  | p :: ps, hs, ctx =>
    let (hs, ctx, log) := offerAll ⟨id, p⟩ hs ctx
    let (hs, ctx, more) := offerEach id ps hs ctx
    (hs, ctx, log ++ more)

theorem offerEach_append (id : String) (ps qs : List Payload) (hs : List H) (ctx : Context) :
    let r := offerEach id ps hs ctx
    let t := offerEach id qs r.1 r.2.1
    (offerEach id (ps ++ qs) hs ctx).1 = t.1 ∧ (offerEach id (ps ++ qs) hs ctx).2.1 = t.2.1 ∧
      (offerEach id (ps ++ qs) hs ctx).2.2.offered = r.2.2.offered ++ t.2.2.offered := by
  induction ps generalizing hs ctx with
  | nil => exact ⟨rfl, rfl, rfl⟩
  | cons p ps ih =>
    obtain ⟨hhs, hctx, hlog⟩ := ih (offerAll ⟨id, p⟩ hs ctx).1 (offerAll ⟨id, p⟩ hs ctx).2.1
    refine ⟨hhs, hctx, ?_⟩
    simp only [Log.offered] at hlog
    simp only [List.cons_append, offerEach, Log.offered, Log.calls_append, List.filterMap_append,
      hlog, List.append_assoc]

theorem offerEach_behind (hp : Replying P) (hhs : ∀ h ∈ hs, P h) (id : String)
    (ps : List Payload) (ctx : Context) (old : List Packet) :
    offerEach id ps hs (ctx.behind old) = ((offerEach id ps hs ctx).1,
      (offerEach id ps hs ctx).2.1.behind old, (offerEach id ps hs ctx).2.2) := by
  induction ps generalizing hs ctx with
  | nil => rfl
  | cons p ps ih =>
    simp only [offerEach, offerAll_behind hp hhs, ih (offerAll_replying hp hhs ⟨id, p⟩ ctx)]

theorem offerEach_replying (hp : Replying P) (hhs : ∀ h ∈ hs, P h) (id : String)
    (ps : List Payload) (ctx : Context) : ∀ h ∈ (offerEach id ps hs ctx).1, P h := by
  induction ps generalizing hs ctx with
  | nil => exact hhs
  | cons p ps ih => exact ih (offerAll_replying hp hhs ⟨id, p⟩ ctx) _

theorem offerEach_context (id : String) (ps : List Payload) (hs : List H) (ctx : Context) :
    ∃ qs, (offerEach id ps hs ctx).2.1 = { ctx with replies := ctx.replies ++ qs } := by
  induction ps generalizing hs ctx with
  | nil => exact ⟨[], by simp [offerEach]⟩
  | cons p ps ih =>
    obtain ⟨qs, hqs⟩ := callAll_context (fun h v => Handler.read h v ⟨id, p⟩)
      (fun h ctx => .offer h ctx.connectionId ⟨id, p⟩) hs ctx
    obtain ⟨more, hmore⟩ := ih (offerAll ⟨id, p⟩ hs ctx).1 { ctx with replies := ctx.replies ++ qs }
    refine ⟨qs ++ more, ?_⟩
    simp only [offerEach]
    rw [show (offerAll ⟨id, p⟩ hs ctx).2.1 = _ from hqs, hmore, List.append_assoc]

/-- What handlers that only reply answer to payloads, whatever replies wait already. -/
theorem offerEach_answers (hp : Replying P) (hhs : ∀ h ∈ hs, P h) (id : String)
    (ps : List Payload) {ctx : Context} (hctx : ctx.replies = []) :
    ∃ answers, ∀ old, offerEach id ps hs (ctx.behind old) =
      ((offerEach id ps hs ctx).1, ctx.behind (old ++ answers), (offerEach id ps hs ctx).2.2) := by
  obtain ⟨answers, hanswers⟩ := offerEach_context id ps hs ctx
  refine ⟨answers, fun old => ?_⟩
  rw [offerEach_behind hp hhs, hanswers]
  simp [Context.behind, hctx]

theorem takeBuffered_replying (hp : Replying P) (hhs : ∀ h ∈ hs, P h) (ctx : Context) :
    takeBuffered hs ctx = ([], hs, ctx) := by
  induction hs generalizing ctx with
  | nil => rfl
  | cons h hs ih =>
    obtain ⟨hh, hhs⟩ := List.forall_mem_cons.mp hhs
    simp [takeBuffered, hp.keepsNothing h ctx.view hh, ih hhs]

theorem callAll_active (hp : Replying P) (hhs : ∀ h ∈ hs, P h) (note : H → Context → Call H)
    (ctx : Context) :
    (callAll Handler.active note hs ctx).2.1 = ctx ∧
      ∀ h ∈ (callAll Handler.active note hs ctx).1, P h := by
  induction hs generalizing ctx with
  | nil => exact ⟨rfl, hhs⟩
  | cons h hs ih =>
    obtain ⟨hh, hhs⟩ := List.forall_mem_cons.mp hhs
    simp only [callAll]
    rw [absorb_of_no_reply fun p => hp.quiet h ctx.view p hh]
    exact ⟨(ih hhs ctx).1, List.forall_mem_cons.mpr ⟨hp.active h _ hh, (ih hhs ctx).2⟩⟩

end Connection

end Switchboard
