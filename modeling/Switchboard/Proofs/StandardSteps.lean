import Switchboard.Handler.Standard
import Switchboard.Proofs.ConnectionSteps

namespace Switchboard

namespace Connection

section

variable {H : Type} {react : H → View → Reaction H} {note : H → Context → Call H}

theorem absorb_of_no_reply {rs : List Request} (h : ∀ p, .reply p ∉ rs) (ctx : Context) :
    (absorb rs ctx).1 = ctx := by
  induction rs with
  | nil => rfl
  | cons r rs ih =>
    have hrs : ∀ p, .reply p ∉ rs := fun p hp => h p (List.mem_cons_of_mem _ hp)
    cases r with
    | reply p => exact absurd List.mem_cons_self (h p)
    | join => exact ih hrs
    | leave => exact ih hrs
    | say text => exact ih hrs

theorem callAll_handlers (keep : ∀ h v, (react h v).handler = h) (hs : List H) (ctx : Context) :
    (callAll react note hs ctx).1 = hs := by
  induction hs generalizing ctx with
  | nil => rfl
  | cons h hs ih => exact congr (congrArg List.cons (keep h ctx.view)) (ih _)

theorem callAll_of_no_reply (quiet : ∀ h v p, .reply p ∉ (react h v).requests) (hs : List H)
    (ctx : Context) : (callAll react note hs ctx).2.1 = ctx := by
  induction hs generalizing ctx with
  | nil => rfl
  | cons h hs ih =>
    simp only [callAll]
    rw [ih, absorb_of_no_reply (quiet h ctx.view)]

/-- What is asked of the room is asked by one of the handlers, under the id of the connection. -/
theorem mem_callAll_requests {r : RoomRequest} {hs : List H} {ctx : Context}
    (hr : r ∈ (callAll react note hs ctx).2.2.requests) :
    ∃ h ∈ hs, ∃ ctx' : Context, ctx'.connectionId = ctx.connectionId ∧
      r ∈ (absorb (react h ctx'.view).requests ctx').2 := by
  induction hs generalizing ctx with
  | nil => cases hr
  | cons h hs ih =>
    rcases List.mem_append.mp hr with hr | hr
    · exact ⟨h, List.mem_cons_self, ctx, rfl, hr⟩
    · obtain ⟨h', hmem, ctx', hid, hin⟩ := ih hr
      rw [absorb_connectionId] at hid
      exact ⟨h', List.mem_cons_of_mem _ hmem, ctx', hid, hin⟩

theorem callAll_requests_of_mem {r : RoomRequest} {h : H} {hs : List H} (hmem : h ∈ hs)
    (asks : ∀ ctx : Context, r ∈ (absorb (react h ctx.view).requests ctx).2) (ctx : Context) :
    r ∈ (callAll react note hs ctx).2.2.requests := by
  induction hs generalizing ctx with
  | nil => cases hmem
  | cons h' hs ih =>
    rcases List.mem_cons.mp hmem with rfl | hmem
    · exact List.mem_append_left _ (asks ctx)
    · exact List.mem_append_right _ (ih hmem _)

theorem new_requests {C I : Type} [Codec C] [Inspector I] [Handler H] (ctx : Context) (codec : C)
    (inspector : I) (hs : List H) :
    (Connection.new ctx codec inspector hs).2.requests =
      (callAll Handler.active (fun h ctx => .activate h ctx.connectionId) hs
        { ctx with connectionId := Inspector.id inspector }).2.2.requests := by
  simp only [Connection.new]
  cases ctx.waker <;> rfl

end

section

variable {C I : Type} {hs : List StandardHandler} {ctx : Context} {r : RoomRequest}

/-- Only the handlers for the room ask something of it when a connection is made: to join. -/
theorem mem_new_requests [Codec C] [Inspector I] {codec : C} {inspector : I}
    (hr : r ∈ (Connection.new ctx codec inspector hs).2.requests) :
    r = .join ∧ .chat ∈ hs := by
  rw [new_requests] at hr
  obtain ⟨h, hmem, ctx', _, hin⟩ := mem_callAll_requests hr
  by_cases hchat : h = .chat
  · subst hchat
    exact ⟨List.mem_singleton.mp hin, hmem⟩
  · simp [Handler.active, hchat, absorb] at hin

/-- A new connection has its handlers as they were made, and nothing to say. -/
theorem new_standard [Codec C] [Inspector I] (ctx : Context) (codec : C) (inspector : I)
    (hs : List StandardHandler) :
    (Connection.new ctx codec inspector hs).1.context.replies = ctx.replies ∧
      ∃ codec', (Connection.new ctx codec inspector hs).1.stages = some ⟨codec', inspector, hs⟩ ∧
        (codec' = codec ∨ ∃ w, codec' = Codec.setWaker codec w) := by
  have quiet : ∀ (h : StandardHandler) v p, .reply p ∉ (Handler.active h v).requests := by
    intro h v p hp
    by_cases hchat : h = .chat <;> simp [Handler.active, hchat] at hp
  simp only [Connection.new, callAll_of_no_reply quiet]
  refine ⟨trivial, _, congrArg some (congrArg (Stages.mk _ inspector)
    (callAll_handlers (fun _ _ => rfl) hs _)), ?_⟩
  cases ctx.waker with
  | none => exact .inl rfl
  | some w => exact .inr ⟨w, rfl⟩

theorem mem_offerAll_requests {q : Packet} (hr : r ∈ (offerAll q hs ctx).2.2.requests) :
    (∃ text, r = .say ctx.connectionId text) ∧ .chat ∈ hs := by
  obtain ⟨h, hmem, ctx', hid, hin⟩ := mem_callAll_requests hr
  cases h with
  | echo => cases hin
  | uppercase opening =>
    simp only [Handler.read, StandardHandler.requests] at hin
    split at hin <;> cases hin
  | chat =>
    obtain rfl := List.mem_singleton.mp hin
    exact ⟨⟨_, by rw [hid]⟩, hmem⟩

theorem offerAll_handlers (q : Packet) (hs : List StandardHandler) (ctx : Context) :
    (offerAll q hs ctx).1 = hs := callAll_handlers (fun _ _ => rfl) hs ctx

theorem takeBuffered_standard (hs : List StandardHandler) (ctx : Context) :
    takeBuffered hs ctx = ([], hs, ctx) := by
  induction hs generalizing ctx with
  | nil => rfl
  | cons h hs ih =>
    simp only [takeBuffered, Handler.takeBuffered, List.append_nil, ih]

theorem inspectAll_standard [Inspector I] (now : Time) (packets : List Packet)
    (st : Stages C I StandardHandler) (ctx : Context) :
    (inspectAll now packets st ctx).2.1.handlers = st.handlers ∧
      ∀ r ∈ (inspectAll now packets st ctx).2.2.2.requests,
        (∃ sender text, r = .say sender text) ∧ .chat ∈ st.handlers := by
  induction packets generalizing st ctx with
  | nil => exact ⟨rfl, by simp [inspectAll]⟩
  | cons p ps ih =>
    obtain ⟨verdict, j, h⟩ : ∃ verdict j, Inspector.inspect st.inspector now p = (verdict, j) :=
      ⟨_, _, rfl⟩
    cases verdict with
    | pass q =>
      let named := { ctx with connectionId := Inspector.id j }
      obtain ⟨hhandlers, hrequests⟩ := ih
        { st with inspector := j, handlers := (offerAll q st.handlers named).1 }
        (offerAll q st.handlers named).2.1
      have same := offerAll_handlers q st.handlers named
      simp only [inspectAll, h]
      refine ⟨hhandlers.trans same, ?_⟩
      intro r hr
      rcases List.mem_append.mp hr with hr | hr
      · obtain ⟨⟨text, rfl⟩, hchat⟩ := mem_offerAll_requests hr
        exact ⟨⟨_, text, rfl⟩, hchat⟩
      · obtain ⟨hsay, hchat⟩ := hrequests r hr
        exact ⟨hsay, same ▸ hchat⟩
    | filter =>
      simp only [inspectAll, h]
      exact ih _ _
    | reject failure =>
      simp only [inspectAll, h]
      exact ⟨trivial, by simp [Log.call]⟩

variable {c : Connection C I StandardHandler} {st : Stages C I StandardHandler}
  {s : DelayService}

/-- Handlers do not ask to join once they are there; a connection keeps them, or they leave. -/
structure StaysInRoom (hs : List StandardHandler) (c : Connection C I StandardHandler)
    (requests : List RoomRequest) : Prop where
  join : .join ∉ requests
  handlers : ∀ st, c.stages = some st → st.handlers = hs
  leave : c.stages = none → .chat ∈ hs → .leave ∈ requests

theorem staysInRoom_of_open (hst : c.stages = some st) {requests : List RoomRequest}
    (hjoin : .join ∉ requests) : StaysInRoom st.handlers c requests := by
  refine ⟨hjoin, ?_, fun h => ?_⟩
  · intro st' h
    rw [Option.some.inj (hst.symm.trans h)]
  · rw [hst] at h
    cases h

variable [Codec C] [Inspector I]

theorem mem_close_requests (hr : r ∈ (c.close s).2.2.requests) : r = .leave := by
  cases hst : c.stages with
  | none =>
    simp only [close, hst] at hr
    cases hr
  | some st =>
    simp only [close, hst] at hr
    obtain ⟨h, _, ctx', _, hin⟩ := mem_callAll_requests hr
    by_cases hchat : h = .chat
    · subst hchat
      exact List.mem_singleton.mp hin
    · simp [Handler.close, hchat, absorb] at hin

theorem leave_mem_close_requests (hst : c.stages = some st)
    (hchat : .chat ∈ st.handlers) : .leave ∈ (c.close s).2.2.requests := by
  simp only [close, hst]
  exact List.mem_append_right _
    (callAll_requests_of_mem hchat (fun _ => List.mem_singleton.mpr rfl) _)

theorem close_closed (hst : c.stages = some st) :
    (c.close s).1.stages = none ∧ (c.close s).1.context.replies = [] := by
  simp [close, hst, Context.clear]

theorem close_staysInRoom (hst : c.stages = some st) {said : List RoomRequest}
    (hjoin : .join ∉ said) :
    StaysInRoom st.handlers (c.close s).1 (said ++ (c.close s).2.2.requests) := by
  refine ⟨?_, ?_, fun _ hchat => List.mem_append_right _ (leave_mem_close_requests hst hchat)⟩
  · intro h
    rcases List.mem_append.mp h with h | h
    · exact hjoin h
    · cases mem_close_requests h
  · intro st' h
    rw [(close_closed hst).1] at h
    cases h

theorem write_staysInRoom (hst : c.stages = some st) (bytes : Bytes) (s : DelayService) :
    StaysInRoom st.handlers (c.write bytes s).2.1 (c.write bytes s).2.2.2.requests := by
  rcases write_cases hst bytes s with ⟨e, codec, _, hw⟩ | ⟨packets, codec, refusal, left, ctx, log,
    _, hi, hnone, hsome⟩
  · rw [hw]
    let c₁ := { c with stages := some { st with codec } }
    exact close_staysInRoom (c := c₁) rfl List.not_mem_nil
  · obtain ⟨hhandlers, hrequests⟩ := inspectAll_standard s.now packets { st with codec } c.context
    rw [hi] at hhandlers hrequests
    have hjoin : .join ∉ log.requests := by
      intro h
      obtain ⟨⟨_, _, heq⟩, _⟩ := hrequests _ h
      cases heq
    let c₁ := { c with context := ctx, stages := some left }
    rw [← hhandlers]
    cases refusal with
    | none =>
      rw [hnone rfl]
      exact staysInRoom_of_open (c := c₁) rfl hjoin
    | some failure =>
      rw [hsome failure rfl]
      exact close_staysInRoom (c := c₁) rfl hjoin

theorem perform_staysInRoom (hst : c.stages = some st) (s : DelayService) (op : Op) :
    StaysInRoom st.handlers (c.perform s op).1 (c.perform s op).2.2.requests := by
  have still (c' : Connection C I StandardHandler) (st' : Stages C I StandardHandler)
      (h : c'.stages = some st') (same : st'.handlers = st.handlers) :
      StaysInRoom st.handlers c' [] := same ▸ staysInRoom_of_open h List.not_mem_nil
  cases op with
  | write bytes => exact write_staysInRoom hst bytes s
  | read n =>
    simp only [perform, read, hst]
    exact still _ _ rfl (by simp [flush, takeBuffered_standard])
  | close =>
    have nothing : .join ∉ ([] : List RoomRequest) := List.not_mem_nil
    exact close_staysInRoom hst nothing
  | updateInterest => exact still (c.updateInterest s) st hst rfl
  | timedOut =>
    simp only [perform, timedOut, hst]
    exact still _ _ rfl rfl

end

end Connection

end Switchboard
