import Switchboard.Proofs.RoomTalk
import Switchboard.Proofs.StandardSteps

namespace Switchboard

namespace TokenGate

/-- What a gate says to a packet, before and after somebody was let in. -/
theorem inspect_cases (g : TokenGate) (now : Time) (p : Packet) :
    ∃ g', (g.authenticated = true → g'.idle.id = g.idle.id) ∧
      (g.authenticated = true ∧ g'.authenticated = true ∧
          g.inspect now p = (.pass (p.withSource g.idle.id), g') ∨
        g.authenticated = false ∧ g'.authenticated = true ∧ g.inspect now p = (.filter, g') ∨
        g.authenticated = false ∧ g'.authenticated = false ∧
          ∃ failure, g.inspect now p = (.reject failure, g')) := by
  cases hg : g.authenticated with
  | true => exact ⟨{ g with idle := { g.idle with lastSeen := now } }, by simp [inspect, hg]⟩
  | false =>
    cases hu : user? g.secret p.payload with
    | some user =>
      refine ⟨{ g with
        authenticated := true
        idle := { g.idle with lastSeen := now, id := identity user g.peer } }, ?_⟩
      simp [inspect, hg, hu]
    | none => exact ⟨{ g with idle := { g.idle with lastSeen := now } }, by simp [inspect, hg, hu]⟩

end TokenGate

namespace Connection

variable {C : Type} {taken told : List Packet}
  {c : Connection C BuiltInspector StandardHandler} {st : Stages C BuiltInspector StandardHandler}
  {s : DelayService} {g : TokenGate}

/-- Behind a gate nothing is said and nothing queued until somebody is let in, and then what is said
is said under the name of who was let in. -/
structure Admits (g : TokenGate) (packets : List Packet) (ctx : Context)
    (refusal : Option AuthenticationFailure) (g' : TokenGate) (ctx' : Context)
    (requests : List RoomRequest) : Prop where
  name : g.authenticated = true → g'.idle.id = g.idle.id
  before : g'.authenticated = false → g.authenticated = false ∧ ctx'.replies = ctx.replies ∧
    requests = [] ∧ (refusal = none → packets = [])
  refused : refusal ≠ none → g'.authenticated = false
  said : ∀ sender text, .say sender text ∈ requests → sender = g'.idle.id

theorem inspectAll_admits (now : Time) (packets : List Packet)
    (st : Stages C BuiltInspector StandardHandler) (hst : st.inspector = .tokenAuth g)
    (ctx : Context) :
    ∃ g', (inspectAll now packets st ctx).2.1.inspector = .tokenAuth g' ∧
      Admits g packets ctx (inspectAll now packets st ctx).1 g'
        (inspectAll now packets st ctx).2.2.1 (inspectAll now packets st ctx).2.2.2.requests := by
  induction packets generalizing st ctx g with
  | nil => exact ⟨g, hst, fun _ => rfl, fun h => ⟨h, rfl, rfl, fun _ => rfl⟩, by simp [inspectAll],
      by simp [inspectAll]⟩
  | cons p ps ih =>
    obtain ⟨g₁, hname, ⟨hg, hg₁, hv⟩ | ⟨hg, hg₁, hv⟩ | ⟨hg, hg₁, failure, hv⟩⟩ :=
      g.inspect_cases now p
    -- somebody is in already, comes in with this packet, or is refused
    · have h : Inspector.inspect st.inspector now p =
          (.pass (p.withSource g.idle.id), .tokenAuth g₁) := by
        simp [Inspector.inspect, BuiltInspector.inspect, hst, hv]
      let named := { ctx with connectionId := g₁.idle.id }
      let q := p.withSource g.idle.id
      obtain ⟨g', hinspector, hadmits⟩ := ih
        { st with inspector := .tokenAuth g₁, handlers := (offerAll q st.handlers named).1 }
        rfl (offerAll q st.handlers named).2.1
      have later := hadmits.name hg₁
      simp only [inspectAll, h]
      refine ⟨g', hinspector, fun _ => later.trans (hname hg), ?_, hadmits.refused, ?_⟩
      · intro hg'
        rw [(hadmits.before hg').1] at hg₁
        cases hg₁
      · intro sender text hsay
        rcases List.mem_append.mp hsay with hsay | hsay
        · obtain ⟨⟨_, heq⟩, _⟩ := mem_offerAll_requests hsay
          cases heq
          exact later.symm
        · exact hadmits.said sender text hsay
    · have h : Inspector.inspect st.inspector now p = (.filter, .tokenAuth g₁) := by
        simp [Inspector.inspect, BuiltInspector.inspect, hst, hv]
      obtain ⟨g', hinspector, hadmits⟩ := ih { st with inspector := .tokenAuth g₁ } rfl
        { ctx with connectionId := g₁.idle.id }
      simp only [inspectAll, h]
      refine ⟨g', hinspector, fun h => ?_, ?_, hadmits.refused, hadmits.said⟩
      · rw [hg] at h
        cases h
      · intro hg'
        rw [(hadmits.before hg').1] at hg₁
        cases hg₁
    · have h : Inspector.inspect st.inspector now p = (.reject failure, .tokenAuth g₁) := by
        simp [Inspector.inspect, BuiltInspector.inspect, hst, hv]
      simp only [inspectAll, h]
      refine ⟨g₁, rfl, hname, fun _ => ⟨hg, rfl, rfl, fun h => by cases h⟩, fun _ => hg₁, ?_⟩
      intro sender text hsay
      cases hsay

theorem encodes_standard (hst : c.stages = some st) (n : Nat) :
    c.encodes (.read n) = c.context.replies := by
  simp [encodes, hst, takeBuffered_standard]

/-- What a connection behind a gate that has let nobody in was told, it has encoded or holds, and
nothing else; as long as it has encoded nothing it is silent. -/
def Waiting [Channeled C] (taken told : List Packet)
    (c : Connection C BuiltInspector StandardHandler) (s : DelayService) : Prop :=
  match c.stages with
  | none => c.context.replies = []
  | some st => ∃ g, st.inspector = .tokenAuth g ∧ (g.authenticated = false →
      taken ++ c.context.replies = told ∧ (taken = [] → Silent st.codec s))

section

variable [Channeled C]

theorem waiting_of_closed (hst : c.stages = none) (hr : c.context.replies = []) :
    Waiting taken told c s := by
  rw [Waiting, hst]
  exact hr

theorem Waiting.closed (h : Waiting taken told c s) (hst : c.stages = none) :
    c.context.replies = [] := by
  rw [Waiting, hst] at h
  exact h

theorem waiting_of_open (hst : c.stages = some st) (hg : st.inspector = .tokenAuth g)
    (h : g.authenticated = false →
      taken ++ c.context.replies = told ∧ (taken = [] → Silent st.codec s)) :
    Waiting taken told c s := by
  rw [Waiting, hst]
  exact ⟨g, hg, h⟩

theorem Waiting.opened (h : Waiting taken told c s) (hst : c.stages = some st) :
    ∃ g, st.inspector = .tokenAuth g ∧ (g.authenticated = false →
      taken ++ c.context.replies = told ∧ (taken = [] → Silent st.codec s)) := by
  rw [Waiting, hst] at h
  exact h

theorem Waiting.hear (h : Waiting taken told c s) {ps : List Packet}
    (hopen : ps = [] ∨ c.isOpen = true) :
    Waiting taken (told ++ ps) (c.hear ps) s := by
  cases hst : c.stages with
  | none =>
    rcases hopen with rfl | hopen
    · simpa using h
    · simp [isOpen, hst] at hopen
  | some st =>
    obtain ⟨g, hg, hwait⟩ := h.opened hst
    refine waiting_of_open (c := c.hear ps) hst hg fun hout => ?_
    obtain ⟨htaken, hsilent⟩ := hwait hout
    refine ⟨?_, hsilent⟩
    rw [← htaken, List.append_assoc]
    rfl

end

variable [Codec C] [Channeled C]

theorem close_waiting (hst : c.stages = some st) :
    Waiting taken told (c.close s).1 (c.close s).2.1 :=
  waiting_of_closed (close_closed hst).1 (close_closed hst).2

theorem write_says {sender text : String} (h : Waiting taken told c s) (hst : c.stages = some st)
    {bytes : Bytes} (hsay : .say sender text ∈ (c.write bytes s).2.2.2.requests) :
    ∃ left g, (c.write bytes s).2.1.stages = some left ∧ left.inspector = .tokenAuth g ∧
      g.authenticated = true ∧ .chat ∈ left.handlers ∧ sender = g.idle.id := by
  obtain ⟨g, hg, _⟩ := h.opened hst
  rcases write_cases hst bytes s with ⟨e, codec, _, hw⟩ | ⟨packets, codec, refusal, left, ctx, log,
    hd, hi, hnone, hsome⟩
  · rw [hw] at hsay
    cases mem_close_requests hsay
  · obtain ⟨g', hg', hadmits⟩ :=
      inspectAll_admits s.now packets { st with codec } hg c.context
    obtain ⟨hhandlers, hrequests⟩ := inspectAll_standard s.now packets { st with codec } c.context
    rw [hi] at hg' hadmits hhandlers hrequests
    have admitted : log.requests ≠ [] → g'.authenticated = true := by
      intro hne
      by_contra hout
      exact hne (hadmits.before (by simpa using hout)).2.2.1
    cases refusal with
    | none =>
      rw [hnone rfl] at hsay ⊢
      refine ⟨left, g', rfl, hg', admitted (List.ne_nil_of_mem hsay), ?_, hadmits.said _ _ hsay⟩
      rw [hhandlers]
      exact (hrequests _ hsay).2
    | some failure =>
      rw [hsome failure rfl] at hsay
      rcases List.mem_append.mp hsay with hsay | hsay
      · have hin := admitted (List.ne_nil_of_mem hsay)
        rw [hadmits.refused (by simp)] at hin
        cases hin
      · cases mem_close_requests hsay

/-- Only a connection that has let somebody in says something, and it does so when it is given
bytes. -/
theorem perform_says {sender text : String} (h : Waiting taken told c s) {op : Op}
    (hsay : .say sender text ∈ (c.perform s op).2.2.requests) :
    (∃ bytes, op = .write bytes) ∧
      ∃ left g, (c.perform s op).1.stages = some left ∧ left.inspector = .tokenAuth g ∧
        g.authenticated = true ∧ .chat ∈ left.handlers ∧ sender = g.idle.id := by
  cases hst : c.stages with
  | none =>
    rw [(perform_of_closed hst op).2.2] at hsay
    cases hsay
  | some st =>
    cases op with
    | write bytes => exact ⟨⟨bytes, rfl⟩, write_says h hst hsay⟩
    | read n => cases hsay
    | close => cases mem_close_requests hsay
    | updateInterest => cases hsay
    | timedOut => cases hsay

variable [LawfulChanneled C]

open LawfulChanneled

theorem Waiting.of_idle (h : Waiting taken told c s) {s' : DelayService}
    (hidle : ∀ k ∈ c.channels, s.Idle k → s'.Idle k) : Waiting taken told c s' := by
  cases hst : c.stages with
  | none => exact waiting_of_closed hst (h.closed hst)
  | some st =>
    obtain ⟨g, hg, hwait⟩ := h.opened hst
    rw [channels_of_stages hst] at hidle
    refine waiting_of_open hst hg fun hout => ?_
    exact ⟨(hwait hout).1, fun hnil => silent_of_idle st.codec s s' hidle ((hwait hout).2 hnil)⟩

theorem Waiting.write (h : Waiting taken told c s) (hst : c.stages = some st) (bytes : Bytes) :
    Waiting taken told (c.write bytes s).2.1 (c.write bytes s).2.2.1 := by
  obtain ⟨g, hg, hwait⟩ := h.opened hst
  rcases write_cases hst bytes s with ⟨e, codec, _, hw⟩ | ⟨packets, codec, refusal, left, ctx, log,
    hd, hi, hnone, hsome⟩
  · rw [hw]
    let c₁ := { c with stages := some { st with codec } }
    exact close_waiting (c := c₁) rfl
  · let c₁ := { c with context := ctx, stages := some left }
    cases refusal with
    | none =>
      obtain ⟨g', hg', hadmits⟩ :=
        inspectAll_admits s.now packets { st with codec } hg c.context
      have hcodec := (inspectAll_frame s.now packets { st with codec } c.context).1
      rw [hi] at hg' hadmits hcodec
      rw [hnone rfl]
      refine waiting_of_open (c := c₁) rfl hg' fun hout => ?_
      obtain ⟨hbefore, hreplies, _⟩ := hadmits.before hout
      obtain ⟨htaken, hsilent⟩ := hwait hbefore
      refine ⟨hreplies ▸ htaken, fun hnil => ?_⟩
      have := decode_silent st.codec s c.id bytes (hsilent hnil)
      rw [hd] at this
      rw [hcodec]
      exact this
    | some failure =>
      rw [hsome failure rfl]
      exact close_waiting (c := c₁) rfl

theorem Waiting.read (h : Waiting taken told c s) (hst : c.stages = some st) (n : Nat) :
    Waiting (taken ++ c.encodes (.read n)) told (c.read n s).2.1 (c.read n s).2.2 := by
  obtain ⟨g, hg, hwait⟩ := h.opened hst
  rw [encodes_standard hst]
  simp only [Connection.read, hst]
  refine waiting_of_open rfl hg fun hout => ?_
  obtain ⟨htaken, hsilent⟩ := hwait hout
  have hnone : (flush st c.context s).2.1.replies = [] := by
    simp only [flush, takeBuffered_standard]
  refine ⟨by rw [hnone, List.append_nil, htaken], fun hnil => ?_⟩
  obtain ⟨htaken, hreplies⟩ := List.append_eq_nil_iff.mp hnil
  obtain ⟨_, hsame, hread⟩ := read_silent st.codec n s (hsilent htaken)
  simp only [flush, hreplies, takeBuffered_standard, Codec.encodeEach]
  rw [hsame]
  exact hread

/-- Nothing that is done to such a connection makes it hold more, and what it no longer holds it has
encoded. -/
theorem Waiting.perform (h : Waiting taken told c s) (op : Op) :
    Waiting (taken ++ c.encodes op) told (c.perform s op).1 (c.perform s op).2.1 := by
  cases hst : c.stages with
  | none =>
    obtain ⟨hclosed, hcontext, _⟩ := perform_of_closed (s := s) hst op
    exact waiting_of_closed hclosed (hcontext ▸ h.closed hst)
  | some st =>
    obtain ⟨g, hg, hwait⟩ := h.opened hst
    cases op with
    | write bytes =>
      have hnone : c.encodes (.write bytes) = [] := rfl
      rw [hnone, List.append_nil]
      exact h.write hst bytes
    | read n => exact h.read hst n
    | close => exact close_waiting hst
    | updateInterest =>
      have hnone : c.encodes .updateInterest = [] := rfl
      rw [hnone, List.append_nil]
      exact waiting_of_open (c := c.updateInterest s) hst hg hwait
    | timedOut =>
      have hnone : c.encodes .timedOut = [] := rfl
      rw [hnone, List.append_nil]
      simp only [Connection.perform, timedOut, hst]
      exact waiting_of_open rfl hg hwait

end Connection

end Switchboard
