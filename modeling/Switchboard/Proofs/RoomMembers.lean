import Switchboard.Proofs.Admission
import Switchboard.Proofs.HubApart

namespace Switchboard

open Connection

theorem Table.mem_insert {α : Type} {t : Table α} {name : String} {value : α} {e : String × α}
    (h : e ∈ (t.insert name value).entries) : e = (name, value) ∨ e ∈ t.entries :=
  mem_insertEntry h

/-- Those who only join add at most themselves. -/
theorem RoomRequest.mem_enterAll_of_join {token : Nat} {peer : Peer} {room : Table Nat}
    {rs : List RoomRequest} (hjoin : ∀ r ∈ rs, r = .join) {m : String × Nat}
    (hm : m ∈ (enterAll token peer room rs).entries) :
    m ∈ room.entries ∨ m = (peer.text, token) ∧ rs ≠ [] := by
  induction rs generalizing room with
  | nil => exact .inl hm
  | cons r rs ih =>
    obtain ⟨rfl, hrs⟩ := List.forall_mem_cons.mp hjoin
    rcases ih hrs hm with hin | ⟨heq, _⟩
    · rcases Table.mem_insert hin with heq | hin
      · exact .inr ⟨heq, List.cons_ne_nil _ _⟩
      · exact .inl hin
    · exact .inr ⟨heq, List.cons_ne_nil _ _⟩

namespace World

variable {w : World StandardHandler} {token : Nat}
  {c c' : Connection BuiltCodec BuiltInspector StandardHandler} {s : DelayService}
  {requests : List RoomRequest} {op : Op} {log : Log StandardHandler}

def heardBy {H : Type} (w : World H) (token : Nat) : List Packet := Talk.packetsFor token w.heard

def encodedFor {H : Type} (w : World H) (token : Nat) : List Packet :=
  (w.encoded.filter fun x => x.1 = token).map Prod.snd

theorem encodedFor_hand {H : Type} (w : World H) (token : Nat) (ps : List Packet) (u : Nat) :
    (w.hand token ps).encodedFor u = w.encodedFor u ++ if u = token then ps else [] := by
  by_cases hu : u = token
  · subst hu
    simp [encodedFor, hand, List.filter_map, Function.comp_def]
  · simp [encodedFor, hand, List.filter_map, Function.comp_def, hu, Ne.symm hu]

/-- A member of the room with the key under which it is there. -/
def IsMember (w : World StandardHandler) (m : String × Nat) : Prop :=
  ∃ c st, w.hub.get? m.2 = some c ∧ c.stages = some st ∧ .chat ∈ st.handlers ∧
    c.context.peer.text = m.1

/-- Members of the room are connected, and where nobody was let in all that was told is encoded or
held, and nothing else. -/
structure Discreet (w : World StandardHandler) : Prop where
  apart : w.Apart
  members : ∀ m ∈ w.hub.room.entries, w.IsMember m
  listeners : ∀ x ∈ w.heard, x.listener < w.nextToken
  owners : ∀ x ∈ w.encoded, x.1 < w.nextToken
  waiting : ∀ t c, w.hub.get? t = some c →
    Waiting (w.encodedFor t) (w.heardBy t) c w.hub.delays

theorem heardBy_settle (w : World StandardHandler) (token : Nat)
    (c : Connection BuiltCodec BuiltInspector StandardHandler) (s : DelayService)
    (requests : List RoomRequest) (u : Nat) :
    (w.settle token c s requests).heardBy u = w.heardBy u ++ Talk.packetsFor u
      (RoomRequest.talkAll token c.context.peer w.hub.room requests) :=
  Talk.packetsFor_append u _ _

theorem IsMember.settle {m : String × Nat} (h : w.IsMember m) (hne : m.2 ≠ token) :
    (w.settle token c s requests).IsMember m := by
  obtain ⟨d, st, hd, hst, hchat, hpeer⟩ := h
  have hget : (w.settle token c s requests).hub.get? m.2 = some (d.hear (Talk.packetsFor m.2
      (RoomRequest.talkAll token c.context.peer w.hub.room requests))) := by
    rw [settle_get?, if_neg hne, hd]
    rfl
  exact ⟨_, st, hget, hst, hchat, hpeer⟩

theorem isMember_settle {st : Stages BuiltCodec BuiltInspector StandardHandler}
    (hst : c.stages = some st) (hchat : .chat ∈ st.handlers) :
    (w.settle token c s requests).IsMember (c.context.peer.text, token) := by
  have hget : (w.settle token c s requests).hub.get? token = some (c.hear (Talk.packetsFor token
      (RoomRequest.talkAll token c.context.peer w.hub.room requests))) := by
    rw [settle_get?, if_pos rfl]
    rfl
  exact ⟨_, st, hget, hst, hchat, rfl⟩

/-- Who is told something is an open connection other than the speaker. -/
theorem settle_waiting (taken : Nat → List Packet) {told : Nat → List Packet} {talks : List Talk}
    (htalks : RoomRequest.talkAll token c.context.peer w.hub.room requests = talks)
    (hw : ∀ u d, u ≠ token → w.hub.get? u = some d → Waiting (taken u) (told u) d s)
    (hc : Waiting (taken token) (told token) c s)
    (hearers : ∀ x ∈ talks, x.listener ≠ token ∧
      ∃ d, w.hub.get? x.listener = some d ∧ d.isOpen = true)
    {u : Nat} {d : Connection BuiltCodec BuiltInspector StandardHandler}
    (hd : (w.settle token c s requests).hub.get? u = some d) :
    Waiting (taken u) (told u ++ Talk.packetsFor u talks) d
      (w.settle token c s requests).hub.delays := by
  obtain ⟨d₀, hd₀, rfl⟩ := settle_cases hd
  rw [htalks]
  have hopen : Talk.packetsFor u talks = [] ∨ d₀.isOpen = true := by
    by_cases hx : ∃ x ∈ talks, x.listener = u
    · obtain ⟨x, hx, rfl⟩ := hx
      obtain ⟨hne, e, he, hopen⟩ := hearers x hx
      rcases hd₀ with ⟨heq, _⟩ | ⟨_, hd₀⟩
      · exact absurd heq hne
      · obtain rfl := Option.some.inj (he.symm.trans hd₀)
        exact .inr hopen
    · exact .inl (Talk.packetsFor_eq_nil fun x hx' heq => hx ⟨x, hx', heq⟩)
  have before : Waiting (taken u) (told u) d₀ s := by
    rcases hd₀ with ⟨rfl, rfl⟩ | ⟨hne, hd₀⟩
    · exact hc
    · exact hw u d₀ hne hd₀
  exact (before.hear hopen).of_idle fun k _ => settle_idle

/-- What one member says is for other members. -/
theorem Discreet.talk (h : w.Discreet) (hmember : w.hub.get? token = some c)
    (hpeer : c'.context.peer = c.context.peer) (hjoin : .join ∉ requests) {x : Talk}
    (hx : x ∈ RoomRequest.talkAll token c'.context.peer w.hub.room requests) :
    x.speaker = token ∧ x.listener ≠ token ∧
      ∃ d st, w.hub.get? x.listener = some d ∧ d.stages = some st ∧ .chat ∈ st.handlers ∧
        d.context.peer.text ≠ c.context.peer.text ∧
        ∃ sender text, .say sender text ∈ requests ∧ x.packet = Hub.spoken sender text := by
  obtain ⟨hs, sender, text, hsay, hp, m, hm, hne, hl⟩ := RoomRequest.mem_talkAll hjoin hx
  obtain ⟨d, st, hd, hst, hchat, hkey⟩ := h.members m hm
  rw [hl] at hd
  rw [← hkey, hpeer] at hne
  refine ⟨hs, ?_, d, st, hd, hst, hchat, hne, sender, text, hsay, hp⟩
  intro heq
  rw [heq, hmember] at hd
  obtain rfl := Option.some.inj hd
  exact hne rfl

theorem perform_not_join (hp : c.perform w.hub.delays op = (c', s, log)) :
    .join ∉ log.requests := by
  cases hst : c.stages with
  | none =>
    have hnil := (perform_of_closed (s := w.hub.delays) hst op).2.2
    rw [hp] at hnil
    obtain rfl : log = {} := hnil
    exact List.not_mem_nil
  | some st =>
    have hstays := perform_staysInRoom hst w.hub.delays op
    rw [hp] at hstays
    exact hstays.join

/-- Whoever has done something is still a member, or has left. -/
theorem Discreet.member (h : w.Discreet) (hc : w.hub.get? token = some c)
    (hp : c.perform w.hub.delays op = (c', s, log))
    (hkeeps : Keeps c w.hub.delays c' s) {m : String × Nat}
    (hm : m ∈ (w.settle token c' s log.requests).hub.room.entries) :
    (w.settle token c' s log.requests).IsMember m := by
  rw [settle_room] at hm
  obtain ⟨hin, hleft⟩ := RoomRequest.mem_enterAll (perform_not_join hp) hm
  have hmember := h.members m hin
  by_cases hne : m.2 = token
  -- its own entry: it is gone if the connection was closed, since all its handlers have left
  · obtain ⟨d, st, hd, hst, hchat, hkey⟩ := hmember
    rw [hne, hc] at hd
    obtain rfl := Option.some.inj hd
    have hstays := perform_staysInRoom hst w.hub.delays op
    rw [hp] at hstays
    have hkey' : c'.context.peer.text = m.1 := by rw [hkeeps.peer, hkey]
    cases hst' : c'.stages with
    | none => exact absurd hkey'.symm (hleft (hstays.leave hst' hchat))
    | some st' =>
      have hself : m = (c'.context.peer.text, token) := Prod.ext hkey'.symm hne
      rw [hself]
      exact isMember_settle hst' ((hstays.handlers st' hst').symm ▸ hchat)
  · exact hmember.settle hne

theorem Discreet.act (h : w.Discreet) (token : Nat) (op : Op) : (w.act token op).Discreet := by
  rcases act_cases w token op with hsame | ⟨c, c', s, log, hc, hp, hkeeps, hact⟩
  · rwa [hsame]
  have hapart := h.apart.act token op
  have hperform := (h.waiting token c hc).perform op
  rw [hp] at hperform
  rw [hact] at hapart ⊢
  have htalk := fun x hx => h.talk (x := x) hc hkeeps.peer (perform_not_join hp) hx
  refine ⟨hapart, fun m hm => h.member hc hp hkeeps hm, ?_, ?_, ?_⟩
  · intro x hx
    rcases List.mem_append.mp hx with hx | hx
    · exact h.listeners x hx
    · obtain ⟨_, _, d, _, hd, _⟩ := htalk x hx
      exact h.apart.tokens _ d hd
  · intro x hx
    rcases List.mem_append.mp hx with hx | hx
    · exact h.owners x hx
    · obtain ⟨p, _, rfl⟩ := List.mem_map.mp hx
      exact h.apart.tokens token c hc
  · intro u d hd
    rw [heardBy_settle]
    refine settle_waiting (w := w.hand token (c.encodes op))
      (w.hand token (c.encodes op)).encodedFor rfl ?_ ?_ ?_ hd
    -- the worker may have new packets now, but none for the channels of others
    · intro v e hv he
      rw [encodedFor_hand, if_neg hv, List.append_nil]
      refine (h.waiting v e he).of_idle fun k hk => hkeeps.others k fun hkc => ?_
      exact h.apart.disjoint v token e c hv he hc k hk hkc
    · rw [encodedFor_hand, if_pos rfl]
      exact hperform
    · intro x hx
      obtain ⟨_, hne, d, st, hd, hst, _⟩ := htalk x hx
      exact ⟨hne, d, hd, by simp [isOpen, hst]⟩

theorem Discreet.connect (h : w.Discreet) (registry : HandlerRegistry StandardHandler)
    {config : ListenerConfig} {secret : String} {timeout : UInt64}
    (hconfig : config.inspector = .tokenAuth secret timeout) (serverId : String) (peer : Peer)
    (scheduler : Bool) (waker : Option Waker) :
    (w.connect registry config serverId peer scheduler waker).Discreet := by
  have hapart := h.apart.connect registry config serverId peer scheduler waker
  rcases connect_cases w registry config serverId peer scheduler waker with hsame |
    ⟨codec, nextKey, log, c, hle, hown, hsilent, hnew, hconnect⟩
  · rwa [hsame]
  rw [hconnect] at hapart ⊢
  have hrequests : ∀ r ∈ log.requests, r = .join ∧ .chat ∈ registry.makeAll config.handlers :=
    fun r hr => mem_new_requests (by rw [hnew]; exact hr)
  have hpeer := new_peer (.new serverId config.id peer waker) codec
    (config.inspector.build peer w.hub.delays.now) (registry.makeAll config.handlers)
  obtain ⟨hreplies, codec', hst, hcodec'⟩ := new_standard (.new serverId config.id peer waker) codec
    (config.inspector.build peer w.hub.delays.now) (registry.makeAll config.handlers)
  rw [hnew] at hpeer hreplies hst
  have htalk : RoomRequest.talkAll w.nextToken c.context.peer w.hub.room log.requests = [] :=
    RoomRequest.talkAll_of_silent fun sender text hr => by cases (hrequests _ hr).1
  have hfresh : w.heardBy w.nextToken = [] :=
    Talk.packetsFor_eq_nil fun x hx => Nat.ne_of_lt (h.listeners x hx)
  have hunused : w.encodedFor w.nextToken = [] := by
    simpa [encodedFor] using fun t p hx => Nat.ne_of_lt (h.owners (t, p) hx)
  have hmade : Waiting (w.encodedFor w.nextToken) (w.heardBy w.nextToken) c w.hub.delays := by
    refine waiting_of_open hst (congrArg (fun i => i.build peer w.hub.delays.now) hconfig)
      fun _ => ⟨?_, fun _ => ?_⟩
    · rw [hunused, hfresh, hreplies]
      rfl
    · have hquiet := hsilent w.hub.delays h.apart.idle
      rcases hcodec' with rfl | ⟨waker', rfl⟩
      · exact hquiet
      · exact LawfulChanneled.setWaker_silent codec w.hub.delays waker' hquiet
  refine ⟨hapart, ?_, ?_, fun x hx => Nat.lt_succ_of_lt (h.owners x hx), ?_⟩
  · intro m hm
    rw [settle_room] at hm
    rcases RoomRequest.mem_enterAll_of_join (fun r hr => (hrequests r hr).1) hm with
      hin | ⟨rfl, hne⟩
    · have hmember := h.members m hin
      obtain ⟨d, _, hd, _⟩ := id hmember
      exact IsMember.settle (w := { w with nextToken := w.nextToken + 1, nextKey }) hmember
        (Nat.ne_of_lt (h.apart.tokens _ d hd))
    · obtain ⟨r, hr⟩ := List.exists_mem_of_ne_nil _ hne
      exact isMember_settle hst (hrequests r hr).2
  · intro x hx
    rcases List.mem_append.mp hx with hx | hx
    · exact Nat.lt_succ_of_lt (h.listeners x hx)
    · rw [htalk] at hx
      cases hx
  · intro u d hd
    rw [heardBy_settle]
    rw [htalk]
    exact settle_waiting w.encodedFor htalk (fun v e _ he => h.waiting v e he) hmade (by simp) hd

theorem Discreet.forget (h : w.Discreet)
    (hclosed : ∀ c, w.hub.get? token = some c → c.stages = none) :
    (w.forget token).Discreet := by
  refine ⟨h.apart.forget token, ?_, h.listeners, h.owners,
    fun u d hd => h.waiting u d (get?_of_forget hd).2⟩
  intro m hm
  obtain ⟨d, st, hd, hst, hchat, hkey⟩ := h.members m hm
  have hne : m.2 ≠ token := by
    intro heq
    rw [heq] at hd
    rw [hclosed d hd] at hst
    cases hst
  exact ⟨d, st, (forget_get? w token m.2 hne).trans hd, hst, hchat, hkey⟩

theorem act_close_closed {H : Type} [Handler H] {w : World H}
    {c : Connection BuiltCodec BuiltInspector H}
    (h : (w.act token .close).hub.get? token = some c) : c.stages = none := by
  unfold World.act at h
  split at h
  next hnone =>
    rw [hnone] at h
    cases h
  next d _ =>
    obtain ⟨d', ⟨_, rfl⟩ | ⟨hne, _⟩, rfl⟩ := settle_cases h
    · have hclosed : (d.close w.hub.delays).1.stages = none := by
        simpa [isOpen] using close_isOpen d w.hub.delays
      exact hclosed
    · exact absurd rfl hne

theorem Discreet.setDelays (h : w.Discreet) (hs : ∀ k, w.hub.delays.Idle k → s.Idle k) :
    (w.setDelays s).Discreet :=
  ⟨h.apart.setDelays hs, h.members, h.listeners, h.owners,
    fun t c hc => (h.waiting t c hc).of_idle fun k _ => hs k⟩

end World

/-- New connections let nobody in without the secret. -/
def HubEvent.Gated : HubEvent → Prop
  | .connect config .. => ∃ secret timeout, config.inspector = .tokenAuth secret timeout
  | _ => True

namespace World

variable {w : World StandardHandler}

theorem Discreet.step (h : w.Discreet) (registry : HandlerRegistry StandardHandler) (e : HubEvent)
    (hgated : e.Gated) : (w.step registry e).Discreet := by
  cases e with
  | connect config serverId peer scheduler waker =>
    obtain ⟨secret, timeout, hconfig⟩ := hgated
    exact h.connect registry hconfig serverId peer scheduler waker
  | act token op => exact h.act token op
  | drop token => exact (h.act token .close).forget fun c hc => act_close_closed hc
  | tick => exact h.setDelays fun k hk => ⟨hk.inbox, hk.queue, hk.channel⟩
  | takeSubmission => exact h.setDelays fun k hk => hk.takeSubmission
  | fire => exact h.setDelays fun k hk => hk.fire

theorem run_discreet (registry : HandlerRegistry StandardHandler) {events : List HubEvent}
    (hgated : ∀ e ∈ events, e.Gated) : (run registry events).Discreet := by
  induction events using List.reverseRecOn with
  | nil =>
    refine ⟨apart_empty, ?_, ?_, ?_, fun t c hc => ?_⟩
    · exact fun m hm => absurd hm List.not_mem_nil
    · exact fun x hx => absurd hx List.not_mem_nil
    · exact fun x hx => absurd hx List.not_mem_nil
    · cases hc
  | append_singleton events e ih =>
    rw [run_concat]
    exact (ih fun e' he' => hgated e' (List.mem_append_left _ he')).step registry e
      (hgated e (List.mem_append_right _ List.mem_cons_self))

end World

end Switchboard
