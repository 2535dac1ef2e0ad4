import Mathlib.Data.List.Induction
import Switchboard.Proofs.HubRun

namespace Switchboard

open Connection

namespace World

variable {H : Type} {w : World H} {token : Nat} {c : Connection BuiltCodec BuiltInspector H}
  {s : DelayService} {requests : List RoomRequest}

/-- Connections have different channels, and nothing is under way on those that are free. -/
structure Apart (w : World H) : Prop where
  tokens : ∀ t c, w.hub.get? t = some c → t < w.nextToken
  idle : ∀ k, w.nextKey ≤ k → w.hub.delays.Idle k
  keys : ∀ t c, w.hub.get? t = some c → ∀ k ∈ c.channels, k < w.nextKey
  disjoint : ∀ t u c d, t ≠ u → w.hub.get? t = some c → w.hub.get? u = some d →
    ∀ k ∈ c.channels, k ∉ d.channels

theorem settle_get? (w : World H) (token : Nat) (c : Connection BuiltCodec BuiltInspector H)
    (s : DelayService) (requests : List RoomRequest) (u : Nat) :
    (w.settle token c s requests).hub.get? u = (if u = token then some c else w.hub.get? u).map
      (hear (Talk.packetsFor u
        (RoomRequest.talkAll token c.context.peer w.hub.room requests))) :=
  (Hub.settle_spec w.hub token c s requests).1 u

theorem settle_cases {u : Nat} {d : Connection BuiltCodec BuiltInspector H}
    (h : (w.settle token c s requests).hub.get? u = some d) :
    ∃ d₀, (u = token ∧ d₀ = c ∨ u ≠ token ∧ w.hub.get? u = some d₀) ∧
      d = d₀.hear (Talk.packetsFor u
        (RoomRequest.talkAll token c.context.peer w.hub.room requests)) :=
  Hub.settle_cases h

theorem settle_room (w : World H) (token : Nat) (c : Connection BuiltCodec BuiltInspector H)
    (s : DelayService) (requests : List RoomRequest) :
    (w.settle token c s requests).hub.room =
      RoomRequest.enterAll token c.context.peer w.hub.room requests :=
  (Hub.settle_spec w.hub token c s requests).2.1

theorem settle_idle {k : Nat} (h : s.Idle k) : (w.settle token c s requests).hub.delays.Idle k :=
  (Hub.settle_spec w.hub token c s requests).2.2 k h

theorem Apart.settle (h : w.Apart) (ht : token < w.nextToken)
    (hs : ∀ k, w.nextKey ≤ k → s.Idle k) (hk : ∀ k ∈ c.channels, k < w.nextKey)
    (hother : ∀ u d, u ≠ token → w.hub.get? u = some d → ∀ k ∈ c.channels, k ∉ d.channels) :
    (w.settle token c s requests).Apart := by
  refine ⟨?_, fun k hle => settle_idle (hs k hle), ?_, ?_⟩
  · intro u d hd
    obtain ⟨d₀, ⟨rfl, _⟩ | ⟨_, hd₀⟩, _⟩ := settle_cases hd
    · exact ht
    · exact h.tokens u d₀ hd₀
  · intro u d hd
    obtain ⟨d₀, ⟨_, rfl⟩ | ⟨_, hd₀⟩, rfl⟩ := settle_cases hd
    · exact hk
    · exact h.keys u d₀ hd₀
  · intro u v d e huv hd he
    obtain ⟨d₀, hd₀, rfl⟩ := settle_cases hd
    obtain ⟨e₀, he₀, rfl⟩ := settle_cases he
    rcases hd₀ with ⟨rfl, rfl⟩ | ⟨hut, hd₀⟩
    · rcases he₀ with ⟨rfl, _⟩ | ⟨hvt, he₀⟩
      · exact absurd rfl huv
      · exact hother v e₀ hvt he₀
    · rcases he₀ with ⟨rfl, rfl⟩ | ⟨_, he₀⟩
      · exact fun k hkd hke => hother u d₀ hut hd₀ k hke hkd
      · exact h.disjoint u v d₀ e₀ huv hd₀ he₀

theorem forget_get? (w : World H) (token u : Nat) (h : u ≠ token) :
    (w.forget token).hub.get? u = w.hub.get? u := lookup_filter_ne h _

theorem forget_get?_self (w : World H) (token : Nat) : (w.forget token).hub.get? token = none :=
  lookup_filter_self token _

theorem get?_of_forget {u : Nat} {d : Connection BuiltCodec BuiltInspector H}
    (h : (w.forget token).hub.get? u = some d) : u ≠ token ∧ w.hub.get? u = some d := by
  have hne : u ≠ token := by
    rintro rfl
    rw [forget_get?_self] at h
    cases h
  exact ⟨hne, (forget_get? w token u hne).symm.trans h⟩

theorem Apart.forget (h : w.Apart) (token : Nat) : (w.forget token).Apart := by
  refine ⟨?_, h.idle, ?_, ?_⟩
  · exact fun u d hd => h.tokens u d (get?_of_forget hd).2
  · exact fun u d hd => h.keys u d (get?_of_forget hd).2
  · exact fun u v d e huv hd he =>
      h.disjoint u v d e huv (get?_of_forget hd).2 (get?_of_forget he).2

theorem Apart.hand (h : w.Apart) (token : Nat) (ps : List Packet) : (w.hand token ps).Apart :=
  ⟨h.tokens, h.idle, h.keys, h.disjoint⟩

theorem Apart.setDelays (h : w.Apart) (hs : ∀ k, w.hub.delays.Idle k → s.Idle k) :
    (w.setDelays s).Apart := ⟨h.tokens, fun k hk => hs k (h.idle k hk), h.keys, h.disjoint⟩

theorem apart_empty : ({} : World H).Apart := by
  refine ⟨fun t c hc => ?_, fun k _ => ⟨by simp, ⟨by simp, by simp⟩, rfl⟩, fun t c hc => ?_,
    fun t u c d _ hc => ?_⟩ <;> cases hc

variable [Handler H]

/-- Acting is nothing, or is done by a connection that keeps to its channels. -/
theorem act_cases (w : World H) (token : Nat) (op : Op) :
    w.act token op = w ∨ ∃ c c' s log, w.hub.get? token = some c ∧
      c.perform w.hub.delays op = (c', s, log) ∧ Keeps c w.hub.delays c' s ∧
      w.act token op = (w.hand token (c.encodes op)).settle token c' s log.requests := by
  cases hc : w.hub.get? token with
  | none => exact .inl (by simp [act, hc])
  | some c =>
    obtain ⟨c', s, log, hp⟩ : ∃ c' s log, c.perform w.hub.delays op = (c', s, log) :=
      ⟨_, _, _, rfl⟩
    have hkeeps := perform_keeps c w.hub.delays op
    rw [hp] at hkeeps
    exact .inr ⟨c, c', s, log, rfl, hp, hkeeps, by simp [act, hc, hp]⟩

theorem Apart.act (h : w.Apart) (token : Nat) (op : Op) : (w.act token op).Apart := by
  rcases act_cases w token op with hsame | ⟨c, c', s, log, hc, _, hkeeps, hact⟩
  · rwa [hsame]
  · rw [hact]
    refine (h.hand token _).settle (h.tokens token c hc) ?_
      (fun k hk => h.keys token c hc k (hkeeps.channels hk)) ?_
    -- a free key is not one of the connection, so what it does leaves the channel idle
    · intro k hle
      refine hkeeps.others k (fun hk => ?_) (h.idle k hle)
      exact absurd (h.keys token c hc k hk) (Nat.not_lt.mpr hle)
    · exact fun u d hu hd k hk => h.disjoint token u c d (Ne.symm hu) hc hd k (hkeeps.channels hk)

/-- A connection is made on channels that are free. -/
theorem connect_cases (w : World H) (registry : HandlerRegistry H) (config : ListenerConfig)
    (serverId : String) (peer : Peer) (scheduler : Bool) (waker : Option Waker) :
    w.connect registry config serverId peer scheduler waker = w ∨
      ∃ codec nextKey log c, w.nextKey ≤ nextKey ∧
        (∀ k ∈ channels codec, w.nextKey ≤ k ∧ k < nextKey) ∧
        (∀ s : DelayService, (∀ k, w.nextKey ≤ k → s.Idle k) → Silent codec s) ∧
        Connection.new (.new serverId config.id peer waker) codec
          (config.inspector.build peer w.hub.delays.now) (registry.makeAll config.handlers) =
            (c, log) ∧
        w.connect registry config serverId peer scheduler waker =
          { w with nextToken := w.nextToken + 1, nextKey }.settle w.nextToken c w.hub.delays
            log.requests := by
  cases hst : config.stages registry peer w.hub.delays.now scheduler w.nextKey with
  | error e => exact .inl (by simp [connect, hst])
  | ok built =>
    obtain ⟨⟨codec, nextKey⟩, hbuild, hst'⟩ := bind_eq_ok.mp hst
    obtain rfl := (Except.ok.inj hst').symm
    obtain ⟨hle, hown, hsilent⟩ := BuiltCodec.build_fresh hbuild
    obtain ⟨c, log, hnew⟩ : ∃ c log, Connection.new (.new serverId config.id peer waker) codec
      (config.inspector.build peer w.hub.delays.now) (registry.makeAll config.handlers) =
        (c, log) := ⟨_, _, rfl⟩
    refine .inr ⟨codec, nextKey, log, c, hle, hown, hsilent, hnew, ?_⟩
    simp only [connect, hst, hnew]

theorem Apart.connect (h : w.Apart) (registry : HandlerRegistry H) (config : ListenerConfig)
    (serverId : String) (peer : Peer) (scheduler : Bool) (waker : Option Waker) :
    (w.connect registry config serverId peer scheduler waker).Apart := by
  rcases connect_cases w registry config serverId peer scheduler waker with hsame |
    ⟨codec, nextKey, log, c, hle, hown, _, hnew, hconnect⟩
  · rwa [hsame]
  · have hchannels : c.channels = channels codec := by
      have := new_channels (.new serverId config.id peer waker) codec
        (config.inspector.build peer w.hub.delays.now) (registry.makeAll config.handlers)
      rwa [hnew] at this
    have hbefore : { w with nextToken := w.nextToken + 1, nextKey := nextKey }.Apart :=
      ⟨fun t d hd => Nat.lt_succ_of_lt (h.tokens t d hd),
        fun k hk => h.idle k (Nat.le_trans hle hk),
        fun t d hd k hk => Nat.lt_of_lt_of_le (h.keys t d hd k hk) hle, h.disjoint⟩
    rw [hconnect]
    refine hbefore.settle (Nat.lt_succ_self _) hbefore.idle ?_ ?_
    · rw [hchannels]
      exact fun k hk => (hown k hk).2
    · rw [hchannels]
      intro u d _ hd k hk hkd
      exact absurd (h.keys u d hd k hkd) (Nat.not_lt.mpr (hown k hk).1)

theorem Apart.step (h : w.Apart) (registry : HandlerRegistry H) (e : HubEvent) :
    (w.step registry e).Apart := by
  cases e with
  | connect config serverId peer scheduler waker =>
    exact h.connect registry config serverId peer scheduler waker
  | act token op => exact h.act token op
  | drop token => exact (h.act token .close).forget token
  | tick => exact h.setDelays fun k hk => ⟨hk.inbox, hk.queue, hk.channel⟩
  | takeSubmission => exact h.setDelays fun k hk => hk.takeSubmission
  | fire => exact h.setDelays fun k hk => hk.fire

theorem run_apart (registry : HandlerRegistry H) (events : List HubEvent) :
    (run registry events).Apart := by
  induction events using List.reverseRecOn with
  | nil => exact apart_empty
  | append_singleton events e ih =>
    rw [run_concat]
    exact ih.step registry e

end World

end Switchboard
