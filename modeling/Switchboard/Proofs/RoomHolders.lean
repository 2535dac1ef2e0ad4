import Switchboard.Line.Codec
import Switchboard.Proofs.RoomEffects

namespace Switchboard

open Connection

/-- What can happen to connections that share a room; between what is done to them, time passes and
the worker that delays output does its work. -/
inductive GatheringEvent (C I H : Type) where
  | connect (serverId listenerId : String) (peer : Peer) (waker : Option Waker)
      (stages : Stages C I H)
  | act (token : Nat) (op : Op)
  | drop (token : Nat)
  | elapse (delays : DelayService)

/-- Connections that share a room, and the tokens not given out yet. -/
structure Gathering (C I H : Type) where
  hub : Hub C I H := {}
  nextToken : Nat := 0

/-- A new connection has an allowed number of handlers that chat. -/
def GatheringEvent.Chats {C I H : Type} [Handler H] [Chatting H] (allowed : Nat → Prop) :
    GatheringEvent C I H → Prop
  | connect _ _ _ _ stages => allowed (stages.handlers.countP Chatting.chats)
  | _ => True

namespace Gathering

variable {C I H : Type}

/-- Tokens are given out once, members are open connections, under their addresses, and open
connections have an allowed number of handlers that chat. -/
structure Orderly [Handler H] [Chatting H] (allowed : Nat → Prop) (w : Gathering C I H) : Prop where
  tokens : ∀ u d, w.hub.get? u = some d → u < w.nextToken
  chats : ∀ u d, w.hub.get? u = some d → d.isOpen = true → allowed d.chats
  housed : w.hub.Housed

theorem Orderly.fresh [Handler H] [Chatting H] {w : Gathering C I H} {allowed : Nat → Prop}
    (h : w.Orderly allowed) : w.hub.get? w.nextToken = none := by
  by_contra hsome
  obtain ⟨d, hd⟩ := Option.ne_none_iff_exists'.mp hsome
  exact Nat.lt_irrefl _ (h.tokens _ d hd)

variable [Codec C] [Inspector I] [Handler H]

def step (w : Gathering C I H) : GatheringEvent C I H → Gathering C I H
  | .connect serverId listenerId peer waker stages => {
      hub := (w.hub.connect w.nextToken (.new serverId listenerId peer waker) stages).1
      nextToken := w.nextToken + 1 }
  | .act token op => { w with hub := w.hub.perform token op }
  | .drop token => { w with hub := ((w.hub.drop token).map (·.1)).getD w.hub }
  | .elapse delays => { w with hub := { w.hub with delays } }

def run (events : List (GatheringEvent C I H)) : Gathering C I H := events.foldl step {}

theorem run_concat (events : List (GatheringEvent C I H)) (e : GatheringEvent C I H) :
    run (events ++ [e]) = (run events).step e := by simp [run]

variable [Chatting H] {w : Gathering C I H} {allowed : Nat → Prop}

theorem Orderly.step_follows (h : w.Orderly allowed) (hpos : ∀ n, allowed n → 0 < n)
    {e : GatheringEvent C I H} (he : e.Chats allowed) : w.hub.Follows (w.step e).hub := by
  have unchanged : ∀ s, w.hub.Follows { w.hub with delays := s } :=
    fun s => ⟨fun _ _ => rfl, fun _ _ hne => absurd rfl hne⟩
  cases e with
  | connect serverId listenerId peer waker stages =>
    exact Hub.connect_follows h.fresh _ stages (hpos _ he)
  | act token op =>
    cases hc : w.hub.get? token with
    | none =>
      rw [step, Hub.perform_of_none hc]
      exact unchanged _
    | some c => exact h.housed.perform_follows hc (fun ho => hpos _ (h.chats token c hc ho)) op
  | drop token =>
    cases hc : w.hub.get? token with
    | none =>
      rw [step, Hub.drop_of_none hc]
      exact unchanged _
    | some c => exact h.housed.drop_follows hc fun ho => hpos _ (h.chats token c hc ho)
  | elapse delays => exact unchanged delays

/-- Who is there after a connection has done something was there before, and has perhaps heard
more. -/
theorem Orderly.perform_cases (h : w.Orderly allowed) (hpos : ∀ n, allowed n → 0 < n)
    {token u : Nat} {op : Op} {d : Connection C I H}
    (hd : (w.hub.perform token op).get? u = some d) :
    (∃ c, u = token ∧ w.hub.get? token = some c ∧ d = (c.perform w.hub.delays op).1) ∨
      ∃ d₀ ps, w.hub.get? u = some d₀ ∧ d = d₀.hear ps := by
  cases hc : w.hub.get? token with
  | none =>
    rw [Hub.perform_of_none hc] at hd
    exact .inr ⟨d, [], hd, by rw [Hub.hear_nil]; rfl⟩
  | some c =>
    rw [h.housed.perform_get? hc fun ho => hpos _ (h.chats token c hc ho)] at hd
    by_cases hu : u = token
    · rw [if_pos hu] at hd
      exact .inl ⟨c, hu, rfl, (Option.some.inj hd).symm⟩
    · rw [if_neg hu] at hd
      obtain ⟨d₀, hd₀, rfl⟩ := Option.map_eq_some_iff.mp hd
      exact .inr ⟨d₀, _, hd₀, rfl⟩

theorem Orderly.perform_keeps (h : w.Orderly allowed) (hpos : ∀ n, allowed n → 0 < n)
    {token u : Nat} {op : Op} {d : Connection C I H}
    (hd : (w.hub.perform token op).get? u = some d) :
    u < w.nextToken ∧ (d.isOpen = true → allowed d.chats) := by
  rcases h.perform_cases hpos hd with ⟨c, rfl, hc, rfl⟩ | ⟨d₀, ps, hd₀, rfl⟩
  · have hchats : c.isOpen = true → 0 < c.chats := fun ho => hpos _ (h.chats u c hc ho)
    obtain ⟨_, hopen, _⟩ := perform_room hchats w.hub.delays op u w.hub.room
    exact ⟨h.tokens u c hc, fun ho => (hopen ho).2 ▸ h.chats u c hc (hopen ho).1⟩
  · exact ⟨h.tokens u d₀ hd₀, h.chats u d₀ hd₀⟩

theorem Orderly.step (h : w.Orderly allowed) (hpos : ∀ n, allowed n → 0 < n)
    {e : GatheringEvent C I H} (he : e.Chats allowed) : (w.step e).Orderly allowed := by
  have housed := h.housed.of_follows (h.step_follows hpos he)
  -- Tokens and handlers are kept for each connection alone; the room is another matter.
  suffices hkept : ∀ u d, (w.step e).hub.get? u = some d →
      u < (w.step e).nextToken ∧ (d.isOpen = true → allowed d.chats) from
    ⟨fun u d hd => (hkept u d hd).1, fun u d hd => (hkept u d hd).2, housed⟩
  intro u d hd
  cases e with
  | connect serverId listenerId peer waker stages =>
    rw [Gathering.step, (Hub.connect_spec w.hub w.nextToken _ stages).1] at hd
    by_cases hu : u = w.nextToken
    · rw [if_pos hu] at hd
      obtain rfl := Option.some.inj hd
      refine ⟨hu ▸ Nat.lt_succ_self _, fun _ => ?_⟩
      rw [(new_asks _ stages.codec stages.inspector stages.handlers).2]
      exact he
    · rw [if_neg hu] at hd
      exact ⟨Nat.lt_succ_of_lt (h.tokens u d hd), h.chats u d hd⟩
  | act token op => exact h.perform_keeps hpos hd
  | drop token =>
    rw [Gathering.step, (Hub.drop_spec w.hub token).1] at hd
    by_cases hu : u = token
    · rw [if_pos hu] at hd
      cases hd
    · rw [if_neg hu] at hd
      exact h.perform_keeps hpos hd
  | elapse delays => exact ⟨h.tokens u d hd, h.chats u d hd⟩

omit [Codec C] [Inspector I] in
theorem chats_concat {events : List (GatheringEvent C I H)} {e : GatheringEvent C I H} :
    (∀ e' ∈ events ++ [e], e'.Chats allowed) ↔
      (∀ e' ∈ events, e'.Chats allowed) ∧ e.Chats allowed := by
  rw [List.forall_mem_append, List.forall_mem_singleton]

theorem run_orderly (hpos : ∀ n, allowed n → 0 < n) {events : List (GatheringEvent C I H)}
    (hchats : ∀ e ∈ events, e.Chats allowed) : (run events).Orderly allowed := by
  induction events using List.reverseRecOn with
  | nil => exact ⟨nofun, nofun, nofun⟩
  | append_singleton events e ih =>
    obtain ⟨hpast, hlast⟩ := chats_concat.mp hchats
    rw [run_concat]
    exact (ih hpast).step hpos hlast

end Gathering

/-- What happened, and when. -/
structure Moment (C I H : Type) where
  before : Gathering C I H
  event : GatheringEvent C I H

namespace Moment

variable {C I H : Type} [Codec C] [Inspector I] [Handler H]

def after (m : Moment C I H) : Gathering C I H := m.before.step m.event

/-- A connection is opened at an address, or comes to its end there. -/
def TurnsOver (m : Moment C I H) (a : String) : Prop :=
  ∃ u, m.after.hub.openAt a u ≠ m.before.hub.openAt a u

def Opens (m : Moment C I H) (a : String) (u : Nat) : Prop :=
  m.before.hub.openAt a u = false ∧ m.after.hub.openAt a u = true

end Moment

namespace Gathering

variable {C I H : Type} [Codec C] [Inspector I] [Handler H]

/-- All that happened, one after the other. -/
def momentsFrom : Gathering C I H → List (GatheringEvent C I H) → List (Moment C I H)
  | _, [] => []
  | w, e :: events => ⟨w, e⟩ :: momentsFrom (w.step e) events

def moments (events : List (GatheringEvent C I H)) : List (Moment C I H) := momentsFrom {} events

theorem momentsFrom_concat (w : Gathering C I H) (events : List (GatheringEvent C I H))
    (e : GatheringEvent C I H) :
    momentsFrom w (events ++ [e]) = momentsFrom w events ++ [⟨events.foldl step w, e⟩] := by
  induction events generalizing w with
  | nil => rfl
  | cons e' events ih => exact congrArg (Moment.mk w e' :: ·) (ih (w.step e'))

theorem moments_concat (events : List (GatheringEvent C I H)) (e : GatheringEvent C I H) :
    moments (events ++ [e]) = moments events ++ [⟨run events, e⟩] := momentsFrom_concat {} events e

/-- A connection was opened at an address, and since then no other one was opened there or came to
its end there. -/
def HoldsPlace (events : List (GatheringEvent C I H)) (a : String) (u : Nat) : Prop :=
  ∃ past m rest, moments events = past ++ m :: rest ∧ m.Opens a u ∧ ∀ m' ∈ rest, ¬m'.TurnsOver a

theorem holdsPlace_concat (events : List (GatheringEvent C I H)) (e : GatheringEvent C I H)
    (a : String) (u : Nat) : HoldsPlace (events ++ [e]) a u ↔
      (Moment.mk (run events) e).Opens a u ∨
        HoldsPlace events a u ∧ ¬(Moment.mk (run events) e).TurnsOver a := by
  unfold HoldsPlace
  rw [moments_concat]
  constructor
  · rintro ⟨past, m, rest, hsplit, hopens, hrest⟩
    -- The opening is the last moment itself, or it lies before.
    rcases List.eq_nil_or_concat rest with rfl | ⟨rest, last, rfl⟩
    · obtain ⟨_, hm⟩ := List.append_inj' hsplit rfl
      obtain rfl := List.cons.inj hm |>.1
      exact .inl hopens
    · have hassoc : past ++ m :: (rest ++ [last]) = (past ++ m :: rest) ++ [last] := by simp
      rw [List.concat_eq_append, hassoc] at hsplit
      obtain ⟨hpast, hlast⟩ := List.append_inj' hsplit rfl
      obtain rfl := List.cons.inj hlast |>.1
      exact .inr ⟨⟨past, m, rest, hpast, hopens,
        fun m' hm' => hrest m' (by simp [hm'])⟩, hrest _ (by simp)⟩
  · rintro (hopens | ⟨⟨past, m, rest, hsplit, hopens, hrest⟩, hlast⟩)
    · exact ⟨moments events, _, [], rfl, hopens, nofun⟩
    · refine ⟨past, m, rest ++ [⟨run events, e⟩], by simp [hsplit], hopens, fun m' hm' => ?_⟩
      rcases List.mem_append.mp hm' with hm' | hm'
      · exact hrest m' hm'
      · exact List.mem_singleton.mp hm' ▸ hlast

variable [Chatting H]

theorem run_room_get? {events : List (GatheringEvent C I H)}
    (hchats : ∀ e ∈ events, e.Chats (0 < ·)) (a : String) (u : Nat) :
    (run events).hub.room.get? a = some u ↔ HoldsPlace events a u := by
  induction events using List.reverseRecOn with
  | nil =>
    refine ⟨nofun, ?_⟩
    rintro ⟨past, m, rest, hsplit, _⟩
    simp [moments, momentsFrom] at hsplit
  | append_singleton events e ih =>
    obtain ⟨hpast, hlast⟩ := chats_concat.mp hchats
    have hfollows := (run_orderly (fun _ hn => hn) hpast).step_follows (fun _ hn => hn) hlast
    rw [holdsPlace_concat, run_concat]
    by_cases hturns : (Moment.mk (run events) e).TurnsOver a
    · obtain ⟨v, hv⟩ := id hturns
      rw [hfollows.turned a v hv u]
      simp [hturns, Moment.Opens, Moment.after]
    · have hsame : ∀ v, ((run events).step e).hub.openAt a v = (run events).hub.openAt a v :=
        fun v => by_contra fun hv => hturns ⟨v, hv⟩
      rw [hfollows.still a hsame, ih hpast]
      have hnot : ¬(Moment.mk (run events) e).Opens a u := by
        rintro ⟨hbefore, hafter⟩
        have : ((run events).step e).hub.openAt a u = true := hafter
        rw [hsame, hbefore] at this
        cases this
      simp [hturns, hnot]

/-- A connection with a handler that chats is in the room exactly as long as no other one is opened
or comes to its end at its address. What is said reaches who is in the room under another address
than the speaker's, and nobody else. -/
theorem member_until_address_turns_over {events : List (GatheringEvent C I H)}
    (hchats : ∀ e ∈ events, e.Chats (0 < ·)) :
    let w := run events
    (∀ a u, w.hub.room.get? a = some u ↔ HoldsPlace events a u) ∧
      ∀ token c op, w.hub.get? token = some c → ∀ u d, u ≠ token → w.hub.get? u = some d →
        (w.hub.perform token op).get? u = some (d.hear
          (if w.hub.room.get? d.address = some u ∧ d.address ≠ c.address then
            c.remarks w.hub.delays op
          else [])) := by
  intro w
  have horderly : w.Orderly (0 < ·) := run_orderly (fun _ hn => hn) hchats
  refine ⟨run_room_get? hchats, fun token c op hc u d hu hd => ?_⟩
  rw [horderly.housed.perform_get? hc (horderly.chats token c hc), if_neg hu, hd]
  rfl

/-- Two connections from one address and a third from another; then the first one comes to its
end. -/
def sharedAddress : List (GatheringEvent LineCodec BuiltInspector StandardHandler) :=
  let stages (id : String) : Stages LineCodec BuiltInspector StandardHandler := {
    codec := { config := {}, hook := LineHook.text, framer := { borders := .ofPattern [10] } }
    inspector := .passThrough id
    handlers := [.chat] }
  [.connect "srv" "one" ⟨"10.0.1.1:1", by decide⟩ none (stages "10.0.1.1:1"),
    .connect "srv" "two" ⟨"10.0.1.1:1", by decide⟩ none (stages "10.0.1.1:1"),
    .connect "srv" "one" ⟨"10.0.1.2:2", by decide⟩ none (stages "10.0.1.2:2"), .act 0 .close]

theorem sharedAddress_chats : ∀ e ∈ sharedAddress, e.Chats (0 < ·) := by
  intro e he
  simp only [sharedAddress, List.mem_cons, List.not_mem_nil, or_false] at he
  rcases he with rfl | rfl | rfl | rfl
  · exact Nat.one_pos
  · exact Nat.one_pos
  · exact Nat.one_pos
  · trivial

/-- What the third says then is heard by nobody. -/
theorem member_until_address_turns_over_of_shared :
    (∀ e ∈ sharedAddress, e.Chats (0 < ·)) ∧ HoldsPlace sharedAddress "10.0.1.2:2" 2 ∧
      ¬HoldsPlace sharedAddress "10.0.1.1:1" 1 ∧ ∃ d, (run sharedAddress).hub.get? 1 = some d ∧
        d.isOpen = true ∧ d.address = "10.0.1.1:1" ∧
        ((run sharedAddress).hub.perform 2 (.write [104, 105, 10])).get? 1 = some (d.hear []) := by
  obtain ⟨hplaces, hheard⟩ := member_until_address_turns_over sharedAddress_chats
  have hthird : (run sharedAddress).hub.room.get? "10.0.1.2:2" = some 2 := by decide +kernel
  have hfirst : (run sharedAddress).hub.room.get? "10.0.1.1:1" = none := by decide +kernel
  obtain ⟨d, hd, hopen, haddress⟩ := Hub.openAt_iff.mp
    (show (run sharedAddress).hub.openAt "10.0.1.1:1" 1 = true by decide +kernel)
  obtain ⟨c, hc⟩ : ∃ c, (run sharedAddress).hub.get? 2 = some c :=
    Option.isSome_iff_exists.mp (by decide +kernel)
  refine ⟨sharedAddress_chats, (hplaces _ _).mp hthird, ?_, d, hd, hopen, haddress, ?_⟩
  · intro hholds
    rw [← hplaces, hfirst] at hholds
    cases hholds
  · have hears := hheard 2 c (.write [104, 105, 10]) hc 1 d (by decide) hd
    rwa [haddress, hfirst, if_neg (by simp)] at hears

/-- An open connection need not be a member: another one from its address takes its place, and takes
it away for good. -/
theorem open_connection_is_no_member :
    ¬ ∀ events : List (GatheringEvent LineCodec BuiltInspector StandardHandler),
      (∀ e ∈ events, e.Chats (0 < ·)) → ∀ u d, (run events).hub.get? u = some d →
        d.isOpen = true → u ∈ (run events).hub.room.values := by
  intro h
  obtain ⟨d, hd, hopen, _⟩ := Hub.openAt_iff.mp
    (show (run sharedAddress).hub.openAt "10.0.1.1:1" 1 = true by decide +kernel)
  have hmember := h sharedAddress sharedAddress_chats 1 d hd hopen
  have hvalues : (run sharedAddress).hub.room.values = [2] := by decide +kernel
  rw [hvalues] at hmember
  simp at hmember

end Gathering

end Switchboard
