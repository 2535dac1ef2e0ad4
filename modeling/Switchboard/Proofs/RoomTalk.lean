import Switchboard.Hub
import Switchboard.Proofs.DelayIdle

namespace Switchboard

/-- A text that one connection has for another one. -/
structure Talk where
  speaker : Nat
  listener : Nat
  packet : Packet

/-- The packets for one connection. -/
def Talk.packetsFor (listener : Nat) (talks : List Talk) : List Packet :=
  (talks.filter fun x => x.listener == listener).map (·.packet)

theorem Talk.packetsFor_append (listener : Nat) (xs ys : List Talk) :
    packetsFor listener (xs ++ ys) = packetsFor listener xs ++ packetsFor listener ys := by
  simp [packetsFor]

theorem Talk.packetsFor_eq_nil {listener : Nat} {xs : List Talk}
    (h : ∀ x ∈ xs, x.listener ≠ listener) : packetsFor listener xs = [] := by
  refine List.map_eq_nil_iff.mpr (List.filter_eq_nil_iff.mpr fun x hx => ?_)
  simpa using h x hx

namespace RoomRequest

/-- The room afterwards, when the connection under a token asks for it. -/
def enter (token : Nat) (peer : Peer) (room : Table Nat) : RoomRequest → Table Nat
  | join => room.insert peer.text token
  | leave => room.erase peer.text
  | say _ _ => room

def talk (token : Nat) (peer : Peer) (room : Table Nat) : RoomRequest → List Talk
  | say sender text => (room.entries.filter fun m => m.1 != peer.text).map fun m =>
      ⟨token, m.2, Hub.spoken sender text⟩
  | _ => []

def enterAll (token : Nat) (peer : Peer) (room : Table Nat) (rs : List RoomRequest) : Table Nat :=
  rs.foldl (enter token peer) room

def talkAll (token : Nat) (peer : Peer) : Table Nat → List RoomRequest → List Talk
  | _, [] => []
  | room, r :: rs => r.talk token peer room ++ talkAll token peer (r.enter token peer room) rs

variable {token : Nat} {peer : Peer} {room : Table Nat} {rs : List RoomRequest}

theorem mem_enterAll (h : .join ∉ rs) {m : String × Nat}
    (hm : m ∈ (enterAll token peer room rs).entries) :
    m ∈ room.entries ∧ (.leave ∈ rs → m.1 ≠ peer.text) := by
  induction rs generalizing room with
  | nil => exact ⟨hm, by simp⟩
  | cons r rs ih =>
    obtain ⟨hr, hrs⟩ := not_or.mp (mt List.mem_cons.mpr h)
    obtain ⟨hin, hleave⟩ := ih hrs hm
    cases r with
    | join => exact absurd rfl hr
    | leave =>
      obtain ⟨hroom, hne⟩ := List.mem_filter.mp hin
      exact ⟨hroom, fun _ => by simpa using hne⟩
    | say sender text =>
      refine ⟨hin, fun hl => hleave ?_⟩
      rcases List.mem_cons.mp hl with hl | hl
      · cases hl
      · exact hl

theorem mem_talkAll (h : .join ∉ rs) {x : Talk} (hx : x ∈ talkAll token peer room rs) :
    x.speaker = token ∧
      ∃ sender text, .say sender text ∈ rs ∧ x.packet = Hub.spoken sender text ∧
        ∃ m ∈ room.entries, m.1 ≠ peer.text ∧ m.2 = x.listener := by
  induction rs generalizing room with
  | nil => cases hx
  | cons r rs ih =>
    obtain ⟨hr, hrs⟩ := not_or.mp (mt List.mem_cons.mpr h)
    rcases List.mem_append.mp hx with hx | hx
    · cases r with
      | join => cases hx
      | leave => cases hx
      | say sender text =>
        obtain ⟨m, hm, rfl⟩ := List.mem_map.mp hx
        obtain ⟨hin, hne⟩ := List.mem_filter.mp hm
        exact ⟨rfl, sender, text, List.mem_cons_self, rfl, m, hin, by simpa using hne, rfl⟩
    · obtain ⟨hs, sender, text, hsay, hp, m, hm, hne, hl⟩ := ih hrs hx
      refine ⟨hs, sender, text, List.mem_cons_of_mem _ hsay, hp, m, ?_, hne, hl⟩
      have alone : .join ∉ [r] := by simpa using hr
      have hm : m ∈ (enterAll token peer room [r]).entries := hm
      exact (mem_enterAll alone hm).1

theorem talkAll_of_silent (h : ∀ sender text, .say sender text ∉ rs) :
    talkAll token peer room rs = [] := by
  induction rs generalizing room with
  | nil => rfl
  | cons r rs ih =>
    have hrs : ∀ sender text, .say sender text ∉ rs :=
      fun sender text hin => h sender text (List.mem_cons_of_mem _ hin)
    cases r with
    | join => exact ih hrs
    | leave => exact ih hrs
    | say sender text => exact absurd List.mem_cons_self (h sender text)

end RoomRequest

/-- Packets wait behind those that wait already. -/
def Connection.hear {C I H : Type} (ps : List Packet) (c : Connection C I H) : Connection C I H :=
  { c with context := { c.context with replies := c.context.replies ++ ps } }

theorem Connection.hear_hear {C I H : Type} (ps qs : List Packet) (c : Connection C I H) :
    (c.hear ps).hear qs = c.hear (ps ++ qs) := by
  simp [Connection.hear]

namespace Hub

variable {C I H : Type} {h : Hub C I H} {token : Nat}

@[simp] theorem hear_nil : (Connection.hear [] : Connection C I H → Connection C I H) = id := by
  funext c
  simp [Connection.hear]

theorem lookup_setEntry (token u : Nat) (c : Connection C I H)
    (es : List (Nat × Connection C I H)) :
    (setEntry token c es).lookup u = if u = token then some c else es.lookup u := by
  induction es with
  | nil => rw [setEntry, lookup_cons_ite]
  | cons e es ih =>
    by_cases he : e.1 = token
    · rw [setEntry, if_pos he, lookup_cons_ite, lookup_cons_ite, he]
      by_cases hu : u = token <;> simp [hu]
    · rw [setEntry, if_neg he, lookup_cons_ite, lookup_cons_ite, ih]
      by_cases hu : u = e.1
      · have hne : u ≠ token := fun h => he (hu ▸ h)
        rw [if_pos hu, if_pos hu, if_neg hne]
      · rw [if_neg hu, if_neg hu]

theorem get?_set (h : Hub C I H) (token u : Nat) (c : Connection C I H) :
    (h.set token c).get? u = if u = token then some c else h.get? u :=
  lookup_setEntry token u c h.connections

theorem refresh_get? (h : Hub C I H) (token u : Nat) : (h.refresh token).get? u = h.get? u := by
  unfold refresh
  split <;> rfl

theorem tell_get? (h : Hub C I H) (token : Nat) (p : Packet) (u : Nat) :
    (h.tell token p).get? u =
      (h.get? u).map (Connection.hear (if token = u then [p] else [])) := by
  rw [tell, refresh_get?, reply]
  cases hc : h.get? token with
  | none =>
    by_cases hu : token = u
    · subst hu
      simp [hc]
    · simp [hu]
  | some c =>
    simp only [get?_set]
    by_cases hu : token = u
    · subst hu
      simp [hc, Context.reply, Connection.hear]
    · simp [hu, Ne.symm hu]

theorem tell_room (h : Hub C I H) (token : Nat) (p : Packet) : (h.tell token p).room = h.room := by
  unfold tell refresh reply
  split <;> split <;> rfl

theorem tell_idle {k : Nat} (hidle : h.delays.Idle k) (token : Nat) (p : Packet) :
    (h.tell token p).delays.Idle k := by
  unfold tell refresh
  have same : (h.reply token p).delays = h.delays := by
    unfold reply
    split <;> rfl
  split
  next => exact same ▸ hidle.wake _
  next => exact same ▸ hidle

/-- What the members at other addresses are told, one after the other. -/
theorem tell_members_spec (p : Packet) (spared : String) (token : Nat)
    (members : List (String × Nat)) (h : Hub C I H) :
    let told := members.foldl (fun h m => if m.1 = spared then h else h.tell m.2 p) h
    let talks := (members.filter fun m => m.1 != spared).map fun m => (⟨token, m.2, p⟩ : Talk)
    (∀ u, told.get? u = (h.get? u).map (Connection.hear (Talk.packetsFor u talks))) ∧
      told.room = h.room ∧ ∀ k, h.delays.Idle k → told.delays.Idle k := by
  induction members generalizing h with
  | nil => exact ⟨by simp [Talk.packetsFor], rfl, fun k hk => hk⟩
  | cons m members ih =>
    by_cases hm : m.1 = spared
    · simpa [hm] using ih h
    · obtain ⟨hget, hroom, hidle⟩ := ih (h.tell m.2 p)
      simp only [List.foldl_cons, hm, if_false]
      refine ⟨?_, hroom.trans (tell_room h m.2 p), fun k hk => hidle k (tell_idle hk m.2 p)⟩
      intro u
      rw [hget, tell_get?, Option.map_map]
      congr 1
      funext c
      rw [Function.comp, Connection.hear_hear]
      by_cases hu : m.2 = u <;> simp [Talk.packetsFor, hm, hu]

theorem carryOut_spec (token : Nat) (peer : Peer) (h : Hub C I H) (r : RoomRequest) :
    (∀ u, (carryOut token peer h r).get? u =
        (h.get? u).map (Connection.hear (Talk.packetsFor u (r.talk token peer h.room)))) ∧
      (carryOut token peer h r).room = r.enter token peer h.room ∧
      ∀ k, h.delays.Idle k → (carryOut token peer h r).delays.Idle k := by
  cases r with
  | join => exact ⟨by simp [carryOut, RoomRequest.talk, Talk.packetsFor, get?], rfl, fun k hk => hk⟩
  | leave =>
    exact ⟨by simp [carryOut, RoomRequest.talk, Talk.packetsFor, get?], rfl, fun k hk => hk⟩
  | say sender text => exact tell_members_spec (spoken sender text) peer.text token h.room.entries h

theorem carryOutAll_spec (token : Nat) (peer : Peer) (rs : List RoomRequest) (h : Hub C I H) :
    (∀ u, (rs.foldl (carryOut token peer) h).get? u = (h.get? u).map
        (Connection.hear (Talk.packetsFor u (RoomRequest.talkAll token peer h.room rs)))) ∧
      (rs.foldl (carryOut token peer) h).room = RoomRequest.enterAll token peer h.room rs ∧
      ∀ k, h.delays.Idle k → (rs.foldl (carryOut token peer) h).delays.Idle k := by
  induction rs generalizing h with
  | nil => exact ⟨by simp [RoomRequest.talkAll, Talk.packetsFor], rfl, fun k hk => hk⟩
  | cons r rs ih =>
    obtain ⟨hget, hroom, hidle⟩ := carryOut_spec token peer h r
    obtain ⟨hget', hroom', hidle'⟩ := ih (carryOut token peer h r)
    rw [hroom] at hget' hroom'
    refine ⟨?_, hroom', fun k hk => hidle' k (hidle k hk)⟩
    intro u
    rw [List.foldl_cons, hget', hget, Option.map_map]
    congr 1
    funext c
    rw [Function.comp, Connection.hear_hear, ← Talk.packetsFor_append]
    rfl

/-- After a connection has done something it has its new state, the room has what was asked of it,
and every connection has been told what was said to it. -/
theorem settle_spec (h : Hub C I H) (token : Nat) (c : Connection C I H) (s : DelayService)
    (rs : List RoomRequest) :
    (∀ u, (h.settle token c s rs).get? u = (if u = token then some c else h.get? u).map
        (Connection.hear
          (Talk.packetsFor u (RoomRequest.talkAll token c.context.peer h.room rs)))) ∧
      (h.settle token c s rs).room = RoomRequest.enterAll token c.context.peer h.room rs ∧
      ∀ k, s.Idle k → (h.settle token c s rs).delays.Idle k := by
  obtain ⟨hget, hroom, hidle⟩ :=
    carryOutAll_spec token c.context.peer rs { h.set token c with delays := s }
  refine ⟨?_, hroom, hidle⟩
  intro u
  rw [settle, hget]
  congr 1
  exact get?_set h token u c

/-- Who is there after a connection has done something was there before, and has perhaps heard
more. -/
theorem settle_cases {h : Hub C I H} {token u : Nat} {c d : Connection C I H} {s : DelayService}
    {rs : List RoomRequest} (hd : (h.settle token c s rs).get? u = some d) :
    ∃ d₀, (u = token ∧ d₀ = c ∨ u ≠ token ∧ h.get? u = some d₀) ∧
      d = d₀.hear (Talk.packetsFor u (RoomRequest.talkAll token c.context.peer h.room rs)) := by
  rw [(settle_spec h token c s rs).1 u] at hd
  obtain ⟨d₀, hd₀, rfl⟩ := Option.map_eq_some_iff.mp hd
  refine ⟨d₀, ?_, rfl⟩
  by_cases hu : u = token
  · rw [if_pos hu] at hd₀
    exact .inl ⟨hu, (Option.some.inj hd₀).symm⟩
  · rw [if_neg hu] at hd₀
    exact .inr ⟨hu, hd₀⟩

end Hub

end Switchboard
