import Switchboard.Proofs.Chatting
import Switchboard.Proofs.RoomTalk

namespace Switchboard

open Connection

theorem Table.entries_nodup {α : Type} (t : Table α) : t.entries.Nodup := by
  refine t.ordered.imp ?_
  rintro a b hlt rfl
  exact String.lt_irrefl _ hlt

/-- An entry that is told apart from all others is found at most once. -/
theorem Table.filter_entries {t : Table Nat} {name : String} {value : Nat}
    {p : String × Nat → Bool} (hp : ∀ e ∈ t.entries, p e = (e == (name, value))) :
    t.entries.filter p = if t.get? name = some value then [(name, value)] else [] := by
  rw [List.filter_congr hp, List.filter_beq, t.entries_nodup.count]
  by_cases h : t.get? name = some value
  · rw [if_pos h, if_pos (mem_entries_iff.mpr h)]
    rfl
  · rw [if_neg h, if_neg (mt mem_entries_iff.mp h)]
    rfl

namespace RoomRequest

variable {token u : Nat} {peer : Peer} {room : Table Nat} {a : String}

theorem talkAll_append (xs ys : List RoomRequest) :
    talkAll token peer room (xs ++ ys) =
      talkAll token peer room xs ++ talkAll token peer (enterAll token peer room xs) ys := by
  induction xs generalizing room with
  | nil => rfl
  | cons x xs ih => simp [talkAll, enterAll, ih]

theorem enterAll_append (xs ys : List RoomRequest) :
    enterAll token peer room (xs ++ ys) =
      enterAll token peer (enterAll token peer room xs) ys := by simp [enterAll]

theorem enterAll_replicate_say (n : Nat) (sender text : String) :
    enterAll token peer room (List.replicate n (.say sender text)) = room := by
  induction n with
  | zero => rfl
  | succ n ih => exact ih

theorem enterAll_sayings (n : Nat) (passed : List (String × Packet)) :
    enterAll token peer room (sayings n passed) = room := by
  induction passed with
  | nil => rfl
  | cons m passed ih =>
    exact (enterAll_append _ _).trans ((congrArg (enterAll token peer · _)
      (enterAll_replicate_say n _ _)).trans ih)

theorem get?_enterAll_leave (n : Nat) :
    (enterAll token peer room (List.replicate n .leave)).get? a =
      if a = peer.text ∧ 0 < n then none else room.get? a := by
  induction n generalizing room with
  | zero => simp [enterAll]
  | succ n ih =>
    have step : (enterAll token peer room (List.replicate (n + 1) .leave)).get? a =
      (enterAll token peer (room.erase peer.text) (List.replicate n .leave)).get? a := rfl
    rw [step, ih, Table.get?_erase]
    by_cases ha : a = peer.text <;> simp [ha]

theorem get?_enterAll_join (n : Nat) :
    (enterAll token peer room (List.replicate n .join)).get? a =
      if a = peer.text ∧ 0 < n then some token else room.get? a := by
  induction n generalizing room with
  | zero => simp [enterAll]
  | succ n ih =>
    have step : (enterAll token peer room (List.replicate (n + 1) .join)).get? a =
      (enterAll token peer (room.insert peer.text token) (List.replicate n .join)).get? a := rfl
    rw [step, ih, Table.get?_insert]
    by_cases ha : a = peer.text <;> simp [ha]

/-- Who is in the room under one address only hears what is said from others once. -/
theorem packetsFor_say (hu : ∀ m ∈ room.entries, m.2 = u → m.1 = a) (sender text : String) :
    Talk.packetsFor u ((say sender text).talk token peer room) =
      if room.get? a = some u ∧ a ≠ peer.text then [Hub.spoken sender text] else [] := by
  have hheard : Talk.packetsFor u ((say sender text).talk token peer room) =
      (room.entries.filter fun m => m.2 == u && m.1 != peer.text).map
        fun _ => Hub.spoken sender text := by
    simp [Talk.packetsFor, talk, List.filter_map, List.filter_filter, Function.comp_def]
  rw [hheard]
  by_cases ha : a = peer.text
  · have nobody : (room.entries.filter fun m => m.2 == u && m.1 != peer.text) = [] := by
      refine List.filter_eq_nil_iff.mpr fun m hm => ?_
      simpa using fun hmu => (hu m hm hmu).trans ha
    simp [nobody, ha]
  · have itself : ∀ m ∈ room.entries, (m.2 == u && m.1 != peer.text) = (m == (a, u)) := by
      rintro ⟨b, v⟩ hm
      by_cases hv : v = u
      · obtain rfl : b = a := hu (b, v) hm hv
        simpa [hv] using ha
      · rw [Bool.eq_iff_iff]
        simp [hv]
    rw [Table.filter_entries itself]
    by_cases hin : room.get? a = some u <;> simp [hin, ha]

theorem packetsFor_replicate_say (hu : ∀ m ∈ room.entries, m.2 = u → m.1 = a) (n : Nat)
    (sender text : String) :
    Talk.packetsFor u (talkAll token peer room (List.replicate n (.say sender text))) =
      if room.get? a = some u ∧ a ≠ peer.text then
        List.replicate n (Hub.spoken sender text)
      else [] := by
  induction n with
  | zero => simp [talkAll, Talk.packetsFor]
  | succ n ih =>
    have step : talkAll token peer room (List.replicate (n + 1) (.say sender text)) =
      (say sender text).talk token peer room ++
        talkAll token peer room (List.replicate n (.say sender text)) := rfl
    rw [step, Talk.packetsFor_append, ih, packetsFor_say hu]
    by_cases h : room.get? a = some u ∧ a ≠ peer.text <;> simp [h, List.replicate_succ]

theorem packetsFor_sayings (hu : ∀ m ∈ room.entries, m.2 = u → m.1 = a) (n : Nat)
    (passed : List (String × Packet)) :
    Talk.packetsFor u (talkAll token peer room (sayings n passed)) =
      if room.get? a = some u ∧ a ≠ peer.text then
        passed.flatMap fun m =>
          List.replicate n (Hub.spoken m.1 (StandardHandler.spoken m.2.payload))
      else [] := by
  induction passed with
  | nil => simp [sayings, talkAll, Talk.packetsFor]
  | cons m passed ih =>
    have step : sayings n (m :: passed) =
      List.replicate n (.say m.1 (StandardHandler.spoken m.2.payload)) ++ sayings n passed := rfl
    rw [step, talkAll_append, enterAll_replicate_say, Talk.packetsFor_append, ih,
      packetsFor_replicate_say hu]
    by_cases h : room.get? a = some u ∧ a ≠ peer.text <;> simp [h]

end RoomRequest

namespace Connection

variable {C I H : Type}

/-- The key of a connection in the room. -/
def address (c : Connection C I H) : String := c.context.peer.text

@[simp] theorem hear_isOpen (ps : List Packet) (c : Connection C I H) :
    (c.hear ps).isOpen = c.isOpen := rfl

@[simp] theorem hear_address (ps : List Packet) (c : Connection C I H) :
    (c.hear ps).address = c.address := rfl

variable [Handler H] [Chatting H] [Codec C] [Inspector I]

/-- What the handlers of a connection tell the others of the packets that pass. -/
def remarks (c : Connection C I H) (s : DelayService) (op : Op) : List Packet :=
  (c.passes s op).flatMap fun m =>
    List.replicate c.chats (Hub.spoken m.1 (StandardHandler.spoken m.2.payload))

/-- What is asked of a room when a connection does something: its remarks are for who is there
under other addresses, and its entry goes when it comes to its end. -/
theorem perform_room {c : Connection C I H} (hchats : c.isOpen = true → 0 < c.chats)
    (s : DelayService) (op : Op) (token : Nat) (room : Table Nat) :
    let c' := (c.perform s op).1
    let requests := (c.perform s op).2.2.requests
    c'.address = c.address ∧ (c'.isOpen = true → c.isOpen = true ∧ c'.chats = c.chats) ∧
      (∀ u a, (∀ m ∈ room.entries, m.2 = u → m.1 = a) →
        Talk.packetsFor u (RoomRequest.talkAll token c'.context.peer room requests) =
          if room.get? a = some u ∧ a ≠ c.address then c.remarks s op else []) ∧
      ∀ a, (RoomRequest.enterAll token c'.context.peer room requests).get? a =
        if a = c.address ∧ c.isOpen = true ∧ c'.isOpen = false then none else room.get? a := by
  intro c' requests
  cases hst : c.stages with
  | none =>
    obtain ⟨hstages, hcontext, hlog⟩ := perform_of_closed (s := s) hst op
    have hrequests : requests = [] := congrArg Log.requests hlog
    have hclosed : c.isOpen = false := by simp [isOpen, hst]
    have hclosed' : c'.isOpen = false := by simpa [isOpen] using hstages
    have nothing : c.remarks s op = [] := by cases op <;> simp [remarks, passes, hst]
    refine ⟨congrArg (·.peer.text) hcontext, fun h => ?_, fun u a _ => ?_, fun a => ?_⟩
    · rw [hclosed'] at h
      cases h
    · simp [hrequests, nothing, RoomRequest.talkAll, Talk.packetsFor]
    · simp [hrequests, hclosed, RoomRequest.enterAll]
  | some st =>
    obtain ⟨hpeer, hkept, hasked⟩ := perform_asks hst s op
    have hopen : c.isOpen = true := by simp [isOpen, hst]
    have haddress : c'.address = c.address := congrArg Peer.text hpeer
    have hrequests : requests = _ := hasked
    refine ⟨haddress, fun h => ⟨hopen, hkept h⟩, fun u a hu => ?_, fun a => ?_⟩
    · -- Leaving comes last, when all has been said.
      have silent : RoomRequest.talkAll token c'.context.peer room
          (if c'.isOpen then [] else List.replicate c.chats .leave) = [] :=
        RoomRequest.talkAll_of_silent fun sender text => by
          cases c'.isOpen <;> simp [List.mem_replicate]
      rw [hrequests, RoomRequest.talkAll_append, RoomRequest.enterAll_sayings, silent,
        List.append_nil, RoomRequest.packetsFor_sayings hu, ← haddress]
      rfl
    · rw [hrequests, RoomRequest.enterAll_append, RoomRequest.enterAll_sayings, ← haddress]
      cases hopen' : c'.isOpen with
      | true => simp [RoomRequest.enterAll]
      | false => simp [RoomRequest.get?_enterAll_leave, hopen, hchats hopen, address]

end Connection

namespace Hub

variable {C I H : Type}

/-- Whether a connection is open at an address. -/
def openAt (h : Hub C I H) (a : String) (u : Nat) : Bool :=
  (h.get? u).any fun d => d.isOpen && d.address == a

theorem openAt_iff {h : Hub C I H} {a : String} {u : Nat} :
    h.openAt a u = true ↔ ∃ d, h.get? u = some d ∧ d.isOpen = true ∧ d.address = a := by
  cases hd : h.get? u <;> simp [openAt, hd]

/-- The members of the room are open connections, under their addresses. -/
def Housed (h : Hub C I H) : Prop := ∀ a u, h.room.get? a = some u → h.openAt a u = true

theorem Housed.address_of_mem {h : Hub C I H} (hh : h.Housed) {u : Nat} {d : Connection C I H}
    (hd : h.get? u = some d) : ∀ m ∈ h.room.entries, m.2 = u → m.1 = d.address := by
  rintro ⟨a, v⟩ hm rfl
  obtain ⟨d', hd', _, ha⟩ := openAt_iff.mp (hh a v (Table.mem_entries_iff.mp hm))
  obtain rfl := Option.some.inj (hd.symm.trans hd')
  exact ha.symm

/-- The room goes by what is opened and what comes to its end at an address: that decides who is
there, and nothing else does. -/
structure Follows (h h' : Hub C I H) : Prop where
  still : ∀ a, (∀ u, h'.openAt a u = h.openAt a u) → h'.room.get? a = h.room.get? a
  turned : ∀ a u, h'.openAt a u ≠ h.openAt a u → ∀ v,
    h'.room.get? a = some v ↔ h.openAt a v = false ∧ h'.openAt a v = true

/-- Members keep their places as long as nothing happens at their address. -/
theorem Housed.of_follows {h h' : Hub C I H} (hh : h.Housed) (hf : h.Follows h') : h'.Housed := by
  intro a v hv
  by_cases hsame : ∀ u, h'.openAt a u = h.openAt a u
  · rw [hf.still a hsame] at hv
    exact (hsame v).trans (hh a v hv)
  · obtain ⟨u, hu⟩ := not_forall.mp hsame
    exact ((hf.turned a u hu v).mp hv).2

/-- One connection may come to its end. -/
theorem follows_of_end {h h' : Hub C I H} {token : Nat} {c : Connection C I H}
    (hc : h.get? token = some c) (stays : Bool)
    (hstays : stays = true → c.isOpen = true)
    (hopen : ∀ a u, h'.openAt a u =
      if u = token then stays && c.address == a else h.openAt a u)
    (hroom : ∀ a, h'.room.get? a =
      if a = c.address ∧ c.isOpen = true ∧ stays = false then none else h.room.get? a) :
    h.Follows h' := by
  -- Only the entry of `token` can turn, and only at its own address.
  have before : ∀ a, h.openAt a token = (c.isOpen && c.address == a) := by simp [openAt, hc]
  refine ⟨fun a hsame => ?_, fun a u hne v => ?_⟩
  · rw [hroom, if_neg]
    rintro ⟨rfl, hopenc, hends⟩
    simpa [hopen, before, hopenc, hends] using hsame token
  · obtain rfl : u = token := by
      by_contra hu
      exact hne (by rw [hopen, if_neg hu])
    obtain ⟨hopenc, rfl, hends⟩ : c.isOpen = true ∧ c.address = a ∧ stays = false := by
      rw [hopen, if_pos rfl, before] at hne
      cases hcopen : c.isOpen <;> cases hs : stays <;> simp_all
    rw [hroom, if_pos ⟨rfl, hopenc, hends⟩, hopen]
    by_cases hv : v = u <;> simp [hv, hends]

variable [Codec C] [Inspector I] [Handler H]

/-- Lets one connection do something, whatever comes of it. -/
def perform (h : Hub C I H) (token : Nat) (op : Op) : Hub C I H :=
  ((h.act token fun c s => ((), c.perform s op)).map (·.2.1)).getD h

theorem perform_hub (h : Hub C I H) (token n : Nat) (bytes : Bytes) :
    h.perform token (.write bytes) = ((h.write token bytes).map (·.2.1)).getD h ∧
      h.perform token (.read n) = ((h.read token n).map (·.2)).getD h ∧
      h.perform token .close = ((h.close token).map (·.1)).getD h := by
  unfold perform write read close act
  cases h.get? token <;> exact ⟨rfl, rfl, rfl⟩

theorem perform_of_none {h : Hub C I H} {token : Nat} (hc : h.get? token = none) (op : Op) :
    h.perform token op = h := by simp [perform, act, hc]

theorem perform_of_some {h : Hub C I H} {token : Nat} {c : Connection C I H}
    (hc : h.get? token = some c) (op : Op) :
    h.perform token op = h.settle token (c.perform h.delays op).1 (c.perform h.delays op).2.1
      (c.perform h.delays op).2.2.requests := by simp [perform, act, hc]

theorem drop_of_none {h : Hub C I H} {token : Nat} (hc : h.get? token = none) :
    ((h.drop token).map (·.1)).getD h = h := by simp [drop, close, act, hc]

theorem drop_spec (h : Hub C I H) (token : Nat) :
    let dropped := ((h.drop token).map (·.1)).getD h
    (∀ u, dropped.get? u = if u = token then none else (h.perform token .close).get? u) ∧
      dropped.room = (h.perform token .close).room := by
  intro dropped
  cases hc : h.get? token with
  | none =>
    have hsame : dropped = h := drop_of_none hc
    rw [hsame, perform_of_none hc]
    refine ⟨fun u => ?_, rfl⟩
    by_cases hu : u = token <;> simp [hu, hc]
  | some c =>
    have hforget : dropped = { h.perform token .close with
        connections := (h.perform token .close).connections.filter fun e => e.1 != token } := by
      simp [dropped, drop, close, perform, Connection.perform, act, hc]
    rw [hforget]
    refine ⟨fun u => ?_, rfl⟩
    by_cases hu : u = token
    · rw [if_pos hu, hu]
      exact lookup_filter_self token _
    · rw [if_neg hu]
      exact lookup_filter_ne hu _

variable [Chatting H] {h : Hub C I H} {token : Nat} {c : Connection C I H}

/-- When a connection does something, the others hear its remarks if they are in the room under
another address, and nothing else happens to them. -/
theorem Housed.perform_get? (hh : h.Housed) (hc : h.get? token = some c)
    (hchats : c.isOpen = true → 0 < c.chats) (op : Op) (u : Nat) :
    (h.perform token op).get? u =
      if u = token then some (c.perform h.delays op).1
      else (h.get? u).map fun d => d.hear
        (if h.room.get? d.address = some u ∧ d.address ≠ c.address then c.remarks h.delays op
          else []) := by
  obtain ⟨_, _, htalk, _⟩ := perform_room hchats h.delays op token h.room
  rw [perform_of_some hc, (settle_spec h token _ _ _).1 u]
  by_cases hu : u = token
  · subst hu
    rw [if_pos rfl, if_pos rfl, htalk u c.address (hh.address_of_mem hc)]
    simp
  · rw [if_neg hu, if_neg hu]
    refine Option.map_congr fun d hd => ?_
    rw [htalk u d.address (hh.address_of_mem hd)]

theorem perform_room_get? (hc : h.get? token = some c)
    (hchats : c.isOpen = true → 0 < c.chats) (op : Op) (a : String) :
    (h.perform token op).room.get? a =
      if a = c.address ∧ c.isOpen = true ∧ (c.perform h.delays op).1.isOpen = false then none
      else h.room.get? a := by
  obtain ⟨_, _, _, hroom⟩ := perform_room hchats h.delays op token h.room
  rw [perform_of_some hc, (settle_spec h token _ _ _).2.1]
  exact hroom a

/-- A new connection is in the room if it has a handler that chats. -/
theorem connect_spec (h : Hub C I H) (token : Nat) (ctx : Context) (stages : Stages C I H) :
    let made := (Connection.new ctx stages.codec stages.inspector stages.handlers).1
    (∀ u, (h.connect token ctx stages).1.get? u = if u = token then some made else h.get? u) ∧
      ∀ a, (h.connect token ctx stages).1.room.get? a =
        if a = ctx.peer.text ∧ 0 < made.chats then some token else h.room.get? a := by
  intro made
  obtain ⟨hjoin, hmade⟩ := new_asks ctx stages.codec stages.inspector stages.handlers
  have hpeer := new_peer ctx stages.codec stages.inspector stages.handlers
  obtain ⟨hget, hroom, _⟩ := settle_spec h token made h.delays
    (List.replicate (stages.handlers.countP Chatting.chats) .join)
  have hconnect : (h.connect token ctx stages).1 = h.settle token made h.delays
      (List.replicate (stages.handlers.countP Chatting.chats) .join) := by rw [← hjoin]; rfl
  rw [hconnect]
  refine ⟨fun u => ?_, fun a => ?_⟩
  · rw [hget, RoomRequest.talkAll_of_silent (by simp [List.mem_replicate])]
    simp [Talk.packetsFor]
  · rw [hroom, RoomRequest.get?_enterAll_join, hmade, hpeer]

theorem Housed.perform_openAt (hh : h.Housed) (hc : h.get? token = some c)
    (hchats : c.isOpen = true → 0 < c.chats) (op : Op) (a : String) (u : Nat) :
    (h.perform token op).openAt a u =
      if u = token then (c.perform h.delays op).1.isOpen && c.address == a
      else h.openAt a u := by
  have haddress := (perform_room hchats h.delays op token h.room).1
  rw [openAt, hh.perform_get? hc hchats]
  by_cases hu : u = token
  · simp [hu, haddress]
  · simp [hu, openAt, Option.any_map]

theorem Housed.perform_follows (hh : h.Housed) (hc : h.get? token = some c)
    (hchats : c.isOpen = true → 0 < c.chats) (op : Op) : h.Follows (h.perform token op) := by
  obtain ⟨_, hopen, _⟩ := perform_room hchats h.delays op token h.room
  exact follows_of_end hc _ (fun hs => (hopen hs).1) (hh.perform_openAt hc hchats op)
    (perform_room_get? hc hchats op)

theorem Housed.drop_follows (hh : h.Housed) (hc : h.get? token = some c)
    (hchats : c.isOpen = true → 0 < c.chats) :
    h.Follows (((h.drop token).map (·.1)).getD h) := by
  obtain ⟨hget, hroom⟩ := drop_spec h token
  have hends : (c.perform h.delays .close).1.isOpen = false := close_isOpen c h.delays
  refine follows_of_end hc false nofun (fun a u => ?_) fun a => ?_
  · rw [openAt, hget]
    by_cases hu : u = token
    · simp [hu]
    · rw [if_neg hu, if_neg hu, ← openAt, hh.perform_openAt hc hchats, if_neg hu]
  · rw [hroom, perform_room_get? hc hchats, hends]

theorem connect_openAt (h : Hub C I H) (token : Nat) (ctx : Context) (stages : Stages C I H)
    (a : String) (u : Nat) : (h.connect token ctx stages).1.openAt a u =
      if u = token then ctx.peer.text == a else h.openAt a u := by
  have hpeer := new_peer ctx stages.codec stages.inspector stages.handlers
  have hopen : (Connection.new ctx stages.codec stages.inspector stages.handlers).1.isOpen = true :=
    rfl
  rw [openAt, (connect_spec h token ctx stages).1]
  by_cases hu : u = token
  · simp [hu, hopen, address, hpeer]
  · rw [if_neg hu, if_neg hu, openAt]

theorem connect_follows (hfresh : h.get? token = none) (ctx : Context) (stages : Stages C I H)
    (hchats : 0 < stages.handlers.countP Chatting.chats) :
    h.Follows (h.connect token ctx stages).1 := by
  have before : ∀ a, h.openAt a token = false := by simp [openAt, hfresh]
  have hroom := (connect_spec h token ctx stages).2
  rw [(new_asks ctx stages.codec stages.inspector stages.handlers).2] at hroom
  refine ⟨fun a hsame => ?_, fun a u hne v => ?_⟩
  · rw [hroom, if_neg]
    rintro ⟨rfl, _⟩
    simpa [connect_openAt, before] using hsame token
  · obtain rfl : u = token := by
      by_contra hu
      exact hne (by rw [connect_openAt, if_neg hu])
    obtain rfl : ctx.peer.text = a := by
      rw [connect_openAt, if_pos rfl, before] at hne
      simpa using hne
    rw [hroom, if_pos ⟨rfl, hchats⟩, connect_openAt]
    by_cases hv : v = u
    · simp [hv, before]
    · simp [hv, Ne.symm hv]

end Hub

end Switchboard
