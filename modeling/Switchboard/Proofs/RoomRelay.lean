import Switchboard.Proofs.RoomHolders

namespace Switchboard

open Connection

namespace Connection

variable {C I H : Type} [Codec C] [Inspector I]

/-- The packets that pass as the others hear them, with the id of the connection in front. -/
def messages (c : Connection C I H) (s : DelayService) (op : Op) : List Packet :=
  (c.passes s op).map fun m => Hub.spoken m.1 (StandardHandler.spoken m.2.payload)

theorem messages_of_closed {c : Connection C I H} (hclosed : c.isOpen = false) (s : DelayService)
    (op : Op) : c.messages s op = [] := by
  have hst : c.stages = none := by simpa [isOpen] using hclosed
  cases op <;> simp [messages, passes, hst]

variable [Handler H]

theorem remarks_eq_messages [Chatting H] {c : Connection C I H}
    (hone : c.isOpen = true → c.chats = 1) (s : DelayService) (op : Op) :
    c.remarks s op = c.messages s op := by
  cases hst : c.stages with
  | none => cases op <;> simp [remarks, messages, passes, hst]
  | some st =>
    rw [remarks, hone (by simp [isOpen, hst])]
    exact List.map_eq_flatMap.symm

omit [Codec C] in
theorem inspectAll_replies (now : Time) (packets : List Packet) (st : Stages C I H)
    (ctx : Context) : ctx.replies <+: (inspectAll now packets st ctx).2.2.1.replies := by
  induction packets generalizing st ctx with
  | nil => exact List.prefix_refl _
  | cons p ps ih =>
    obtain ⟨verdict, j, h⟩ : ∃ verdict j, Inspector.inspect st.inspector now p = (verdict, j) :=
      ⟨_, _, rfl⟩
    cases verdict with
    | pass q =>
      obtain ⟨qs, hqs⟩ := callAll_context (fun h v => Handler.read h v q)
        (fun h ctx => .offer h ctx.connectionId q) st.handlers
        { ctx with connectionId := Inspector.id j }
      have hrest := ih
        { st with inspector := j, handlers := (offerAll q st.handlers { ctx with
          connectionId := Inspector.id j }).1 }
        { ctx with connectionId := Inspector.id j, replies := ctx.replies ++ qs }
      simp only [inspectAll, h, offerAll, hqs]
      exact (List.prefix_append _ _).trans hrest
    | filter =>
      simp only [inspectAll, h]
      exact ih _ { ctx with connectionId := Inspector.id j }
    | reject failure =>
      simp only [inspectAll, h]
      exact List.prefix_refl _

/-- Replies wait until they are read; a connection that comes to its end forgets them. -/
theorem perform_replies {c : Connection C I H} {st : Stages C I H} (hst : c.stages = some st)
    (s : DelayService) {op : Op} (hread : ∀ n, op ≠ .read n) :
    (c.perform s op).1.isOpen = true ∧
        c.context.replies <+: (c.perform s op).1.context.replies ∨
      (c.perform s op).1.isOpen = false ∧ (c.perform s op).1.context.replies = [] := by
  have closed (c' : Connection C I H) (st' : Stages C I H) (hst' : c'.stages = some st') :
      (c'.close s).1.isOpen = false ∧ (c'.close s).1.context.replies = [] :=
    ⟨close_isOpen c' s, by simp [close, hst', Context.clear]⟩
  cases op with
  | write bytes =>
    rcases write_cases hst bytes s with ⟨e, codec, _, hw⟩ | ⟨packets, codec, refusal, left, ctx,
      log, _, hi, hnone, hsome⟩
    · rw [perform, hw]
      exact .inr (closed { c with stages := some { st with codec } } _ rfl)
    · have hkept := inspectAll_replies s.now packets { st with codec } c.context
      rw [hi] at hkept
      cases refusal with
      | none =>
        rw [perform, hnone rfl]
        exact .inl ⟨rfl, hkept⟩
      | some failure =>
        rw [perform, hsome failure rfl]
        exact .inr (closed { c with context := ctx, stages := some left } _ rfl)
  | read n => exact absurd rfl (hread n)
  | close => exact .inr (closed c st hst)
  | updateInterest =>
    exact .inl ⟨by simp [perform, updateInterest, isOpen, hst], List.prefix_refl _⟩
  | timedOut => exact .inl (by simp [perform, timedOut, isOpen, hst])

end Connection

namespace Hub

variable {C I H : Type}

/-- No two open connections have the same address. -/
def Apart (h : Hub C I H) : Prop := ∀ a u v, h.openAt a u = true → h.openAt a v = true → u = v

/-- Open connections are members of the room. -/
def Attended (h : Hub C I H) : Prop := ∀ a u, h.openAt a u = true → h.room.get? a = some u

theorem Attended.of_follows {h h' : Hub C I H} (hatt : h.Attended) (hf : h.Follows h')
    (hapart : h.Apart) (hapart' : h'.Apart) : h'.Attended := by
  intro a u hu
  by_cases hsame : ∀ v, h'.openAt a v = h.openAt a v
  · rw [hf.still a hsame]
    exact hatt a u ((hsame u).symm.trans hu)
  · obtain ⟨v, hv⟩ := not_forall.mp hsame
    -- whoever was there before would share the address with the one that comes or goes
    have hnew : h.openAt a u = false := by
      by_contra hold
      have hold : h.openAt a u = true := by simpa using hold
      have hsameConnection : u = v := by
        cases hvold : h.openAt a v with
        | true => exact hapart a u v hold hvold
        | false =>
          refine hapart' a u v hu ?_
          rw [hvold] at hv
          simpa using hv
      subst hsameConnection
      exact hv (hu.trans hold.symm)
    exact (hf.turned a v hv u).mpr ⟨hnew, hu⟩

def hasOpen (h : Hub C I H) (u : Nat) : Bool := (h.get? u).any Connection.isOpen

/-- The replies that wait on a connection. -/
def queue (h : Hub C I H) (u : Nat) : List Packet :=
  ((h.get? u).map fun c => c.context.replies).getD []

end Hub

namespace Moment

variable {C I H : Type} {m : Moment C I H} {u : Nat}

/-- Which connection does something. -/
def actor (m : Moment C I H) : Option Nat :=
  match m.event with
  | .connect .. => some m.before.nextToken
  | .act token _ => some token
  | .drop token => some token
  | .elapse _ => none

/-- The replies a connection takes out, to encode them. -/
def taken (m : Moment C I H) (u : Nat) : List Packet :=
  match m.event with
  | .act token (.read _) => if token = u then m.before.hub.queue u else []
  | _ => []

theorem taken_of_other (hu : m.actor ≠ some u) : m.taken u = [] := by
  obtain ⟨w, e⟩ := m
  cases e with
  | act token op =>
    have hne : token ≠ u := fun heq => hu (congrArg some heq)
    cases op <;> simp [taken, hne]
  | _ => rfl

variable [Codec C] [Inspector I]

/-- What another connection says, if this one is open then. -/
def saidTo (m : Moment C I H) (u : Nat) : List Packet :=
  match m.event with
  | .act token op =>
    if token ≠ u ∧ m.before.hub.hasOpen u = true then
      ((m.before.hub.get? token).map fun c => c.messages m.before.hub.delays op).getD []
    else []
  | _ => []

theorem saidTo_of_actor (hu : m.actor = some u) : m.saidTo u = [] := by
  obtain ⟨w, e⟩ := m
  cases e with
  | act token op =>
    obtain rfl := Option.some.inj hu
    simp [saidTo]
  | _ => rfl

theorem saidTo_of_not_open (hu : m.before.hub.hasOpen u = false) : m.saidTo u = [] := by
  obtain ⟨w, e⟩ := m
  have hclosed : w.hub.hasOpen u = false := hu
  cases e <;> simp [saidTo, hclosed]

variable [Handler H]

/-- What is put behind the replies of a connection that it does not take out. -/
def added (m : Moment C I H) (u : Nat) : List Packet :=
  (m.after.hub.queue u).drop ((m.before.hub.queue u).length - (m.taken u).length)

end Moment

namespace Gathering

section

variable {C I H : Type} {w : Gathering C I H} {u : Nat} {taken added : List Packet}

/-- All that was put behind the replies of a connection was taken out or still waits, until it comes
to its end. -/
structure Accounted (w : Gathering C I H) (u : Nat) (taken added : List Packet) : Prop where
  first : taken <+: added
  rest : w.hub.hasOpen u = true ∨ w.nextToken ≤ u → taken ++ w.hub.queue u = added
  gone : w.hub.hasOpen u = false → w.hub.queue u = []

/-- Replies may be taken out, which takes all of them, or others put behind them. -/
theorem Accounted.of_queue {w' : Gathering C I H} (h : w.Accounted u taken added)
    (hlive : w.hub.hasOpen u = true ∨ w.nextToken ≤ u) {more : List Packet}
    (hq : more ++ w'.hub.queue u =
      w.hub.queue u ++ (w'.hub.queue u).drop ((w.hub.queue u).length - more.length))
    (hgone : w'.hub.hasOpen u = false → w'.hub.queue u = []) :
    w'.Accounted u (taken ++ more)
      (added ++ (w'.hub.queue u).drop ((w.hub.queue u).length - more.length)) := by
  have hall : taken ++ more ++ w'.hub.queue u =
      added ++ (w'.hub.queue u).drop ((w.hub.queue u).length - more.length) := by
    rw [List.append_assoc, hq, ← List.append_assoc, h.rest hlive]
  exact ⟨⟨_, hall⟩, fun _ => hall, hgone⟩

theorem Accounted.of_end {w' : Gathering C I H} (h : w.Accounted u taken added)
    (hclosed : w'.hub.hasOpen u = false) (hknown : u < w'.nextToken)
    (hq : w'.hub.queue u = []) :
    w'.Accounted u (taken ++ []) (added ++ (w'.hub.queue u).drop (w.hub.queue u).length) := by
  rw [hq, List.drop_nil, List.append_nil, List.append_nil]
  refine ⟨h.first, fun hlive => ?_, fun _ => hq⟩
  rcases hlive with hopen | hle
  · rw [hclosed] at hopen
    cases hopen
  · exact absurd hknown (Nat.not_lt.mpr hle)

end

variable {C I H : Type} [Codec C] [Inspector I] [Handler H]

theorem step_nextToken (w : Gathering C I H) (e : GatheringEvent C I H) :
    w.nextToken ≤ (w.step e).nextToken := by
  cases e with
  | connect => exact Nat.le_succ _
  | _ => exact Nat.le_refl _

variable [Chatting H]

/-- Open connections have one handler that chats, are members and have their address to
themselves. -/
structure InTouch (w : Gathering C I H) : Prop where
  orderly : w.Orderly (· = 1)
  apart : w.hub.Apart
  attended : w.hub.Attended

variable {w : Gathering C I H} {e : GatheringEvent C I H} {u : Nat} {taken added : List Packet}

/-- What one connection says is heard by every other one that is open. -/
theorem InTouch.perform_get? (h : w.InTouch) {token : Nat} {c : Connection C I H}
    (hc : w.hub.get? token = some c) (op : Op) (u : Nat) :
    (w.hub.perform token op).get? u =
      if u = token then some (c.perform w.hub.delays op).1
      else (w.hub.get? u).map fun d =>
        d.hear (if d.isOpen then c.messages w.hub.delays op else []) := by
  have hone : c.isOpen = true → c.chats = 1 := h.orderly.chats token c hc
  rw [h.orderly.housed.perform_get? hc fun ho => hone ho ▸ Nat.one_pos]
  by_cases hu : u = token
  · rw [if_pos hu, if_pos hu]
  rw [if_neg hu, if_neg hu]
  refine Option.map_congr fun d hd => ?_
  have hears : (if w.hub.room.get? d.address = some u ∧ d.address ≠ c.address then
      c.messages w.hub.delays op else []) =
      if d.isOpen then c.messages w.hub.delays op else [] := by
    have hat : ∀ a, w.hub.openAt a u = true ↔ d.isOpen = true ∧ d.address = a := by
      simp [Hub.openAt, hd]
    cases hopen : d.isOpen with
    | true =>
      have hmember := h.attended d.address u ((hat _).mpr ⟨hopen, rfl⟩)
      -- A listener at the address of the speaker can only be open if the speaker is not.
      by_cases haddress : d.address = c.address
      · have hclosed : c.isOpen = false := by
          by_contra hcopen
          have hcat : w.hub.openAt d.address token = true :=
            Hub.openAt_iff.mpr ⟨c, hc, by simpa using hcopen, haddress.symm⟩
          exact hu (h.apart _ u token ((hat _).mpr ⟨hopen, rfl⟩) hcat)
        simp [messages_of_closed hclosed]
      · simp [hmember, haddress]
    | false =>
      have hnot : w.hub.room.get? d.address ≠ some u := by
        intro hmember
        have hdopen := ((hat _).mp (h.orderly.housed _ u hmember)).1
        rw [hopen] at hdopen
        cases hdopen
      simp [hnot]
  rw [remarks_eq_messages hone, hears]

/-- Whoever does nothing only hears what is said to it. -/
theorem InTouch.get?_of_other (h : w.InTouch) (e : GatheringEvent C I H)
    (hu : (Moment.mk w e).actor ≠ some u) :
    (w.step e).hub.get? u = (w.hub.get? u).map (hear ((Moment.mk w e).saidTo u)) := by
  have nothing : (w.hub.get? u).map (hear []) = w.hub.get? u := by simp
  cases e with
  | connect serverId listenerId peer waker stages =>
    have hne : u ≠ w.nextToken := fun heq => hu (congrArg some heq.symm)
    exact ((Hub.connect_spec w.hub w.nextToken _ stages).1 u).trans
      ((if_neg hne).trans nothing.symm)
  | act token op =>
    have hne : u ≠ token := fun heq => hu (congrArg some heq.symm)
    cases hc : w.hub.get? token with
    | none =>
      rw [step, Hub.perform_of_none hc]
      simp [Moment.saidTo, hc]
    | some c =>
      rw [step, h.perform_get? hc, if_neg hne]
      refine Option.map_congr fun d hd => ?_
      simp [Moment.saidTo, hc, Ne.symm hne, Hub.hasOpen, hd]
  | drop token =>
    have hne : u ≠ token := fun heq => hu (congrArg some heq.symm)
    rw [step, (Hub.drop_spec w.hub token).1, if_neg hne]
    cases hc : w.hub.get? token with
    | none =>
      rw [Hub.perform_of_none hc]
      exact nothing.symm
    | some c =>
      rw [h.perform_get? hc, if_neg hne]
      refine Option.map_congr fun d _ => ?_
      simp [Moment.saidTo, messages, passes]
  | elapse delays => exact nothing.symm

theorem InTouch.queue_of_other (h : w.InTouch) (hu : (Moment.mk w e).actor ≠ some u) :
    (w.step e).hub.queue u = w.hub.queue u ++ (Moment.mk w e).saidTo u := by
  rw [Hub.queue, h.get?_of_other e hu, Hub.queue]
  cases hd : w.hub.get? u with
  | some d => rfl
  | none => cases e <;> simp [Moment.saidTo, Hub.hasOpen, hd]

/-- The replies that others bring are what they say. -/
theorem InTouch.added_of_other (h : w.InTouch) (hu : (Moment.mk w e).actor ≠ some u) :
    (Moment.mk w e).added u = (Moment.mk w e).saidTo u := by
  simp [Moment.added, Moment.after, h.queue_of_other hu, Moment.taken_of_other hu]

theorem Accounted.of_other (h : w.Accounted u taken added) (hin : w.InTouch)
    (hu : (Moment.mk w e).actor ≠ some u) :
    (w.step e).Accounted u taken (added ++ (Moment.mk w e).added u) := by
  have hopen : (w.step e).hub.hasOpen u = w.hub.hasOpen u := by
    rw [Hub.hasOpen, hin.get?_of_other e hu, Option.any_map]
    rfl
  rw [hin.added_of_other hu]
  refine ⟨h.first.trans (List.prefix_append _ _), fun hlive => ?_, fun hclosed => ?_⟩
  · rw [hin.queue_of_other hu, ← List.append_assoc, h.rest]
    rw [hopen] at hlive
    exact hlive.imp_right (step_nextToken w e).trans
  · rw [hopen] at hclosed
    rw [hin.queue_of_other hu, h.gone hclosed, Moment.saidTo_of_not_open hclosed]
    rfl

omit [Chatting H] in
theorem Accounted.of_same (h : w.Accounted u taken added) (hsame : w.step e = w)
    (htaken : (Moment.mk w e).taken u = []) :
    (w.step e).Accounted u (taken ++ (Moment.mk w e).taken u)
      (added ++ (Moment.mk w e).added u) := by
  have hadded : (Moment.mk w e).added u = [] := by
    simp [Moment.added, Moment.after, hsame, htaken]
  rw [hsame, hadded, htaken, List.append_nil, List.append_nil]
  exact h

theorem Accounted.act (h : w.Accounted u taken added) (hin : w.InTouch) (op : Op) :
    (w.step (.act u op)).Accounted u (taken ++ (Moment.mk w (.act u op)).taken u)
      (added ++ (Moment.mk w (.act u op)).added u) := by
  cases hc : w.hub.get? u with
  | none =>
    have hsame : w.step (.act u op) = w := by rw [Gathering.step, Hub.perform_of_none hc]
    have hq : w.hub.queue u = [] := by simp [Hub.queue, hc]
    have htaken : (Moment.mk w (.act u op)).taken u = [] := by
      cases op <;> simp [Moment.taken, hq]
    exact h.of_same hsame htaken
  | some c =>
    have hget : (w.step (.act u op)).hub.get? u = some (c.perform w.hub.delays op).1 := by
      rw [Gathering.step, hin.perform_get? hc, if_pos rfl]
    have hqueue : w.hub.queue u = c.context.replies := by simp [Hub.queue, hc]
    have hqueue' : (w.step (.act u op)).hub.queue u =
        (c.perform w.hub.delays op).1.context.replies := by simp [Hub.queue, hget]
    have hopen' : (w.step (.act u op)).hub.hasOpen u = (c.perform w.hub.delays op).1.isOpen := by
      simp [Hub.hasOpen, hget]
    have hknown := hin.orderly.tokens u c hc
    cases hst : c.stages with
    | none =>
      obtain ⟨hstages, hcontext, _⟩ := perform_of_closed (s := w.hub.delays) hst op
      have hnone : w.hub.queue u = [] := h.gone (by simp [Hub.hasOpen, hc, isOpen, hst])
      have htaken : (Moment.mk w (.act u op)).taken u = [] := by
        cases op <;> simp [Moment.taken, hnone]
      rw [Moment.added, htaken]
      refine h.of_end (hopen'.trans (by simp [isOpen, hstages])) hknown ?_
      rw [hqueue', hcontext, ← hqueue, hnone]
    | some st =>
      have hlive : w.hub.hasOpen u = true := by simp [Hub.hasOpen, hc, isOpen, hst]
      by_cases hread : ∃ n, op = .read n
      · obtain ⟨n, rfl⟩ := hread
        have htaken : (Moment.mk w (.act u (.read n))).taken u = w.hub.queue u := if_pos rfl
        have hopen : (c.perform w.hub.delays (.read n)).1.isOpen = true := by
          simp [perform, Connection.read, isOpen, hst]
        rw [Moment.added, htaken]
        refine h.of_queue (.inl hlive) ?_ fun hclosed => ?_
        · rw [Nat.sub_self, List.drop_zero]
        · rw [hopen', hopen] at hclosed
          cases hclosed
      · have htaken : (Moment.mk w (.act u op)).taken u = [] := by
          cases op with
          | read n => exact absurd ⟨n, rfl⟩ hread
          | _ => rfl
        rw [Moment.added, htaken]
        rcases perform_replies hst w.hub.delays (not_exists.mp hread) with ⟨hopen, hprefix⟩ |
          ⟨hclosed, hnone⟩
        · rw [← hqueue, ← hqueue'] at hprefix
          refine h.of_queue (.inl hlive) ?_ fun hclosed => ?_
          · obtain ⟨ps, hps⟩ := hprefix
            simp [← hps]
          · rw [hopen', hopen] at hclosed
            cases hclosed
        · exact h.of_end (hopen'.trans hclosed) hknown (hqueue'.trans hnone)

theorem Accounted.step (h : w.Accounted u taken added) (hin : w.InTouch)
    (e : GatheringEvent C I H) :
    (w.step e).Accounted u (taken ++ (Moment.mk w e).taken u)
      (added ++ (Moment.mk w e).added u) := by
  -- What a connection does itself concerns its own replies; what others do only adds some.
  by_cases hu : (Moment.mk w e).actor = some u
  · cases e with
    | connect serverId listenerId peer waker stages =>
      obtain rfl : w.nextToken = u := Option.some.inj hu
      have hget := (Hub.connect_spec w.hub w.nextToken (.new serverId listenerId peer waker)
        stages).1 w.nextToken
      have hq : w.hub.queue w.nextToken = [] := by simp [Hub.queue, hin.orderly.fresh]
      have htaken : (Moment.mk w (.connect serverId listenerId peer waker stages)).taken
        w.nextToken = [] := rfl
      rw [Moment.added, htaken]
      refine h.of_queue (.inr (Nat.le_refl _)) (by rw [hq]; rfl) fun hclosed => ?_
      rw [Gathering.step, Hub.hasOpen, hget, if_pos rfl] at hclosed
      cases hclosed
    | act token op =>
      obtain rfl : token = u := Option.some.inj hu
      exact h.act hin op
    | drop token =>
      obtain rfl : token = u := Option.some.inj hu
      cases hc : w.hub.get? token with
      | none =>
        have hsame : w.step (.drop token) = w := by rw [Gathering.step, Hub.drop_of_none hc]
        exact h.of_same hsame rfl
      | some c =>
        have hget : (w.step (.drop token)).hub.get? token = none :=
          ((Hub.drop_spec w.hub token).1 token).trans (if_pos rfl)
        exact h.of_end (by simp [Hub.hasOpen, hget]) (hin.orderly.tokens token c hc)
          (by simp [Hub.queue, hget])
    | elapse delays => cases hu
  · rw [Moment.taken_of_other hu, List.append_nil]
    exact h.of_other hin hu

variable {events : List (GatheringEvent C I H)}

theorem run_inTouch (hone : ∀ e ∈ events, e.Chats (· = 1))
    (hapart : ∀ past, past <+: events → (run past).hub.Apart) : (run events).InTouch := by
  have hpos : ∀ n, n = 1 → 0 < n := by omega
  refine ⟨run_orderly hpos hone, hapart events (List.prefix_refl _), ?_⟩
  induction events using List.reverseRecOn with
  | nil => exact nofun
  | append_singleton events e ih =>
    obtain ⟨hone, he⟩ := chats_concat.mp hone
    have hapart' : ∀ past, past <+: events → (run past).hub.Apart :=
      fun past hpast => hapart past (hpast.trans (List.prefix_append _ _))
    have hfollows := (run_orderly hpos hone).step_follows hpos he
    have hlast := hapart _ (List.prefix_refl _)
    rw [run_concat] at hlast ⊢
    exact (ih hone hapart').of_follows hfollows (hapart' events (List.prefix_refl _)) hlast

omit [Chatting H] in
theorem mem_moments {m : Moment C I H} (hm : m ∈ moments events) :
    ∃ past, past <+: events ∧ m.before = run past := by
  induction events using List.reverseRecOn with
  | nil => cases hm
  | append_singleton events e ih =>
    rw [moments_concat] at hm
    rcases List.mem_append.mp hm with hm | hm
    · obtain ⟨past, hpast, hbefore⟩ := ih hm
      exact ⟨past, hpast.trans (List.prefix_append _ _), hbefore⟩
    · rw [List.mem_singleton.mp hm]
      exact ⟨events, List.prefix_append _ _, rfl⟩

theorem run_accounted (hone : ∀ e ∈ events, e.Chats (· = 1))
    (hapart : ∀ past, past <+: events → (run past).hub.Apart) (u : Nat) :
    (run events).Accounted u ((moments events).flatMap (·.taken u))
      ((moments events).flatMap (·.added u)) := by
  induction events using List.reverseRecOn with
  | nil => exact ⟨List.prefix_refl _, fun _ => rfl, fun _ => rfl⟩
  | append_singleton events e ih =>
    obtain ⟨hone, _⟩ := chats_concat.mp hone
    have hapart' : ∀ past, past <+: events → (run past).hub.Apart :=
      fun past hpast => hapart past (hpast.trans (List.prefix_append _ _))
    rw [run_concat, moments_concat, List.flatMap_append, List.flatMap_append,
      List.flatMap_singleton, List.flatMap_singleton]
    exact (ih hone hapart').step (run_inTouch hone hapart') e

end Gathering

/-- A reply that was queued for a connection, and whether another one brought it. -/
structure Letter where
  packet : Packet
  relayed : Bool

def Letter.relayedOf (letters : List Letter) : List Packet :=
  (letters.filter (·.relayed)).map (·.packet)

/-- What is put behind the replies of a connection, its own or not. -/
def Moment.letters {C I H : Type} [Codec C] [Inspector I] [Handler H] (m : Moment C I H) (u : Nat) :
    List Letter := (m.added u).map fun p => ⟨p, m.actor != some u⟩

/-- The address a connection is opened from. -/
def GatheringEvent.address? {C I H : Type} : GatheringEvent C I H → Option String
  | connect _ _ peer _ _ => some peer.text
  | _ => none

namespace Gathering

variable {C I H : Type} [Codec C] [Inspector I] [Handler H] [Chatting H]
  {events : List (GatheringEvent C I H)}

theorem InTouch.relayedOf_letters {m : Moment C I H} (h : m.before.InTouch) (u : Nat) :
    Letter.relayedOf (m.letters u) = m.saidTo u := by
  by_cases hu : m.actor = some u
  · simp [Letter.relayedOf, Moment.letters, hu, Moment.saidTo_of_actor hu, List.filter_map,
      Function.comp_def]
  · rw [← h.added_of_other (e := m.event) hu]
    simp [Letter.relayedOf, Moment.letters, hu, List.filter_map, Function.comp_def]

/-- Connections that have their addresses to themselves, each with one handler that chats: when a
packet passes on one of them, every other one that is open then gets it once, and nobody else does.
So what was relayed to a connection is what the others said while it was open, in their order, and
what it has taken out is the first of that, among its own replies. -/
theorem everyone_hears_the_others (hone : ∀ e ∈ events, e.Chats (· = 1))
    (hapart : ∀ past, past <+: events → (run past).hub.Apart) :
    let w := run events
    (∀ token c op, w.hub.get? token = some c → ∀ u, (w.hub.perform token op).get? u =
      if u = token then some (c.perform w.hub.delays op).1
      else (w.hub.get? u).map fun d =>
        d.hear (if d.isOpen then c.messages w.hub.delays op else [])) ∧
      ∀ u,
        let letters := (moments events).flatMap (·.letters u)
        let taken := (moments events).flatMap (·.taken u)
        let said := (moments events).flatMap (·.saidTo u)
        Letter.relayedOf letters = said ∧ taken = (letters.take taken.length).map Letter.packet ∧
          Letter.relayedOf (letters.take taken.length) <+: said := by
  intro w
  refine ⟨fun token c op hc u => (run_inTouch hone hapart).perform_get? hc op u, fun u => ?_⟩
  intro letters taken said
  have each : ∀ m ∈ moments events, Letter.relayedOf (m.letters u) = m.saidTo u := by
    intro m hm
    obtain ⟨past, hpast, hbefore⟩ := mem_moments hm
    have hin : (run past).InTouch := run_inTouch (fun e he => hone e (hpast.subset he))
      fun before hb => hapart before (hb.trans hpast)
    exact (hbefore ▸ hin : m.before.InTouch).relayedOf_letters u
  have hrelayed : Letter.relayedOf letters = said := by
    calc Letter.relayedOf letters
        = (moments events).flatMap fun m => Letter.relayedOf (m.letters u) := by
          simp [Letter.relayedOf, letters, List.filter_flatMap, List.map_flatMap]
      _ = said := List.flatMap_congr each
  have hpackets : letters.map Letter.packet = (moments events).flatMap (·.added u) := by
    simp [letters, List.map_flatMap, Moment.letters, Function.comp_def]
  have htaken : taken <+: letters.map Letter.packet :=
    hpackets ▸ (run_accounted hone hapart u).first
  refine ⟨hrelayed, ?_, ?_⟩
  · rw [List.map_take]
    exact List.prefix_iff_eq_take.mp htaken
  · rw [← hrelayed]
    exact ((List.take_prefix _ _).filter _).map _

theorem Orderly.openAt_of_perform {w : Gathering C I H} (h : w.Orderly (· = 1)) {token u : Nat}
    {op : Op} {a : String} (hu : (w.hub.perform token op).openAt a u = true) :
    w.hub.openAt a u = true := by
  obtain ⟨d, hd, hopen, ha⟩ := Hub.openAt_iff.mp hu
  rcases h.perform_cases (by omega) hd with ⟨c, rfl, hc, rfl⟩ | ⟨d₀, ps, hd₀, rfl⟩
  · have hchats : c.isOpen = true → 0 < c.chats := fun ho => h.chats u c hc ho ▸ Nat.one_pos
    obtain ⟨haddress, hstays, _⟩ := perform_room hchats w.hub.delays op u w.hub.room
    exact Hub.openAt_iff.mpr ⟨c, hc, (hstays hopen).1, haddress.symm.trans ha⟩
  · exact Hub.openAt_iff.mpr ⟨d₀, hd₀, hopen, ha⟩

/-- Whatever is no opening opens nothing. -/
theorem Orderly.openAt_of_step {w : Gathering C I H} (h : w.Orderly (· = 1)) {u : Nat}
    {e : GatheringEvent C I H} (hnone : e.address? = none) {a : String}
    (hu : (w.step e).hub.openAt a u = true) : w.hub.openAt a u = true := by
  cases e with
  | connect => cases hnone
  | act token op => exact h.openAt_of_perform hu
  | drop token =>
    obtain ⟨d, hd, hopen, ha⟩ := Hub.openAt_iff.mp hu
    rw [Gathering.step, (Hub.drop_spec _ token).1] at hd
    by_cases htoken : u = token
    · rw [if_pos htoken] at hd
      cases hd
    · rw [if_neg htoken] at hd
      exact h.openAt_of_perform (Hub.openAt_iff.mpr ⟨d, hd, hopen, ha⟩)
  | elapse delays => exact hu

/-- Connections are at the addresses they were opened from. -/
theorem run_addresses (hone : ∀ e ∈ events, e.Chats (· = 1)) :
    (run events).nextToken = (events.filterMap GatheringEvent.address?).length ∧
      ∀ a u, (run events).hub.openAt a u = true →
        (events.filterMap GatheringEvent.address?)[u]? = some a := by
  induction events using List.reverseRecOn with
  | nil => exact ⟨rfl, nofun⟩
  | append_singleton events e ih =>
    obtain ⟨hone, _⟩ := chats_concat.mp hone
    have horderly := run_orderly (by omega) hone
    obtain ⟨hcount, hat⟩ := ih hone
    rw [run_concat, List.filterMap_append]
    cases e with
    | connect serverId listenerId peer waker stages =>
      refine ⟨by simp [step, hcount, GatheringEvent.address?], fun a u hu => ?_⟩
      rw [step, Hub.connect_openAt] at hu
      by_cases hnew : u = (run events).nextToken
      · rw [if_pos hnew] at hu
        obtain rfl : peer.text = a := by simpa [Context.new] using hu
        simp [hnew, hcount, GatheringEvent.address?]
      · rw [if_neg hnew] at hu
        have hold := hat a u hu
        rw [List.getElem?_append_left (List.getElem?_eq_some_iff.mp hold).1, hold]
    | act | drop | elapse =>
      rw [List.filterMap_cons_none rfl, List.filterMap_nil, List.append_nil]
      exact ⟨hcount, fun a u hu => hat a u (horderly.openAt_of_step rfl hu)⟩

/-- Connections that are opened from different addresses have their addresses to themselves. -/
theorem apart_of_nodup (hone : ∀ e ∈ events, e.Chats (· = 1))
    (hdistinct : (events.filterMap GatheringEvent.address?).Nodup) {past : List _}
    (hpast : past <+: events) : (run past).hub.Apart := by
  intro a u v hu hv
  have hnodup : (past.filterMap GatheringEvent.address?).Nodup :=
    (hpast.filterMap _).sublist.nodup hdistinct
  have hat := (run_addresses fun e he => hone e (hpast.subset he)).2
  have hin := (List.getElem?_eq_some_iff.mp (hat a u hu)).1
  exact (List.getElem?_inj hin hnodup).mp ((hat a u hu).trans (hat a v hv).symm)

/-- A talk of three, whose handlers do other things too, until the second one goes. -/
def talkOfThree : List (GatheringEvent LineCodec BuiltInspector
    (StandardHandler ⊕ DiagnosticHandler)) :=
  let stages (id : String) (more : List (StandardHandler ⊕ DiagnosticHandler)) :
      Stages LineCodec BuiltInspector (StandardHandler ⊕ DiagnosticHandler) := {
    codec := { config := {}, hook := LineHook.text, framer := { borders := .ofPattern [10] } }
    inspector := .passThrough id
    handlers := .inl .chat :: more }
  [.connect "srv" "one" ⟨"10.0.2.1:1", by decide⟩ none (stages "10.0.2.1:1" [.inr .whoami]),
    .connect "srv" "one" ⟨"10.0.2.2:2", by decide⟩ none (stages "10.0.2.2:2" [.inl .echo]),
    .connect "srv" "two" ⟨"10.0.2.3:3", by decide⟩ none (stages "10.0.2.3:3" []),
    .act 0 (.write [104, 105, 10]), .act 1 (.write [121, 111, 10]), .act 2 (.read 64),
    .act 1 .close, .act 0 (.write [120, 10])]

theorem talkOfThree_chats : ∀ e ∈ talkOfThree, e.Chats (· = 1) := by
  intro e he
  simp only [talkOfThree, List.mem_cons, List.not_mem_nil, or_false] at he
  rcases he with rfl | rfl | rfl | rfl | rfl | rfl | rfl | rfl
  · rfl
  · rfl
  · rfl
  all_goals trivial

/-- The third hears three texts, of which it has taken out two; the second hears the first one, and
its own echo stands behind that. -/
theorem everyone_hears_the_others_of_three :
    (∀ e ∈ talkOfThree, e.Chats (· = 1)) ∧
      (∀ past, past <+: talkOfThree → (run past).hub.Apart) ∧
      (Letter.relayedOf ((moments talkOfThree).flatMap (·.letters 2))).map Packet.describe =
        ["10.0.2.1:1 text 10.0.2.1:1: hi", "10.0.2.2:2 text 10.0.2.2:2: yo",
          "10.0.2.1:1 text 10.0.2.1:1: x"] ∧
      ((moments talkOfThree).flatMap (·.taken 2)).map Packet.describe =
        ["10.0.2.1:1 text 10.0.2.1:1: hi", "10.0.2.2:2 text 10.0.2.2:2: yo"] ∧
      (((moments talkOfThree).flatMap (·.letters 1)).map fun l => (l.packet.describe, l.relayed)) =
        [("10.0.2.1:1 text 10.0.2.1:1: hi", true), ("10.0.2.2:2 text yo", false)] := by
  have hapart : ∀ past, past <+: talkOfThree → (run past).hub.Apart :=
    fun past hpast => apart_of_nodup talkOfThree_chats (by decide +kernel) hpast
  obtain ⟨_, hheard⟩ := everyone_hears_the_others talkOfThree_chats hapart
  refine ⟨talkOfThree_chats, hapart, ?_, by decide +kernel, by decide +kernel⟩
  rw [(hheard 2).1]
  decide +kernel

end Gathering

end Switchboard
