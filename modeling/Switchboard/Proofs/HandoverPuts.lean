import Switchboard.Proofs.DelayIdle
import Switchboard.Proofs.DelayRun

namespace Switchboard

open DelayQueue

/-- A delayed packet on its way to the channel of a codec. -/
abbrev DuePacket := DueItem DelaySink Packet

/-- The packets on their way to one channel. -/
def forKey (k : Nat) (es : List DuePacket) : List DuePacket := es.filter fun e => e.sink.key == k

/-- The packets that are held back because a channel was full. -/
def heldBack (k : Nat) (ds : List (StalledItems DelaySink Packet)) : List DuePacket :=
  ds.flatMap fun d => if d.key = k then d.items else []

/-- Packets are held back under the key of their channel, in one place. -/
structure KeptApart (ds : List (StalledItems DelaySink Packet)) : Prop where
  distinct : (fullKeys ds).Nodup
  own : ∀ d ∈ ds, ∀ e ∈ d.items, e.sink.key = d.key

namespace Handover

variable {h h' h'' : Handover} {k : Nat} {e : DuePacket} {es puts puts' : List DuePacket}

@[simp] theorem forKey_append (k : Nat) (es es' : List DuePacket) :
    forKey k (es ++ es') = forKey k es ++ forKey k es' := List.filter_append es es'

theorem forKey_eq_self (h : ∀ e ∈ es, e.sink.key = k) : forKey k es = es :=
  List.filter_eq_self.mpr fun e he => by simpa using h e he

theorem forKey_eq_nil (h : ∀ e ∈ es, e.sink.key ≠ k) : forKey k es = [] :=
  List.filter_eq_nil_iff.mpr fun e he => by simpa using h e he

/-- Packets were put on channels one after the other: behind those that were there, each told to its
owner once, and only where there was room. -/
structure Puts (h : Handover) (puts : List DuePacket) (h' : Handover) : Prop where
  channel : ∀ k, h'.channel k = { h.channel k with
    packets := (h.channel k).packets ++ (forKey k puts).map (·.item) }
  wakes : h'.wakes = puts.reverse.filterMap (·.sink.waker) ++ h.wakes
  connected : ∀ e ∈ puts, (h.channel e.sink.key).connected = true
  room : ∀ k, (h.channel k).packets.length ≤ capacity → (h'.channel k).packets.length ≤ capacity

theorem Puts.refl (h : Handover) : Puts h [] h := by
  refine ⟨fun k => ?_, rfl, by simp, fun _ hk => hk⟩
  simp [forKey]

theorem Puts.connected_eq (p : Puts h puts h') (k : Nat) :
    (h'.channel k).connected = (h.channel k).connected := by rw [p.channel]

theorem Puts.trans (p : Puts h puts h') (p' : Puts h' puts' h'') :
    Puts h (puts ++ puts') h'' := by
  refine ⟨fun k => ?_, ?_, ?_, fun k hk => p'.room k (p.room k hk)⟩
  · rw [p'.channel, p.channel]
    simp
  · rw [p'.wakes, p.wakes]
    simp
  · intro e he
    rcases List.mem_append.mp he with he | he
    · exact p.connected e he
    · exact (p.connected_eq _) ▸ p'.connected e he

/-- What an offer comes to: the codec is gone, its channel is full, or the packet is put there. -/
theorem offer_cases (h : Handover) (e : DuePacket) :
    ((h.channel e.sink.key).connected = false ∧ outlet.offer e.sink e.item h = (.gone, h)) ∨
    ((h.channel e.sink.key).connected = true ∧ outlet.offer e.sink e.item h = (.full, h)) ∨
    (h.channel e.sink.key).connected = true ∧
      ∃ h', outlet.offer e.sink e.item h = (.delivered, h') ∧ Puts h [e] h' := by
  let c := h.channel e.sink.key
  cases hc : (h.channel e.sink.key).connected with
  | false => exact .inl ⟨rfl, by simp [outlet, offer, hc]⟩
  | true =>
    by_cases hfull : capacity ≤ c.packets.length
    · exact .inr (.inl ⟨rfl, by simp [outlet, offer, hc, c, hfull]⟩)
    · let put := h.setChannel e.sink.key { c with packets := c.packets ++ [e.item] }
      let h' : Handover := { put with wakes := e.sink.waker.toList ++ h.wakes }
      have hoffer : outlet.offer e.sink e.item h = (.delivered, h') := by
        have hroom : ¬ capacity ≤ (h.channel e.sink.key).packets.length := hfull
        simp [outlet, offer, hc, hroom, h', put, c, setChannel]
      have hchannel : ∀ k, h'.channel k =
          if k = e.sink.key then { c with packets := c.packets ++ [e.item] } else h.channel k :=
        h.channel_setChannel e.sink.key
          (c := { c with packets := c.packets ++ [e.item] })
      refine .inr (.inr ⟨rfl, h', hoffer, fun k => ?_, ?_, by simpa using hc, fun k hk => ?_⟩)
      · rw [hchannel]
        by_cases hk : k = e.sink.key
        · simp [hk, forKey, c]
        · simp [hk, forKey, Ne.symm hk]
      · cases hw : e.sink.waker <;> simp [h', hw]
      · rw [hchannel]
        by_cases hkey : k = e.sink.key
        · simp only [hkey, if_true, List.length_append, List.length_singleton]
          omega
        · simpa [hkey] using hk

/-- Packets of one channel, offered in turn: those that are put there, and those that are left. -/
theorem offerInTurn_puts (h : Handover) (items : List DuePacket)
    (own : ∀ e ∈ items, e.sink.key = k) :
    ∃ n puts left h', offerInTurn outlet items h = (n, left, h') ∧ Puts h puts h' ∧
      (∀ e ∈ puts, e.sink.key = k) ∧ (∀ e ∈ left, e.sink.key = k) ∧
      ((h.channel k).connected = true → puts ++ left = items) := by
  induction items generalizing h with
  | nil => exact ⟨0, [], [], h, rfl, .refl h, by simp, by simp, fun _ => rfl⟩
  | cons e items ih =>
    obtain ⟨he, hitems⟩ := List.forall_mem_cons.mp own
    rcases h.offer_cases e with ⟨hgone, ho⟩ | ⟨_, ho⟩ | ⟨_, h₁, ho, hput⟩
    · refine ⟨0, [], [], h, by simp [offerInTurn, ho], .refl h, by simp, by simp, fun hc => ?_⟩
      rw [← he, hgone] at hc
      cases hc
    · exact ⟨0, [], e :: items, h, by simp [offerInTurn, ho], .refl h, by simp, own, fun _ => rfl⟩
    · obtain ⟨n, puts, left, h₂, hrest, hputs, hown, hleft, hall⟩ := ih h₁ hitems
      refine ⟨n + 1, [e] ++ puts, left, h₂, by simp [offerInTurn, ho, hrest], hput.trans hputs,
        List.forall_mem_cons.mpr ⟨he, hown⟩, hleft, fun hc => ?_⟩
      rw [List.append_assoc, hall (by rw [hput.connected_eq, hc])]
      rfl

end Handover

theorem heldBack_eq_nil {k : Nat} {ds : List (StalledItems DelaySink Packet)}
    (h : k ∉ fullKeys ds) : heldBack k ds = [] := by
  refine List.flatMap_eq_nil_iff.mpr fun d hd => ?_
  have hne : d.key ≠ k := fun heq => h (heq ▸ List.mem_map_of_mem hd)
  rw [if_neg hne]

section

variable {k key : Nat} {d : StalledItems DelaySink Packet} {e : DuePacket}
  {ds : List (StalledItems DelaySink Packet)}

theorem heldBack_cons (k : Nat) (d : StalledItems DelaySink Packet)
    (ds : List (StalledItems DelaySink Packet)) :
    heldBack k (d :: ds) = (if d.key = k then d.items else []) ++ heldBack k ds := rfl

theorem heldBack_append (k : Nat) (ds ds' : List (StalledItems DelaySink Packet)) :
    heldBack k (ds ++ ds') = heldBack k ds ++ heldBack k ds' := List.flatMap_append

theorem mem_of_mem_heldBack (h : e ∈ heldBack k ds) : ∃ d ∈ ds, e ∈ d.items := by
  obtain ⟨d, hd, he⟩ := List.mem_flatMap.mp h
  split at he
  · exact ⟨d, hd, he⟩
  · cases he

theorem keptApart_iff : KeptApart ds ↔ Apart Handover.outlet ds :=
  ⟨fun h => ⟨h.distinct, h.own⟩, fun h => ⟨h.distinct, h.own⟩⟩

theorem KeptApart.tail (h : KeptApart (d :: ds)) : d.key ∉ fullKeys ds ∧ KeptApart ds :=
  (keptApart_iff.mp h).tail.imp_right keptApart_iff.mpr

theorem KeptApart.cons (h : KeptApart ds) (hd : d.key ∉ fullKeys ds)
    (own : ∀ e ∈ d.items, e.sink.key = d.key) : KeptApart (d :: ds) :=
  keptApart_iff.mpr ((keptApart_iff.mp h).cons hd own)

theorem KeptApart.holdBack (h : KeptApart ds) (he : e.sink.key = key) :
    KeptApart (holdBack key e ds) :=
  keptApart_iff.mpr ((keptApart_iff.mp h).holdBack he)

theorem KeptApart.append_new (h : KeptApart ds) (hk : e.sink.key ∉ fullKeys ds) (retryAt : Time) :
    KeptApart (ds ++ [⟨e.sink.key, retryAt, [e]⟩]) :=
  keptApart_iff.mpr ((keptApart_iff.mp h).append_new hk retryAt)

/-- A packet that is held back is the last of its channel. -/
theorem heldBack_holdBack (apart : KeptApart ds) (hkey : key ∈ fullKeys ds) :
    heldBack k (holdBack key e ds) = heldBack k ds ++ if key = k then [e] else [] := by
  induction ds with
  | nil => cases hkey
  | cons d ds ih =>
    obtain ⟨hd, tail⟩ := apart.tail
    by_cases hfound : d.key = key
    · rw [holdBack, if_pos hfound, heldBack_cons, heldBack_cons]
      by_cases hk : key = k
      · have hnone : heldBack k ds = [] := heldBack_eq_nil (by rwa [← hk, ← hfound])
        simp [hfound, hk, hnone]
      · simp [hfound, hk]
    · have hin : key ∈ fullKeys ds := by
        rcases List.mem_cons.mp hkey with heq | hin
        · exact absurd heq.symm hfound
        · exact hin
      rw [holdBack, if_neg hfound, heldBack_cons, heldBack_cons, ih tail hin, List.append_assoc]

end

namespace Handover

variable {h : Handover} {ds : List (StalledItems DelaySink Packet)}

/-- What goes to one channel is not mixed with what goes to the others. -/
theorem heldBack_cons_puts {k : Nat} {d : StalledItems DelaySink Packet}
    {ds' : List (StalledItems DelaySink Packet)} {puts left more : List DuePacket}
    (hd : d.key ∉ fullKeys ds) (own : ∀ e ∈ puts, e.sink.key = d.key)
    (first : d.key = k → puts ++ left = d.items)
    (rest : forKey k more ++ heldBack k ds' = heldBack k ds) :
    forKey k (puts ++ more) ++ ((if d.key = k then left else []) ++ heldBack k ds') =
      heldBack k (d :: ds) := by
  rw [heldBack_cons, forKey_append]
  by_cases hk : d.key = k
  · have hnone : heldBack k ds = [] := heldBack_eq_nil (hk ▸ hd)
    rw [hnone, List.append_eq_nil_iff] at rest
    rw [forKey_eq_self fun e he => (own e he).trans hk, rest.1, rest.2, hnone]
    simpa [hk] using first hk
  · rw [forKey_eq_nil fun e he heq => hk ((own e he).symm.trans heq)]
    simpa [hk] using rest

/-- Destinations whose time is over are offered what was held back for them; of each channel nothing
is lost, and nothing overtakes. -/
theorem retry_puts (h : Handover) (now : Time) (apart : KeptApart ds) :
    ∃ n puts ds' h', retry outlet now ds h = (n, ds', h') ∧ Puts h puts h' ∧ KeptApart ds' ∧
      fullKeys ds' ⊆ fullKeys ds ∧
      ∀ k, (h.channel k).connected = true →
        forKey k puts ++ heldBack k ds' = heldBack k ds := by
  induction ds generalizing h with
  | nil => exact ⟨0, [], [], h, rfl, .refl h, apart, fun _ h => h, fun _ _ => rfl⟩
  | cons d ds ih =>
    obtain ⟨hd, tail⟩ := apart.tail
    have own := apart.own d List.mem_cons_self
    by_cases wait : now < d.retryAt
    · obtain ⟨n, puts, ds', h', hretry, hputs, apart', hkeys, hall⟩ := ih h tail
      refine ⟨n, puts, d :: ds', h', by simp [retry, wait, hretry], hputs,
        apart'.cons (fun hmem => hd (hkeys hmem)) own, List.cons_subset_cons _ hkeys, ?_⟩
      intro k hk
      have none : ∀ e ∈ ([] : List DuePacket), e.sink.key = d.key := by simp
      exact heldBack_cons_puts hd none (fun _ => rfl) (hall k hk)
    · obtain ⟨m, puts, left, h₁, hoffer, hputs, hown, hleft, hfirst⟩ :=
        offerInTurn_puts h d.items own
      obtain ⟨n, more, ds', h₂, hretry, hmore, apart', hkeys, hall⟩ := ih h₁ tail
      have rest (k) (hk : (h.channel k).connected = true) :
          forKey k (puts ++ more) ++ ((if d.key = k then left else []) ++ heldBack k ds') =
            heldBack k (d :: ds) :=
        heldBack_cons_puts hd hown (fun heq => hfirst (heq ▸ hk))
          (hall k (by rw [hputs.connected_eq, hk]))
      cases left with
      | nil =>
        refine ⟨m + n, puts ++ more, ds', h₂, by simp [retry, wait, hoffer, hretry],
          hputs.trans hmore, apart', List.subset_cons_of_subset _ hkeys, fun k hk => ?_⟩
        simpa using rest k hk
      | cons e left =>
        refine ⟨m + n, puts ++ more, ⟨d.key, now + retryDelay, e :: left⟩ :: ds', h₂,
          by simp [retry, wait, hoffer, hretry], hputs.trans hmore,
          apart'.cons (fun hmem => hd (hkeys hmem)) hleft, List.cons_subset_cons _ hkeys, rest⟩

/-- What becomes due lines up behind what is held back for its channel. -/
theorem offerDue_puts (h : Handover) (now : Time) (es : List DuePacket) (apart : KeptApart ds) :
    ∃ n puts ds' h', offerDue outlet now es ds h = (n, ds', h') ∧ Puts h puts h' ∧ KeptApart ds' ∧
      ∀ k, (h.channel k).connected = true →
        forKey k puts ++ heldBack k ds' = heldBack k ds ++ forKey k es := by
  induction es generalizing ds h with
  | nil => exact ⟨0, [], ds, h, rfl, .refl h, apart, fun k _ => by simp [forKey]⟩
  | cons e es ih =>
    have hcons (k) : forKey k (e :: es) = forKey k [e] ++ forKey k es := forKey_append k [e] es
    have hone (k) : forKey k [e] = if e.sink.key = k then [e] else [] := by
      by_cases hk : e.sink.key = k <;> simp [forKey, hk]
    by_cases full : outlet.key e.sink ∈ fullKeys ds
    · have own : e.sink.key ∈ fullKeys ds := full
      obtain ⟨n, puts, ds', h', hrest, hputs, apart', hall⟩ := ih h (apart.holdBack rfl)
      refine ⟨n, puts, ds', h', ?_, hputs, apart', fun k hk => ?_⟩
      · rw [offerDue_held full]
        exact hrest
      · rw [hall k hk, heldBack_holdBack apart own, hcons, hone, List.append_assoc]
    · rcases h.offer_cases e with ⟨hgone, ho⟩ | ⟨_, ho⟩ | ⟨_, h₁, ho, hput⟩
      · obtain ⟨n, puts, ds', h', hrest, hputs, apart', hall⟩ := ih h apart
        refine ⟨n, puts, ds', h', ?_, hputs, apart', fun k hk => ?_⟩
        · rw [offerDue_gone full ho]
          exact hrest
        · have hne : e.sink.key ≠ k := by
            rintro rfl
            rw [hgone] at hk
            cases hk
          rw [hall k hk, hcons, hone, if_neg hne, List.nil_append]
      · obtain ⟨n, puts, ds', h', hrest, hputs, apart', hall⟩ :=
          ih h (apart.append_new full (now + retryDelay))
        refine ⟨n, puts, ds', h', ?_, hputs, apart', fun k hk => ?_⟩
        · rw [offerDue_full full ho]
          exact hrest
        · rw [hall k hk, heldBack_append, hcons, hone, List.append_assoc]
          simp [heldBack]
      · obtain ⟨n, puts, ds', h', hrest, hputs, apart', hall⟩ := ih h₁ apart
        refine ⟨n + 1, [e] ++ puts, ds', h', ?_, hput.trans hputs, apart', fun k hk => ?_⟩
        · rw [offerDue_delivered full ho]
          exact congrArg (fun r => (r.1 + 1, r.2)) hrest
        · rw [forKey_append, List.append_assoc, hall k (by rw [hput.connected_eq, hk]), hcons, hone]
          by_cases hkey : e.sink.key = k
          · rw [heldBack_eq_nil (hkey ▸ full)]
            rfl
          · simp [hkey]

/-- A firing puts on each channel what is due, in order and as far as there is room. What is held
back then was held back before or is due. -/
theorem fire_puts (h : Handover) {q : DelayQueue DelaySink Packet} (now : Time)
    (apart : KeptApart q.stalled) :
    ∃ n puts stalled h', q.fire outlet now h =
        (n, ⟨q.waiting.dropWhile fun e => e.due ≤ now, stalled⟩, h') ∧
      Puts h puts h' ∧ KeptApart stalled ∧
      (∀ k, (h.channel k).connected = true → forKey k puts ++ heldBack k stalled =
        heldBack k q.stalled ++ forKey k (q.waiting.takeWhile fun e => e.due ≤ now)) ∧
      ∀ d ∈ stalled, ∀ e ∈ d.items,
        (∃ d ∈ q.stalled, e ∈ d.items) ∨ e ∈ q.waiting.takeWhile fun e => e.due ≤ now := by
  obtain ⟨m, puts, ds, h₁, hretry, hputs, apart₁, _, hall⟩ := retry_puts h now apart
  obtain ⟨n, more, ds', h₂, hdue, hmore, apart₂, hall'⟩ :=
    offerDue_puts h₁ now (q.waiting.takeWhile fun e => e.due ≤ now) apart₁
  refine ⟨m + n, puts ++ more, ds', h₂, by simp only [fire, hretry, hdue], hputs.trans hmore,
    apart₂, fun k hk => ?_, ?_⟩
  · rw [forKey_append, List.append_assoc, hall' k (by rw [hputs.connected_eq, hk]),
      ← List.append_assoc, hall k hk]
  · let P : DuePacket → Prop := fun e =>
      (∃ d ∈ q.stalled, e ∈ d.items) ∨ e ∈ q.waiting.takeWhile fun e => e.due ≤ now
    have old : _ ∧ ∀ d ∈ (retry outlet now q.stalled h).2.1, ∀ e ∈ d.items, P e :=
      retry_holds (I := fun _ => True) (fun _ _ _ _ => trivial) now
        (fun d hd e he => .inl ⟨d, hd, he⟩) trivial
    rw [hretry] at old
    have new : _ ∧ ∀ d ∈ (offerDue outlet now _ ds h₁).2.1, ∀ e ∈ d.items, P e :=
      offerDue_holds (I := fun _ => True) (fun _ _ _ _ => trivial) now (fun e he => .inr he) old.2
        trivial
    rw [hdue] at new
    exact new.2

end Handover

end Switchboard
