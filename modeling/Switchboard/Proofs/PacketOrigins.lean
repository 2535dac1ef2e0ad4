import Mathlib.Data.List.Nodup
import Switchboard.Packet.Stamped

namespace Switchboard

/-- What is done with packets: one is made, or derived from the one at a place among those there
are. -/
inductive PacketStep where
  | make (time : Int) (packet : Packet)
  | withPayload (place : Nat) (payload : Payload)
  | withSource (place : Nat) (source : String)
  | copy (place : Nat)

/-- What has been done with packets so far. -/
structure PacketHistory where
  mint : Mint := {}
  /-- The clock readings of the creations. -/
  times : List Int := []
  /-- All packets there were, each with the number of the creation it derives from. Those that were
  given up for another one are among them. -/
  packets : List (Stamped × Nat) := []

namespace PacketHistory

def derive (h : PacketHistory) (place : Nat) (f : Stamped → Stamped) : PacketHistory :=
  match h.packets[place]? with
  | some (p, origin) => { h with packets := h.packets ++ [(f p, origin)] }
  | none => h

def step (h : PacketHistory) : PacketStep → PacketHistory
  | .make time packet =>
    let (p, mint) := h.mint.make time packet
    { mint, times := h.times ++ [time], packets := h.packets ++ [(p, h.times.length)] }
  | .withPayload place payload => h.derive place (·.withPayload payload)
  | .withSource place source => h.derive place (·.withSource source)
  | .copy place => h.derive place id

def run (steps : List PacketStep) : PacketHistory := steps.foldl step {}

/-- The stamp of a packet tells its creation: the clock reading, and its number as far as numbers
go before they start over. -/
structure Numbered (h : PacketHistory) : Prop where
  next : h.mint.next = UInt64.ofNat h.times.length
  stamp : ∀ p origin, (p, origin) ∈ h.packets → ∃ time, h.times[origin]? = some time ∧
    p.stamp = ⟨time, UInt64.ofNat origin⟩

variable {h : PacketHistory}

theorem Numbered.derive (numbered : h.Numbered) (place : Nat) {f : Stamped → Stamped}
    (keeps : ∀ p, (f p).stamp = p.stamp) : (h.derive place f).Numbered := by
  rw [PacketHistory.derive]
  split
  next p origin hplace =>
    refine ⟨numbered.next, fun q o hq => ?_⟩
    rcases List.mem_append.mp hq with hq | hq
    · exact numbered.stamp q o hq
    · obtain ⟨rfl, rfl⟩ := Prod.mk.inj (List.mem_singleton.mp hq)
      rw [keeps]
      exact numbered.stamp p o (List.mem_of_getElem? hplace)
  next => exact numbered

theorem Numbered.make (numbered : h.Numbered) (time : Int) (packet : Packet) :
    (h.step (.make time packet)).Numbered := by
  constructor
  · show h.mint.next + 1 = UInt64.ofNat (h.times ++ [time]).length
    rw [numbered.next, List.length_append, List.length_singleton, UInt64.ofNat_add]
    rfl
  · intro q o hq
    show ∃ t, (h.times ++ [time])[o]? = some t ∧ _
    rcases List.mem_append.mp hq with hq | hq
    · obtain ⟨t, ht, hstamp⟩ := numbered.stamp q o hq
      exact ⟨t, List.getElem?_append_left (List.getElem?_eq_some_iff.mp ht).1 ▸ ht, hstamp⟩
    · obtain ⟨rfl, rfl⟩ := Prod.mk.inj (List.mem_singleton.mp hq)
      refine ⟨time, List.getElem?_concat_length .., ?_⟩
      show (⟨time, h.mint.next⟩ : Stamp) = _
      rw [numbered.next]

theorem Numbered.step (numbered : h.Numbered) (s : PacketStep) : (h.step s).Numbered := by
  cases s with
  | make time packet => exact numbered.make time packet
  | withPayload place payload => exact numbered.derive place fun _ => rfl
  | withSource place source => exact numbered.derive place fun _ => rfl
  | copy place => exact numbered.derive place fun _ => rfl

theorem run_numbered (steps : List PacketStep) : (run steps).Numbered := by
  have start : Numbered {} := ⟨rfl, fun _ _ none => by cases none⟩
  exact List.foldlRecOn steps PacketHistory.step start fun _ numbered s _ => numbered.step s

end PacketHistory

namespace Stamped

instance : Std.TransCmp order :=
  inferInstanceAs (Std.TransCmp (compareLex (compareOn fun p : Stamped => p.stamp.time)
    (compareOn fun p : Stamped => p.stamp.sequence)))

theorem order_total (p q : Stamped) : (p.order q).isLE ∨ (q.order p).isLE := by
  have swap : q.order p = (p.order q).swap := Std.OrientedCmp.eq_swap
  rw [swap]
  cases p.order q <;> simp

theorem order_trans {p q r : Stamped} (h : (p.order q).isLE) (h' : (q.order r).isLE) :
    (p.order r).isLE := Std.TransCmp.isLE_trans h h'

theorem beq_iff_order {p q : Stamped} : (p == q) = true ↔ p.order q = .eq := by
  show (p.order q == .eq) = true ↔ _
  exact beq_iff_eq

theorem order_eq_of_isLE {p q : Stamped} (h : (p.order q).isLE) (h' : (q.order p).isLE) :
    p.order q = .eq := Std.OrientedCmp.isLE_antisymm h h'

theorem sorted_perm (ps : List Stamped) : (sorted ps).Perm ps := List.mergeSort_perm ..

theorem sorted_pairwise (ps : List Stamped) :
    (sorted ps).Pairwise fun p q => (p.order q).isLE = true := by
  apply List.pairwise_mergeSort
  · intro p q r
    exact order_trans
  · intro p q
    exact Bool.or_eq_true_iff.mpr (order_total p q)

end Stamped

theorem compare_ofNat {i j : Nat} (hi : i < UInt64.size) (hj : j < UInt64.size) :
    compare (UInt64.ofNat i) (UInt64.ofNat j) = compare i j := by
  have hi' : (UInt64.ofNat i).toNat = i := UInt64.toNat_ofNat_of_lt' hi
  have hj' : (UInt64.ofNat j).toNat = j := UInt64.toNat_ofNat_of_lt' hj
  show compareOfLessAndEq _ _ = compareOfLessAndEq i j
  simp only [compareOfLessAndEq, UInt64.lt_iff_toNat_lt, ← UInt64.toNat_inj, hi', hj']

theorem then_compare_eq_lt {s t : Int} {i j : Nat} :
    (compare s t).then (compare i j) = .lt ↔ s < t ∨ s = t ∧ i < j := by
  rw [Ordering.then_eq_lt, Std.compare_eq_lt, Std.compare_eq_iff_eq, Std.compare_eq_lt]

namespace PacketHistory

variable {h : PacketHistory} {p q : Stamped} {i j : Nat}

/-- As long as numbers have not started over, packets compare as the creations they derive from. -/
theorem Numbered.order_eq (numbered : h.Numbered) (few : h.times.length < UInt64.size)
    (hp : (p, i) ∈ h.packets) (hq : (q, j) ∈ h.packets) :
    ∃ s t, h.times[i]? = some s ∧ h.times[j]? = some t ∧
      p.order q = (compare s t).then (compare i j) := by
  obtain ⟨s, hs, hp⟩ := numbered.stamp p i hp
  obtain ⟨t, ht, hq⟩ := numbered.stamp q j hq
  have hi : i < h.times.length := (List.getElem?_eq_some_iff.mp hs).1
  have hj : j < h.times.length := (List.getElem?_eq_some_iff.mp ht).1
  refine ⟨s, t, hs, ht, ?_⟩
  rw [Stamped.order, hp, hq, Stamp.order,
    compare_ofNat (Nat.lt_trans hi few) (Nat.lt_trans hj few)]

theorem Numbered.beq_iff (numbered : h.Numbered) (few : h.times.length < UInt64.size)
    (hp : (p, i) ∈ h.packets) (hq : (q, j) ∈ h.packets) : (p == q) = true ↔ i = j := by
  obtain ⟨s, t, hs, ht, horder⟩ := numbered.order_eq few hp hq
  rw [Stamped.beq_iff_order, horder, Ordering.then_eq_eq, Std.compare_eq_iff_eq, Std.compare_eq_iff_eq]
  constructor
  · exact fun both => both.2
  · rintro rfl
    exact ⟨Option.some.inj (hs.symm.trans ht), rfl⟩

/-- Packets of different creations can be put in order in one way only. -/
theorem Numbered.arranged_eq (numbered : h.Numbered) (few : h.times.length < UInt64.size)
    {es : List (Stamped × Nat)} (known : ∀ e ∈ es, e ∈ h.packets)
    (distinct : (es.map (·.2)).Nodup) {ps : List Stamped} (hps : ps.Perm (es.map (·.1)))
    (ordered : ps.Pairwise fun p q => (p.order q).isLE) : ps = Stamped.sorted (es.map (·.1)) := by
  refine List.Perm.eq_of_pairwise ?_ ordered (Stamped.sorted_pairwise _)
    (hps.trans (Stamped.sorted_perm _).symm)
  intro p q hp hq hpq hqp
  have hp := hps.mem_iff.mp hp
  have hq := (Stamped.sorted_perm _).mem_iff.mp hq
  obtain ⟨⟨p, i⟩, hpi, rfl⟩ := List.mem_map.mp hp
  obtain ⟨⟨q, j⟩, hqj, rfl⟩ := List.mem_map.mp hq
  -- what stands on both sides of the other is equal to it, so both are of one creation
  have equal := Stamped.beq_iff_order.mpr (Stamped.order_eq_of_isLE hpq hqp)
  have origin : i = j := (numbered.beq_iff few (known _ hpi) (known _ hqj)).mp equal
  exact congrArg Prod.fst (List.inj_on_of_nodup_map distinct hpi hqj origin)

/-- The order of packets is total and transitive. Packets are equal if they derive from one creation,
and else the one with the earlier clock reading comes first, or the one made earlier. So packets of
different creations are sorted into one list, whatever order they were in. -/
theorem packets_in_order_of_creation (steps : List PacketStep)
    (few : (run steps).times.length < UInt64.size) :
    (∀ p q : Stamped, (p.order q).isLE ∨ (q.order p).isLE) ∧
    (∀ p q r : Stamped, (p.order q).isLE → (q.order r).isLE → (p.order r).isLE) ∧
    (∀ p i q j, (p, i) ∈ (run steps).packets → (q, j) ∈ (run steps).packets →
      ((p == q) = true ↔ i = j) ∧
      ∃ s t, (run steps).times[i]? = some s ∧ (run steps).times[j]? = some t ∧
        (p.order q = .lt ↔ s < t ∨ s = t ∧ i < j)) ∧
    ∀ es : List (Stamped × Nat), (∀ e ∈ es, e ∈ (run steps).packets) → (es.map (·.2)).Nodup →
      ∃ sorted : List Stamped, sorted.Perm (es.map (·.1)) ∧
        sorted.Pairwise (fun p q => (p.order q).isLE) ∧
        ∀ fs : List (Stamped × Nat), fs.Perm es → Stamped.sorted (fs.map (·.1)) = sorted := by
  have numbered := run_numbered steps
  refine ⟨Stamped.order_total, fun p q r => Stamped.order_trans, fun p i q j hp hq => ?_,
    fun es known distinct => ?_⟩
  · obtain ⟨s, t, hs, ht, horder⟩ := numbered.order_eq few hp hq
    refine ⟨numbered.beq_iff few hp hq, s, t, hs, ht, ?_⟩
    rw [horder, then_compare_eq_lt]
  · refine ⟨Stamped.sorted (es.map (·.1)), Stamped.sorted_perm _, Stamped.sorted_pairwise _,
      fun fs hfs => ?_⟩
    have same : (Stamped.sorted (fs.map (·.1))).Perm (es.map (·.1)) :=
      (Stamped.sorted_perm _).trans (hfs.map _)
    exact numbered.arranged_eq few known distinct same (Stamped.sorted_pairwise _)

/-- Three packets, two of one moment, and one derived from each. -/
def mingled : List PacketStep :=
  [.make 5 ⟨"a", .text "later"⟩, .make 3 ⟨"a", .text "first"⟩, .make 3 ⟨"b", .text "second"⟩,
    .withPayload 0 (.raw [0x61]), .withSource 1 "c", .copy 2]

theorem packets_in_order_of_creation_of_mingled :
    let later : Stamped := ⟨⟨5, 0⟩, ⟨"a", .raw [0x61]⟩⟩
    let first : Stamped := ⟨⟨3, 1⟩, ⟨"c", .text "first"⟩⟩
    let second : Stamped := ⟨⟨3, 2⟩, ⟨"b", .text "second"⟩⟩
    (run mingled).times.length < UInt64.size ∧
    (later, 0) ∈ (run mingled).packets ∧ (first, 1) ∈ (run mingled).packets ∧
    (second, 2) ∈ (run mingled).packets ∧ [0, 2, 1].Nodup ∧
    (later == second) = false ∧ first.order second = .lt ∧
    Stamped.sorted [first, later, second] = Stamped.sorted [later, second, first] := by
  intro later first second
  have few : (run mingled).times.length < UInt64.size := by decide
  have hlater : (later, 0) ∈ (run mingled).packets := List.mem_of_getElem? (i := 3) rfl
  have hfirst : (first, 1) ∈ (run mingled).packets := List.mem_of_getElem? (i := 4) rfl
  have hsecond : (second, 2) ∈ (run mingled).packets := List.mem_of_getElem? (i := 5) rfl
  have distinct : [0, 2, 1].Nodup := by decide
  obtain ⟨_, _, compared, arranged⟩ := packets_in_order_of_creation mingled few
  have unequal := (compared _ _ _ _ hlater hsecond).1
  obtain ⟨s, t, hs, ht, less⟩ := (compared _ _ _ _ hfirst hsecond).2
  obtain rfl : 3 = s := Option.some.inj hs
  obtain rfl : 3 = t := Option.some.inj ht
  obtain ⟨sorted, _, _, same⟩ := arranged [(later, 0), (second, 2), (first, 1)]
    (by simp [hlater, hfirst, hsecond]) distinct
  have rotated : ([(first, 1)] ++ [(later, 0), (second, 2)]).Perm
      ([(later, 0), (second, 2)] ++ [(first, 1)]) := List.perm_append_comm
  have moved := same _ rotated
  exact ⟨few, hlater, hfirst, hsecond, distinct, by simpa using unequal,
    less.mpr (.inr ⟨rfl, by decide⟩), moved.trans (same _ (.refl _)).symm⟩

end PacketHistory

end Switchboard
