import Mathlib.Data.List.Forall2
import Mathlib.Data.Set.List
import Mathlib.Logic.Function.Basic
import Switchboard.Proofs.LineWire
import Switchboard.Proofs.WorkerMoves

namespace Switchboard

open DelayService

/-- What may happen to codecs that share a worker: packets are encoded and output is read, codecs
are dropped, the worker takes a submission or delivers what is due, time passes, it stops. -/
inductive DelayEvent (ι : Type) where
  | encode (i : ι) (p : Packet)
  | read (i : ι) (n : Nat)
  | pending (i : ι)
  | drop (i : ι)
  | receive
  | fire
  | elapse (microseconds : Nat)
  | stop

/-- Codecs that share a worker, and for each of them the packets it accepted and those handed to its
inner codec, with the time when that was, the output that was read, and the packets that were on its
channel when it was dropped. -/
structure DelayedCodecs (ι : Type) where
  codecs : ι → Delayed LineCodec
  service : DelayService
  dropped : ι → Bool := fun _ => false
  accepted : ι → List (Time × Packet) := fun _ => []
  handed : ι → List (Time × Packet) := fun _ => []
  output : ι → Bytes := fun _ => []
  discarded : ι → List Packet := fun _ => []

namespace DelayedCodecs

section

variable {ι : Type} [DecidableEq ι]

def encode (s : DelayedCodecs ι) (i : ι) (p : Packet) : DelayedCodecs ι :=
  let (result, codec, service) := Codec.encode (s.codecs i) p s.service
  { s with
    codecs := Function.update s.codecs i codec
    service
    accepted := match result with
      | .ok _ => Function.update s.accepted i (s.accepted i ++ [(s.service.now, p)])
      | .error _ => s.accepted }

def read (s : DelayedCodecs ι) (i : ι) (n : Nat) : DelayedCodecs ι :=
  let taken := (s.service.takeDue (s.codecs i).key).1
  let (bytes, codec, service) := Codec.read (s.codecs i) n s.service
  { s with
    codecs := Function.update s.codecs i codec
    service
    handed := Function.update s.handed i (s.handed i ++ taken.map fun p => (s.service.now, p))
    output := Function.update s.output i (s.output i ++ bytes) }

/-- One event; nobody calls a codec that was dropped, and asking one whether output is pending
changes nothing. -/
def step (s : DelayedCodecs ι) : DelayEvent ι → DelayedCodecs ι
  | .encode i p => if s.dropped i then s else s.encode i p
  | .read i n => if s.dropped i then s else s.read i n
  | .pending _ => s
  | .drop i => if s.dropped i then s else { s with
      service := Codec.release (s.codecs i) s.service
      dropped := Function.update s.dropped i true
      discarded := Function.update s.discarded i
        (s.service.handover.channel (s.codecs i).key).packets }
  | .receive => { s with service := s.service.receive }
  | .fire => { s with service := s.service.fire }
  | .elapse n => { s with service := { s.service with
      worker := { s.service.worker with now := s.service.worker.now + n } } }
  | .stop => { s with service := s.service.stop }

def run (s : DelayedCodecs ι) (events : List (DelayEvent ι)) : DelayedCodecs ι :=
  events.foldl step s

end

def dueAt (c : Delayed LineCodec) (a : Time × Packet) : DuePacket :=
  ⟨a.1 + c.delay, a.2, sinkOf c⟩

/-- What was handed over is what was accepted first, each packet after its delay. -/
def Timely (c : Delayed LineCodec) (taken handed : List (Time × Packet)) : Prop :=
  List.Forall₂ (fun a h => h.2 = a.2 ∧ a.1 + (c.delay : Time) ≤ h.1) taken handed

/-- The packets of a codec that were not handed to its inner codec: those on its channel, whose time
has come, behind them those on the way, and those that were lost when the worker stopped. -/
def Underway (c : Delayed LineCodec) (s : DelayService) (rest : List (Time × Packet)) : Prop :=
  (s.handover.channel c.key).connected = true ∧
    ∃ ready way lost, rest = ready ++ way ++ lost ∧
      ready.map (·.2) = (s.handover.channel c.key).packets ∧
      (∀ a ∈ ready, a.1 + (c.delay : Time) ≤ s.now) ∧
      way.map (dueAt c) = s.onTheWay c.key ∧
      (s.worker.running = true → lost = [])

section

variable {ι : Type} {codecs : ι → Delayed LineCodec}

/-- What holds in every run of codecs that were made as `codecs`. -/
structure InTurn (codecs : ι → Delayed LineCodec) (s : DelayedCodecs ι) : Prop where
  steady : Steady codecs s.service
  inner : ∀ i, ∃ output, s.codecs i =
      { codecs i with inner := { (codecs i).inner with output } } ∧
    s.output i ++ output.toBytes = (codecs i).inner.output.toBytes ++
      ((s.handed i).map (·.2)).flatMap
        (LineCodec.packetBytes (codecs i).inner.config (codecs i).inner.delimiter)
  account : ∀ i, ∃ taken rest, s.accepted i = taken ++ rest ∧
    Timely (codecs i) taken (s.handed i) ∧
    (s.dropped i = false → Underway (codecs i) s.service rest)
  told : ∃ puts : List DuePacket, (∀ e ∈ puts, ∃ i, e.sink = sinkOf (codecs i)) ∧
    s.service.handover.wakes = puts.reverse.filterMap (·.sink.waker) ∧
    ∀ i, (forKey (codecs i).key puts).map (·.item) = (s.handed i).map (·.2) ++ s.discarded i ++
      (s.service.handover.channel (codecs i).key).packets
  present : ∀ i, s.dropped i = false → s.discarded i = []

/-- What the worker puts on the channel of a codec are the next packets of that codec. -/
theorem Underway.moves {c : Delayed LineCodec} {s s' : DelayService} {puts : List DuePacket}
    {rest : List (Time × Packet)} (h : Underway c s rest) (m : Moves s puts s') :
    Underway c s' rest := by
  obtain ⟨hc, ready, way, lost, rfl, hready, hdue, hway, hlost⟩ := h
  have moved := m.rest c.key hc
  rw [← hway] at moved
  obtain ⟨next, left, rfl, hnext, hleft⟩ := List.map_eq_append_iff.mp moved.symm
  refine ⟨by rw [m.put.connected_eq, hc], ready ++ next, left, lost, by simp, ?_, ?_, hleft,
    m.running ▸ hlost⟩
  · have items : next.map (·.2) = (forKey c.key puts).map (·.item) := by
      rw [← hnext, List.map_map]
      rfl
    rw [List.map_append, hready, items, m.put.channel]
  · rw [m.now]
    intro a ha
    rcases List.mem_append.mp ha with ha | ha
    · exact hdue a ha
    · have hput : dueAt c a ∈ forKey c.key puts := hnext ▸ List.mem_map_of_mem ha
      exact m.due _ (List.mem_filter.mp hput).1

theorem Underway.frame {c : Delayed LineCodec} {s s' : DelayService} {rest : List (Time × Packet)}
    (h : Underway c s rest) (worker : s'.worker = s.worker)
    (same : s'.handover.channel c.key = s.handover.channel c.key) : Underway c s' rest := by
  obtain ⟨hc, ready, way, lost, hrest, hready, hdue, hway, hlost⟩ := h
  refine ⟨same ▸ hc, ready, way, lost, hrest, same ▸ hready, ?_, ?_, worker ▸ hlost⟩
  · simpa only [DelayService.now, worker] using hdue
  · simpa only [onTheWay, worker] using hway

/-- When the packets on the channel of a codec are taken, the others are left. -/
theorem Underway.taken {c : Delayed LineCodec} {s s' : DelayService} {rest : List (Time × Packet)}
    (h : Underway c s rest) (worker : s'.worker = s.worker)
    (emptied : s'.handover.channel c.key = { s.handover.channel c.key with packets := [] }) :
    ∃ ready left, rest = ready ++ left ∧ Underway c s' left ∧
      Timely c ready ((s.handover.channel c.key).packets.map fun p => (s.now, p)) := by
  obtain ⟨hc, ready, way, lost, rfl, hready, hdue, hway, hlost⟩ := h
  refine ⟨ready, way ++ lost, by simp, ⟨by rw [emptied, hc], [], way, lost, rfl, ?_, by simp, ?_,
    worker ▸ hlost⟩, ?_⟩
  · rw [emptied, List.map_nil]
  · simpa only [onTheWay, worker] using hway
  · simp only [← hready, Timely, List.forall₂_map_right_iff, List.forall₂_same]
    exact fun a ha => ⟨trivial, hdue a ha⟩

theorem steady_emptied {s s' : DelayService} {k : Nat} {c : DueChannel} (h : Steady codecs s)
    (worker : s'.worker = s.worker) (none : c.packets = [])
    (channels : ∀ j, s'.handover.channel j = if j = k then c else s.handover.channel j) :
    Steady codecs s' := by
  obtain ⟨apart, sorted, turns, soon, overdue, known, room⟩ := h
  rw [← worker] at apart sorted turns soon overdue known
  have now : s.now = s'.now := by rw [DelayService.now, DelayService.now, worker]
  rw [now] at soon overdue
  refine ⟨apart, sorted, turns, soon, overdue, known, fun j => ?_⟩
  rw [channels]
  split
  · rw [none]
    exact Nat.zero_le _
  · exact room j

variable {s : DelayedCodecs ι} {service : DelayService} {puts : List DuePacket}

theorem InTurn.moves (h : InTurn codecs s) (m : Moves s.service puts service)
    (steady : Steady codecs service) : InTurn codecs { s with service } := by
  refine ⟨steady, h.inner, fun i => ?_, ?_, h.present⟩
  · obtain ⟨taken, rest, haccepted, hhanded, hway⟩ := h.account i
    exact ⟨taken, rest, haccepted, hhanded, fun hd => (hway hd).moves m⟩
  · obtain ⟨old, hknown, hwakes, hput⟩ := h.told
    refine ⟨old ++ puts, ?_, ?_, fun i => ?_⟩
    · intro e he
      rcases List.mem_append.mp he with he | he
      · exact hknown e he
      · exact m.known h.steady e he
    · rw [m.put.wakes, hwakes]
      simp
    · rw [Handover.forKey_append, List.map_append, hput i, m.put.channel, List.append_assoc]

def submitted (s : DelayService) (e : DuePacket) : DelayService :=
  { s with worker := { s.worker with inbox := s.worker.inbox ++ [e] } }

theorem onTheWay_submitted (s : DelayService) (e : DuePacket) (k : Nat) :
    (submitted s e).onTheWay k = s.onTheWay k ++ forKey k [e] := by
  simp [submitted, onTheWay]

theorem steady_submitted {s : DelayService} (h : Steady codecs s)
    (keys : Function.Injective fun i => (codecs i).key) (i : ι) (p : Packet) :
    Steady codecs (submitted s (dueAt (codecs i) (s.now, p))) := by
  let e := dueAt (codecs i) (s.now, p)
  have members {x} (hx : x ∈ s.worker.queue.waiting ++ (s.worker.inbox ++ [e])) :
      x ∈ s.worker.queue.waiting ++ s.worker.inbox ∨ x = e := by
    rw [← List.append_assoc] at hx
    exact (List.mem_append.mp hx).imp_right List.mem_singleton.mp
  refine ⟨h.apart, h.sorted, fun k => ?_, fun j x hx hkey => ?_, h.overdue, fun x hx => ?_, h.room⟩
  · have split : forKey k (s.worker.queue.waiting ++ (s.worker.inbox ++ [e])) =
        forKey k (s.worker.queue.waiting ++ s.worker.inbox) ++ forKey k [e] := by simp
    refine split ▸ List.pairwise_append.mpr ⟨h.turns k, List.pairwise_singleton .. |>.filter _, ?_⟩
    intro x hx y hy
    obtain ⟨hx, hk⟩ := List.mem_filter.mp hx
    obtain ⟨hy, hk'⟩ := List.mem_filter.mp hy
    have same : x.sink.key = (codecs i).key := by
      rw [List.mem_singleton] at hy
      have hey : e.sink.key = (codecs i).key := rfl
      rw [← hey, ← hy, beq_iff_eq.mp hk, beq_iff_eq.mp hk']
    exact List.mem_singleton.mp hy ▸ h.soon i x hx same
  · rcases members hx with hx | rfl
    · exact h.soon j x hx hkey
    · have same : i = j := keys hkey
      subst same
      exact Int.le_refl _
  · rcases hx with hx | hx
    · exact h.known x (.inl hx)
    · rcases members hx with hx | rfl
      · exact h.known x (.inr hx)
      · exact ⟨i, rfl⟩

variable [DecidableEq ι]

theorem le_later (t : Time) (n : Nat) : t ≤ t + (n : Time) :=
  Int.le_add_of_nonneg_right (Int.natCast_nonneg n)

theorem InTurn.elapse (h : InTurn codecs s) (n : Nat) : InTurn codecs (s.step (.elapse n)) := by
  have steady := h.steady
  refine ⟨⟨steady.apart, steady.sorted, steady.turns, fun i e he hk => ?_, fun d hd e he => ?_,
    steady.known, steady.room⟩, h.inner, fun i => ?_, h.told, h.present⟩
  · exact Int.le_trans (steady.soon i e he hk) (Int.add_le_add_right (le_later _ n) _)
  · exact Int.le_trans (steady.overdue d hd e he) (le_later _ n)
  · obtain ⟨taken, rest, haccepted, hhanded, hway⟩ := h.account i
    refine ⟨taken, rest, haccepted, hhanded, fun hd => ?_⟩
    obtain ⟨hc, ready, way, lost, hrest, hready, hdue, hon, hlost⟩ := hway hd
    exact ⟨hc, ready, way, lost, hrest, hready,
      fun a ha => Int.le_trans (hdue a ha) (le_later _ n), hon, hlost⟩

/-- A worker that stops does what is to be done once more, and drops the rest. -/
theorem InTurn.stop (h : InTurn codecs s) : InTurn codecs (s.step .stop) := by
  obtain ⟨puts, m, steady⟩ := h.steady.settle
  have settled := h.moves m steady
  have stopped : s.service.stop = { s.service.settle with worker := { s.service.settle.worker with
      running := false, inbox := [], queue := {} } } := rfl
  have eq : s.step .stop = { s with service := s.service.stop } := rfl
  rw [eq, stopped]
  refine ⟨⟨⟨List.nodup_nil, by simp⟩, List.Pairwise.nil, fun k => List.Pairwise.nil,
    fun i e he => absurd he List.not_mem_nil, by simp, by simp, steady.room⟩, h.inner,
    fun i => ?_, settled.told, settled.present⟩
  obtain ⟨taken, rest, haccepted, hhanded, hway⟩ := settled.account i
  refine ⟨taken, rest, haccepted, hhanded, fun hd => ?_⟩
  obtain ⟨hc, ready, way, lost, rfl, hready, hdue, hon, hlost⟩ := hway hd
  exact ⟨hc, ready, [], way ++ lost, by simp, hready, hdue, rfl, fun hr => by cases hr⟩

theorem encode_eq (s : DelayedCodecs ι) (i : ι) (p : Packet) :
    s.encode i p = if s.service.worker.running then { s with
        service := submitted s.service (dueAt (s.codecs i) (s.service.now, p))
        accepted := Function.update s.accepted i (s.accepted i ++ [(s.service.now, p)]) }
      else s := by
  by_cases running : s.service.worker.running = true
  · simp [encode, Codec.encode, submit, Scheduler.submit, running, submitted, dueAt, sinkOf]
    rfl
  · simp [encode, Codec.encode, submit, Scheduler.submit, running]

/-- A packet is accepted while the worker runs, and is the last of its codec on the way. -/
theorem InTurn.encode (h : InTurn codecs s) (keys : Function.Injective fun i => (codecs i).key)
    (i : ι) (p : Packet) : InTurn codecs (s.encode i p) := by
  rw [encode_eq]
  by_cases running : s.service.worker.running = true
  · rw [if_pos running]
    obtain ⟨output, hcodec, _⟩ := h.inner i
    have same : dueAt (s.codecs i) = dueAt (codecs i) := by
      rw [hcodec]
      rfl
    rw [same]
    refine ⟨steady_submitted h.steady keys i p, h.inner, fun j => ?_, h.told, h.present⟩
    obtain ⟨taken, rest, haccepted, hhanded, hway⟩ := h.account j
    by_cases hij : j = i
    · subst hij
      refine ⟨taken, rest ++ [(s.service.now, p)], ?_, hhanded, fun hd => ?_⟩
      · simp [haccepted]
      · obtain ⟨hc, ready, way, lost, rfl, hready, hdue, hon, hlost⟩ := hway hd
        refine ⟨hc, ready, way ++ [(s.service.now, p)], [], ?_, hready, hdue, ?_, fun _ => rfl⟩
        · simp [hlost running]
        · rw [onTheWay_submitted, ← hon, List.map_append,
            Handover.forKey_eq_self (by simp [dueAt, sinkOf])]
          rfl
    · refine ⟨taken, rest, ?_, hhanded, fun hd => ?_⟩
      · simpa [hij] using haccepted
      · obtain ⟨hc, ready, way, lost, hrest, hready, hdue, hon, hlost⟩ := hway hd
        refine ⟨hc, ready, way, lost, hrest, hready, hdue, ?_, hlost⟩
        have other : forKey (codecs j).key [dueAt (codecs i) (s.service.now, p)] = [] := by
          refine Handover.forKey_eq_nil fun e he heq => hij ?_
          rw [List.mem_singleton.mp he] at heq
          exact (keys heq).symm
        rw [onTheWay_submitted, other, hon, List.append_nil]
  · rw [if_neg running]
    exact h

theorem takeDue_frame (s : DelayService) (k : Nat) :
    (s.takeDue k).1 = (s.handover.channel k).packets ∧
    (s.takeDue k).2.worker = s.worker ∧ (s.takeDue k).2.handover.wakes = s.handover.wakes ∧
    ∀ j, (s.takeDue k).2.handover.channel j =
      if j = k then { s.handover.channel k with packets := [] } else s.handover.channel j := by
  by_cases none : (s.handover.channel k).packets = []
  · have same : s.takeDue k = ([], s) := by simp [takeDue, none]
    rw [same]
    refine ⟨none.symm, rfl, rfl, fun j => ?_⟩
    by_cases hj : j = k
    · simp [hj, ← none]
    · rw [if_neg hj]
  · have taken : s.takeDue k = ((s.handover.channel k).packets, { s with
        handover := s.handover.setChannel k { s.handover.channel k with packets := [] } }) := by
      simp [takeDue, none]
    rw [taken]
    exact ⟨rfl, rfl, rfl, fun j => Handover.channel_setChannel ..⟩

/-- A read encodes what is on the channel, and takes from what is encoded. -/
theorem delayed_read (c : Delayed LineCodec) (n : Nat) (s : DelayService) :
    ∃ bytes output, Codec.read c n s =
        (bytes, { c with inner := { c.inner with output } }, (s.takeDue c.key).2) ∧
      bytes ++ output.toBytes = c.inner.output.toBytes ++
        (s.takeDue c.key).1.flatMap (LineCodec.packetBytes c.inner.config c.inner.delimiter) := by
  obtain ⟨filled, hencode, hfilled⟩ :=
    c.inner.encodeEach_wire (s.takeDue c.key).1 (s.takeDue c.key).2
  obtain ⟨left, hread, hleft⟩ :=
    LineCodec.read_wire { c.inner with output := filled } n (s.takeDue c.key).2
  refine ⟨filled.toBytes.take n, left, ?_, ?_⟩
  · have took : c.takeDue s =
        ({ c with inner := { c.inner with output := filled } }, (s.takeDue c.key).2) := by
      simp only [Delayed.takeDue, hencode]
    have eq : Codec.read c n s = ((Codec.read (c.takeDue s).1.inner n (c.takeDue s).2).1,
      { (c.takeDue s).1 with inner := (Codec.read (c.takeDue s).1.inner n (c.takeDue s).2).2.1 },
      (Codec.read (c.takeDue s).1.inner n (c.takeDue s).2).2.2) := rfl
    rw [eq, took, hread]
  · rw [hleft, ← hfilled]
    exact List.take_append_drop ..

/-- What is on the channel of a codec is handed to its inner codec, and to no other. -/
theorem InTurn.read (h : InTurn codecs s) (keys : Function.Injective fun i => (codecs i).key)
    (i : ι) (hd : s.dropped i = false) (n : Nat) : InTurn codecs (s.read i n) := by
  obtain ⟨output, hcodec, hbytes⟩ := h.inner i
  have hkey : (s.codecs i).key = (codecs i).key := by rw [hcodec]
  obtain ⟨bytes, left, hread, hout⟩ := delayed_read (s.codecs i) n s.service
  obtain ⟨hpackets, hworker, hwakes, hchannel⟩ := takeDue_frame s.service (codecs i).key
  rw [hkey] at hread hout
  rw [hpackets] at hout
  let packets := (s.service.handover.channel (codecs i).key).packets
  let taken := packets.map fun p => (s.service.now, p)
  have eq : s.read i n = { s with
      codecs := Function.update s.codecs i
        { s.codecs i with inner := { (s.codecs i).inner with output := left } }
      service := (s.service.takeDue (codecs i).key).2
      handed := Function.update s.handed i (s.handed i ++ taken)
      output := Function.update s.output i (s.output i ++ bytes) } := by
    simp only [DelayedCodecs.read, hread, hkey, hpackets]
    rfl
  rw [eq]
  have other {j} (hj : j ≠ i) : (codecs j).key ≠ (codecs i).key := fun heq => hj (keys heq)
  refine ⟨?_, fun j => ?_, fun j => ?_, ?_, h.present⟩
  · exact steady_emptied h.steady hworker rfl hchannel
  · by_cases hj : j = i
    · subst hj
      refine ⟨left, ?_, ?_⟩
      · simp only [Function.update_self]
        rw [hcodec]
      · rw [hcodec] at hout
        simp only [Function.update_self, List.append_assoc, hout]
        rw [← List.append_assoc, hbytes]
        simp [taken, packets, Function.comp_def]
        rfl
    · simpa [hj] using h.inner j
  · obtain ⟨old, rest, haccepted, hhanded, hway⟩ := h.account j
    by_cases hj : j = i
    · subst hj
      obtain ⟨ready, left, rfl, underway, next⟩ :=
        (hway hd).taken hworker ((hchannel _).trans (if_pos rfl))
      refine ⟨old ++ ready, left, by simp [haccepted], ?_, fun _ => underway⟩
      simp only [Function.update_self]
      exact List.rel_append hhanded next
    · refine ⟨old, rest, haccepted, ?_, fun hd => ?_⟩
      · simpa [hj] using hhanded
      · exact (hway hd).frame hworker ((hchannel _).trans (if_neg (other hj)))
  · obtain ⟨puts, hknown, hputwakes, hput⟩ := h.told
    refine ⟨puts, hknown, hwakes.trans hputwakes, fun j => ?_⟩
    rw [hput j]
    by_cases hj : j = i
    · subst hj
      simp [hchannel, taken, packets, Function.comp_def, h.present j hd]
    · simp [hchannel, other hj, hj]

theorem InTurn.drop (h : InTurn codecs s) (keys : Function.Injective fun i => (codecs i).key)
    (i : ι) (hd : s.dropped i = false) : InTurn codecs (s.step (.drop i)) := by
  obtain ⟨_, hcodec, _⟩ := h.inner i
  have hkey : (s.codecs i).key = (codecs i).key := by rw [hcodec]
  have eq : s.step (.drop i) = { s with
      service := s.service.disconnect (codecs i).key
      dropped := Function.update s.dropped i true
      discarded := Function.update s.discarded i
        (s.service.handover.channel (codecs i).key).packets } := by
    simp only [step, hd, ← hkey]
    rfl
  have hchannel (k) : (s.service.disconnect (codecs i).key).handover.channel k =
      if k = (codecs i).key then { packets := [], connected := false }
      else s.service.handover.channel k :=
    Handover.channel_setChannel ..
  have other {j} (hj : j ≠ i) : (codecs j).key ≠ (codecs i).key := fun heq => hj (keys heq)
  rw [eq]
  refine ⟨steady_emptied h.steady rfl rfl hchannel, h.inner, fun j => ?_, ?_, fun j hdj => ?_⟩
  · obtain ⟨old, rest, haccepted, hhanded, hway⟩ := h.account j
    refine ⟨old, rest, haccepted, hhanded, fun hdj => ?_⟩
    by_cases hj : j = i
    · subst hj
      simp at hdj
    · have hd : s.dropped j = false := by simpa [hj] using hdj
      exact (hway hd).frame rfl ((hchannel _).trans (if_neg (other hj)))
  · obtain ⟨puts, hknown, hwakes, hput⟩ := h.told
    refine ⟨puts, hknown, hwakes, fun j => ?_⟩
    rw [hput j]
    by_cases hj : j = i
    · subst hj
      simp [hchannel, h.present j hd]
    · simp [hchannel, other hj, hj]
  · by_cases hj : j = i
    · subst hj
      simp at hdj
    · simpa [hj] using h.present j (by simpa [hj] using hdj)

theorem InTurn.step (h : InTurn codecs s) (keys : Function.Injective fun i => (codecs i).key)
    (e : DelayEvent ι) : InTurn codecs (s.step e) := by
  cases e with
  | encode i p =>
    simp only [DelayedCodecs.step]
    split
    · exact h
    · exact h.encode keys i p
  | read i n =>
    by_cases hd : s.dropped i = true
    · simpa only [DelayedCodecs.step, if_pos hd] using h
    · simpa only [DelayedCodecs.step, if_neg hd] using
        h.read keys i (Bool.eq_false_of_not_eq_true hd) n
  | pending i => exact h
  | drop i =>
    by_cases hd : s.dropped i = true
    · simpa only [DelayedCodecs.step, if_pos hd] using h
    · exact h.drop keys i (Bool.eq_false_of_not_eq_true hd)
  | receive =>
    obtain ⟨received, steady⟩ := h.steady.receive
    exact h.moves received steady
  | fire =>
    obtain ⟨_, fired, steady⟩ := h.steady.fire
    exact h.moves fired steady
  | elapse n => exact h.elapse n
  | stop => exact h.stop

theorem InTurn.run (h : InTurn codecs s) (keys : Function.Injective fun i => (codecs i).key)
    (events : List (DelayEvent ι)) : InTurn codecs (s.run events) := by
  induction events generalizing s with
  | nil => exact h
  | cons e events ih => exact ih (h.step keys e)

omit [DecidableEq ι] in
theorem start_inTurn (codecs : ι → Delayed LineCodec) (now : Time) :
    InTurn codecs { codecs, service := { worker := { now } } } := by
  refine ⟨⟨⟨List.nodup_nil, by simp⟩, List.Pairwise.nil, fun k => List.Pairwise.nil, by simp,
    by simp, by simp, fun k => Nat.zero_le _⟩, fun i => ⟨(codecs i).inner.output, rfl, by simp⟩,
    fun i => ⟨[], [], rfl, .nil, fun _ => ?_⟩, ⟨[], by simp, rfl, fun _ => rfl⟩, fun _ _ => rfl⟩
  exact ⟨rfl, [], [], [], rfl, rfl, by simp, rfl, fun _ => rfl⟩

/-- Codecs that have just been told whom to wake, and a worker that has nothing to do. -/
def start (codecs : ι → Delayed LineCodec) (wakers : ι → Waker) (now : Time) : DelayedCodecs ι where
  codecs i := Codec.setWaker (codecs i) (wakers i)
  service := { worker := { now } }

omit [DecidableEq ι] in
/-- The packets the worker put on channels, by the codecs they are for. -/
theorem exists_named {wakers : ι → Waker} {puts : List DuePacket}
    (known : ∀ e ∈ puts, ∃ i, e.sink = sinkOf (Codec.setWaker (codecs i) (wakers i))) :
    ∃ named : List (ι × Packet), puts.map (fun e => (e.sink, e.item)) =
      named.map fun n => (⟨(codecs n.1).key, some (wakers n.1)⟩, n.2) := by
  have inRange : puts.map (fun e => (e.sink, e.item)) ∈ Set.range (List.map fun n : ι × Packet =>
      ((⟨(codecs n.1).key, some (wakers n.1)⟩ : DelaySink), n.2)) := by
    rw [Set.range_list_map]
    intro x hx
    obtain ⟨e, he, rfl⟩ := List.mem_map.mp hx
    obtain ⟨i, hi⟩ := known e he
    exact ⟨(i, e.item), by rw [hi]; rfl⟩
  obtain ⟨named, h⟩ := inRange
  exact ⟨named, h.symm⟩

/-- What comes out of codecs that share a worker, however their calls, the worker and the clock
take turns. Each hands the packets it accepted to its inner codec in order, each once and after its
delay. Its owner is told once of every packet on its channel, which never holds more than it may.
And as long as the codec is there and the worker runs, what it accepted and did not hand over is on
the channel or on its way there. -/
theorem delayed_packets_in_turn (codecs : ι → Delayed LineCodec) (wakers : ι → Waker)
    (keys : Function.Injective fun i => (codecs i).key) (now : Time)
    (events : List (DelayEvent ι)) :
    let s := (start codecs wakers now).run events
    let channel i := s.service.handover.channel (codecs i).key
    (∀ i, (channel i).packets.length ≤ Handover.capacity) ∧
    (∀ i, s.output i ++ (s.codecs i).inner.output.toBytes =
      (codecs i).inner.output.toBytes ++ ((s.handed i).map (·.2)).flatMap
        (LineCodec.packetBytes (codecs i).inner.config (codecs i).inner.delimiter)) ∧
    (∃ puts : List (ι × Packet), s.service.handover.wakes.reverse = puts.map (wakers ·.1) ∧
      ∀ i, (puts.filter (·.1 = i)).map (·.2) =
        (s.handed i).map (·.2) ++ s.discarded i ++ (channel i).packets) ∧
    ∀ i, ∃ taken rest, s.accepted i = taken ++ rest ∧
      List.Forall₂ (fun a h => h.2 = a.2 ∧ a.1 + ((codecs i).delay : Time) ≤ h.1)
        taken (s.handed i) ∧
      (s.dropped i = false → s.discarded i = [] ∧ (s.service.worker.running = true →
        rest.map (·.2) =
          (channel i).packets ++ (s.service.onTheWay (codecs i).key).map (·.item))) := by
  intro s channel
  have inTurn : InTurn (fun i => Codec.setWaker (codecs i) (wakers i)) s :=
    (start_inTurn (fun i => Codec.setWaker (codecs i) (wakers i)) now).run keys events
  refine ⟨fun i => inTurn.steady.room _, fun i => ?_, ?_, fun i => ?_⟩
  · obtain ⟨output, hcodec, hbytes⟩ := inTurn.inner i
    rw [hcodec]
    exact hbytes
  · obtain ⟨puts, hknown, hwakes, hput⟩ := inTurn.told
    obtain ⟨named, hnamed⟩ := exists_named hknown
    refine ⟨named, ?_, fun i => ?_⟩
    · have wakes : puts.filterMap (·.sink.waker) =
          (puts.map fun e => (e.sink, e.item)).filterMap (·.1.waker) := by
        rw [List.filterMap_map]
        rfl
      rw [hwakes, ← List.filterMap_reverse, List.reverse_reverse, wakes, hnamed, List.filterMap_map]
      exact congrFun List.filterMap_eq_map' named
    · have ofKey : (forKey (codecs i).key puts).map (·.item) =
          ((puts.map fun e => (e.sink, e.item)).filter (·.1.key == (codecs i).key)).map (·.2) := by
        rw [List.filter_map, List.map_map]
        rfl
      have sameKey (n : ι × Packet) : ((codecs n.1).key == (codecs i).key) = decide (n.1 = i) := by
        rw [beq_eq_decide]
        exact decide_eq_decide.mpr keys.eq_iff
      have owned : (forKey (codecs i).key puts).map (·.item) =
          (named.filter (·.1 = i)).map (·.2) := by
        rw [ofKey, hnamed, List.filter_map, List.map_map]
        exact congrArg (fun f => (named.filter f).map (·.2)) (funext sameKey)
      rw [← owned]
      exact hput i
  · obtain ⟨taken, rest, haccepted, hhanded, hway⟩ := inTurn.account i
    refine ⟨taken, rest, haccepted, hhanded, fun hd => ⟨inTurn.present i hd, fun running => ?_⟩⟩
    obtain ⟨_, ready, way, lost, rfl, hready, _, hon, hlost⟩ := hway hd
    have items : way.map (·.2) = (s.service.onTheWay (codecs i).key).map (·.item) := by
      have hon : _ = s.service.onTheWay (codecs i).key := hon
      rw [← hon, List.map_map]
      rfl
    rw [hlost running, List.append_nil, List.map_append, hready, items]
    rfl

end

/-- A codec with a delay of five, and a slow one with twice that. -/
def quickAndSlow (slow : Bool) : Delayed LineCodec where
  inner := { config := {}, hook := LineHook.text, framer := { borders := .ofPattern [10] } }
  delay := cond slow 10 5
  key := cond slow 1 0

/-- Both are sent packets, and the slow one again when its first is due. -/
def exchange : List (DelayEvent Bool) :=
  [.encode true ⟨"", .text "a"⟩, .encode false ⟨"", .text "b"⟩, .receive, .receive, .elapse 3,
    .encode false ⟨"", .text "c"⟩, .receive, .elapse 5, .fire, .read false 1, .elapse 2,
    .encode true ⟨"", .text "d"⟩, .fire, .read true 64]

/-- The quick codec has handed over both of its packets and the slow one the first of two, which
leaves the second in the inbox of the worker. -/
theorem delayed_packets_in_turn_of_exchange :
    let s := (start quickAndSlow (fun slow => cond slow 21 20) 0).run exchange
    s.service.handover.wakes = [21, 20, 20] ∧
      s.handed false = [(8, ⟨"", .text "b"⟩), (8, ⟨"", .text "c"⟩)] ∧
      s.handed true = [(10, ⟨"", .text "a"⟩)] ∧
      ∃ taken rest, s.accepted true = taken ++ rest ∧
        List.Forall₂ (fun a h => h.2 = a.2 ∧ a.1 + 10 ≤ h.1) taken (s.handed true) ∧
        rest.map (·.2) = [⟨"", .text "d"⟩] := by
  have keys : Function.Injective fun slow => (quickAndSlow slow).key := by
    intro a b
    cases a <;> cases b <;> simp [quickAndSlow]
  obtain ⟨_, _, _, turns⟩ :=
    delayed_packets_in_turn quickAndSlow (fun slow => cond slow 21 20) keys 0 exchange
  obtain ⟨taken, rest, haccepted, hhanded, hthere⟩ := turns true
  have left := (hthere rfl).2 rfl
  refine ⟨rfl, rfl, rfl, taken, rest, haccepted, hhanded, left.trans ?_⟩
  rfl

end DelayedCodecs

end Switchboard
