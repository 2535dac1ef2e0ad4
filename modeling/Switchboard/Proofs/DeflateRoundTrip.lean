import Switchboard.Codec.Built
import Switchboard.Proofs.StoredStream
import Switchboard.Proofs.TextCarriers

namespace Switchboard

open Deflate LineCodec

/-- One thing that is done with a codec that texts are sent with. -/
inductive TextOp where
  | encode (name text : String)
  | read (n : Nat)
  /-- Bytes are taken until there are none, with a buffer that has room for some. -/
  | drain (buffer : {n : Nat // 0 < n})

def TextOp.texts : TextOp → List String
  | .encode _ text => [text]
  | _ => []

/-- A codec that texts are sent with, and the bytes that were taken from it. -/
structure TextSender (C : Type) where
  codec : C
  service : DelayService
  taken : Bytes := []

namespace TextSender

variable {C : Type} [Codec C] {fresh c : C} {Sent : C → Bytes → List String → Prop}
  {sender : TextSender C} {wire rest : Bytes} {ts : List String} {n : Nat}

def step (sender : TextSender C) : TextOp → TextSender C
  | .encode name text =>
    let (_, codec, service) := Codec.encode sender.codec ⟨name, .text text⟩ sender.service
    { sender with codec, service }
  | .read n =>
    let (bytes, codec, service) := Codec.read sender.codec n sender.service
    ⟨codec, service, sender.taken ++ bytes⟩
  | .drain buffer =>
    let (chunks, codec, service) := Codec.reads buffer.1 sender.codec sender.service
    ⟨codec, service, sender.taken ++ chunks.flatten⟩

def run (sender : TextSender C) (ops : List TextOp) : TextSender C := ops.foldl step sender

def pending (sender : TextSender C) : Bool := Codec.pending sender.codec sender.service

theorem readsUpTo_sent (h : Carries fresh Sent) (positive : 0 < n) (fuel : Nat) (c : C)
    (s : DelayService) (left : (Codec.drain c s).1 = rest) (enough : rest.length < fuel)
    (sent : Sent c wire ts) :
    ∃ chunks c', Codec.readsUpTo n fuel c s = (chunks, c', s) ∧
      Sent c' (wire ++ chunks.flatten) ts ∧ Codec.pending c' s = false := by
  induction fuel generalizing c wire rest with
  | zero => exact absurd enough (Nat.not_lt_zero _)
  | succ fuel ih =>
    by_cases none : rest = []
    · subst none
      obtain ⟨c', hread, sent', _, idle⟩ := h.read_last n sent left
      refine ⟨[], c', ?_, ?_, idle⟩
      · simp [Codec.readsUpTo, hread]
      · rwa [List.flatten_nil, List.append_nil]
    · obtain ⟨bytes, more, c', _, something, fewer, hread, sent', hmore⟩ :=
        h.read_some positive sent (left ▸ none)
      rw [left] at fewer
      obtain ⟨chunks, c'', hreads, sent'', idle⟩ := ih c' hmore (by omega) sent'
      refine ⟨bytes :: chunks, c'', ?_, ?_, idle⟩
      · simp [Codec.readsUpTo, hread, hreads, something]
      · rwa [List.flatten_cons, ← List.append_assoc]

theorem drain_sent (h : Carries fresh Sent) (buffer : {n : Nat // 0 < n})
    (sent : Sent sender.codec sender.taken ts) :
    Sent (sender.step (.drain buffer)).codec (sender.step (.drain buffer)).taken ts ∧
      (sender.step (.drain buffer)).pending = false := by
  obtain ⟨chunks, c', hreads, sent', idle⟩ := readsUpTo_sent h buffer.2
    ((Codec.drain sender.codec sender.service).1.length + 1) sender.codec sender.service rfl
    (Nat.lt_succ_self _) sent
  have hstep : sender.step (.drain buffer) =
      ⟨c', sender.service, sender.taken ++ chunks.flatten⟩ := by
    simp only [step, Codec.reads, hreads]
  rw [hstep]
  exact ⟨sent', idle⟩

theorem step_sent (h : Carries fresh Sent) (op : TextOp) (valid : ∀ t ∈ op.texts, '\n' ∉ t.toList)
    (sent : Sent sender.codec sender.taken ts) :
    Sent (sender.step op).codec (sender.step op).taken (ts ++ op.texts) := by
  cases op with
  | encode name text =>
    have plain : '\n' ∉ text.toList := valid text (List.mem_singleton_self text)
    obtain ⟨c', hencode, sent'⟩ := h.encode name sender.service sent plain
    simp only [step, hencode]
    exact sent'
  | read n =>
    obtain ⟨c', hread, sent', _⟩ := h.read n sender.service sent
    simp only [step, hread]
    exact (List.append_nil ts).symm ▸ sent'
  | drain buffer => exact (List.append_nil ts).symm ▸ (drain_sent h buffer sent).1

theorem run_sent (h : Carries fresh Sent) (ops : List TextOp)
    (valid : ∀ t ∈ ops.flatMap TextOp.texts, '\n' ∉ t.toList)
    (sent : Sent sender.codec sender.taken ts) :
    Sent (sender.run ops).codec (sender.run ops).taken (ts ++ ops.flatMap TextOp.texts) := by
  induction ops generalizing sender ts with
  | nil => rwa [List.flatMap_nil, List.append_nil]
  | cons op ops ih =>
    rw [List.flatMap_cons] at valid ⊢
    obtain ⟨first, others⟩ := List.forall_mem_append.mp valid
    rw [← List.append_assoc]
    exact ih others (step_sent h op first sent)

/-- Of the bytes that were taken, cut in any way, a fresh codec makes the first of the texts, and of
all of them all texts if nothing is pending. -/
theorem pieces_heard (h : Carries fresh Sent) (sent : Sent sender.codec sender.taken ts)
    (source : String) {pieces : List Bytes} (flat : pieces.flatten <+: sender.taken) :
    ∃ got receiver, Codec.decodeChunks source pieces fresh = (.ok got, receiver) ∧
      got <+: heardFrom source ts ∧
      (pieces.flatten = sender.taken → sender.pending = false → got = heardFrom source ts) := by
  obtain ⟨got, receiver, hdecode, first, all⟩ :=
    h.delivers source sender.service sent pieces (flat.trans (List.prefix_append ..))
  refine ⟨got, receiver, hdecode, first, fun whole idle => all ?_⟩
  rw [whole, h.silent sender.service sent idle, List.append_nil]

end TextSender

/-- The description of a codec for lines of text behind any number of compressors. -/
def CodecConfig.deflated (levels : List UInt32) : CodecConfig :=
  levels.foldr .deflate .standard

namespace CodecState

variable (K : Type) [Compressor K] [LawfulCompressor K]

theorem deflated_carries (levels : List UInt32) :
    ∃ fresh : CodecState K (.deflated levels),
      (∀ scheduler key, build scheduler (.deflated levels) key = .ok (fresh, key)) ∧
      ∃ Sent, Carries fresh Sent := by
  induction levels with
  | nil =>
    refine ⟨LineCodec.standard, fun scheduler key => ?_, _, LineCodec.standard_carries⟩
    show build scheduler (.line {}) key = _
    rw [build, new_standard]
    rfl
  | cons level levels ih =>
    obtain ⟨inner, hbuild, Sent, carries⟩ := ih
    have hlevel := CodecConfig.min_greatestLevel level
    refine ⟨({ inner, level := (min level CodecConfig.greatestLevel).toNat } : Deflated K _),
      fun scheduler key => ?_, _, Deflated.carries carries hlevel⟩
    show build scheduler (.deflate level (.deflated levels)) key = _
    rw [build, hbuild]
    rfl

end CodecState

namespace TextSender

/-- Texts sent through any number of compressors, however encoding, reads and drains take turns and
however what was taken is cut: a codec that was built alike hears the texts that were sent, in
order, none of them twice and none between them missing. After a drain it hears all of them. -/
theorem deflated_texts_arrive (K : Type) [Compressor K] [LawfulCompressor K]
    (levels : List UInt32) (service : DelayService) (source : String) :
    ∃ fresh : CodecState K (.deflated levels),
      (∀ scheduler key, CodecState.build scheduler (.deflated levels) key = .ok (fresh, key)) ∧
      ∀ ops : List TextOp, (∀ t ∈ ops.flatMap TextOp.texts, '\n' ∉ t.toList) →
        let sender := run ⟨fresh, service, []⟩ ops
        let heard := heardFrom source (ops.flatMap TextOp.texts)
        (∀ pieces : List Bytes, pieces.flatten <+: sender.taken → ∃ got receiver,
          Codec.decodeChunks source pieces fresh = (.ok got, receiver) ∧ got <+: heard ∧
            (pieces.flatten = sender.taken → sender.pending = false → got = heard)) ∧
        ∀ buffer, let drained := sender.step (.drain buffer)
          drained.pending = false ∧ ∀ pieces : List Bytes, pieces.flatten = drained.taken →
            ∃ receiver, Codec.decodeChunks source pieces fresh = (.ok heard, receiver) := by
  obtain ⟨fresh, hbuild, Sent, carries⟩ := CodecState.deflated_carries K levels
  refine ⟨fresh, hbuild, fun ops valid => ?_⟩
  intro sender heard
  have start : Sent (TextSender.mk fresh service []).codec [] [] := carries.start
  -- What was sent and taken is all the contract needs; the nesting is hidden in `Sent`.
  have sent : Sent sender.codec sender.taken (ops.flatMap TextOp.texts) :=
    run_sent carries ops valid start
  refine ⟨fun pieces flat => pieces_heard carries sent source flat, fun buffer => ?_⟩
  obtain ⟨sent', idle⟩ := drain_sent carries buffer sent
  refine ⟨idle, fun pieces whole => ?_⟩
  obtain ⟨got, receiver, hdecode, _, all⟩ :=
    pieces_heard carries sent' source ⟨[], by rw [whole, List.append_nil]⟩
  rw [all whole idle] at hdecode
  exact ⟨receiver, hdecode⟩

/-- A codec for lines behind two compressors of the least level. -/
def twiceStored : CodecState StoredBlocks (.deflated [0, 0]) :=
  let inner : Deflated StoredBlocks LineCodec := { inner := LineCodec.standard, level := 0 }
  ({ inner, level := 0 } : Deflated StoredBlocks (Deflated StoredBlocks LineCodec))

/-- A text is sent and taken, and two more are encoded while some bytes of the first of them have
been taken. -/
def exchange : List TextOp :=
  [.encode "" "é", .drain ⟨7, by decide⟩, .encode "" "", .read 3, .encode "" "b"]

/-- What is taken meanwhile and by a drain at the end, cut anew. -/
def exchanged : List Bytes :=
  [[0], [13, 0, 242, 255, 0, 3, 0, 252, 255, 195, 169, 10, 0, 0, 0, 255, 255, 0, 0, 0],
    [255, 255, 0, 11, 0, 244, 255, 0, 1, 0, 254, 255, 10, 0, 0, 0, 255, 255, 0, 0, 0, 255, 255,
      0, 12, 0, 243, 255, 0, 2, 0, 253, 255, 98, 10, 0, 0, 0, 255, 255, 0, 0, 0, 255, 255]]

theorem deflated_texts_arrive_of_exchange :
    CodecState.build false (.deflated [0, 0]) 0 = .ok (twiceStored, 0) ∧
    (∀ t ∈ exchange.flatMap TextOp.texts, '\n' ∉ t.toList) ∧
    exchanged.flatten =
      ((run ⟨twiceStored, {}, []⟩ exchange).step (.drain ⟨64, by decide⟩)).taken ∧
    ∃ receiver, Codec.decodeChunks "peer" exchanged twiceStored =
      (.ok [⟨"peer", .text "é"⟩, ⟨"peer", .text ""⟩, ⟨"peer", .text "b"⟩], receiver) := by
  have hbuild : CodecState.build false (.deflated [0, 0]) 0 = .ok (twiceStored, 0) := rfl
  have valid : ∀ t ∈ exchange.flatMap TextOp.texts, '\n' ∉ t.toList := by decide
  have taken : exchanged.flatten =
      ((run ⟨twiceStored, {}, []⟩ exchange).step (.drain ⟨64, by decide⟩)).taken := by
    cbv
  obtain ⟨fresh, built, arrive⟩ := deflated_texts_arrive StoredBlocks [0, 0] {} "peer"
  obtain ⟨rfl, _⟩ : twiceStored = fresh ∧ 0 = 0 := by
    simpa using hbuild.symm.trans (built false 0)
  obtain ⟨_, drained⟩ := (arrive exchange valid).2 ⟨64, by decide⟩
  exact ⟨hbuild, valid, taken, drained exchanged taken⟩

end TextSender

end Switchboard
