import Mathlib.Tactic.Ring
import Switchboard.Proofs.CompressorSession

namespace Switchboard.Deflate

namespace Part

/-- The number that bits stand for, the lowest first. -/
def valueOf : Bits → Nat
  | [] => 0
  | b :: bits => b.toNat + 2 * valueOf bits

theorem number_append (bits rest : Bits) :
    number bits.length (bits ++ rest) = .ok (valueOf bits) rest := by
  induction bits with
  | nil => rfl
  | cons b bits ih =>
    have hbit : bit (b :: bits ++ rest) = .ok b (bits ++ rest) := rfl
    rw [List.length_cons, number, bind_of_ok hbit, bind_of_ok ih]
    rfl

theorem valueOf_append (bits more : Bits) :
    valueOf (bits ++ more) = valueOf bits + 2 ^ bits.length * valueOf more := by
  induction bits with
  | nil => simp [valueOf]
  | cons b bits ih =>
    rw [List.cons_append, valueOf, ih, valueOf, List.length_cons, Nat.pow_succ]
    ring

theorem valueOf_bitsOf (b : UInt8) : valueOf (bitsOf b) = b.toNat := by
  have all : ∀ n < 256, valueOf ((List.range 8).map n.testBit) = n := by decide +kernel
  exact all b.toNat b.toNat_lt

theorem number_octet (b : UInt8) (rest : Bits) :
    number 8 (bitsOf b ++ rest) = .ok b.toNat rest := by
  have := number_append (bitsOf b) rest
  rwa [Inflater.length_bitsOf, valueOf_bitsOf] at this

theorem number_word16 {n : Nat} (h : n < 0x10000) (rest : Bits) :
    number 16 ((word16 n).flatMap bitsOf ++ rest) = .ok n rest := by
  have bits : (word16 n).flatMap bitsOf =
      bitsOf (UInt8.ofNat n) ++ bitsOf (UInt8.ofNat (n / 256)) := by simp [word16]
  have value : valueOf ((word16 n).flatMap bitsOf) = n := by
    rw [bits, valueOf_append, valueOf_bitsOf, valueOf_bitsOf, Inflater.length_bitsOf]
    simp only [UInt8.toNat_ofNat']
    omega
  have size : ((word16 n).flatMap bitsOf).length = 16 := by
    rw [bits, List.length_append, Inflater.length_bitsOf, Inflater.length_bitsOf]
  have := number_append ((word16 n).flatMap bitsOf) rest
  rwa [size, value] at this

end Part

/-- The header of a stored block is an octet, the length and its complement. -/
theorem readHeader_stored {n : Nat} (h : n ≤ 0xFFFF) (later : Bytes) :
    readHeader ((0 :: (word16 n ++ word16 (0xFFFF - n) ++ later)).flatMap bitsOf) =
      .ok ⟨false, .stored n⟩ (later.flatMap bitsOf) := by
  let lengths := (word16 n).flatMap bitsOf ++ ((word16 (0xFFFF - n)).flatMap bitsOf ++
    later.flatMap bitsOf)
  have bits : (0 :: (word16 n ++ word16 (0xFFFF - n) ++ later)).flatMap bitsOf =
      bitsOf 0 ++ lengths := by simp [lengths]
  have octets : 8 ∣ lengths.length := by
    have := Inflater.octets (word16 n ++ word16 (0xFFFF - n) ++ later)
    simpa [lengths] using this
  have hlast : Part.number 1 (bitsOf 0 ++ lengths) =
      .ok 0 (List.replicate 7 false ++ lengths) := rfl
  have hkind : Part.number 2 (List.replicate 7 false ++ lengths) =
      .ok 0 (List.replicate 5 false ++ lengths) := rfl
  have halign : Part.align (List.replicate 5 false ++ lengths) = .ok () lengths := by
    have : (List.replicate 5 false ++ lengths).length % 8 = 5 := by
      rw [List.length_append, List.length_replicate]
      omega
    rw [Part.align, this]
    rfl
  have hn : Part.number 16 lengths = .ok n _ := Part.number_word16 (by omega) _
  have hm : Part.number 16 ((word16 (0xFFFF - n)).flatMap bitsOf ++ later.flatMap bitsOf) =
      .ok (0xFFFF - n) (later.flatMap bitsOf) := Part.number_word16 (by omega) _
  have hbody : readBody 0 (List.replicate 5 false ++ lengths) =
      .ok (.stored n) (later.flatMap bitsOf) := by
    rw [readBody, storedLength, Part.bind_of_ok halign, Part.bind_of_ok hn, Part.bind_of_ok hm,
      if_pos (by omega)]
    rfl
  rw [bits, readHeader, Part.bind_of_ok hlast, Part.bind_of_ok hkind, Part.bind_of_ok hbody]
  rfl

namespace Inflater

variable {i j k : Inflater} {out more : Bytes}

theorem Trace.trans (t : Trace i out j) (t' : Trace j more k) : Trace i (out ++ more) k := by
  induction t with
  | stop => exact t'
  | move h _ ih => exact .move h (ih t')
  | write h _ ih => exact .write h (ih t')

theorem Trace.ahead (t : Trace i out k) (coming : Bytes) :
    Trace (i.ahead coming) out (k.ahead coming) := by
  induction t with
  | stop => exact .stop _
  | move h _ ih => exact .move (ahead_moves h coming) ih
  | write h _ ih => exact .write (ahead_writes h coming) ih

/-- An inflater between two blocks, with nothing at hand. -/
def between (history : Array UInt8) : Inflater := { history }

theorem stored_trace (bytes later : Bytes) (ne : bytes ≠ []) (history : Array UInt8) :
    ∃ history', Trace
      ⟨(bytes ++ later).flatMap bitsOf, .stored bytes.length false, history, []⟩ bytes
      ((between history').ahead later) := by
  induction bytes generalizing history with
  | nil => exact absurd rfl ne
  | cons b bytes ih =>
    let i : Inflater :=
      ⟨(b :: bytes ++ later).flatMap bitsOf, .stored (b :: bytes).length false, history, []⟩
    have hread : Part.number 8 ((b :: bytes ++ later).flatMap bitsOf) =
        .ok b.toNat ((bytes ++ later).flatMap bitsOf) := Part.number_octet b _
    -- The block ends with its last octet, so that one is a case of its own.
    by_cases last : bytes = []
    · subst last
      have hstep : i.step = .write b ⟨later.flatMap bitsOf, .header, history, []⟩ := by
        simp only [i, step, hread]
        simp [afterBlock]
      exact ⟨history.push b, .write hstep (.stop _)⟩
    · have length : bytes.length ≠ 0 := fun h => last (List.length_eq_zero_iff.mp h)
      have hstep : i.step = .write b
          ⟨(bytes ++ later).flatMap bitsOf, .stored bytes.length false, history, []⟩ := by
        simp only [i, step, hread]
        simp [length]
      obtain ⟨history', trace⟩ := ih last (history.push b)
      exact ⟨history', .write hstep trace⟩

theorem storedBlock_trace {bytes : Bytes} (ne : bytes ≠ []) (short : bytes.length ≤ 0xFFFF)
    (later : Bytes) (history : Array UInt8) :
    ∃ history', Trace ((between history).ahead (storedBlock bytes ++ later)) bytes
      ((between history').ahead later) := by
  have positive : bytes.length ≠ 0 := fun h => ne (List.length_eq_zero_iff.mp h)
  have same : storedBlock bytes ++ later =
      0 :: (word16 bytes.length ++ word16 (0xFFFF - bytes.length) ++ (bytes ++ later)) := by
    simp [storedBlock]
  have hstep : ((between history).ahead (storedBlock bytes ++ later)).step = .move
      ⟨(bytes ++ later).flatMap bitsOf, .stored bytes.length false, history, []⟩ := by
    simp only [step, between, ahead, same, List.nil_append,
      readHeader_stored short (bytes ++ later), if_neg positive]
  obtain ⟨history', trace⟩ := stored_trace bytes later ne history
  exact ⟨history', .move hstep trace⟩

theorem storedBlocks_trace (blocks : List Bytes) (later : Bytes)
    (fit : ∀ b ∈ blocks, b ≠ [] ∧ b.length ≤ 0xFFFF) (history : Array UInt8) :
    ∃ history', Trace ((between history).ahead (blocks.flatMap storedBlock ++ later))
      blocks.flatten ((between history').ahead later) := by
  induction blocks generalizing history with
  | nil => exact ⟨history, .stop _⟩
  | cons b blocks ih =>
    obtain ⟨⟨ne, short⟩, hrest⟩ := List.forall_mem_cons.mp fit
    obtain ⟨middle, first⟩ :=
      storedBlock_trace ne short (blocks.flatMap storedBlock ++ later) history
    obtain ⟨history', rest⟩ := ih hrest middle
    refine ⟨history', ?_⟩
    rw [List.flatMap_cons, List.append_assoc, List.flatten_cons]
    exact first.trans rest

end Inflater

open Inflater

variable {plain wire bytes : Bytes}

theorem Flushed.trace (h : Flushed plain wire) :
    ∃ history, Trace (ahead {} wire) plain (between history) := by
  cases h with
  | nothing => exact ⟨#[], .stop _⟩
  | @marked _ y k trace closes =>
    have closed : (k.ahead emptyLength).Closes [] := by
      refine ⟨closes.1, ?_⟩
      rw [ahead_ahead, List.append_nil]
      exact closes.2
    refine ⟨k.history, ?_⟩
    have whole := (trace.ahead emptyLength).trans (.move closed.moves (.stop _))
    rwa [ahead_ahead, List.append_nil] at whole

/-- Blocks behind what was flushed, and an empty block behind them. -/
theorem Flushed.compress (h : Flushed plain wire) (bytes : Bytes) :
    Flushed (plain ++ bytes) (wire ++ StoredBlocks.compress bytes) := by
  let blocks := bytes.pieces blockSize
  have all : blocks.flatten = bytes := bytes.flatten_pieces (by decide)
  have fit : ∀ b ∈ blocks, b ≠ [] ∧ b.length ≤ 0xFFFF := fun b hb =>
    (Bytes.mem_pieces hb).imp_right fun hle => Nat.le_trans hle (by decide)
  obtain ⟨history, first⟩ := h.trace
  obtain ⟨history', rest⟩ := storedBlocks_trace blocks [0] fit history
  have trace := (first.ahead (blocks.flatMap storedBlock ++ [0])).trans rest
  rw [all, ahead_ahead] at trace
  have closes : ((between history').ahead [0]).Closes emptyLength :=
    ⟨rfl, readHeader_stored (n := 0) (by decide) []⟩
  have same : wire ++ StoredBlocks.compress bytes =
      wire ++ (blocks.flatMap storedBlock ++ [0]) ++ emptyLength := by
    have marker : syncMarker = [0] ++ emptyLength := rfl
    simp [StoredBlocks.compress, marker, blocks]
  rw [same]
  exact .marked trace closes

namespace StoredBlocks

variable {k : StoredBlocks} {due : Option (Flush × Bytes)} {input : Bytes} {flush : Flush}

/-- What was put out and what is ready is complete for all but what is held. Where something is
ready, a flush goes on that has taken all of its input. -/
structure Complete (k : StoredBlocks) (due : Option (Flush × Bytes)) (plain wire : Bytes) :
    Prop where
  flushed : ∃ done, plain = done ++ k.held ∧ Flushed done (wire ++ k.ready)
  leftover : k.ready ≠ [] → due = some (.sync, []) ∧ k.held = []

theorem Complete.advance (h : Complete k due plain wire) (turn : ∀ d ∈ due, d = (flush, input)) :
    (∃ done, plain ++ input = done ++ (k.advance input flush).held ∧
        Flushed done (wire ++ (k.advance input flush).ready)) ∧
      (flush = .none → (k.advance input flush).ready = []) ∧
      (flush = .sync → (k.advance input flush).held = []) := by
  obtain ⟨⟨done, rfl, flushed⟩, leftover⟩ := h
  cases flush with
  | none =>
    have nothing : k.ready = [] := by
      refine Decidable.byContradiction fun some => ?_
      rw [(leftover some).1] at turn
      cases turn _ rfl
    exact ⟨⟨done, List.append_assoc .., flushed⟩, fun _ => nothing, nofun⟩
  | sync =>
    by_cases drains : k.ready ≠ [] ∧ input = []
    · rw [show k.advance input .sync = k from if_pos drains]
      refine ⟨⟨done, ?_, flushed⟩, nofun, fun _ => (leftover drains.1).2⟩
      rw [drains.2, List.append_nil]
    · rw [show k.advance input .sync = ⟨[], k.ready ++ StoredBlocks.compress (k.held ++ input)⟩ from
        if_neg drains]
      refine ⟨⟨done ++ (k.held ++ input), by simp, ?_⟩, nofun, fun _ => rfl⟩
      rw [← List.append_assoc wire]
      exact flushed.compress _

/-- Octets that are still ready after a call are those for which there was no room. -/
theorem Complete.call {k' : StoredBlocks} {out : Bytes} {taken : Nat}
    (h : Complete k due plain wire) (turn : ∀ d ∈ due, d = (flush, input))
    (hcall : k.call input blockSize flush = (some (taken, out), k')) :
    (∃ done, plain ++ input.take taken = done ++ k'.held ∧
        Flushed done (wire ++ out ++ k'.ready)) ∧
      (k'.ready ≠ [] → CallsAgain input taken out ∧ (flush, input.drop taken) = (.sync, []) ∧
        k'.held = []) := by
  obtain ⟨rfl, rfl, rfl⟩ := call_eq hcall
  obtain ⟨⟨done, hdone, flushed⟩, hnone, hsync⟩ := h.advance turn
  refine ⟨⟨done, by rw [List.take_length, hdone], ?_⟩, fun some => ?_⟩
  · rwa [List.append_assoc, List.take_append_drop]
  · have full : blockSize < (k.advance input flush).ready.length := by simpa using some
    have filled : ((k.advance input flush).ready.take blockSize).length = blockSize :=
      List.length_take_of_le (Nat.le_of_lt full)
    have again : CallsAgain input input.length ((k.advance input flush).ready.take blockSize) := by
      refine ⟨fun done => ?_, fun stuck => ?_⟩
      · rw [filled] at done
        exact Nat.lt_irrefl _ done.1
      · rw [stuck.2] at filled
        cases filled
    cases flush with
    | none => simp [hnone rfl] at some
    | sync => exact ⟨again, by rw [List.drop_length], hsync rfl⟩

theorem complete_of_compressing (h : Compressing k due plain wire) :
    Complete k due plain wire := by
  induction h with
  | start => exact ⟨⟨[], rfl, .nothing⟩, fun some => absurd rfl some⟩
  | again _ turn hcall _ ih =>
    obtain ⟨flushed, leftover⟩ := ih.call turn hcall
    exact ⟨flushed, fun some => ⟨congrArg _ (leftover some).2.1, (leftover some).2.2⟩⟩
  | last _ turn hcall last ih =>
    obtain ⟨flushed, leftover⟩ := ih.call turn hcall
    exact ⟨flushed, fun some => absurd (leftover some).1 last⟩

instance : LawfulCompressor StoredBlocks where
  call_ok _ _ := ⟨_, _, _, rfl, Nat.le_refl _, List.length_take_le .., fun _ => rfl⟩
  flushed := by
    intro k k' due plain wire input out taken h turn hcall _ short
    obtain ⟨rfl, rfl, rfl⟩ := call_eq hcall
    obtain ⟨⟨done, hdone, flushed⟩, _, hsync⟩ := (complete_of_compressing h).advance turn
    have all : (k.advance input .sync).ready.take blockSize = (k.advance input .sync).ready := by
      rw [List.length_take] at short
      exact List.take_of_length_le (by omega)
    rw [hsync rfl, List.append_nil] at hdone
    rwa [all, hdone]

end StoredBlocks

end Switchboard.Deflate
