import Switchboard.Proofs.InflateAhead

namespace Switchboard.Deflate

open Inflater

/-- Octets that were put out for others when a flush was complete: they inflate to just those, and
end with an empty block. -/
inductive Flushed : (plain wire : Bytes) → Prop
  | nothing : Flushed [] []
  | marked {plain y : Bytes} {k : Inflater} : Trace (ahead {} y) plain k →
      k.Closes emptyLength → Flushed plain (y ++ emptyLength)

theorem Flushed.along {plain wire : Bytes} (h : Flushed plain wire) : Along {} wire plain := by
  cases h with
  | nothing => exact .rest rfl rfl
  | marked trace closes => exact .body trace closes

variable {K : Type} [Compressor K] {k : K} {due : Option (Flush × Bytes)} {plain wire : Bytes}

/-- A compressor in the middle of a stream, and the octets it took and put out so far. Where calls
have to follow one another, `due` is what they flush and the input that is left; nothing else is
called before the last of them. -/
inductive Compressing : K → (due : Option (Flush × Bytes)) → (plain wire : Bytes) → Prop
  | start {level : Nat} : level ≤ 9 → Compressing (Compressor.start level) none [] []
  | again {k k' : K} {due : Option (Flush × Bytes)} {plain wire input out : Bytes} {taken : Nat}
      {flush : Flush} : Compressing k due plain wire → (∀ d ∈ due, d = (flush, input)) →
      Compressor.call k input blockSize flush = (some (taken, out), k') →
      CallsAgain input taken out →
      Compressing k' (some (flush, input.drop taken)) (plain ++ input.take taken) (wire ++ out)
  | last {k k' : K} {due : Option (Flush × Bytes)} {plain wire input out : Bytes} {taken : Nat}
      {flush : Flush} : Compressing k due plain wire → (∀ d ∈ due, d = (flush, input)) →
      Compressor.call k input blockSize flush = (some (taken, out), k') →
      ¬ CallsAgain input taken out →
      Compressing k' none (plain ++ input.take taken) (wire ++ out)

/-- A compressor that does what it should: a call does not fail and goes on while there is input
and room, and what was put out when a flush is complete inflates to all that was taken. A flush is
complete with the first of its calls that has room to spare, if none but its own calls were made
since nothing was due. -/
class LawfulCompressor (K : Type) [Compressor K] : Prop where
  call_ok : ∀ {k : K} {due : Option (Flush × Bytes)} {plain wire input : Bytes} {flush : Flush},
    Compressing k due plain wire → (∀ d ∈ due, d = (flush, input)) → ∃ taken out k',
      Compressor.call k input blockSize flush = (some (taken, out), k') ∧ taken ≤ input.length ∧
        out.length ≤ blockSize ∧ (out.length < blockSize → taken = input.length)
  flushed : ∀ {k k' : K} {due : Option (Flush × Bytes)} {plain wire input out : Bytes}
    {taken : Nat}, Compressing k due plain wire → (∀ d ∈ due, d = (.sync, input)) →
      Compressor.call k input blockSize .sync = (some (taken, out), k') → taken = input.length →
        out.length < blockSize → Flushed (plain ++ input) (wire ++ out)

/-- A compressor in the middle of a stream with nothing due. -/
def Resting (k : K) : Prop := ∃ plain wire, Compressing k none plain wire

/-- A compressor whose calls do not fail. -/
class UnfailingCompressor (K : Type) [Compressor K] : Prop where
  call_isSome : ∀ {k : K} {due : Option (Flush × Bytes)} {plain wire input : Bytes}
    {flush : Flush}, Compressing k due plain wire → (∀ d ∈ due, d = (flush, input)) →
      (Compressor.call k input blockSize flush).1.isSome = true

instance [LawfulCompressor K] : UnfailingCompressor K where
  call_isSome h turn := by
    obtain ⟨taken, out, k', hcall, _⟩ := LawfulCompressor.call_ok h turn
    rw [hcall]
    rfl

theorem Compressing.deflateInto [UnfailingCompressor K] (h : Compressing k due plain wire)
    (input : Bytes) (flush : Flush) (turn : ∀ d ∈ due, d = (flush, input)) (output : Outbox) :
    (Deflate.deflateInto k input flush output).1 = true ∧
      Resting (Deflate.deflateInto k input flush output).2.1 := by
  fun_induction Deflate.deflateInto k input flush output generalizing due plain wire with
  | case1 k input output k' failed =>
    have hsome := UnfailingCompressor.call_isSome h turn
    rw [failed] at hsome
    cases hsome
  | case2 k input output taken out k' hcall again _ ih =>
    exact ih (h.again turn hcall again) (by simp)
  | case3 k input output taken out k' hcall last => exact ⟨rfl, _, _, h.last turn hcall last⟩

theorem Resting.deflateInto [UnfailingCompressor K] (h : Resting k) (input : Bytes) (flush : Flush)
    (output : Outbox) :
    (Deflate.deflateInto k input flush output).1 = true ∧
      Resting (Deflate.deflateInto k input flush output).2.1 := by
  obtain ⟨_, _, session⟩ := h
  exact session.deflateInto input flush nofun output

/-- The calls that feed input to a compressor take all of it, and those of a flush complete it. -/
theorem deflateInto_compressing [LawfulCompressor K] (h : Compressing k due plain wire)
    (input : Bytes) (flush : Flush) (turn : ∀ d ∈ due, d = (flush, input)) (output : Outbox) :
    ∃ k' out output', deflateInto k input flush output = (true, k', output') ∧
      output'.toBytes = output.toBytes ++ out ∧
      Compressing k' none (plain ++ input) (wire ++ out) ∧
      (flush = .sync → Flushed (plain ++ input) (wire ++ out)) := by
  fun_induction deflateInto k input flush output generalizing due plain wire with
  | case1 k input output k' failed =>
    obtain ⟨_, _, _, hcall, _⟩ := LawfulCompressor.call_ok h turn
    rw [failed] at hcall
    cases hcall
  | case2 k input output taken out k' hcall again _ ih =>
    obtain ⟨k'', more, output', hrest, houtput, session, flushed⟩ :=
      ih (h.again turn hcall again) (by simp)
    rw [List.append_assoc, List.append_assoc, List.take_append_drop] at session flushed
    refine ⟨k'', out ++ more, output', hrest, ?_, session, flushed⟩
    rw [houtput, Outbox.toBytes_push, List.append_assoc]
  | case3 k input output taken out k' hcall last =>
    obtain ⟨_, _, _, hcall', _, _, hall⟩ := LawfulCompressor.call_ok h turn
    obtain ⟨⟨rfl, rfl⟩, rfl⟩ := by simpa using hcall.symm.trans hcall'
    -- Even a call that gets nowhere has room to spare, so there was no input left.
    have short : out.length < blockSize := by
      refine Decidable.byContradiction fun full =>
        last ⟨fun done => full done.1, fun stuck => full ?_⟩
      rw [stuck.2]
      decide
    have all : taken = input.length := hall short
    have next := h.last turn hcall last
    rw [all, List.take_length] at next
    refine ⟨k', out, _, rfl, Outbox.toBytes_push .., next, fun hsync => ?_⟩
    subst hsync
    exact LawfulCompressor.flushed h turn hcall all short

end Switchboard.Deflate
