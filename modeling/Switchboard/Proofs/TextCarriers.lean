import Switchboard.Proofs.CompressorSession
import Switchboard.Proofs.TextWire

namespace Switchboard

open Deflate LineCodec Inflater

/-- How codecs that were like `fresh` at first carry texts. `Sent c wire ts` holds of a codec that
was given the texts `ts`, and of the bytes that were taken from it since. -/
structure Carries {C : Type} [Codec C] (fresh : C) (Sent : C → Bytes → List String → Prop) :
    Prop where
  start : Sent fresh [] []
  encode : ∀ {c wire ts t} (name : String) (s : DelayService), Sent c wire ts → '\n' ∉ t.toList →
    ∃ c', Codec.encode c ⟨name, .text t⟩ s = (.ok (), c', s) ∧ Sent c' wire (ts ++ [t])
  /-- A read takes the first of the bytes that a codec could give, and leaves the others. -/
  read : ∀ {c wire ts} (n : Nat) (s : DelayService), Sent c wire ts → ∃ c',
    Codec.read c n s = ((Codec.drain c s).1.take n, c', s) ∧
      Sent c' (wire ++ (Codec.drain c s).1.take n) ts ∧
      (Codec.drain c' s).1 = (Codec.drain c s).1.drop n ∧
      ((Codec.drain c' s).1 = [] → Codec.pending c' s = false)
  silent : ∀ {c wire ts} (s : DelayService), Sent c wire ts → Codec.pending c s = false →
    (Codec.drain c s).1 = []
  delivers : ∀ {c wire ts} (source : String) (s : DelayService), Sent c wire ts →
    Delivers fresh source (wire ++ (Codec.drain c s).1) (heardFrom source ts)

namespace Carries

variable {C : Type} [Codec C] {fresh c : C} {Sent : C → Bytes → List String → Prop} {wire : Bytes}
  {ts : List String} {s : DelayService}

theorem read_last (h : Carries fresh Sent) (n : Nat) (sent : Sent c wire ts)
    (left : (Codec.drain c s).1 = []) :
    ∃ c', Codec.read c n s = ([], c', s) ∧ Sent c' wire ts ∧ (Codec.drain c' s).1 = [] ∧
      Codec.pending c' s = false := by
  obtain ⟨c', hread, sent', hrest, idle⟩ := h.read n s sent
  rw [left, List.take_nil] at hread sent'
  rw [left, List.drop_nil] at hrest
  rw [List.append_nil] at sent'
  exact ⟨c', hread, sent', hrest, idle hrest⟩

theorem read_some (h : Carries fresh Sent) {n : Nat} (positive : 0 < n) (sent : Sent c wire ts)
    (left : (Codec.drain c s).1 ≠ []) :
    ∃ bytes rest c', (Codec.drain c s).1 = bytes ++ rest ∧ bytes.isEmpty = false ∧
      rest.length < (Codec.drain c s).1.length ∧ Codec.read c n s = (bytes, c', s) ∧
      Sent c' (wire ++ bytes) ts ∧ (Codec.drain c' s).1 = rest := by
  obtain ⟨c', hread, sent', hrest, _⟩ := h.read n s sent
  refine ⟨_, _, c', (List.take_append_drop n _).symm, ?_, ?_, hread, sent', hrest⟩
  · simpa [left] using Nat.ne_of_gt positive
  · have := List.length_pos_iff.mpr left
    rw [List.length_drop]
    omega

end Carries

namespace LineCodec

/-- A standard codec whose output is what is left of the lines. -/
def Sent (c : LineCodec) (wire : Bytes) (ts : List String) : Prop :=
  ∃ output, c = { standard with output } ∧ wire ++ output.toBytes = linesBytes ts ∧
    ∀ t ∈ ts, '\n' ∉ t.toList

theorem standard_carries : Carries standard Sent where
  start := ⟨.empty, rfl, rfl, by simp⟩
  encode := by
    rintro c wire ts t name s ⟨output, rfl, hlines, hts⟩ ht
    refine ⟨_, standard_encode output name t s, _, rfl, ?_, ?_⟩
    · rw [Outbox.toBytes_push, Outbox.toBytes_push, ← List.append_assoc, ← List.append_assoc,
        hlines]
      simp [linesBytes]
    · simpa [or_imp, forall_and] using ⟨hts, ht⟩
  read := by
    rintro c wire ts n s ⟨output, rfl, hlines, hts⟩
    obtain ⟨rest, hread, hrest⟩ := read_wire { standard with output } n s
    have all : wire ++ output.toBytes.take n ++ rest.toBytes = linesBytes ts := by
      rw [hrest, List.append_assoc, List.take_append_drop, hlines]
    refine ⟨_, hread, ⟨rest, rfl, all, hts⟩, hrest, fun hnil => ?_⟩
    have empty : rest.isEmpty = true := (Outbox.isEmpty_iff rest).mpr hnil
    show (!rest.isEmpty) = false
    rw [empty]
    rfl
  silent := by
    rintro c wire ts s ⟨output, rfl, _⟩ hp
    have empty : output.isEmpty = true := by simpa using show (!output.isEmpty) = false from hp
    exact (Outbox.isEmpty_iff output).mp empty
  delivers := by
    rintro c wire ts source s ⟨output, rfl, hlines, hts⟩
    have all : wire ++ (Codec.drain { standard with output } s).1 = linesBytes ts := hlines
    rw [all]
    exact standard_delivers source hts

end LineCodec

namespace Deflated

variable {K C : Type} [Compressor K] [Codec C] {fresh : C} {Sent : C → Bytes → List String → Prop}
  {wire plain rest : Bytes} {ts : List String}

/-- A codec behind which all that was taken from the inner codec went through the compressor and
was flushed. -/
def SentBehind (Sent : C → Bytes → List String → Prop) (c : Deflated K C) (wire : Bytes)
    (ts : List String) : Prop :=
  ∃ plain, Compressing c.compressor none plain (wire ++ c.output.toBytes) ∧
    Flushed plain (wire ++ c.output.toBytes) ∧ Sent c.inner plain ts

variable [LawfulCompressor K]

/-- All output of the inner codec goes into the compressor. -/
theorem compressReads_sent (carries : Carries fresh Sent) (fuel : Nat) (c : Deflated K C)
    (s : DelayService) (left : (Codec.drain c.inner s).1 = rest) (enough : rest.length < fuel)
    (session : Compressing c.compressor none plain wire) (sent : Sent c.inner plain ts) :
    ∃ inner compressor out output,
      c.compressReads fuel s = (some !rest.isEmpty, { c with inner, compressor, output }, s) ∧
      output.toBytes = c.output.toBytes ++ out ∧
      Compressing compressor none (plain ++ rest) (wire ++ out) ∧ Sent inner (plain ++ rest) ts ∧
      (Codec.drain inner s).1 = [] ∧ Codec.pending inner s = false ∧
      (rest = [] → compressor = c.compressor ∧ output = c.output) := by
  -- The fuel exceeds what is left, and every read but the last leaves less.
  induction fuel generalizing c plain wire rest with
  | zero => exact absurd enough (Nat.not_lt_zero _)
  | succ fuel ih =>
    by_cases none : rest = []
    · subst none
      obtain ⟨inner, hread, sent', hnone, idle⟩ := carries.read_last blockSize sent left
      refine ⟨inner, c.compressor, [], c.output, ?_, ?_, ?_, ?_, hnone, idle, fun _ => ⟨rfl, rfl⟩⟩
      · simp [compressReads, hread]
      · rw [List.append_nil]
      · rwa [List.append_nil, List.append_nil]
      · rwa [List.append_nil]
    · obtain ⟨bytes, more, inner, all, something, fewer, hread, sent', hmore⟩ :=
        carries.read_some (by decide : 0 < blockSize) sent (left ▸ none)
      obtain rfl : rest = bytes ++ more := left.symm.trans all
      rw [left] at fewer
      have whole : (!(bytes ++ more).isEmpty) = true := by simpa using none
      obtain ⟨k, out, output, hdeflate, houtput, session', _⟩ :=
        deflateInto_compressing session bytes .none nofun c.output
      obtain ⟨inner', k', out', output', hreads, houtput', session'', sent'', hnone, idle, _⟩ :=
        ih { c with inner, compressor := k, output } hmore (by omega) session' sent'
      rw [List.append_assoc, List.append_assoc] at session''
      rw [List.append_assoc] at sent''
      refine ⟨inner', k', out ++ out', output', ?_, ?_, session'', sent'', hnone, idle,
        fun h => absurd h none⟩
      · simp only [compressReads, hread, something, hdeflate, hreads, whole]
        rfl
      · rw [houtput', houtput, List.append_assoc]

/-- What can be taken has been compressed and flushed. -/
theorem collect_sent (carries : Carries fresh Sent) {c : Deflated K C} (s : DelayService)
    (h : SentBehind Sent c wire ts) :
    ∃ c', c.collect s = (c', s) ∧ SentBehind Sent c' wire ts ∧ (Codec.drain c'.inner s).1 = [] ∧
      Codec.pending c'.inner s = false ∧
      ((Codec.drain c.inner s).1 = [] → c'.output = c.output) := by
  obtain ⟨plain, session, flushed, sent⟩ := h
  obtain ⟨inner, k, out, output, hreads, houtput, session', sent', hnone, idle, same⟩ :=
    compressReads_sent carries ((Codec.drain c.inner s).1.length + 1) c s rfl (Nat.lt_succ_self _)
      session sent
  rw [List.append_assoc, ← houtput] at session'
  -- Without new output nothing is flushed again, and what was put out before is still complete.
  by_cases none : (Codec.drain c.inner s).1 = []
  · obtain ⟨rfl, rfl⟩ := same none
    rw [none, List.append_nil] at sent'
    have nothing : (!(Codec.drain c.inner s).1.isEmpty) = false := by simp [none]
    rw [nothing] at hreads
    refine ⟨{ c with inner }, ?_, ⟨_, session, flushed, sent'⟩, hnone, idle, fun _ => rfl⟩
    simp only [collect, hreads]
  · obtain ⟨k', more, output', hflush, houtput', session'', complete⟩ :=
      deflateInto_compressing session' [] .sync nofun output
    have flushed := complete rfl
    have something : (!(Codec.drain c.inner s).1.isEmpty) = true := by simpa using none
    rw [something] at hreads
    rw [List.append_nil, List.append_assoc, ← houtput'] at session'' flushed
    refine ⟨{ c with inner, compressor := k', output := output' }, ?_,
      ⟨_, session'', flushed, sent'⟩, hnone, idle, fun h => absurd h none⟩
    simp only [collect, hreads, hflush]

omit [LawfulCompressor K] in
theorem drain_of_collect {c c' : Deflated K C} {s : DelayService} (h : c.collect s = (c', s)) :
    (Codec.drain c s).1 = c'.output.toBytes := by
  simp only [Codec.drain, h]

/-- A read takes the first of what was compressed and leaves the others, and nothing is left in the
inner codec. -/
theorem read_sent (carries : Carries fresh Sent) {c : Deflated K C} (n : Nat) (s : DelayService)
    (h : SentBehind Sent c wire ts) :
    ∃ c', Codec.read c n s = ((Codec.drain c s).1.take n, c', s) ∧
      SentBehind Sent c' (wire ++ (Codec.drain c s).1.take n) ts ∧
      (Codec.drain c' s).1 = (Codec.drain c s).1.drop n ∧
      ((Codec.drain c' s).1 = [] → Codec.pending c' s = false) := by
  obtain ⟨full, hcollect, ⟨plain, session, flushed, sent⟩, hnone, idle, _⟩ :=
    collect_sent carries s h
  rw [drain_of_collect hcollect]
  let left : Deflated K C := { full with output := (full.output.read n).2 }
  have hleft : left.output.toBytes = full.output.toBytes.drop n := Outbox.toBytes_read ..
  have all : wire ++ full.output.toBytes =
      wire ++ full.output.toBytes.take n ++ left.output.toBytes := by
    rw [hleft, List.append_assoc, List.take_append_drop]
  rw [all] at session flushed
  have behind : SentBehind Sent left (wire ++ full.output.toBytes.take n) ts :=
    ⟨plain, session, flushed, sent⟩
  obtain ⟨c'', hagain, _, _, _, same⟩ := collect_sent carries s behind
  have hrest : (Codec.drain left s).1 = full.output.toBytes.drop n := by
    rw [drain_of_collect hagain, same hnone, hleft]
  refine ⟨left, ?_, behind, hrest, fun hnil => ?_⟩
  · simp only [Codec.read, hcollect, Outbox.read_fst]
    rfl
  · have empty : left.output.isEmpty = true := by
      rw [Outbox.isEmpty_iff, hleft, ← hrest, hnil]
    show (!left.output.isEmpty || Codec.pending full.inner s) = false
    rw [empty, idle]
    rfl

/-- A codec for texts still is one behind a compressor. -/
theorem carries (h : Carries fresh Sent) {level : Nat} (hlevel : level ≤ 9) :
    Carries ({ inner := fresh, level } : Deflated K C) (SentBehind Sent) where
  start := ⟨[], .start hlevel, .nothing, h.start⟩
  encode := by
    rintro c wire ts t name s ⟨plain, session, flushed, sent⟩ ht
    obtain ⟨inner, hencode, sent'⟩ := h.encode name s sent ht
    refine ⟨{ c with inner }, ?_, plain, session, flushed, sent'⟩
    simp only [Codec.encode, hencode]
  read n s sent := read_sent h n s sent
  silent := by
    intro c wire ts s sent hp
    obtain ⟨c', hcollect, _, _, _, same⟩ := collect_sent h s sent
    obtain ⟨_, _, _, sent⟩ := sent
    have hp : (!c.output.isEmpty || Codec.pending c.inner s) = false := hp
    obtain ⟨hempty, hidle⟩ := Bool.or_eq_false_iff.mp hp
    rw [drain_of_collect hcollect, same (h.silent s sent hidle)]
    exact (Outbox.isEmpty_iff c.output).mp (by simpa using hempty)
  delivers := by
    intro c wire ts source s sent
    obtain ⟨c', hcollect, ⟨plain, _, flushed, sent'⟩, hnone, _⟩ := collect_sent h s sent
    have inner := h.delivers source s sent'
    rw [hnone, List.append_nil] at inner
    rw [drain_of_collect hcollect]
    exact delivers flushed.along rfl inner

end Deflated

end Switchboard
