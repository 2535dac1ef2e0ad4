import Mathlib
import Switchboard.Proofs.InflateFrugal

namespace Switchboard

namespace Deflate.Inflater

variable {i j k next : Inflater} {b : UInt8} {coming later y out more : Bytes}

theorem Trace.size (t : Trace i out k) : k.history.size = i.history.size + out.length := by
  induction t with
  | stop => rfl
  | move h _ ih => rw [ih, step_keeps_history (.inl h)]
  | @write i next k b out h _ ih =>
    rw [ih, wrote, Array.size_push, step_keeps_history (.inr ⟨b, h⟩), List.length_cons]
    omega

theorem ahead_nil (h : i.ready = []) : i.ahead [] = i := by
  obtain ⟨bits, stage, history, ready⟩ := i
  simp only at h
  simp [ahead, h]

theorem Toward.of_move (hstep : i.step = .move next) (h : Toward k next y out) :
    Toward k i y out :=
  Trace.move (ahead_moves hstep y) h

theorem Toward.of_write (hstep : i.step = .write b next) (h : Toward k (next.wrote b) y out) :
    Toward k i y (b :: out) :=
  Trace.write (ahead_writes hstep y) h

theorem Toward.of_pull (h : Toward k (i.pull b) y out) : Toward k i (b :: y) out := by
  rwa [Toward, pull_ahead] at h

/-- A run that does not fail goes the way of its octets. -/
theorem run_toward (space : Nat) (i : Inflater) (input acc : Bytes) :
    ∀ {stop : Stop} {j : Inflater} {left acc' : Bytes},
      run space i input acc = (stop, j, left, acc') → stop ≠ .corrupt →
      ∃ y written, input = y ++ left ∧ acc' = written.reverse ++ acc ∧
        Toward (j.ahead []) i y written := by
  fun_induction run space i input acc with
  | case1 | case2 | case6 =>
    intro stop j left acc' hrun _
    cases hrun
    exact ⟨[], [], rfl, rfl, .stop _⟩
  | case3 =>
    intro stop j left acc' hrun sound
    cases hrun
    exact absurd rfl sound
  | case4 space i input acc _ next hstep ih =>
    intro stop j left acc' hrun sound
    obtain ⟨y, written, hinput, hacc, toward⟩ := ih hrun sound
    exact ⟨y, written, hinput, hacc, toward.of_move hstep⟩
  | case5 space i input acc _ b next hstep ih =>
    intro stop j left acc' hrun sound
    obtain ⟨y, written, hinput, rfl, toward⟩ := ih hrun sound
    exact ⟨y, b :: written, hinput, by simp, toward.of_write hstep⟩
  | case7 space i acc _ _ b input ih =>
    intro stop j left acc' hrun sound
    obtain ⟨y, written, rfl, hacc, toward⟩ := ih hrun sound
    exact ⟨b :: y, written, rfl, hacc, toward.of_pull⟩

/-- A run to the end of a stream finds what the stream stands for. -/
theorem Inflates.of_run {wire acc : Bytes} {space : Nat} (hrun : run space {} wire [] =
    (.ended, k, later, acc)) (short : k.bits.length < 8) (others : Inflates {} later more) :
    Inflates {} wire (acc.reverse ++ more) := by
  obtain ⟨y, written, rfl, rfl, toward⟩ := run_toward space {} wire [] hrun (by decide)
  have ended : k.stage = .ended := by
    have spent := run_spent space {} (y ++ later) []
    rw [hrun] at spent
    exact spent.ended rfl
  rw [List.append_nil, List.reverse_reverse]
  refine .stream toward ended ?_ others
  simpa [ahead] using short

theorem Inflates.of_starved {wire acc : Bytes} {space : Nat}
    (hrun : run space {} wire [] = (.starved, k, [], acc)) (starves : k.step = .starve) :
    Inflates {} wire acc.reverse := by
  obtain ⟨y, written, rfl, rfl, toward⟩ := run_toward space {} wire [] hrun (by decide)
  rw [List.append_nil, List.append_nil, List.reverse_reverse]
  exact .unfinished toward (step_ahead_nil starves)

end Deflate.Inflater

open Deflate Inflater

namespace LineCodec

/-- A codec for lines finds the same lines however its input is cut. -/
theorem cutFree {config : LineConfig} {hook : LineHook} {d w : Bytes} {records : List Bytes}
    {c : LineCodec} (h : HasSeen config hook d w records c) (blind : hook.Blind)
    (source : String) : Codec.CutFree c source := by
  intro pieces
  obtain ⟨more, c', hdecode, seen⟩ := h.decodeChunks blind source pieces
  obtain ⟨more', c'', hwhole, seen', _⟩ := h.decode blind source pieces.flatten
  obtain rfl : more = more' := List.append_cancel_left (seen.cuts.unique seen'.cuts).1
  rw [hdecode, hwhole]

/-- A codec for lines of ASCII that skips all other octets. -/
def asciiLines : LineCodec where
  config := { charset := .ascii, errorPolicy := .ignore }
  hook := LineHook.text
  framer := { borders := .ofPattern [0x0A] }

theorem new_asciiLines :
    new { charset := .ascii, errorPolicy := .ignore } LineHook.text = .ok asciiLines := rfl

/-- An octet of ASCII and others behind it. -/
def skipped (n : Nat) : Bytes := 0x78 :: List.replicate n 0xFF

theorem length_skipped (n : Nat) : (skipped n).length = n + 1 := by
  rw [skipped, List.length_cons, List.length_replicate]

theorem skipped_ne_nil (n : Nat) : skipped n ≠ [] := List.cons_ne_nil _ _

theorem skipped_append (n m : Nat) : skipped n ++ List.replicate m 0xFF = skipped (n + m) := by
  rw [skipped, skipped, List.cons_append, List.replicate_append_replicate]

theorem newline_not_mem_skipped (n : Nat) : (0x0A : UInt8) ∉ skipped n := by
  simp [skipped]

theorem asciiLines_open (source : String) (n : Nat) :
    (Codec.decode asciiLines source (skipped n)).1 = .ok [] := by
  obtain ⟨d, fresh, _⟩ := new_hasSeen new_asciiLines rfl
  obtain rfl : [0x0A] = d := fresh.delimiter_eq
  obtain ⟨records, c, hdecode, seen, _⟩ := fresh.decode LineHook.text_blind source (skipped n)
  have none : Cuts [0x0A] (skipped n) [] (skipped n) :=
    .rest fun hi => newline_not_mem_skipped n (hi.subset (List.mem_singleton.mpr rfl))
  obtain ⟨rfl, _⟩ := seen.cuts.unique none
  rw [hdecode]
  rfl

theorem asciiLines_line (source : String) (n : Nat) :
    (Codec.decode asciiLines source (skipped n ++ [0x0A])).1 = .ok [⟨source, .text "x"⟩] := by
  obtain ⟨d, fresh, _⟩ := new_hasSeen new_asciiLines rfl
  obtain rfl : [0x0A] = d := fresh.delimiter_eq
  obtain ⟨records, c, hdecode, seen, _⟩ :=
    fresh.decode LineHook.text_blind source (skipped n ++ [0x0A])
  have one : Cuts [0x0A] (skipped n ++ [0x0A] ++ []) [skipped n] [] :=
    .cut (leftmostCut_singleton (newline_not_mem_skipped n)) (.rest (by simp))
  rw [List.append_nil] at one
  obtain ⟨rfl, _⟩ := seen.cuts.unique one
  have letter : payload? { charset := .ascii, errorPolicy := .ignore } LineHook.text (skipped n) =
      some (.text "x") := by
    simp [payload?, decodeRecord, stripped, Charset.decode, skipped, LineHook.text]
  rw [hdecode]
  simp [letter]

end LineCodec

namespace Deflated

variable {K C : Type} [Compressor K] [Codec C] {c : Deflated K C} {source : String}
  {wire plain : Bytes} {pieces : List Bytes}

/-- Where the input ends with a block that has room, there is one turn. -/
theorem inflateAll_of_last {input : Bytes} {block : Block}
    (hblock : c.inflater.nextBlock input = some block) (room : block.plain.length < blockSize)
    (last : block.input = []) :
    (c.inflateAll source input []).1 = (decodePlain source c.inner block.plain).1 := by
  rw [inflateAll]
  split
  next hnone =>
    rw [hblock] at hnone
    cases hnone
  next block' hblock' =>
    obtain rfl : block = block' := Option.some.inj (hblock.symm.trans hblock')
    rcases decodePlain source c.inner block.plain with ⟨e | got, inner⟩
    · rfl
    · by_cases ended : block.ended = true <;> simp [ended, room, last]

/-- Streams one behind the other, the last of which may be unfinished, give the packets of the text
they stand for, however they are cut. All that can be missing from that text is what the inflater
has still to write when it comes to the end of its window and of its input at once; that is decoded
in the next call, even if no more input comes with it. -/
theorem packets_of_streams (fresh : c.inflater = {}) (free : Codec.CutFree c.inner source)
    (inflates : Inflates {} wire plain) (cut : pieces.flatten = wire) :
    (∃ done held, plain = done ++ held ∧
      (Codec.decodeChunks source pieces c).1 = (Codec.decode c.inner source done).1 ∧
      (held ≠ [] → (Codec.decodeChunks source pieces c).2.inflater.WindowFull ∧
        windowSize ≤ done.length)) ∧
    (Codec.decodeChunks source (pieces ++ [[]]) c).1 = (Codec.decode c.inner source plain).1 := by
  have start : Inflates c.inflater pieces.flatten plain ∧ c.inflater.Frugal := by
    rw [fresh, cut]
    exact ⟨inflates, .start⟩
  have starves : c.inflater.step = .starve := by
    rw [fresh]
    exact rest_starves rfl rfl
  have size : c.inflater.history.size ≤ 0 := by
    rw [fresh]
    exact Nat.le_refl 0
  have ready : c.inflater.ready = [] := by rw [fresh]
  have ends : Ends _ source [] [] 0 c.inner plain (Codec.decodeChunks source pieces c) :=
    decodeChunks_ends Inflates.course.frugal start ready (.inr starves) size
  generalize hr : Codec.decodeChunks source pieces c = r at ends
  cases ends with
  | @through given held got c' hgot hdue flows ready settled size =>
    have packets := free given
    rw [hgot] at packets
    refine ⟨⟨given.flatten, held, hdue, packets, fun waits => ?_⟩, ?_⟩
    · have full : c'.inflater.WindowFull := settled.resolve_right fun starves =>
        waits (flows.1.done starves)
      have least := full.windowSize_le
      exact ⟨full, by omega⟩
    · obtain ⟨block, hblock, rfl, last, room⟩ := flows.1.last_block flows.2 ready settled
      obtain ⟨more, hmore, hdecode⟩ := decodePlain_eq source c'.inner block.plain
      have rest : (Codec.decode c' source []).1 = (Codec.decodeChunks source more c'.inner).1 := by
        rw [← hdecode]
        exact inflateAll_of_last hblock room last
      have all := free (given ++ more)
      rw [Codec.decodeChunks_append_of_ok hgot, List.flatten_append, hmore, ← hdue] at all
      rw [Codec.decodeChunks_append_of_ok hr, Codec.decodeChunks_singleton, rest]
      exact all
  | @broken given held e inner' c' herror hdue =>
    have packets := free (given ++ [held])
    rw [Codec.decodeChunks_append_of_error herror, List.flatten_append, List.flatten_singleton,
      ← hdue] at packets
    refine ⟨⟨plain, [], by simp, packets, fun waits => absurd rfl waits⟩, ?_⟩
    rw [Codec.decodeChunks_append_of_error hr]
    exact packets

/-- A stream with half of a line, one with the other half and the newline, and the first octet of
a third. -/
def halves : Bytes :=
  [1, 2, 0, 253, 255, 97, 98] ++ [75, 230, 2, 0] ++ [0, 2, 0, 253, 255, 100]

set_option maxRecDepth 100000 in
theorem halves_inflates : Inflates {} halves [97, 98, 99, 10, 100] := by
  have third : run 9 {} [0, 2, 0, 253, 255, 100] [] =
      (.starved, ⟨[], .stored 1 false, #[100], []⟩, [], [100]) := by cbv
  have second : run 9 {} ([75, 230, 2, 0] ++ [0, 2, 0, 253, 255, 100]) [] =
      (.ended, ⟨List.replicate 6 false, .ended, #[99, 10], []⟩, [0, 2, 0, 253, 255, 100],
        [10, 99]) := by cbv
  have first : run 9 {} halves [] =
      (.ended, ⟨[], .ended, #[97, 98], []⟩, [75, 230, 2, 0] ++ [0, 2, 0, 253, 255, 100],
        [98, 97]) := by cbv
  exact .of_run first (by decide) (.of_run second (by decide) (.of_starved third rfl))

theorem packets_of_streams_of_halves :
    let c : Deflated StoredBlocks LineCodec := { inner := LineCodec.standard, level := 6 }
    let pieces : List Bytes := [halves.take 6, (halves.drop 6).take 3, halves.drop 9]
    Codec.CutFree c.inner "peer" ∧ Inflates {} halves [97, 98, 99, 10, 100] ∧
      pieces.flatten = halves ∧
      (Codec.decodeChunks "peer" pieces c).1 = .ok [⟨"peer", .text "abc"⟩] := by
  intro c pieces
  obtain ⟨d, seen, _⟩ := LineCodec.new_hasSeen LineCodec.new_standard rfl
  have free := LineCodec.cutFree seen LineHook.text_blind "peer"
  have cut : pieces.flatten = halves := rfl
  obtain ⟨⟨done, held, whole, packets, late⟩, _⟩ :=
    packets_of_streams (c := c) rfl free halves_inflates cut
  have none : held = [] := by
    by_contra waits
    have long := (late waits).2
    have five := congrArg List.length whole
    simp only [List.length_append, List.length_cons, List.length_nil, windowSize] at long five
    omega
  rw [none, List.append_nil] at whole
  refine ⟨free, halves_inflates, cut, packets.trans ?_⟩
  rw [← whole]
  cbv

/-- While the window has room nothing is held back, and the inflater is where its input leads. -/
theorem decodeChunks_settles {k : Inflater} (starves : k.step = .starve) (fresh : c.inflater = {})
    (toward : Toward k {} pieces.flatten plain) (short : plain.length < windowSize)
    {got : List Packet} (free : Codec.CutFree c.inner source)
    (hgot : (Codec.decode c.inner source plain).1 = .ok got) :
    ∃ given c', given.flatten = plain ∧
      Codec.decodeChunks source given c.inner = (.ok got, c'.inner) ∧
      Codec.decodeChunks source pieces c = (.ok got, c') ∧ c'.inflater.ahead [] = k ∧
      c'.inflater.ready = [] := by
  have start : Toward k c.inflater pieces.flatten plain := by rwa [fresh]
  have waits : c.inflater.step = .starve := by
    rw [fresh]
    exact rest_starves rfl rfl
  have size : c.inflater.history.size ≤ 0 := by
    rw [fresh]
    exact Nat.le_refl 0
  have ready : c.inflater.ready = [] := by rw [fresh]
  have ends : Ends (Toward k) source [] [] 0 c.inner plain (Codec.decodeChunks source pieces c) :=
    decodeChunks_ends (Toward.course starves) start ready (.inr waits) size
  generalize hr : Codec.decodeChunks source pieces c = r at ends
  cases ends with
  | @through given held got' c' hgiven hdue flows ready' settled size' =>
    have starves' : c'.inflater.step = .starve := settled.resolve_left fun full => by
      have least := full.windowSize_le
      rw [hdue, List.length_append] at short
      omega
    obtain ⟨rfl, arrived⟩ := Trace.of_rest flows (atRest_of_starve (step_ahead_nil starves'))
    rw [List.append_nil] at hdue
    have packets := free given
    rw [hgiven, ← hdue, hgot] at packets
    obtain rfl := Except.ok.inj packets
    exact ⟨given, c', hdue.symm, hgiven, rfl, arrived, ready'⟩
  | @broken given held e inner' c' herror hdue =>
    have packets := free (given ++ [held])
    rw [Codec.decodeChunks_append_of_error herror] at packets
    simp [← hdue, hgot] at packets

/-- A last block that ends a line: six octets, with which the window is full, and the newline. -/
def lineEnd : Bytes := [0xFB, 0xFF, 0xFF, 0xFF, 0xFF, 0xFF, 0xFF, 0xB9, 0x00]

set_option maxRecDepth 100000 in
theorem lineEnd_toward (history : Array UInt8) : ∃ k, k.stage = .ended ∧ k.bits.length < 8 ∧
    Toward k (between history) lineEnd (List.replicate 6 0xFF ++ [0x0A]) := by
  have hrun : run 9 (between history) lineEnd [] = (.ended, ⟨[], .ended,
      history.push 255 |>.push 255 |>.push 255 |>.push 255 |>.push 255 |>.push 255 |>.push 10, []⟩,
      [], 0x0A :: List.replicate 6 0xFF) := by cbv
  obtain ⟨y, written, hy, hwritten, toward⟩ := run_toward 9 _ _ _ hrun (by decide)
  rw [List.append_nil] at hy hwritten
  obtain rfl : written = List.replicate 6 0xFF ++ [0x0A] := by
    rw [← written.reverse_reverse, ← hwritten]
    rfl
  subst hy
  refine ⟨_, rfl, ?_, toward⟩
  exact Nat.zero_lt_succ 7

set_option maxRecDepth 100000 in
theorem run_lineEnd (history : Array UInt8) : ∃ i,
    run 6 (between history) lineEnd [] = (.full, i, [], List.replicate 6 0xFF) := by
  refine ⟨⟨List.replicate 7 false, .literal 10 fixedLiterals fixedDistances true,
    history.push 255 |>.push 255 |>.push 255 |>.push 255 |>.push 255 |>.push 255, []⟩, ?_⟩
  cbv

theorem nextBlock_lineEnd {history : Array UInt8} (size : history.size = 32762) :
    ∃ i, (between history).nextBlock lineEnd = some ⟨List.replicate 6 0xFF, i, [], false⟩ := by
  obtain ⟨i, hrun⟩ := run_lineEnd history
  have space : (between history).space = 6 := by simp [Inflater.space, between, size, windowSize]
  have hfill : (between history).fill lineEnd =
      (.full, { i with ready := List.replicate 6 0xFF }, []) := by
    simp only [fill, space, hrun]
    rfl
  refine ⟨{ i with ready := [] }, ?_⟩
  have first : (between history).refill [] lineEnd =
      some (.full, ⟨List.replicate 6 0xFF, { i with ready := [] }, [], false⟩) := by
    simp only [refill, hfill]
    rfl
  simp only [nextBlock, first]
  rfl

open LineCodec (asciiLines skipped) in
theorem skipped_inflates :
    Inflates {} (storedBlock (skipped 32761) ++ lineEnd) (skipped 32767 ++ [0x0A]) := by
  have long := LineCodec.length_skipped 32761
  obtain ⟨history, first⟩ := storedBlock_trace (LineCodec.skipped_ne_nil 32761)
    (by omega) lineEnd #[]
  obtain ⟨k, ended, short, toward⟩ := lineEnd_toward history
  have whole : Toward k {} (storedBlock (skipped 32761) ++ lineEnd)
      (skipped 32761 ++ (List.replicate 6 0xFF ++ [0x0A])) := first.trans toward
  rw [← List.append_assoc, LineCodec.skipped_append] at whole
  have none : Inflates {} [] [] := .unfinished (.stop _) (rest_starves rfl rfl)
  simpa using Inflates.stream whole ended short none

/-- A newline that stands in the input stays behind when the window is full before it. -/
theorem newline_held_back :
    let c : Deflated StoredBlocks LineCodec := { inner := LineCodec.asciiLines, level := 6 }
    let line := LineCodec.skipped 32761
    let plain := LineCodec.skipped 32767 ++ [0x0A]
    Codec.CutFree c.inner "peer" ∧ Inflates {} (storedBlock line ++ lineEnd) plain ∧
      (Codec.decode c.inner "peer" plain).1 = .ok [⟨"peer", .text "x"⟩] ∧
      (Codec.decodeChunks "peer" [storedBlock line, lineEnd] c).1 = .ok [] := by
  intro c line plain
  obtain ⟨d, seen, _⟩ := LineCodec.new_hasSeen LineCodec.new_asciiLines rfl
  have free := LineCodec.cutFree seen LineHook.text_blind "peer"
  refine ⟨free, skipped_inflates, LineCodec.asciiLines_line "peer" 32767, ?_⟩
  have long : line.length = 32762 := LineCodec.length_skipped 32761
  obtain ⟨history, trace⟩ :=
    storedBlock_trace (LineCodec.skipped_ne_nil 32761) (by rw [long]; decide) [] #[]
  have size : history.size = 0 + line.length := trace.size
  rw [long] at size
  -- The first piece leaves room for six octets in the window, and the second fills it.
  have toward : Toward (between history) {} [storedBlock line].flatten line := by
    rw [List.flatten_singleton, ← List.append_nil (storedBlock line)]
    exact trace
  obtain ⟨given, c', hgiven, hinner, hfirst, arrived, ready⟩ :=
    decodeChunks_settles (c := c) (rest_starves rfl rfl) rfl toward (by rw [long]; decide) free
      (LineCodec.asciiLines_open "peer" 32761)
  rw [ahead_nil ready] at arrived
  obtain ⟨i, hblock⟩ := nextBlock_lineEnd size
  rw [← arrived] at hblock
  have packets := free (given ++ [List.replicate 6 0xFF])
  rw [List.flatten_append, hgiven, List.flatten_singleton, LineCodec.skipped_append,
    LineCodec.asciiLines_open, Codec.decodeChunks_append_of_ok hinner,
    Codec.decodeChunks_singleton] at packets
  have both : Codec.decodeChunks "peer" ([storedBlock line] ++ [lineEnd]) c = _ :=
    Codec.decodeChunks_append_of_ok hfirst
  rw [Codec.decodeChunks_singleton, List.singleton_append] at both
  have second : (Codec.decode c' "peer" lineEnd).1 =
      (Codec.decode c'.inner "peer" (List.replicate 6 0xFF)).1 :=
    inflateAll_of_last hblock (by simp [blockSize]) rfl
  rw [both, second]
  exact packets

end Deflated

end Switchboard
