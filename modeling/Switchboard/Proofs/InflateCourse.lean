import Switchboard.Proofs.InflateAhead

namespace Switchboard.Deflate

namespace Inflater

variable {P : Inflater → Bytes → Bytes → Prop} {i j k next : Inflater} {b : UInt8}
  {later coming input out : Bytes}

/-- What holds of an inflater, of the octets that come and of those that are to be written, and goes
on to hold whatever the inflater does, also when it starts anew behind the end of a stream. It rules
out that a stream is corrupt. -/
structure Course (P : Inflater → (coming out : Bytes) → Prop) : Prop where
  sound : ∀ {i : Inflater} {coming out : Bytes}, P i coming out → i.step ≠ .fail
  move : ∀ {i next : Inflater} {coming out : Bytes}, P i coming out → i.step = .move next →
    P next coming out
  write : ∀ {i next : Inflater} {b : UInt8} {coming out : Bytes}, P i coming out →
    i.step = .write b next → ∃ rest, out = b :: rest ∧ P (next.wrote b) coming rest
  pull : ∀ {i : Inflater} {b : UInt8} {coming out : Bytes}, P i (b :: coming) out →
    i.step = .starve → P (i.pull b) coming out
  with_ready : ∀ {i : Inflater} {coming out : Bytes} (ready : Bytes), P i coming out →
    P { i with ready } coming out
  next : ∀ {i : Inflater} {coming out : Bytes}, P i coming out → i.stage = .ended →
    P {} coming out

theorem Along.course : Course Along where
  sound h := h.sound.1
  move := Along.move
  write := Along.write
  pull := Along.pull
  with_ready ready h := h.with_ready ready
  next h ended := absurd ended h.not_ended

theorem step_of_ended (h : i.stage = .ended) : i.step = .finish := by simp [step, h]

theorem Toward.course (starves : k.step = .starve) : Course (Toward k) where
  sound h hstep := by simpa [hstep, starves] using (h.arrived (.inl hstep)).2.2
  move h hstep := h.move (atRest_of_starve starves) hstep
  write h hstep := h.write (atRest_of_starve starves) hstep
  pull h _ := h.pull
  with_ready _ h := h
  next h ended := by
    have finish := step_of_ended ended
    simpa [finish, starves] using (h.arrived (.inr finish)).2.2

theorem needsNoBits_of_write (h : i.step = .write b next) : i.needsNoBits = true := by
  obtain ⟨bits, stage, history, ready⟩ := i
  cases stage with
  | header | coded =>
    simp only [step] at h
    split at h <;> cases h
  | stored | literal | copy => rfl
  | ended | corrupt => cases h

theorem step_keeps_history (h : i.step = .move next ∨ ∃ b, i.step = .write b next) :
    next.history = i.history := by
  unfold step at h
  cases hs : i.stage with
  | header | coded =>
    simp only [hs] at h
    split at h <;> simp at h <;> rw [← h]
  | stored =>
    simp only [hs] at h
    split at h <;> simp at h
    rw [← h]
  | literal | copy =>
    simp [hs] at h
    rw [← h]
  | ended | corrupt => simp [hs] at h

/-- Only the bits at hand and the stage decide whether an inflater needs more. -/
theorem step_eq_starve_of_same (hbits : j.bits = i.bits) (hstage : j.stage = i.stage)
    (h : i.step = .starve) : j.step = .starve := by
  cases hs : i.stage with
  | header | stored | coded =>
    simp only [step, hs, hbits, hstage] at h ⊢
    split at h <;> simp_all
  | literal | copy | ended | corrupt => simp [step, hs] at h

/-- Why a run with room for `space` octets has stopped, with `written` in front of `j` and `input`
left. -/
def Halts (j : Inflater) (input : Bytes) (space : Nat) (written : Bytes) : Stop → Prop
  | .starved => input = [] ∧ j.step = .starve
  | .full => written.length = space ∧ j.needsNoBits = true
  | .ended => j.stage = .ended
  | .corrupt => False

/-- A run writes what is to be written first, and ends when the input is used up, or the space, or
the stream. -/
theorem run_course (course : Course P) (space : Nat) (i : Inflater) (input acc : Bytes)
    (h : P i (input ++ later) out) :
    ∃ stop j input' written rest,
      run space i input acc = (stop, j, input', written.reverse ++ acc) ∧
      out = written ++ rest ∧ P j (input' ++ later) rest ∧
      j.history.size = i.history.size + written.length ∧ Halts j input' space written stop := by
  -- By the recursion of the run. What is on course cannot fail; a step, an octet written or one
  -- pulled leaves it on course for the rest.
  fun_induction run space i input acc generalizing out with
  | case1 space i input acc full =>
    exact ⟨.full, i, input, [], out, rfl, rfl, h, rfl, full.1.symm, full.2⟩
  | case2 space i input acc _ hstep =>
    exact ⟨.ended, i, input, [], out, rfl, rfl, h, rfl, step_eq_finish hstep⟩
  | case3 _ _ _ _ _ hstep => exact absurd hstep (course.sound h)
  | case4 space i input acc _ next hstep ih =>
    obtain ⟨stop, j, input', written, rest, hrun, hout, hj, size, halts⟩ :=
      ih (course.move h hstep)
    rw [step_keeps_history (.inl hstep)] at size
    exact ⟨stop, j, input', written, rest, hrun, hout, hj, size, halts⟩
  | case5 space i input acc free b next hstep ih =>
    obtain ⟨rest, rfl, hrest⟩ := course.write h hstep
    obtain ⟨stop, j, input', written, rest, hrun, rfl, hj, size, halts⟩ := ih hrest
    have room : space ≠ 0 := fun hz => free ⟨hz, needsNoBits_of_write hstep⟩
    rw [Array.size_push, step_keeps_history (.inr ⟨b, hstep⟩)] at size
    refine ⟨stop, j, input', b :: written, rest, ?_, rfl, hj, ?_, ?_⟩
    · rw [hrun]
      simp
    · rw [size, List.length_cons]
      omega
    · cases stop with
      | full =>
        refine ⟨?_, halts.2⟩
        rw [List.length_cons, halts.1]
        omega
      | starved | ended | corrupt => exact halts
  | case6 space i acc _ hstep =>
    exact ⟨.starved, i, [], [], out, rfl, rfl, h, rfl, rfl, hstep⟩
  | case7 space i acc _ hstep b input ih => exact ih (course.pull h hstep)

theorem space_pos (i : Inflater) : 0 < i.space :=
  Nat.sub_pos_of_lt (Nat.mod_lt _ (by decide))

theorem handOn_append (i : Inflater) (room : Nat) :
    (i.handOn room).1 ++ (i.handOn room).2.ready = i.ready := List.take_append_drop ..

theorem handOn_ready {i : Inflater} {room : Nat} (h : (i.handOn room).1.length < room) :
    (i.handOn room).2.ready = [] := by
  simp only [handOn, List.length_take] at h ⊢
  exact List.drop_eq_nil_of_le (by omega)

/-- The octets written since the stream began fill the window to its end, in a stage in which more
are written. -/
structure WindowFull (i : Inflater) : Prop where
  some : 0 < i.history.size
  whole : windowSize ∣ i.history.size
  writes : i.needsNoBits = true

/-- A filled window, missing bits and the end of the stream are what keeps an inflater from
writing on. -/
def Halted (i : Inflater) : Prop := i.WindowFull ∨ i.step = .starve ∨ i.stage = .ended

theorem windowFull_of_space {written : Bytes} (hready : i.ready = [])
    (size : j.history.size = i.history.size + written.length) (full : written.length = i.space)
    (writes : j.needsNoBits = true) : j.WindowFull := by
  have positive := i.space_pos
  have bound : i.history.size % windowSize < windowSize := Nat.mod_lt _ (by decide)
  have space : i.space = windowSize - i.history.size % windowSize := by
    rw [Inflater.space, hready, List.length_nil, Nat.sub_zero]
  refine ⟨by omega, Nat.dvd_of_mod_eq_zero ?_, writes⟩
  rw [size, full, space]
  simp only [windowSize] at bound ⊢
  omega

/-- What `block` hands on and holds back are the first of the octets that are to be written. -/
structure Takes (P : Inflater → Bytes → Bytes → Prop) (i : Inflater) (block : Block)
    (plain later out : Bytes) : Prop where
  out : ∃ rest, plain ++ out = block.plain ++ (block.inflater.ready ++ rest) ∧
    P block.inflater (block.input ++ later) rest
  room : block.plain.length < blockSize → block.inflater.ready = []
  ended : block.ended = true ↔ block.inflater.ready = [] ∧ block.inflater.stage = .ended
  size : block.inflater.history.size + plain.length =
    i.history.size + block.plain.length + block.inflater.ready.length

theorem hasEnded_iff : i.hasEnded = true ↔ i.stage = .ended := by
  refine ⟨stage_of_hasEnded, fun h => ?_⟩
  simp [hasEnded, h]

theorem Halts.ended_iff {space : Nat} {written : Bytes} {stop : Stop}
    (h : Halts j input space written stop) : stop = .ended ↔ j.stage = .ended := by
  cases stop with
  | ended => exact iff_of_true rfl h
  | starved =>
    refine iff_of_false (by decide) fun hs => ?_
    have starves := h.2
    simp [step, hs] at starves
  | full =>
    refine iff_of_false (by decide) fun hs => ?_
    have full := h.2
    simp [needsNoBits, hs] at full
  | corrupt => exact absurd h id

theorem Halts.halted {written : Bytes} {stop : Stop} (hready : i.ready = [])
    (size : j.history.size = i.history.size + written.length)
    (h : Halts j input i.space written stop) : j.Halted := by
  cases stop with
  | starved => exact .inr (.inl h.2)
  | full => exact .inl (windowFull_of_space hready size h.1 h.2)
  | ended => exact .inr (.inr h)
  | corrupt => exact absurd h id

theorem Halted.of_same (hbits : j.bits = i.bits) (hstage : j.stage = i.stage)
    (hhistory : j.history = i.history) (h : i.Halted) : j.Halted := by
  rcases h with full | starves | ended
  · refine .inl ⟨?_, ?_, ?_⟩
    · rw [hhistory]
      exact full.some
    · rw [hhistory]
      exact full.whole
    · rw [needsNoBits, hstage]
      exact full.writes
  · exact .inr (.inl (step_eq_starve_of_same hbits hstage starves))
  · exact .inr (.inr (hstage.trans ended))

/-- Filling the window and handing on what there is room for. -/
theorem refill_course (course : Course P) (hready : i.ready = []) (h : P i (input ++ later) out)
    {plain : Bytes} (hplain : plain.length ≤ blockSize) :
    ∃ stop block, i.refill plain input = some (stop, block) ∧ Takes P i block plain later out ∧
      block.inflater.Halted ∧
      (stop = .full → plain.length < blockSize → plain.length < block.plain.length) ∧
      (stop ≠ .full →
        block.input = [] ∧ block.inflater.step = .starve ∨ block.inflater.stage = .ended) := by
  obtain ⟨stop, j, input', written, rest, hrun, rfl, hj, size, halts⟩ :=
    run_course course i.space i input [] h
  let filled : Inflater := { j with ready := written }
  let handed := filled.handOn (blockSize - plain.length)
  let block : Block :=
    ⟨plain ++ handed.1, handed.2, input', handed.2.ready.isEmpty && stop = .ended⟩
  have hfill : i.fill input = (stop, filled, input') := by
    simp [fill, hrun, filled]
  have hrefill : i.refill plain input = some (stop, block) := by
    cases stop with
    | corrupt => exact absurd halts id
    | starved | full | ended => simp only [refill, hfill]; rfl
  have hsplit : handed.1 ++ handed.2.ready = written := filled.handOn_append _
  have lengths : written.length = handed.1.length + handed.2.ready.length := by
    rw [← hsplit, List.length_append]
  have halted : j.Halted := halts.halted hready size
  refine ⟨stop, block, hrefill, ⟨⟨rest, ?_, course.with_ready (i := j) _ hj⟩, fun hroom => ?_, ?_,
    ?_⟩, halted.of_same (i := j) rfl rfl rfl, fun hfull hroom => ?_, fun hstop => ?_⟩
  · simp only [block]
    rw [← hsplit]
    simp
  · refine handOn_ready ?_
    simp only [block, List.length_append] at hroom
    show handed.1.length < _
    omega
  · simp only [block, Bool.and_eq_true, List.isEmpty_iff, decide_eq_true_eq, halts.ended_iff]
    rfl
  · show j.history.size + plain.length = _
    simp only [block, List.length_append]
    omega
  · subst hfull
    have some : 0 < handed.1.length := by
      have := i.space_pos
      simp only [handed, filled, handOn, List.length_take, halts.1]
      omega
    simp only [block, List.length_append]
    omega
  · cases stop with
    | starved => exact .inl ⟨halts.1, step_eq_starve_of_same (i := j) rfl rfl halts.2⟩
    | full => exact absurd rfl hstop
    | ended => exact .inr halts
    | corrupt => exact absurd halts id

theorem nextBlock_of_ready (course : Course P) (h : P i (input ++ later) out)
    (waiting : i.ready ≠ []) :
    ∃ block, i.nextBlock input = some block ∧ Takes P i block i.ready later out ∧
      block.plain ≠ [] ∧ (i.Halted → block.inflater.Halted) := by
  let handed := i.handOn blockSize
  let block : Block := ⟨handed.1, handed.2, input, handed.2.ready.isEmpty && handed.2.hasEnded⟩
  have waits : (!i.ready.isEmpty) = true := by simpa using waiting
  have hblock : i.nextBlock input = some block := by
    simp only [nextBlock, waits, if_true]
    rfl
  have hsplit : handed.1 ++ handed.2.ready = i.ready := i.handOn_append blockSize
  refine ⟨block, hblock, ⟨⟨out, ?_, course.with_ready _ h⟩, fun hroom => handOn_ready hroom, ?_,
    ?_⟩, ?_, fun halted => halted.of_same (i := i) rfl rfl rfl⟩
  · rw [← List.append_assoc]
    exact congrArg (· ++ out) hsplit.symm
  · simp only [block, Bool.and_eq_true, List.isEmpty_iff, hasEnded_iff]
  · rw [← hsplit, List.length_append]
    exact Nat.add_assoc .. |>.symm
  · show i.ready.take blockSize ≠ []
    simpa [waiting] using (by decide : blockSize ≠ 0)

/-- The next octets that are handed on, with input of which more may come later. -/
theorem nextBlock_course (course : Course P) (h : P i (input ++ later) out) :
    ∃ block, i.nextBlock input = some block ∧ Takes P i block i.ready later out ∧
      (block.plain = [] →
        block.input = [] ∧ block.inflater.step = .starve ∨ block.ended = true) ∧
      (i.ready = [] ∨ i.Halted → block.inflater.Halted) := by
  by_cases hready : i.ready = []
  · have nothing : ([] : Bytes).length ≤ blockSize := Nat.zero_le _
    obtain ⟨stop, first, hfirst, takes, halted, wrote, last⟩ :=
      refill_course course hready h nothing
    rw [hready]
    -- A window that was full and is handed on as a whole is filled once more.
    by_cases again : stop = .full ∧ first.inflater.ready.isEmpty ∧
        first.plain.length < blockSize ∧ !first.input.isEmpty
    · have empty : first.inflater.ready = [] := List.isEmpty_iff.mp again.2.1
      obtain ⟨rest, hout, hfirst'⟩ := takes.out
      rw [empty, List.nil_append] at hout
      obtain ⟨stop', second, hsecond, takes', halted', wrote', last'⟩ :=
        refill_course course empty hfirst' (Nat.le_of_lt again.2.2.1)
      have size := takes.size
      have size' := takes'.size
      rw [empty, List.length_nil] at size
      refine ⟨second, ?_, ⟨?_, takes'.room, takes'.ended, ?_⟩, fun hnil => ?_, fun _ => halted'⟩
      · simp [nextBlock, hready, hfirst, again, hsecond]
      · rw [hout]
        exact takes'.out
      · rw [List.length_nil]
        omega
      · by_cases full : stop' = .full
        · have := wrote' full again.2.2.1
          rw [hnil] at this
          cases this
        · refine (last' full).imp_right fun ended => takes'.ended.mpr ⟨?_, ended⟩
          exact takes'.room (by rw [hnil]; decide)
    · refine ⟨first, ?_, takes, fun hnil => ?_, fun _ => halted⟩
      · simp only [nextBlock, hready, hfirst, List.isEmpty_nil, Bool.not_true, Bool.false_eq_true,
          if_false, if_neg again]
      · by_cases full : stop = .full
        · have := wrote full (by decide)
          rw [hnil] at this
          cases this
        · refine (last full).imp_right fun ended => takes.ended.mpr ⟨?_, ended⟩
          exact takes.room (by rw [hnil]; decide)
  · obtain ⟨block, hblock, takes, something, halted⟩ := nextBlock_of_ready course h hready
    exact ⟨block, hblock, takes, fun hnil => absurd hnil something,
      fun hi => halted (hi.resolve_left hready)⟩

end Inflater

end Switchboard.Deflate
