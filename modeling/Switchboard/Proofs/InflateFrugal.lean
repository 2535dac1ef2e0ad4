import Switchboard.Proofs.InflatedStreams

namespace Switchboard.Deflate

theorem Part.short_length {n : Nat} {bits : Bits} (h : Part.number n bits = .short) :
    bits.length < n := by
  by_contra enough
  have read := number_append (bits.take n) (bits.drop n)
  rw [List.take_append_drop, List.length_take_of_le (Nat.le_of_not_lt enough), h] at read
  cases read

namespace Inflater

variable {P : Inflater → Bytes → Bytes → Prop} {i j k next : Inflater} {b : UInt8}
  {coming out : Bytes}

theorem header_short {bits : Bits} (h : step { bits } = .starve) : readHeader bits = .short := by
  simp only [step] at h
  split at h <;> simp_all

theorem stored_short {bits : Bits} {left : Nat} {last : Bool}
    (h : step { bits, stage := .stored left last } = .starve) : Part.number 8 bits = .short := by
  simp only [step] at h
  split at h <;> simp_all

theorem coded_short {bits : Bits} {ls ds : Code} {last : Bool}
    (h : step { bits, stage := .coded ls ds last } = .starve) : readToken ls ds bits = .short := by
  simp only [step] at h
  split at h <;> simp_all

/-- An inflater takes an octet only when it lacks bits, so that there is always less than an octet
at hand that it need not have taken; and what it has to copy is not longer than a copy can be. -/
structure Frugal (i : Inflater) : Prop where
  bits : i.bits.length < 8 ∨
    ∃ bits b, i.bits = bits ++ bitsOf b ∧ step { bits, stage := i.stage } = .starve
  owed : i.stage.owed ≤ maxCopy + 1

/-- What is read has used all octets before the last one. -/
theorem Frugal.rest_length {α : Type} {part : Part α} {rest : Bits} {a : α} (h : i.Frugal)
    (stable : part.Stable)
    (lacks : ∀ {bits}, step { bits, stage := i.stage } = .starve → part bits = .short)
    (hread : part i.bits = .ok a rest) : rest.length < 8 := by
  rcases h.bits with few | ⟨bits, b, hbits, starves⟩
  · exact Nat.lt_of_le_of_lt (stable.suffix hread).length_le few
  · rw [hbits] at hread
    have octet : 8 ∣ (bitsOf b).length := by rw [length_bitsOf]
    have used := stable.short (bitsOf b) octet (lacks starves) hread
    rwa [length_bitsOf] at used

theorem Frugal.start : Frugal {} := ⟨.inl (by decide), by decide⟩

theorem Frugal.pull (h : i.Frugal) (hstep : i.step = .starve) : (i.pull b).Frugal :=
  ⟨.inr ⟨i.bits, b, rfl, step_eq_starve_of_same (i := i) rfl rfl hstep⟩, h.owed⟩

/-- In a stage that reads nothing there is less than an octet at hand. -/
theorem Frugal.few_of_unread (h : i.Frugal)
    (reads : ∀ bits, step { bits, stage := i.stage } ≠ .starve) : i.bits.length < 8 :=
  h.bits.resolve_right fun ⟨bits, _, _, starves⟩ => reads bits starves

theorem owed_afterBlock_le (last : Bool) : (afterBlock last).owed ≤ maxCopy + 1 :=
  Nat.le_trans (owed_afterBlock last) (by decide)

theorem Frugal.move (h : i.Frugal) (hstep : i.step = .move next) : next.Frugal := by
  cases hs : i.stage with
  | header =>
    simp only [step, hs] at hstep
    cases hread : readHeader i.bits with
    | ok header rest =>
      have few := h.rest_length readHeader_stable (hs ▸ header_short) hread
      obtain ⟨last, body⟩ := header
      cases body with
      | stored n =>
        simp only [hread, Step.move.injEq] at hstep
        subst hstep
        refine ⟨.inl few, ?_⟩
        dsimp only
        split
        · exact owed_afterBlock_le last
        · exact Nat.zero_le _
      | coded ls ds =>
        simp only [hread, Step.move.injEq] at hstep
        subst hstep
        exact ⟨.inl few, Nat.zero_le _⟩
    | short => simp [hread] at hstep
    | fault => simp [hread] at hstep
  | coded ls ds last =>
    simp only [step, hs] at hstep
    cases hread : readToken ls ds i.bits with
    | ok token rest =>
      have few := h.rest_length (readToken_stable ls ds) (hs ▸ coded_short) hread
      cases token with
      | literal b =>
        simp only [hread, Step.move.injEq] at hstep
        subst hstep
        exact ⟨.inl few, Nat.succ_le_succ (Nat.zero_le _)⟩
      | copy length distance =>
        have most := (readToken_takes hread).2 length distance rfl
        simp only [hread, Step.move.injEq] at hstep
        subst hstep
        exact ⟨.inl few, Nat.succ_le_succ most⟩
      | endOfBlock =>
        simp only [hread, Step.move.injEq] at hstep
        subst hstep
        exact ⟨.inl few, owed_afterBlock_le last⟩
    | short => simp [hread] at hstep
    | fault => simp [hread] at hstep
  | stored left last =>
    simp only [step, hs] at hstep
    split at hstep <;> cases hstep
  | literal | copy | ended | corrupt => simp [step, hs] at hstep

/-- In a stage in which octets are written there are few bits at hand. -/
theorem Frugal.bits_length (h : i.Frugal) (writes : i.needsNoBits = true) : i.bits.length < 16 := by
  rcases h.bits with few | ⟨bits, b, hbits, starves⟩
  · omega
  · cases hs : i.stage with
    | stored left last =>
      rw [hs] at starves
      have few := Part.short_length (stored_short starves)
      rw [hbits, List.length_append, length_bitsOf]
      omega
    | literal | copy | ended | corrupt => simp [step, hs] at starves
    | header | coded => simp [needsNoBits, hs] at writes

theorem Frugal.write (h : i.Frugal) (hstep : i.step = .write b next) : (next.wrote b).Frugal := by
  cases hs : i.stage with
  | stored left last =>
    simp only [step, hs] at hstep
    cases hread : Part.number 8 i.bits with
    | ok n rest =>
      have few := h.rest_length (.number 8) (hs ▸ stored_short) hread
      simp only [hread, Step.write.injEq] at hstep
      obtain ⟨-, rfl⟩ := hstep
      refine ⟨.inl few, ?_⟩
      show Stage.owed (if left = 1 then _ else _) ≤ _
      split
      · exact owed_afterBlock_le last
      · exact Nat.zero_le _
    | short => simp [hread] at hstep
    | fault => simp [hread] at hstep
  | literal c ls ds last =>
    have few := h.few_of_unread (by simp [step, hs])
    simp only [step, hs, Step.write.injEq] at hstep
    obtain ⟨-, rfl⟩ := hstep
    exact ⟨.inl few, Nat.zero_le _⟩
  | copy left distance ls ds last =>
    have few := h.few_of_unread (by simp [step, hs])
    have owed := h.owed
    simp only [step, hs, Step.write.injEq] at hstep
    obtain ⟨-, rfl⟩ := hstep
    refine ⟨.inl few, ?_⟩
    simp only [wrote]
    split
    · exact Nat.zero_le _
    · rw [hs] at owed
      simp only [Stage.owed] at owed ⊢
      omega
  | header | coded =>
    simp only [step, hs] at hstep
    split at hstep <;> cases hstep
  | ended | corrupt => simp [step, hs] at hstep

/-- What is on course, and frugal, stays so. -/
theorem Course.frugal (course : Course P) :
    Course fun i coming out => P i coming out ∧ i.Frugal where
  sound h := course.sound h.1
  move h hstep := ⟨course.move h.1 hstep, h.2.move hstep⟩
  write h hstep := by
    obtain ⟨rest, hout, left⟩ := course.write h.1 hstep
    exact ⟨rest, hout, left, h.2.write hstep⟩
  pull h hstep := ⟨course.pull h.1 hstep, h.2.pull hstep⟩
  with_ready ready h := ⟨course.with_ready ready h.1, h.2.bits, h.2.owed⟩
  next h ended := ⟨course.next h.1 ended, .start⟩

/-- No more octets come than there is work. -/
theorem Trace.length_le (t : Trace i out k) : out.length ≤ i.work [] := by
  induction t with
  | stop => exact Nat.zero_le _
  | move h _ ih =>
    have less := work_move h []
    omega
  | @write i next k b out h _ ih =>
    have less : (next.wrote b).work [] < i.work [] := work_write h []
    rw [List.length_cons]
    omega

theorem Frugal.work_lt (h : i.Frugal) (writes : i.needsNoBits = true) : i.work [] < blockSize := by
  have few := h.bits_length writes
  have owed := h.owed
  simp only [work_eq, List.length_nil, maxCopy, blockSize] at owed ⊢
  omega

theorem Inflates.length_le (h : Inflates i [] out) : out.length ≤ i.work [] := by
  generalize hnone : [] = coming at h
  cases h with
  | unfinished toward =>
    subst hnone
    have bound := Trace.length_le toward
    have same : (i.ahead []).work [] = i.work [] := by simp [work, ahead]
    rwa [same] at bound
  | @stream _ _ y later out more toward ended short others =>
    obtain ⟨rfl, rfl⟩ := List.append_eq_nil_iff.mp hnone.symm
    obtain rfl : more = [] := others.done (rest_starves rfl rfl)
    have bound := Trace.length_le toward
    have same : (i.ahead []).work [] = i.work [] := by simp [work, ahead]
    rwa [same, ← out.append_nil] at bound

theorem Inflates.nothing_left (h : Inflates i [] out)
    (stops : i.step = .starve ∨ i.stage = .ended) : out = [] := by
  rcases stops with starves | ended
  · exact h.done starves
  · exact (h.next ended).done (rest_starves rfl rfl)

/-- What is held back at a full window comes when the inflater is asked once more, without any more
input, and all of it in one block. -/
theorem Inflates.last_block (h : Inflates i [] out) (frugal : i.Frugal) (ready : i.ready = [])
    (settled : i.WindowFull ∨ i.step = .starve) :
    ∃ block, i.nextBlock [] = some block ∧ block.plain = out ∧ block.input = [] ∧
      out.length < blockSize := by
  have few : out.length < blockSize := by
    rcases settled with full | starves
    · exact Nat.lt_of_le_of_lt h.length_le (frugal.work_lt full.writes)
    · rw [h.done starves]
      decide
  have start : Inflates i ([] ++ []) out := h
  obtain ⟨block, hblock, takes, hnil, halted⟩ := nextBlock_course Inflates.course start
  have input : block.input = [] :=
    List.length_eq_zero_iff.mp (Nat.le_zero.mp (nextBlock_outlook hblock).2.1)
  obtain ⟨rest, hout, flows⟩ := takes.out
  rw [ready, List.nil_append] at hout
  rw [input] at flows
  have short : block.plain.length < blockSize := by
    rw [hout, List.length_append] at few
    omega
  have handed := takes.room short
  have size := takes.size
  rw [ready, handed] at size
  have none : rest = [] := by
    rcases halted (.inl ready) with full | stops
    · by_cases empty : block.plain = []
      · exact flows.nothing_left ((hnil empty).imp And.right fun e => (takes.ended.mp e).2)
      -- Both windows are full, but what lies between them does not fill one.
      · have before : i.WindowFull := settled.resolve_right fun starves => by
          rw [h.done starves] at hout
          exact empty (List.append_eq_nil_iff.mp hout.symm).1
        have whole := full.whole
        have behind : block.inflater.history.size = i.history.size + block.plain.length := size
        rw [behind, Nat.dvd_add_right before.whole] at whole
        have least := Nat.le_of_dvd (List.length_pos_iff.mpr empty) whole
        have small : blockSize < windowSize := by decide
        omega
    · exact flows.nothing_left stops
  refine ⟨block, hblock, ?_, input, few⟩
  rw [hout, handed, none, List.append_nil, List.append_nil]

end Inflater

end Switchboard.Deflate
