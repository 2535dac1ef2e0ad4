import Switchboard.Bytes
import Switchboard.Deflate.Block

namespace Switchboard.Deflate

/-- Where in its stream an inflater stands. -/
inductive Stage where
  | header
  | stored (left : Nat) (last : Bool)
  | coded (literals distances : Code) (last : Bool)
  /-- A literal that is read but not yet written. -/
  | literal (b : UInt8) (literals distances : Code) (last : Bool)
  /-- A copy of earlier output of which `left` octets are not yet written. -/
  | copy (left distance : Nat) (literals distances : Code) (last : Bool)
  | ended
  | corrupt

/-- Undoes the compression of one stream. -/
structure Inflater where
  /-- Bits taken from the input that no part of the stream was read from yet. -/
  bits : Bits := []
  stage : Stage := .header
  /-- All octets written so far. -/
  history : Array UInt8 := #[]
  /-- Octets written to the window that were not handed on yet. -/
  ready : Bytes := []

namespace Inflater

/-- Octets are written into a window of this size, and handed on before it is filled anew. -/
def windowSize : Nat := 32768

def afterBlock (last : Bool) : Stage := if last then .ended else .header

/-- What an inflater does next. -/
inductive Step where
  /-- It needs more bits. -/
  | starve
  | move (next : Inflater)
  | write (b : UInt8) (next : Inflater)
  | finish
  | fail

/-- The octet `distance` before the end of the output; before its start there are zeros. -/
def lookBack (i : Inflater) (distance : Nat) : UInt8 :=
  if distance ≤ i.history.size then i.history.getD (i.history.size - distance) 0 else 0

def step (i : Inflater) : Step :=
  match i.stage with
  | .header => match readHeader i.bits with
    | .ok ⟨last, .stored n⟩ bits =>
      .move { i with bits, stage := if n = 0 then afterBlock last else .stored n last }
    | .ok ⟨last, .coded ls ds⟩ bits => .move { i with bits, stage := .coded ls ds last }
    | .short => .starve
    | .fault => .fail
  | .stored left last => match Part.number 8 i.bits with
    | .ok n bits =>
      .write (UInt8.ofNat n)
        { i with bits, stage := if left = 1 then afterBlock last else .stored (left - 1) last }
    | .short => .starve
    | .fault => .fail
  | .coded ls ds last => match readToken ls ds i.bits with
    | .ok (.literal b) bits => .move { i with bits, stage := .literal b ls ds last }
    | .ok (.copy length distance) bits =>
      .move { i with bits, stage := .copy length distance ls ds last }
    | .ok .endOfBlock bits => .move { i with bits, stage := afterBlock last }
    | .short => .starve
    | .fault => .fail
  | .literal b ls ds last => .write b { i with stage := .coded ls ds last }
  | .copy left distance ls ds last =>
    .write (i.lookBack distance)
      { i with stage := if left ≤ 1 then .coded ls ds last else .copy (left - 1) distance ls ds last }
  | .ended => .finish
  | .corrupt => .fail

/-- Why a run came to its end. -/
inductive Stop where
  | starved
  | full
  | ended
  | corrupt
  deriving DecidableEq, Repr

def needsNoBits (i : Inflater) : Bool :=
  match i.stage with
  | .stored .. | .literal .. | .copy .. => true
  | _ => false

end Inflater

/-- How many octets a stage can write, or how many turns it can take, before it needs a bit. -/
def Stage.owed : Stage → Nat
  | .literal .. => 1
  | .copy left .. => left + 1
  | .ended => 1
  | _ => 0

namespace Inflater

/-- A bound for the octets that can come from an inflater and its input, and for the turns that
takes: less than two more than the longest copy for each bit, and a turn for each octet. -/
def work (i : Inflater) (input : Bytes) : Nat :=
  (maxCopy + 2) * (9 * input.length + i.bits.length) + i.stage.owed

theorem work_eq (i : Inflater) (input : Bytes) :
    i.work input = 260 * (9 * input.length + i.bits.length) + i.stage.owed := rfl

theorem owed_afterBlock (last : Bool) : (afterBlock last).owed ≤ 1 := by
  cases last <;> simp [afterBlock, Stage.owed]

theorem work_move {i next : Inflater} (h : i.step = .move next) (input : Bytes) :
    next.work input < i.work input := by
  simp only [work_eq]
  cases hs : i.stage with
  | header =>
    simp only [step, hs] at h
    cases hr : readHeader i.bits with
    | ok header bits =>
      have shorter := readHeader_length hr
      obtain ⟨last, body⟩ := header
      cases body with
      | stored n =>
        simp only [hr, Step.move.injEq] at h
        have owed := owed_afterBlock last
        subst h
        by_cases hn : n = 0 <;> simp only [hn, if_true, if_false, Stage.owed] at * <;> omega
      | coded ls ds =>
        simp only [hr, Step.move.injEq] at h
        subst h
        simp only [Stage.owed]
        omega
    | short => simp [hr] at h
    | fault => simp [hr] at h
  | stored left last =>
    simp only [step, hs] at h
    split at h <;> cases h
  | coded ls ds last =>
    simp only [step, hs] at h
    cases hr : readToken ls ds i.bits with
    | ok token bits =>
      obtain ⟨shorter, small⟩ := readToken_takes hr
      have owed := owed_afterBlock last
      cases token with
      | literal b =>
        simp only [hr, Step.move.injEq] at h
        subst h
        simp only [Stage.owed]
        omega
      | copy length distance =>
        have most : length ≤ 258 := small length distance rfl
        simp only [hr, Step.move.injEq] at h
        subst h
        simp only [Stage.owed]
        omega
      | endOfBlock =>
        simp only [hr, Step.move.injEq] at h
        subst h
        dsimp only
        omega
    | short => simp [hr] at h
    | fault => simp [hr] at h
  | literal b ls ds last => simp [step, hs] at h
  | copy left distance ls ds last => simp [step, hs] at h
  | ended => simp [step, hs] at h
  | corrupt => simp [step, hs] at h

theorem work_write {i next : Inflater} {b : UInt8} (h : i.step = .write b next) (input : Bytes) :
    next.work input < i.work input := by
  simp only [work_eq]
  cases hs : i.stage with
  | header =>
    simp only [step, hs] at h
    split at h <;> cases h
  | stored left last =>
    simp only [step, hs] at h
    cases hr : Part.number 8 i.bits with
    | ok n bits =>
      have shorter := Part.number_length hr
      have owed := owed_afterBlock last
      simp only [hr, Step.write.injEq] at h
      obtain ⟨-, rfl⟩ := h
      by_cases hl : left = 1 <;> simp only [hl, if_true, if_false, Stage.owed] at * <;> omega
    | short => simp [hr] at h
    | fault => simp [hr] at h
  | coded ls ds last =>
    simp only [step, hs] at h
    split at h <;> cases h
  | literal b ls ds last =>
    simp only [step, hs, Step.write.injEq] at h
    obtain ⟨-, rfl⟩ := h
    simp only [Stage.owed]
    omega
  | copy left distance ls ds last =>
    simp only [step, hs, Step.write.injEq] at h
    obtain ⟨-, rfl⟩ := h
    by_cases hl : left ≤ 1 <;> simp only [hl, if_true, if_false, Stage.owed] <;> omega
  | ended => simp [step, hs] at h
  | corrupt => simp [step, hs] at h

theorem length_bitsOf (b : UInt8) : (bitsOf b).length = 8 := by simp [bitsOf]

theorem work_pull (i : Inflater) (b : UInt8) (input : Bytes) :
    work { i with bits := i.bits ++ bitsOf b } input < i.work (b :: input) := by
  simp only [work_eq, List.length_append, length_bitsOf, List.length_cons]
  omega

/-- Runs until `space` octets are written and another one is at hand, or the input is used up, or
the stream has ended or is corrupt. The octets come with the last one first. -/
def run (space : Nat) (i : Inflater) (input : Bytes) (out : List UInt8) :
    Stop × Inflater × Bytes × List UInt8 :=
  if space = 0 ∧ i.needsNoBits then (.full, i, input, out)
  else match h : i.step with
    | .finish => (.ended, i, input, out)
    | .fail => (.corrupt, { i with stage := .corrupt }, input, out)
    | .move next => run space next input out
    | .write b next =>
      run (space - 1) { next with history := next.history.push b } input (b :: out)
    | .starve => match input with
      | [] => (.starved, i, [], out)
      | b :: input => run space { i with bits := i.bits ++ bitsOf b } input out
termination_by i.work input
decreasing_by
  · exact work_move h input
  · exact work_write h input
  · exact work_pull i b input

/-- The most octets handed on at once. -/
def blockSize : Nat := 8192

/-- Hands on what is ready, but no more than `room`. -/
def handOn (i : Inflater) (room : Nat) : Bytes × Inflater :=
  (i.ready.take room, { i with ready := i.ready.drop room })

/-- How many octets the window can take before it has to start anew. -/
def space (i : Inflater) : Nat :=
  windowSize - (i.history.size - i.ready.length) % windowSize

/-- Fills the window as far as it goes. -/
def fill (i : Inflater) (input : Bytes) : Stop × Inflater × Bytes :=
  let (stop, i, input, out) := run i.space i input []
  (stop, { i with ready := out.reverse }, input)

/-- What is handed on at once, the input left, and whether that was the end of the stream. -/
structure Block where
  plain : Bytes
  inflater : Inflater
  input : Bytes
  ended : Bool

def hasEnded (i : Inflater) : Bool := i.stage matches .ended

/-- Puts octets that can be had from the input behind others, as far as a block has room, and tells
why it stopped; nothing when the stream is corrupt. -/
def refill (i : Inflater) (plain input : Bytes) : Option (Stop × Block) :=
  match i.fill input with
  | (.corrupt, _, _) => none
  | (stop, i, input) =>
    let (more, i) := i.handOn (blockSize - plain.length)
    some (stop, ⟨plain ++ more, i, input, i.ready.isEmpty && stop = .ended⟩)

/-- The next octets that are handed on: those that are ready, or else those that can be had from
the input, going on at the start of the window when its end comes before the block is full. Nothing
when the stream is corrupt. -/
def nextBlock (i : Inflater) (input : Bytes) : Option Block :=
  if !i.ready.isEmpty then
    let (plain, i) := i.handOn blockSize
    some ⟨plain, i, input, i.ready.isEmpty && i.hasEnded⟩
  else match i.refill [] input with
    | none => none
    | some (stop, block) =>
      if stop = .full ∧ block.inflater.ready.isEmpty ∧ block.plain.length < blockSize ∧
          !block.input.isEmpty then
        (block.inflater.refill block.plain block.input).map (·.2)
      else some block

theorem step_keeps_ready {i next : Inflater}
    (h : i.step = .move next ∨ ∃ b, i.step = .write b next) : next.ready = i.ready := by
  unfold step at h
  cases hs : i.stage with
  | header | coded =>
    simp only [hs] at h
    split at h <;> simp at h <;> rw [← h]
  | stored =>
    simp only [hs] at h
    split at h <;> simp at h
    rw [← h]
  | literal | copy =>
    simp [hs] at h
    rw [← h]
  | ended | corrupt => simp [hs] at h

theorem step_eq_finish {i : Inflater} (h : i.step = .finish) : i.stage = .ended := by
  unfold step at h
  cases hs : i.stage with
  | header | coded | stored =>
    simp only [hs] at h
    split at h <;> cases h
  | literal | copy | corrupt => simp [hs] at h
  | ended => rfl

/-- What a run does to the work there is: every octet it writes is accounted for, and every octet
of input it takes. -/
structure Spent (i : Inflater) (input : Bytes) (out : List UInt8)
    (r : Stop × Inflater × Bytes × List UInt8) : Prop where
  work : r.2.1.work r.2.2.1 + r.2.2.2.length + input.length ≤
    i.work input + out.length + r.2.2.1.length
  input : r.2.2.1.length ≤ input.length
  ended : r.1 = .ended → r.2.1.stage = .ended
  ready : r.2.1.ready = i.ready

theorem run_spent (space : Nat) (i : Inflater) (input : Bytes) (out : List UInt8) :
    Spent i input out (run space i input out) := by
  fun_induction run space i input out with
  | case1 => exact ⟨Nat.le_refl _, Nat.le_refl _, fun h => (by cases h), rfl⟩
  | case2 space i input out _ h =>
    exact ⟨Nat.le_refl _, Nat.le_refl _, fun _ => step_eq_finish h, rfl⟩
  | case3 space i input out =>
    refine ⟨?_, Nat.le_refl _, fun h => (by cases h), rfl⟩
    simp only [work_eq, Stage.owed]
    omega
  | case4 space i input out _ next h ih =>
    have less := work_move h input
    have spent := ih.work
    exact ⟨by omega, ih.input, ih.ended, ih.ready.trans (step_keeps_ready (.inl h))⟩
  | case5 space i input out _ b next h ih =>
    have less : work { next with history := next.history.push b } input < i.work input :=
      work_write h input
    have spent := ih.work
    rw [List.length_cons] at spent
    have kept : next.ready = i.ready := step_keeps_ready (.inr ⟨b, h⟩)
    exact ⟨by omega, ih.input, ih.ended, ih.ready.trans kept⟩
  | case6 => exact ⟨Nat.le_refl _, Nat.le_refl _, fun h => (by cases h), rfl⟩
  | case7 space i out _ h b input ih =>
    have less := work_pull i b input
    have spent := ih.work
    refine ⟨?_, Nat.le_succ_of_le ih.input, ih.ended, ih.ready⟩
    rw [List.length_cons]
    omega

/-- A bound for the octets that can be handed on. -/
def outlook (i : Inflater) (input : Bytes) : Nat := i.work input + i.ready.length

theorem fill_eq {i i' : Inflater} {input input' : Bytes} {stop : Stop}
    (h : i.fill input = (stop, i', input')) : ∃ last out,
      run i.space i input [] = (stop, last, input', out) ∧
        i' = { last with ready := out.reverse } := by
  rcases hrun : run i.space i input [] with ⟨stop, last, input, out⟩
  simp only [fill, hrun] at h
  cases h
  exact ⟨last, out, rfl, rfl⟩

theorem refill_eq {i : Inflater} {plain input : Bytes} {stop : Stop} {block : Block}
    (h : i.refill plain input = some (stop, block)) : ∃ filled,
      i.fill input = (stop, filled, block.input) ∧ stop ≠ .corrupt ∧
        block.plain = plain ++ (filled.handOn (blockSize - plain.length)).1 ∧
        block.inflater = (filled.handOn (blockSize - plain.length)).2 ∧
        block.ended = (block.inflater.ready.isEmpty && stop = .ended) := by
  rcases hfill : i.fill input with ⟨stop', filled, input'⟩
  cases stop' <;> simp only [refill, hfill, Option.some.injEq, Prod.mk.injEq] at h
  case corrupt => cases h
  all_goals
    obtain ⟨rfl, rfl⟩ := h
    exact ⟨filled, rfl, by simp, rfl, rfl, rfl⟩

theorem fill_outlook {i i' : Inflater} {input input' : Bytes} {stop : Stop} (h : i.ready = [])
    (hfill : i.fill input = (stop, i', input')) :
    i'.outlook input' + input.length ≤ i.outlook input + input'.length ∧
      input'.length ≤ input.length ∧ (stop = .ended → i'.stage = .ended) := by
  obtain ⟨last, out, hrun, rfl⟩ := fill_eq hfill
  have spent := run_spent i.space i input []
  rw [hrun] at spent
  have same : work { last with ready := out.reverse } input' = last.work input' := rfl
  have bound : last.work input' + out.length + input.length ≤ i.work input + 0 + input'.length :=
    spent.work
  refine ⟨?_, spent.input, spent.ended⟩
  simp only [outlook, same, h, List.length_nil, List.length_reverse]
  omega

theorem handOn_outlook (i : Inflater) (room : Nat) (input : Bytes) :
    (i.handOn room).2.outlook input + (i.handOn room).1.length = i.outlook input := by
  simp only [handOn, outlook, work, List.length_take, List.length_drop]
  omega

theorem refill_outlook {i : Inflater} {plain input : Bytes} {stop : Stop} {block : Block}
    (hready : i.ready = []) (h : i.refill plain input = some (stop, block)) :
    block.inflater.outlook block.input + block.plain.length + input.length ≤
        i.outlook input + plain.length + block.input.length ∧
      block.input.length ≤ input.length ∧
      (block.ended = true → block.inflater.stage = .ended) := by
  obtain ⟨filled, hfill, _, hplain, hinflater, hended⟩ := refill_eq h
  obtain ⟨bound, hinput, ended⟩ := fill_outlook hready hfill
  have handed := filled.handOn_outlook (blockSize - plain.length) block.input
  rw [← hinflater] at handed
  refine ⟨?_, hinput, fun he => ?_⟩
  · rw [hplain, List.length_append]
    omega
  · rw [hended, Bool.and_eq_true, decide_eq_true_eq] at he
    rw [hinflater]
    exact ended he.2

theorem stage_of_hasEnded {i : Inflater} (h : i.hasEnded = true) : i.stage = .ended := by
  unfold hasEnded at h
  split at h
  · assumption
  · cases h

/-- What is handed on was in the outlook, and an octet of input that is taken is a loss to it. -/
theorem nextBlock_outlook {i : Inflater} {input : Bytes} {block : Block}
    (h : i.nextBlock input = some block) :
    block.inflater.outlook block.input + block.plain.length + input.length ≤
        i.outlook input + block.input.length ∧
      block.input.length ≤ input.length ∧
      (block.ended = true → block.inflater.stage = .ended) := by
  cases hready : i.ready with
  | cons b ready =>
    simp only [nextBlock, hready, List.isEmpty_cons, Bool.not_false, if_true,
      Option.some.injEq] at h
    subst h
    have handed := i.handOn_outlook blockSize input
    refine ⟨by dsimp only; omega, Nat.le_refl _, fun ended => ?_⟩
    exact stage_of_hasEnded (Bool.and_eq_true_iff.mp ended).2
  | nil =>
    cases hfirst : i.refill [] input with
    | none => simp [nextBlock, hready, hfirst] at h
    | some r =>
      obtain ⟨stop, first⟩ := r
      obtain ⟨bound, hinput, ended⟩ := refill_outlook hready hfirst
      simp only [nextBlock, hready, hfirst, List.isEmpty_nil, Bool.not_true, Bool.false_eq_true,
        if_false] at h
      split at h
      next again =>
        obtain ⟨⟨stop', second⟩, hsecond, rfl⟩ := Option.map_eq_some_iff.mp h
        obtain ⟨bound', hinput', ended'⟩ :=
          refill_outlook (List.isEmpty_iff.mp again.2.1) hsecond
        refine ⟨?_, Nat.le_trans hinput' hinput, ended'⟩
        simp only [List.length_nil] at bound
        dsimp only
        omega
      next =>
        cases h
        exact ⟨bound, hinput, ended⟩

theorem nextBlock_ended {i : Inflater} {input : Bytes} {block : Block}
    (h : i.nextBlock input = some block) (hended : block.ended = true) :
    outlook {} block.input < i.outlook input := by
  obtain ⟨bound, hinput, ended⟩ := nextBlock_outlook h
  have one : block.inflater.stage.owed = 1 := by rw [ended hended, Stage.owed]
  have fresh : outlook {} block.input = 260 * (9 * block.input.length) := rfl
  rw [outlook, work_eq, one] at bound
  omega

theorem nextBlock_moved {i : Inflater} {input : Bytes} {block : Block}
    (h : i.nextBlock input = some block)
    (moved : ¬(block.plain.isEmpty ∧ block.input.length = input.length)) :
    block.inflater.outlook block.input < i.outlook input := by
  obtain ⟨bound, hinput, _⟩ := nextBlock_outlook h
  by_cases hplain : block.plain = []
  · have : block.input.length ≠ input.length := fun same => moved ⟨by rw [hplain]; rfl, same⟩
    omega
  · have := List.length_pos_iff.mpr hplain
    omega

end Inflater

end Switchboard.Deflate
