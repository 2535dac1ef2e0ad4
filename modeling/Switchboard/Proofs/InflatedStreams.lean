import Switchboard.Proofs.InflatedDelivery
import Switchboard.Proofs.StoredStream
import Switchboard.Proofs.TextWire

namespace Switchboard

namespace Deflate.Inflater

variable {i j k : Inflater} {b : UInt8} {coming later y out : Bytes}

/-- What the octets behind those that an inflater has taken stand for: the rest of its stream and
whole streams behind that, the last of which may be unfinished. None of them is corrupt. -/
inductive Inflates : Inflater → (coming out : Bytes) → Prop
  | unfinished {i k : Inflater} {coming out : Bytes} : Toward k i coming out →
      k.step = .starve → Inflates i coming out
  | stream {i k : Inflater} {y later out more : Bytes} : Toward k i y out →
      k.stage = .ended → k.bits.length < 8 → Inflates {} later more →
      Inflates i (y ++ later) (out ++ more)

/-- A stream that is not at its end has more octets than those it starves on. -/
theorem Toward.ne_nil (h : Toward k i y out) (ended : k.stage = .ended)
    (starves : i.step = .starve) : y ≠ [] := by
  rintro rfl
  have still := step_ahead_nil starves
  obtain ⟨-, rfl⟩ := Trace.of_rest h (atRest_of_starve still)
  rw [step_of_ended ended] at still
  cases still

theorem Inflates.sound (h : Inflates i coming out) : i.step ≠ .fail := by
  intro fails
  cases h with
  | unfinished toward starves => exact (Toward.course starves).sound toward fails
  | stream toward ended =>
    simpa [fails, step_of_ended ended] using (toward.arrived (.inl fails)).2.2

theorem Inflates.move {next : Inflater} (h : Inflates i coming out) (hstep : i.step = .move next) :
    Inflates next coming out := by
  cases h with
  | unfinished toward starves =>
    exact .unfinished (toward.move (atRest_of_starve starves) hstep) starves
  | stream toward ended short others =>
    have rests := atRest_of_finish (step_of_ended ended)
    exact .stream (toward.move rests hstep) ended short others

theorem Inflates.write {next : Inflater} (h : Inflates i coming out)
    (hstep : i.step = .write b next) :
    ∃ rest, out = b :: rest ∧ Inflates (next.wrote b) coming rest := by
  cases h with
  | unfinished toward starves =>
    obtain ⟨rest, hout, left⟩ := toward.write (atRest_of_starve starves) hstep
    exact ⟨rest, hout, .unfinished left starves⟩
  | stream toward ended short others =>
    have rests := atRest_of_finish (step_of_ended ended)
    obtain ⟨rest, rfl, left⟩ := toward.write rests hstep
    exact ⟨_, rfl, .stream left ended short others⟩

theorem Inflates.pull (h : Inflates i (b :: coming) out) (hstep : i.step = .starve) :
    Inflates (i.pull b) coming out := by
  generalize hall : b :: coming = all at h
  cases h with
  | unfinished toward starves =>
    subst hall
    exact .unfinished toward.pull starves
  | @stream _ _ y later _ _ toward ended short others =>
    cases y with
    | nil => exact absurd rfl (toward.ne_nil ended hstep)
    | cons b' y =>
      obtain ⟨rfl, rfl⟩ := List.cons_eq_cons.mp hall
      exact .stream toward.pull ended short others

/-- Behind the end of a stream the next one begins. -/
theorem Inflates.next (h : Inflates i coming out) (ended : i.stage = .ended) :
    Inflates {} coming out := by
  have finish := step_of_ended ended
  cases h with
  | unfinished toward starves =>
    simpa [finish, starves] using (toward.arrived (.inr finish)).2.2
  | @stream _ _ y _ _ _ toward _ short others =>
    obtain ⟨rfl, rfl, _⟩ := toward.arrived (.inr finish)
    have none : y = [] := by
      cases y with
      | nil => rfl
      | cons b y =>
        simp only [ahead, List.flatMap_cons, List.length_append, length_bitsOf] at short
        omega
    subst none
    exact others

theorem Inflates.course : Course Inflates where
  sound := Inflates.sound
  move := Inflates.move
  write := Inflates.write
  pull := Inflates.pull
  with_ready _ h := by
    cases h with
    | unfinished toward starves => exact .unfinished toward starves
    | stream toward ended short others => exact .stream toward ended short others
  next := Inflates.next

theorem Inflates.done (h : Inflates i [] out) (starves : i.step = .starve) : out = [] := by
  generalize hnone : [] = coming at h
  cases h with
  | unfinished toward =>
    subst hnone
    exact (Trace.of_rest toward (atRest_of_starve (step_ahead_nil starves))).1
  | stream toward ended =>
    have none := (List.append_eq_nil_iff.mp hnone.symm).1
    exact absurd none (toward.ne_nil ended starves)

theorem WindowFull.windowSize_le (h : i.WindowFull) : windowSize ≤ i.history.size :=
  Nat.le_of_dvd h.some h.whole

end Deflate.Inflater

open Deflate Inflater

namespace Codec

variable {C : Type} [Codec C]

/-- What a codec makes of bytes from a source does not depend on how they are cut. -/
def CutFree (c : C) (source : String) : Prop :=
  ∀ pieces : List Bytes, (decodeChunks source pieces c).1 = (decode c source pieces.flatten).1

theorem decodeChunks_singleton (source : String) (x : Bytes) (c : C) :
    decodeChunks source [x] c = decode c source x := by
  rcases h : decode c source x with ⟨_ | got, d⟩ <;> simp [decodeChunks, h]

theorem decodeChunks_append_of_ok {source : String} {xs ys : List Bytes} {c c' : C}
    {got : List Packet} (h : decodeChunks source xs c = (.ok got, c')) :
    decodeChunks source (xs ++ ys) c = ((decodeChunks source ys c').1.map (got ++ ·),
      (decodeChunks source ys c').2) := by
  induction xs generalizing c got with
  | nil =>
    cases h
    rcases hys : decodeChunks source ys c' with ⟨_ | more, d⟩ <;> simp [hys, Except.map]
  | cons x xs ih =>
    rcases hx : decode c source x with ⟨_ | first, d⟩
    · simp [decodeChunks, hx] at h
    rcases hxs : decodeChunks source xs d with ⟨_ | rest, d'⟩
    · simp [decodeChunks, hx, hxs] at h
    simp only [decodeChunks, hx, hxs, Prod.mk.injEq, Except.ok.injEq] at h
    obtain ⟨rfl, rfl⟩ := h
    have hrest := ih hxs
    rcases hys : decodeChunks source ys d' with ⟨_ | more, d''⟩ <;>
      simp [decodeChunks, hx, hrest, hys, Except.map]

theorem decodeChunks_append_of_error {source : String} {xs ys : List Bytes} {c c' : C} {e : Error}
    (h : decodeChunks source xs c = (.error e, c')) :
    decodeChunks source (xs ++ ys) c = (.error e, c') := by
  induction xs generalizing c with
  | nil => cases h
  | cons x xs ih =>
    rcases hx : decode c source x with ⟨e' | first, d⟩
    · simp only [decodeChunks, hx] at h
      simp only [List.cons_append, decodeChunks, hx, h]
    rcases hxs : decodeChunks source xs d with ⟨e' | rest, d'⟩
    · simp only [decodeChunks, hx, hxs] at h
      have hrest := ih (hxs.trans h)
      simp only [List.cons_append, decodeChunks, hx, hrest]
    · simp [decodeChunks, hx, hxs] at h

end Codec

namespace Deflated

variable {K C : Type} [Compressor K] [Codec C] {P : Inflater → Bytes → Bytes → Prop}
  {c : Deflated K C} {source : String} {input later out plain : Bytes} {acc : List Packet} {n : Nat}

/-- What is handed on in a block is one piece for the inner codec, or none. -/
theorem decodePlain_eq (source : String) (inner : C) (plain : Bytes) : ∃ pieces : List Bytes,
    pieces.flatten = plain ∧ decodePlain source inner plain =
      Codec.decodeChunks source pieces inner := by
  cases plain with
  | nil => exact ⟨[], rfl, rfl⟩
  | cons b plain =>
    refine ⟨[b :: plain], by simp, ?_⟩
    rw [Codec.decodeChunks_singleton]
    rfl

/-- How decoding ends when `due` was to be handed on: the inner codec was given the first of it in
pieces, and its packets stand behind those before. What is held back is more than nothing only
where more comes later, or the window is full. -/
inductive Ends (P : Inflater → Bytes → Bytes → Prop) (source : String) (later : Bytes)
    (acc : List Packet) (n : Nat) (inner : C) (due : Bytes) :
    Except Error (List Packet) × Deflated K C → Prop
  | through {pieces : List Bytes} {held : Bytes} {got : List Packet} {c : Deflated K C} :
      Codec.decodeChunks source pieces inner = (.ok got, c.inner) → due = pieces.flatten ++ held →
      P c.inflater later held → c.inflater.ready = [] →
      c.inflater.WindowFull ∨ c.inflater.step = .starve →
      c.inflater.history.size ≤ n + pieces.flatten.length →
      Ends P source later acc n inner due (.ok (acc.reverse ++ got), c)
  | broken {pieces : List Bytes} {held : Bytes} {e : Error} {inner' : C} {c : Deflated K C} :
      Codec.decodeChunks source pieces inner = (.error e, inner') → due = pieces.flatten ++ held →
      Ends P source later acc n inner due (.error e, c)

variable {r : Except Error (List Packet) × Deflated K C} {inner inner' : C} {due : Bytes}
  {first : List Bytes} {more : List Packet}

/-- What comes first is decoded first. -/
theorem Ends.behind (h : Ends P source later (more.reverseAux acc) (n + first.flatten.length) inner'
    due r) (hfirst : Codec.decodeChunks source first inner = (.ok more, inner')) :
    Ends P source later acc n inner (first.flatten ++ due) r := by
  cases h with
  | @through pieces held got c hgot hdue flows ready settled size =>
    have all : Codec.decodeChunks source (first ++ pieces) inner = (.ok (more ++ got), c.inner) := by
      rw [Codec.decodeChunks_append_of_ok hfirst, hgot]
      rfl
    have packets : (more.reverseAux acc).reverse ++ got = acc.reverse ++ (more ++ got) := by simp
    rw [packets]
    refine .through all ?_ flows ready settled ?_
    · rw [hdue, List.flatten_append, List.append_assoc]
    · rw [List.flatten_append, List.length_append]
      omega
  | @broken pieces held e inner'' c herror hdue =>
    have all : Codec.decodeChunks source (first ++ pieces) inner = (.error e, inner'') := by
      rw [Codec.decodeChunks_append_of_ok hfirst, herror]
      rfl
    have split : first.flatten ++ due = (first ++ pieces).flatten ++ held := by
      rw [hdue, List.flatten_append, List.append_assoc]
    exact .broken all split

theorem Ends.after (h : Ends P source later [] n inner due r) (acc : List Packet) :
    Ends P source later acc n inner due (r.1.map (acc.reverse ++ ·), r.2) := by
  cases h with
  | through hgot hdue flows ready settled size => exact .through hgot hdue flows ready settled size
  | broken herror hdue => exact .broken herror hdue

/-- A block of the input is the next of what is to be handed on. -/
theorem block_due (course : Course P) {block : Block} (hblock : c.inflater.nextBlock input = some block)
    (h : P c.inflater (input ++ later) out)
    (start : c.inflater.ready = [] ∨ c.inflater.Halted)
    (size : c.inflater.history.size ≤ n + c.inflater.ready.length) :
    ∃ pieces left, decodePlain source c.inner block.plain =
        Codec.decodeChunks source pieces c.inner ∧
      c.inflater.ready ++ out = pieces.flatten ++ (block.inflater.ready ++ left) ∧
      P block.inflater (block.input ++ later) left ∧
      block.inflater.history.size ≤
        n + pieces.flatten.length + block.inflater.ready.length ∧
      block.inflater.Halted ∧
      (block.plain.length < blockSize → block.inflater.ready = []) ∧
      (block.ended = true ↔ block.inflater.ready = [] ∧ block.inflater.stage = .ended) ∧
      (block.plain = [] →
        block.input = [] ∧ block.inflater.step = .starve ∨ block.ended = true) := by
  obtain ⟨block', hblock', takes, hnil, halted⟩ := nextBlock_course course h
  obtain rfl : block' = block := Option.some.inj (hblock'.symm.trans hblock)
  obtain ⟨left, hout, flows⟩ := takes.out
  obtain ⟨pieces, hpieces, hdecode⟩ := decodePlain_eq source c.inner block'.plain
  have size' := takes.size
  refine ⟨pieces, left, hdecode, by rw [hpieces, hout], flows, ?_, halted start, takes.room,
    takes.ended, hnil⟩
  rw [hpieces]
  omega

/-- Where the input ends, and the stream does not, nothing is ready and what was in the way of more
is a full window or a lack of bits. -/
theorem ends_last {i : Inflater} {left : Bytes}
    (hfirst : Codec.decodeChunks source first inner = (.ok more, inner'))
    (flows : P i later left) (ready : i.ready = []) (halted : i.Halted)
    (open_ : i.stage ≠ .ended) (size : i.history.size ≤ n + first.flatten.length + i.ready.length) :
    Ends P source later acc n inner (first.flatten ++ (i.ready ++ left))
      (.ok (more.reverseAux acc).reverse, { c with inner := inner', inflater := i }) := by
  have settled : i.WindowFull ∨ i.step = .starve := halted.imp_right fun h => h.resolve_right open_
  have packets : (more.reverseAux acc).reverse = acc.reverse ++ more := by simp
  rw [ready, List.length_nil, Nat.add_zero] at size
  rw [ready, List.nil_append, packets]
  exact .through hfirst rfl flows ready settled size

/-- The inner codec is given what the input stands for, however it comes. -/
theorem inflateAll_ends (course : Course P) (h : P c.inflater (input ++ later) out)
    (start : c.inflater.ready = [] ∨ c.inflater.Halted)
    (size : c.inflater.history.size ≤ n + c.inflater.ready.length) :
    Ends P source later acc n c.inner (c.inflater.ready ++ out) (c.inflateAll source input acc) := by
  -- The cases are those of one turn of the loop: a block fails, ends its stream, or does not.
  fun_induction inflateAll source c input acc generalizing out n with
  | case1 c input acc hblock =>
    obtain ⟨block, hblock', _⟩ := nextBlock_course course h
    rw [hblock] at hblock'
    cases hblock'
  | case2 c input acc block hblock e inner' hplain =>
    obtain ⟨pieces, left, hdecode, hdue, _⟩ := block_due course hblock h start size
    rw [hplain] at hdecode
    exact .broken hdecode.symm hdue
  | case3 c input acc block hblock more inner' hplain _ ended =>
    have last : block.input.isEmpty = true := by assumption
    obtain ⟨pieces, left, hdecode, hdue, flows, _, _, _, hended, _⟩ :=
      block_due course hblock h start size
    rw [hplain] at hdecode
    obtain ⟨ready, stage⟩ := hended.mp ended
    rw [List.isEmpty_iff.mp last] at flows
    rw [ready] at hdue
    rw [hdue]
    refine ends_last (i := {}) hdecode.symm (course.next flows stage) rfl (.inr (.inl ?_)) ?_ ?_
    · exact rest_starves rfl rfl
    · exact Stage.noConfusion
    · exact Nat.zero_le _
  | case4 c input acc block hblock more inner' hplain _ ended =>
    rename_i ih
    obtain ⟨pieces, left, hdecode, hdue, flows, _, _, _, hended, _⟩ :=
      block_due course hblock h start size
    rw [hplain] at hdecode
    obtain ⟨ready, stage⟩ := hended.mp ended
    rw [ready] at hdue
    rw [hdue]
    exact (ih (course.next flows stage) (.inl rfl) (Nat.zero_le _)).behind hdecode.symm
  | case5 c input acc block hblock more inner' hplain _ open_ =>
    have last : block.plain.length < blockSize ∧ block.input.isEmpty = true := by assumption
    obtain ⟨pieces, left, hdecode, hdue, flows, size', halted, room, hended, _⟩ :=
      block_due course hblock h start size
    rw [hplain] at hdecode
    rw [List.isEmpty_iff.mp last.2] at flows
    have ready := room last.1
    rw [hdue]
    exact ends_last hdecode.symm flows ready halted (fun stage => open_ (hended.mpr ⟨ready, stage⟩))
      size'
  | case6 c input acc block hblock more inner' hplain _ open_ =>
    have stuck : block.plain.isEmpty = true ∧ block.input.length = input.length := by assumption
    obtain ⟨pieces, left, hdecode, hdue, flows, size', halted, room, hended, hnil⟩ :=
      block_due course hblock h start size
    rw [hplain] at hdecode
    have empty : block.plain = [] := List.isEmpty_iff.mp stuck.1
    rw [((hnil empty).resolve_right open_).1] at flows
    have ready := room (by rw [empty]; decide)
    rw [hdue]
    exact ends_last hdecode.symm flows ready halted (fun stage => open_ (hended.mpr ⟨ready, stage⟩))
      size'
  | case7 c input acc block hblock more inner' hplain =>
    rename_i ih
    obtain ⟨pieces, left, hdecode, hdue, flows, size', halted, _⟩ := block_due course hblock h start size
    rw [hplain] at hdecode
    rw [hdue]
    exact (ih flows (.inr halted) size').behind hdecode.symm

/-- Pieces of the input one after the other. -/
theorem decodeChunks_ends (course : Course P) {pieces : List Bytes}
    (h : P c.inflater pieces.flatten out) (ready : c.inflater.ready = [])
    (settled : c.inflater.WindowFull ∨ c.inflater.step = .starve)
    (size : c.inflater.history.size ≤ n) :
    Ends P source [] [] n c.inner out (Codec.decodeChunks source pieces c) := by
  induction pieces generalizing c out n with
  | nil =>
    have none : Codec.decodeChunks source [] c.inner = (.ok [], c.inner) := rfl
    exact .through none rfl h ready settled size
  | cons piece pieces ih =>
    have first : Ends P source pieces.flatten [] n c.inner (c.inflater.ready ++ out)
        (c.inflateAll source piece []) :=
      inflateAll_ends course h (.inl ready) (by rwa [ready])
    rw [ready, List.nil_append] at first
    have hdecode : Codec.decode c source piece = c.inflateAll source piece [] := rfl
    generalize c.inflateAll source piece [] = r at first hdecode
    cases first with
    | broken herror hdue =>
      simp only [Codec.decodeChunks, hdecode]
      exact .broken herror hdue
    | @through taken held got c' hgot hdue flows ready' settled' size' =>
      have one : Codec.decodeChunks source [piece] c = (.ok got, c') :=
        (Codec.decodeChunks_singleton source piece c).trans hdecode
      have rest := (ih flows ready' settled' size').after got.reverse
      rw [← List.append_nil got.reverse, ← List.reverseAux_eq] at rest
      rw [← List.singleton_append, Codec.decodeChunks_append_of_ok one, hdue]
      simpa using rest.behind hgot

end Deflated

end Switchboard
