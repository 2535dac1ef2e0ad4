import Switchboard.Deflate.Compressor

namespace Switchboard.Deflate

namespace Inflater

variable {i j k next : Inflater} {b : UInt8} {y later coming input out : Bytes}

def Step.map (f : Inflater → Inflater) : Step → Step
  | .move next => .move (f next)
  | .write b next => .write b (f next)
  | s => s

/-- The inflater with all that comes already at hand; nothing it has written waits to be handed
on. -/
def ahead (i : Inflater) (coming : Bytes) : Inflater :=
  { i with bits := i.bits ++ coming.flatMap bitsOf, ready := [] }

def wrote (i : Inflater) (b : UInt8) : Inflater := { i with history := i.history.push b }

def pull (i : Inflater) (b : UInt8) : Inflater := { i with bits := i.bits ++ bitsOf b }

theorem octets (bytes : Bytes) : 8 ∣ (bytes.flatMap bitsOf).length := by
  have : (bytes.flatMap bitsOf).length = 8 * bytes.length := by
    induction bytes with
    | nil => rfl
    | cons b bytes ih =>
      rw [List.flatMap_cons, List.length_append, ih, length_bitsOf, List.length_cons]
      omega
  exact ⟨_, this⟩

theorem ahead_ahead (i : Inflater) (y later : Bytes) :
    (i.ahead y).ahead later = i.ahead (y ++ later) := by
  simp [ahead]

theorem pull_ahead (i : Inflater) (b : UInt8) (coming : Bytes) :
    (i.pull b).ahead coming = i.ahead (b :: coming) := by
  simp [ahead, pull]

/-- What an inflater does it also does when it has more at hand. -/
theorem step_ahead (i : Inflater) (coming : Bytes) (h : i.step ≠ .starve) :
    (i.ahead coming).step = i.step.map (·.ahead coming) := by
  have hlen := octets coming
  obtain ⟨bits, stage, history, ready⟩ := i
  cases stage with
  | header =>
    simp only [step] at h ⊢
    cases hr : readHeader bits with
    | ok header rest =>
      have more := readHeader_stable.ok _ hlen hr
      obtain ⟨last, body⟩ := header
      cases body <;> simp [ahead, more, Step.map]
    | short => simp [hr] at h
    | fault =>
      have more := readHeader_stable.fault _ hlen hr
      simp [ahead, more, Step.map]
  | stored left last =>
    simp only [step] at h ⊢
    cases hr : Part.number 8 bits with
    | ok n rest =>
      have more := (Part.Stable.number 8).ok _ hlen hr
      simp [ahead, more, Step.map]
    | short => simp [hr] at h
    | fault =>
      have more := (Part.Stable.number 8).fault _ hlen hr
      simp [ahead, more, Step.map]
  | coded ls ds last =>
    simp only [step] at h ⊢
    cases hr : readToken ls ds bits with
    | ok token rest =>
      have more := (readToken_stable ls ds).ok _ hlen hr
      cases token <;> simp [ahead, more, Step.map]
    | short => simp [hr] at h
    | fault =>
      have more := (readToken_stable ls ds).fault _ hlen hr
      simp [ahead, more, Step.map]
  | literal | copy | ended | corrupt => simp [step, ahead, Step.map, lookBack]

theorem ahead_moves (h : i.step = .move next) (coming : Bytes) :
    (i.ahead coming).step = .move (next.ahead coming) := by
  rw [step_ahead i coming (by simp [h]), h]
  rfl

theorem ahead_writes (h : i.step = .write b next) (coming : Bytes) :
    (i.ahead coming).step = .write b (next.ahead coming) := by
  rw [step_ahead i coming (by simp [h]), h]
  rfl

theorem step_ahead_nil (h : i.step = .starve) : (i.ahead []).step = .starve := by
  obtain ⟨bits, stage, history, ready⟩ := i
  cases stage with
  | header | stored | coded =>
    simp only [step, ahead, List.flatMap_nil, List.append_nil] at h ⊢
    split at h <;> simp_all
  | literal | copy | ended | corrupt => simp [step] at h

/-- The moves of an inflater and what it writes meanwhile, with the bits it has at hand. -/
inductive Trace : Inflater → Bytes → Inflater → Prop
  | stop (i : Inflater) : Trace i [] i
  | move {i next k : Inflater} {out : Bytes} : i.step = .move next → Trace next out k →
      Trace i out k
  | write {i next k : Inflater} {b : UInt8} {out : Bytes} : i.step = .write b next →
      Trace (next.wrote b) out k → Trace i (b :: out) k

/-- The octets of an empty block behind its header, which start on an octet: its length, and the
complement of that. -/
def emptyLength : Bytes := word16 0 ++ word16 0xFFFF

/-- Nothing but the end of an empty block comes. -/
def Closes (i : Inflater) (coming : Bytes) : Prop :=
  i.stage = .header ∧ readHeader (i.ahead coming).bits = .ok ⟨false, .stored 0⟩ []

theorem Closes.starves (h : i.Closes coming) (ne : coming ≠ []) : i.step = .starve := by
  obtain ⟨hs, hr⟩ := h
  have hlen := octets coming
  have long : coming.flatMap bitsOf ≠ [] := by
    cases coming with
    | nil => exact absurd rfl ne
    | cons b coming => simp [bitsOf]
  simp only [step, hs]
  cases hb : readHeader i.bits with
  | ok header rest =>
    have hr : readHeader (i.bits ++ coming.flatMap bitsOf) = .ok ⟨false, .stored 0⟩ [] := hr
    rw [readHeader_stable.ok _ hlen hb] at hr
    have none : rest ++ coming.flatMap bitsOf = [] := by
      injection hr
    exact absurd (List.append_eq_nil_iff.mp none).2 long
  | short => rfl
  | fault =>
    have hr : readHeader (i.bits ++ coming.flatMap bitsOf) = .ok ⟨false, .stored 0⟩ [] := hr
    rw [readHeader_stable.fault _ hlen hb] at hr
    cases hr

theorem Closes.moves (h : i.Closes []) :
    i.step = .move { i with bits := [], stage := .header } := by
  obtain ⟨hs, hr⟩ := h
  have hr : readHeader i.bits = .ok ⟨false, .stored 0⟩ [] := by
    simpa [ahead] using hr
  simp [step, hs, hr, afterBlock]

/-- Neither a move nor an octet to write is at hand. -/
def AtRest (i : Inflater) : Prop :=
  (∀ next, i.step ≠ .move next) ∧ ∀ b next, i.step ≠ .write b next

theorem atRest_of_starve (h : i.step = .starve) : i.AtRest := by simp [AtRest, h]

theorem atRest_of_finish (h : i.step = .finish) : i.AtRest := by simp [AtRest, h]

theorem atRest_of_fail (h : i.step = .fail) : i.AtRest := by simp [AtRest, h]

theorem Trace.of_move (t : Trace i out k) (rest : k.AtRest) (h : i.step = .move next) :
    Trace next out k := by
  cases t with
  | stop => exact absurd h (rest.1 next)
  | move h' t =>
    rw [h] at h'
    cases h'
    exact t
  | write h' =>
    rw [h] at h'
    cases h'

theorem Trace.of_write (t : Trace i out k) (rest : k.AtRest) (h : i.step = .write b next) :
    ∃ left, out = b :: left ∧ Trace (next.wrote b) left k := by
  cases t with
  | stop => exact absurd h (rest.2 b next)
  | move h' =>
    rw [h] at h'
    cases h'
  | write h' t =>
    rw [h] at h'
    cases h'
    exact ⟨_, rfl, t⟩

theorem Trace.of_rest (t : Trace i out k) (rest : i.AtRest) : out = [] ∧ i = k := by
  cases t with
  | stop => exact ⟨rfl, rfl⟩
  | move h => exact absurd h (rest.1 _)
  | write h => exact absurd h (rest.2 _ _)

/-- What an inflater writes on its way to `k`, with the octets that come at hand. -/
def Toward (k i : Inflater) (coming out : Bytes) : Prop := Trace (i.ahead coming) out k

theorem Toward.move (h : Toward k i coming out) (rest : k.AtRest) (hstep : i.step = .move next) :
    Toward k next coming out :=
  Trace.of_move h rest (ahead_moves hstep coming)

theorem Toward.write (h : Toward k i coming out) (rest : k.AtRest)
    (hstep : i.step = .write b next) :
    ∃ left, out = b :: left ∧ Toward k (next.wrote b) coming left :=
  Trace.of_write h rest (ahead_writes hstep coming)

/-- An inflater that cannot go on has arrived. -/
theorem Toward.arrived (h : Toward k i coming out) (hstep : i.step = .fail ∨ i.step = .finish) :
    out = [] ∧ k = i.ahead coming ∧ k.step = i.step := by
  have same : (i.ahead coming).step = i.step := by
    rw [step_ahead i coming (by rcases hstep with h | h <;> simp [h])]
    rcases hstep with h | h <;> rw [h] <;> rfl
  have rests : (i.ahead coming).AtRest := by
    rw [← same] at hstep
    exact hstep.elim atRest_of_fail atRest_of_finish
  obtain ⟨none, rfl⟩ := Trace.of_rest h rests
  exact ⟨none, rfl, same⟩

theorem Toward.pull (h : Toward k i (b :: coming) out) : Toward k (i.pull b) coming out := by
  rwa [Toward, pull_ahead]

/-- An inflater that is to write `out` when `coming` comes, the end of which is the end of an empty
block and stands for nothing. -/
inductive Along : Inflater → (coming out : Bytes) → Prop
  | body {i k : Inflater} {y out : Bytes} : Trace (i.ahead y) out k → k.Closes emptyLength →
      Along i (y ++ emptyLength) out
  | mark {i : Inflater} {coming : Bytes} : i.Closes coming → Along i coming []
  | rest {i : Inflater} : i.stage = .header → i.bits = [] → Along i [] []

theorem rest_starves (hs : i.stage = .header) (hb : i.bits = []) : i.step = .starve := by
  simp only [step, hs, hb]
  rfl

theorem Along.move (h : Along i coming out) (hstep : i.step = .move next) :
    Along next coming out := by
  cases h with
  | @body k y _ trace closes =>
    exact .body (Toward.move trace (atRest_of_starve (closes.starves (by decide))) hstep) closes
  | mark closes =>
    -- Only with the whole of the empty block at hand is there a move, to behind it.
    by_cases hc : coming = []
    · subst hc
      rw [closes.moves] at hstep
      cases hstep
      exact .rest rfl rfl
    · rw [closes.starves hc] at hstep
      cases hstep
  | rest hs hb =>
    rw [rest_starves hs hb] at hstep
    cases hstep

theorem Along.write (h : Along i coming out) (hstep : i.step = .write b next) :
    ∃ rest, out = b :: rest ∧ Along (next.wrote b) coming rest := by
  cases h with
  | @body k y _ trace closes =>
    have rests : k.AtRest := atRest_of_starve (closes.starves (by decide))
    obtain ⟨rest, hout, left⟩ := Toward.write trace rests hstep
    exact ⟨rest, hout, .body left closes⟩
  | mark closes =>
    by_cases hc : coming = []
    · subst hc
      rw [closes.moves] at hstep
      cases hstep
    · rw [closes.starves hc] at hstep
      cases hstep
  | rest hs hb =>
    rw [rest_starves hs hb] at hstep
    cases hstep

theorem Along.sound (h : Along i coming out) : i.step ≠ .fail ∧ i.step ≠ .finish := by
  cases h with
  | @body k y _ trace closes =>
    have stuck (hstep : i.step = .fail ∨ i.step = .finish) : False := by
      have same := (Toward.arrived trace hstep).2.2
      rw [closes.starves (by decide)] at same
      rcases hstep with h | h <;> simp [h] at same
    exact ⟨fun h => stuck (.inl h), fun h => stuck (.inr h)⟩
  | mark closes =>
    by_cases hc : coming = []
    · subst hc
      simp [closes.moves]
    · simp [closes.starves hc]
  | rest hs hb => simp [rest_starves hs hb]

theorem Along.pull (h : Along i (b :: coming) out) (hstep : i.step = .starve) :
    Along (i.pull b) coming out := by
  generalize hall : b :: coming = all at h
  cases h with
  | @body k y _ trace closes =>
    cases y with
    | nil =>
      have still := step_ahead_nil hstep
      obtain ⟨rfl, rfl⟩ := trace.of_rest (atRest_of_starve still)
      refine .mark ⟨closes.1, ?_⟩
      rw [pull_ahead, hall, List.nil_append, ← closes.2, ahead_ahead]
      rfl
    | cons b' y =>
      cases hall
      exact .body (Toward.pull trace) closes
  | mark closes =>
    subst hall
    exact .mark ⟨closes.1, (congrArg (fun i => readHeader (bits i)) (i.pull_ahead b coming)).trans
      closes.2⟩
  | rest => cases hall

theorem Along.done (h : Along i coming out) (hc : coming = []) : out = [] := by
  cases h with
  | body => exact absurd (List.append_eq_nil_iff.mp hc).2 (by decide)
  | mark => rfl
  | rest => rfl

theorem Along.with_ready (h : Along i coming out) (ready : Bytes) :
    Along { i with ready } coming out := by
  cases h with
  | body trace closes => exact .body trace closes
  | mark closes => exact .mark closes
  | rest hs hb => exact .rest hs hb

theorem Along.not_ended (h : Along i coming out) : i.stage ≠ .ended := by
  intro hs
  exact h.sound.2 (by simp [step, hs])

end Inflater

end Switchboard.Deflate
