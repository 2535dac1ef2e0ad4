namespace Switchboard.Deflate

/-- Bits in the order in which they are read. -/
abbrev Bits := List Bool

def bitsOf (b : UInt8) : Bits := (List.range 8).map b.toNat.testBit

/-- What came of reading something from the bits at hand. -/
inductive Read (α : Type) where
  | ok (value : α) (rest : Bits)
  | short
  | fault

/-- A part of a compressed stream: how to read it from bits. -/
def Part (α : Type) : Type := Bits → Read α

namespace Part

variable {α β : Type}

def pure (a : α) : Part α := fun bits => .ok a bits

def bind (p : Part α) (f : α → Part β) : Part β := fun bits =>
  match p bits with
  | .ok a rest => f a rest
  | .short => .short
  | .fault => .fault

instance : Monad Part where
  pure := pure
  bind := bind

def fault : Part α := fun _ => .fault

def bit : Part Bool
  | [] => .short
  | b :: bits => .ok b bits

/-- A number of `n` bits, the lowest first. -/
def number : (n : Nat) → Part Nat
  | 0 => pure 0
  | n + 1 => do
    let low ← bit
    let high ← number n
    return low.toNat + 2 * high

/-- Skips to the next octet. -/
def align : Part Unit := fun bits => .ok () (bits.drop (bits.length % 8))

theorem bind_eq_ok {p : Part α} {f : α → Part β} {bits rest : Bits} {b : β}
    (h : (p >>= f) bits = .ok b rest) : ∃ a mid, p bits = .ok a mid ∧ f a mid = .ok b rest := by
  have h : (match p bits with
    | .ok a mid => f a mid
    | .short => .short
    | .fault => .fault) = Read.ok b rest := h
  cases hp : p bits with
  | ok a mid =>
    rw [hp] at h
    exact ⟨a, mid, rfl, h⟩
  | short =>
    rw [hp] at h
    cases h
  | fault =>
    rw [hp] at h
    cases h

theorem bind_of_ok {p : Part α} {f : α → Part β} {bits mid : Bits} {a : α}
    (h : p bits = .ok a mid) : (p >>= f) bits = f a mid := by
  show Part.bind p f bits = _
  rw [Part.bind, h]

theorem bind_eq_fault {p : Part α} {f : α → Part β} {bits : Bits}
    (h : (p >>= f) bits = .fault) :
    p bits = .fault ∨ ∃ a mid, p bits = .ok a mid ∧ f a mid = .fault := by
  have h : (match p bits with
    | .ok a mid => f a mid
    | .short => .short
    | .fault => .fault) = Read.fault := h
  cases hp : p bits with
  | ok a mid =>
    rw [hp] at h
    exact .inr ⟨a, mid, rfl, h⟩
  | short =>
    rw [hp] at h
    cases h
  | fault => exact .inl rfl

theorem bind_eq_short {p : Part α} {f : α → Part β} {bits : Bits}
    (h : (p >>= f) bits = .short) :
    p bits = .short ∨ ∃ a mid, p bits = .ok a mid ∧ f a mid = .short := by
  have h : (match p bits with
    | .ok a mid => f a mid
    | .short => .short
    | .fault => .fault) = Read.short := h
  cases hp : p bits with
  | ok a mid =>
    rw [hp] at h
    exact .inr ⟨a, mid, rfl, h⟩
  | short => exact .inl rfl
  | fault =>
    rw [hp] at h
    cases h

/-- What is read is read from the front, and octets that come behind it make no difference. Where
bits were missing, some of those that come are read. -/
structure Stable (p : Part α) : Prop where
  suffix : ∀ {bits rest a}, p bits = .ok a rest → rest <:+ bits
  ok : ∀ {bits rest a} (more : Bits), 8 ∣ more.length → p bits = .ok a rest →
    p (bits ++ more) = .ok a (rest ++ more)
  fault : ∀ {bits} (more : Bits), 8 ∣ more.length → p bits = .fault →
    p (bits ++ more) = .fault
  short : ∀ {bits rest a} (more : Bits), 8 ∣ more.length → p bits = .short →
    p (bits ++ more) = .ok a rest → rest.length < more.length

theorem Stable.pure (a : α) : Stable (Pure.pure a : Part α) := by
  have eq (bits) : (Pure.pure a : Part α) bits = .ok a bits := rfl
  refine ⟨fun h => ?_, fun more _ h => ?_, fun more _ h => ?_, fun more _ h => ?_⟩
  · cases h
    exact List.suffix_refl _
  · cases h
    exact eq _
  · cases h
  · cases h

theorem Stable.failure : Stable (Part.fault : Part α) :=
  ⟨fun h => (by cases h), fun _ _ h => (by cases h), fun _ _ _ => rfl, fun _ _ h => (by cases h)⟩

theorem Stable.bind {p : Part α} {f : α → Part β} (hp : Stable p) (hf : ∀ a, Stable (f a)) :
    Stable (p >>= f) := by
  refine ⟨fun h => ?_, fun more hmore h => ?_, fun more hmore h => ?_, fun more hmore h h' => ?_⟩
  · obtain ⟨a, mid, ha, hb⟩ := bind_eq_ok h
    exact ((hf a).suffix hb).trans (hp.suffix ha)
  · obtain ⟨a, mid, ha, hb⟩ := bind_eq_ok h
    rw [bind_of_ok (hp.ok more hmore ha)]
    exact (hf a).ok more hmore hb
  · rcases bind_eq_fault h with ha | ⟨a, mid, ha, hb⟩
    · show Part.bind p f _ = _
      rw [Part.bind, hp.fault more hmore ha]
    · rw [bind_of_ok (hp.ok more hmore ha)]
      exact (hf a).fault more hmore hb
  · rcases bind_eq_short h with ha | ⟨a, mid, ha, hb⟩
    · obtain ⟨a, mid, ha', hb⟩ := bind_eq_ok h'
      exact Nat.lt_of_le_of_lt ((hf a).suffix hb).length_le (hp.short more hmore ha ha')
    · rw [bind_of_ok (hp.ok more hmore ha)] at h'
      exact (hf a).short more hmore hb h'

theorem Stable.map {p : Part α} (f : α → β) (hp : Stable p) : Stable (f <$> p) :=
  hp.bind fun a => .pure (f a)

theorem Stable.bit : Stable bit := by
  refine ⟨?_, ?_, ?_, ?_⟩
  · rintro (_ | ⟨b, bits⟩) rest a h
    · cases h
    · cases h
      exact List.suffix_cons ..
  · rintro (_ | ⟨b, bits⟩) rest a more _ h
    · cases h
    · cases h
      rfl
  · rintro (_ | ⟨b, bits⟩) more _ h <;> cases h
  · rintro (_ | ⟨b, bits⟩) rest a more _ h h'
    · cases more <;> cases h'
      exact Nat.lt_succ_self _
    · cases h

theorem Stable.number (n : Nat) : Stable (number n) := by
  induction n with
  | zero => exact .pure 0
  | succ n ih => exact Stable.bit.bind fun low => ih.bind fun high => .pure _

theorem bit_length {b : Bool} {bits rest : Bits} (h : bit bits = .ok b rest) :
    rest.length + 1 = bits.length := by
  cases bits with
  | nil => cases h
  | cons =>
    cases h
    rfl

theorem number_length {n a : Nat} {bits rest : Bits} (h : number n bits = .ok a rest) :
    rest.length + n = bits.length := by
  induction n generalizing a bits with
  | zero =>
    cases h
    rfl
  | succ n ih =>
    obtain ⟨low, mid, hlow, h⟩ := bind_eq_ok h
    obtain ⟨high, last, hhigh, hrest⟩ := bind_eq_ok h
    cases hrest
    rw [← bit_length hlow, ← ih hhigh]
    rfl

theorem Stable.align : Stable align := by
  refine ⟨fun h => ?_, fun {bits rest _} more hmore h => ?_, fun _ _ h => (by cases h),
    fun _ _ h => (by cases h)⟩
  · cases h
    exact List.drop_suffix _ _
  · cases h
    have same : (bits ++ more).length % 8 = bits.length % 8 := by
      rw [List.length_append]
      omega
    rw [Part.align, same, List.drop_append_of_le_length (Nat.mod_le ..)]

end Part

/-- A prefix code as a tree: a zero leads left, and a place without a symbol leads nowhere. -/
inductive Code where
  | none
  | symbol (n : Nat)
  | fork (zero one : Code)
  deriving Repr

namespace Code

/-- Gives the word `bits` to `n`. -/
def insert (n : Nat) : Bits → Code → Code
  | [], _ => .symbol n
  | b :: bits, c =>
    let (zero, one) := match c with
      | .fork zero one => (zero, one)
      | _ => (.none, .none)
    if b then .fork zero (insert n bits one) else .fork (insert n bits zero) one

def walk : Code → Part Nat
  | .none => Part.fault
  | .symbol n => pure n
  | .fork zero one => do
    if ← Part.bit then one.walk else zero.walk

/-- Reads one symbol, which takes at least a bit. -/
def read (c : Code) : Part Nat := do
  let b ← Part.bit
  match c with
  | .fork zero one => if b then one.walk else zero.walk
  | _ => Part.fault

theorem walk_stable (c : Code) : Part.Stable c.walk := by
  induction c with
  | none => exact .failure
  | symbol n => exact .pure n
  | fork zero one hzero hone =>
    refine Part.Stable.bit.bind fun b => ?_
    cases b
    · exact hzero
    · exact hone

theorem read_stable (c : Code) : Part.Stable c.read := by
  refine Part.Stable.bit.bind fun b => ?_
  cases c with
  | none => exact .failure
  | symbol n => exact .failure
  | fork zero one =>
    cases b
    · exact zero.walk_stable
    · exact one.walk_stable

theorem read_length {c : Code} {n : Nat} {bits rest : Bits} (h : c.read bits = .ok n rest) :
    rest.length < bits.length := by
  obtain ⟨b, mid, hb, h⟩ := Part.bind_eq_ok h
  have hmid := Part.bit_length hb
  cases c with
  | none => cases h
  | symbol n => cases h
  | fork zero one =>
    have hrest : rest.length ≤ mid.length := by
      cases b
      · exact (zero.walk_stable.suffix h).length_le
      · exact (one.walk_stable.suffix h).length_le
    omega

/-- The `width` lowest bits of a number, the highest of them first. -/
def word (width n : Nat) : Bits := ((List.range width).map n.testBit).reverse

/-- Gives consecutive words of one width to the symbols of that width, and the word after the
last one. -/
def assign (lengths : List (Nat × Nat)) (width : Nat) (c : Code) (next : Nat) : Code × Nat :=
  lengths.foldl (fun s l => if l.2 = width then (s.1.insert l.1 (word width s.2), s.2 + 1) else s)
    (c, next)

/-- The longest word of a code. -/
def maxWidth : Nat := 15

/-- The code in which symbol `n` has a word of `lengths[n]` bits, shorter words and smaller symbols
first; no bits mean no word. -/
def ofLengths (lengths : List Nat) : Code :=
  let numbered := lengths.zipIdx.map fun l => (l.2, l.1)
  ((List.range maxWidth).foldl
    (fun s i => let t := assign numbered (i + 1) s.1 s.2; (t.1, t.2 * 2)) (.none, 0)).1

/-- Whether every sequence of bits has a prefix in the code, and no two words collide. -/
def isComplete (lengths : List Nat) : Bool :=
  (lengths.filter (0 < ·)).foldr (fun l n => Nat.pow 2 (maxWidth - l) + n) 0 == Nat.pow 2 maxWidth

/-- A code may also have no word, or a single word, which is then one bit long. -/
def isUsable (lengths : List Nat) : Bool :=
  match lengths.filter (0 < ·) with
  | [] => true
  | [width] => width == 1
  | _ => isComplete lengths

end Code

end Switchboard.Deflate
