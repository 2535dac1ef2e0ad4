namespace Switchboard

/-- A finite double: its value is `mantissa * 2 ^ exponent` with the sign in front. The mantissa
stays below `2 ^ 53` and fills that range unless the exponent is the least one. -/
structure Binary64 where
  negative : Bool
  mantissa : Nat
  exponent : Int
  deriving DecidableEq, Repr

namespace Binary64

def leastExponent : Int := -1074

def greatestExponent : Int := 971

def zero : Binary64 := ⟨false, 0, leastExponent⟩

def isZero (x : Binary64) : Bool := x.mantissa == 0

/-- Equal as numbers: the two zeros are one number. -/
def same (x y : Binary64) : Bool := x == y || (x.isZero && y.isZero)

theorem same_self (x : Binary64) : x.same x := by simp [same]

theorem same_iff {x y : Binary64} : x.same y ↔ x = y ∨ (x.isZero ∧ y.isZero) := by
  simp [same]

theorem same_symm {x y : Binary64} (h : x.same y) : y.same x := by
  rcases same_iff.1 h with rfl | ⟨hx, hy⟩
  · exact same_self x
  · exact same_iff.2 (.inr ⟨hy, hx⟩)

theorem same_trans {x y z : Binary64} (h : x.same y) (h' : y.same z) : x.same z := by
  rcases same_iff.1 h with rfl | ⟨hx, hy⟩
  · exact h'
  · rcases same_iff.1 h' with rfl | ⟨_, hz⟩
    · exact h
    · exact same_iff.2 (.inr ⟨hx, hz⟩)

/-- `x / y` to the nearest whole number, halves to the even neighbour. -/
def roundDiv (x y : Nat) : Nat :=
  let q := x / y
  let r := x % y
  if 2 * r < y then q
  else if 2 * r = y then q + q % 2
  else q + 1

/-- The numerator and denominator of `n * 2 ^ e`. -/
def scaled (n : Nat) (e : Int) : Nat × Nat := (n * Nat.pow 2 e.toNat, Nat.pow 2 (-e).toNat)

/-- The exponent at which `num / den` has a mantissa of 53 bits, or the least one. -/
def exponentFor (num den : Nat) : Int :=
  let guess : Int := (num.log2 : Int) - den.log2 - 52
  let top := scaled (Nat.pow 2 52) guess
  let fit := if num * top.2 < top.1 * den then guess - 1 else guess
  max fit leastExponent

/-- The double nearest to `num / den`, or nothing when it is past the greatest one. -/
def ofRatio? (num den : Nat) : Option Binary64 :=
  if num = 0 then some zero
  else
    let e := exponentFor num den
    let m := roundDiv (num * Nat.pow 2 (-e).toNat) (den * Nat.pow 2 e.toNat)
    let x : Binary64 := if m = Nat.pow 2 53 then ⟨false, Nat.pow 2 52, e + 1⟩ else ⟨false, m, e⟩
    if greatestExponent < x.exponent then none else some x

def ofNat? (n : Nat) : Option Binary64 := ofRatio? n 1

def neg (x : Binary64) : Binary64 := { x with negative := !x.negative }

/-- The product of two doubles that are not negative. -/
def mul? (x y : Binary64) : Option Binary64 :=
  let p := scaled (x.mantissa * y.mantissa) (x.exponent + y.exponent)
  ofRatio? p.1 p.2

/-- The quotient of two doubles that are not negative, the second not zero. -/
def div? (x y : Binary64) : Option Binary64 :=
  let p := scaled x.mantissa (x.exponent - y.exponent)
  ofRatio? p.1 (p.2 * y.mantissa)

end Binary64

end Switchboard
