import Switchboard.Binary64

namespace Switchboard.Binary64

/-- The number `digits * 10 ^ exponent`. -/
structure Decimal where
  digits : Nat
  exponent : Int
  deriving DecidableEq, Repr

/-- The reals that round to a double, in quarters of its last place. -/
structure Reach where
  low : Nat
  value : Nat
  high : Nat
  closed : Bool
  exponent : Int

/-- The double below a power of two is only half as far away as the one above it. -/
def reach (x : Binary64) : Reach where
  low := if x.mantissa = Nat.pow 2 52 ∧ leastExponent < x.exponent then 4 * x.mantissa - 1
    else 4 * x.mantissa - 2
  value := 4 * x.mantissa
  high := 4 * x.mantissa + 2
  closed := x.mantissa % 2 == 0
  exponent := x.exponent - 2

/-- The weights of one step of the grid of powers `10 ^ g` and of one quarter of the last place,
on a common scale. -/
def weights (r : Reach) (g : Int) : Nat × Nat :=
  (Nat.pow 10 g.toNat * Nat.pow 2 (-r.exponent).toNat,
    Nat.pow 2 r.exponent.toNat * Nat.pow 10 (-g).toNat)

def Reach.contains (r : Reach) (g : Int) (d : Nat) : Bool :=
  let w := weights r g
  if r.closed then r.low * w.2 ≤ d * w.1 && d * w.1 ≤ r.high * w.2
  else r.low * w.2 < d * w.1 && d * w.1 < r.high * w.2

/-- The nearest point of the grid of `10 ^ g` that rounds to the double, if one does. -/
def onGrid? (r : Reach) (g : Int) : Option Nat :=
  let w := weights r g
  let below := r.value * w.2 / w.1
  let rest := r.value * w.2 % w.1
  match r.contains g below, r.contains g (below + 1) with
  | true, true =>
    if 2 * rest < w.1 then some below
    else if 2 * rest = w.1 then some (below + below % 2)
    else some (below + 1)
  | true, false => some below
  | false, true => some (below + 1)
  | false, false => none

def searchGrids (r : Reach) : (fuel : Nat) → (g : Int) → Decimal
  | 0, g => ⟨r.value, g⟩
  | fuel + 1, g => match onGrid? r g with
    | some d => ⟨d, g⟩
    | none => searchGrids r fuel (g - 1)

/-- The decimal with the fewest digits that reads back as the double, and of those the nearest:
the coarsest grid that holds a point of the reach gives it. -/
def shortest (x : Binary64) : Decimal :=
  if x.isZero then ⟨0, 0⟩
  else
    let bits : Int := x.mantissa.log2 + x.exponent + 1
    searchGrids x.reach 64 (Int.fdiv (bits * 30103) 100000 + 3)

end Switchboard.Binary64
