namespace Switchboard

/-- For each of the first prefixes of `pattern`, the length of its longest proper prefix that also
ends it. -/
structure BorderTable (α : Type) where
  pattern : Array α
  widths : Array Nat
  width_le : ∀ i, widths.getD i 0 ≤ i

namespace BorderTable

variable {α : Type} [DecidableEq α]

/-- The border of the prefix of length `i + 1`. -/
def width (t : BorderTable α) (i : Nat) : Nat := t.widths.getD i 0

/-- How much of the pattern is matched after `a`, when `depth` elements were matched before it:
shorter and shorter borders are tried until one goes on with `a`. -/
def advance (t : BorderTable α) (depth : Nat) (a : α) : Nat :=
  if t.pattern[depth]? = some a then depth + 1
  else if h : 0 < depth then
    have : t.width (depth - 1) < depth :=
      Nat.lt_of_le_of_lt (t.width_le (depth - 1)) (by omega)
    t.advance (t.width (depth - 1)) a
  else 0
termination_by depth

theorem advance_le (t : BorderTable α) (depth : Nat) (a : α) :
    t.advance depth a ≤ depth + 1 := by
  induction depth using Nat.strongRecOn with
  | ind depth ih =>
    unfold advance
    split
    · exact Nat.le_refl _
    · split
      · have hw : t.width (depth - 1) ≤ depth - 1 := t.width_le (depth - 1)
        have := ih (t.width (depth - 1)) (by omega)
        dsimp only
        omega
      · omega

/-- The entry after the last one, found from the entry before it. -/
def nextWidth (t : BorderTable α) : Nat :=
  match t.widths.size, t.pattern[t.widths.size]? with
  | i + 1, some a => t.advance (t.width i) a
  | _, _ => 0

theorem nextWidth_le (t : BorderTable α) : t.nextWidth ≤ t.widths.size := by
  unfold nextWidth
  split
  next i a hi _ =>
    have := t.advance_le (t.width i) a
    have hw : t.width i ≤ i := t.width_le i
    omega
  next => omega

def extend (t : BorderTable α) : BorderTable α where
  pattern := t.pattern
  widths := t.widths.push t.nextWidth
  width_le i := by
    simp only [Array.getD_eq_getD_getElem?, Array.getElem?_push]
    split
    next h => subst h; exact t.nextWidth_le
    next => simpa [Array.getD_eq_getD_getElem?] using t.width_le i

/-- The table of the first `n` prefixes. -/
def upTo (pattern : Array α) : (n : Nat) → BorderTable α
  | 0 => ⟨pattern, #[], by simp⟩
  | n + 1 => (upTo pattern n).extend

def ofPattern (pattern : List α) : BorderTable α :=
  upTo pattern.toArray pattern.length

end BorderTable

end Switchboard
