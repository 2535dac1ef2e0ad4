import Switchboard.Binary64
import Switchboard.Table

namespace Switchboard

/-- A number of a JSON text: a whole one from 0 to `2 ^ 64 - 1`, a negative one down to `-2 ^ 63`,
held as its distance below `-1`, or a double. -/
inductive JsonNumber where
  | natural (n : UInt64)
  | negative (below : Fin 9223372036854775808)
  | double (x : Binary64)
  deriving DecidableEq, Repr

namespace JsonNumber

/-- Numbers of different kinds are different, even `1` and `1.0`. -/
def same : JsonNumber → JsonNumber → Bool
  | natural m, natural n => m == n
  | negative m, negative n => m == n
  | double x, double y => x.same y
  | _, _ => false

theorem same_self (n : JsonNumber) : n.same n := by
  cases n <;> simp [same, Binary64.same_self]

theorem same_symm {m n : JsonNumber} (h : m.same n) : n.same m := by
  cases m <;> cases n <;> simp only [same, Bool.false_eq_true, beq_iff_eq] at h ⊢
  · exact h.symm
  · exact h.symm
  · exact Binary64.same_symm h

theorem same_trans {m n o : JsonNumber} (h : m.same n) (h' : n.same o) : m.same o := by
  cases m <;> cases n <;> cases o <;>
    simp only [same, Bool.false_eq_true, beq_iff_eq] at h h' ⊢
  · exact h.trans h'
  · exact h.trans h'
  · exact Binary64.same_trans h h'

end JsonNumber

/-- A JSON value. The fields of an object stand in the order of their names, each name once. -/
inductive Json where
  | null
  | bool (b : Bool)
  | num (n : JsonNumber)
  | str (s : String)
  | arr (items : List Json)
  | obj (fields : List (String × Json))
  deriving Repr

instance : Inhabited Json := ⟨.null⟩

namespace Json

mutual

def same : Json → Json → Bool
  | null, null => true
  | bool a, bool b => a == b
  | num m, num n => m.same n
  | str s, str t => s == t
  | arr xs, arr ys => sameItems xs ys
  | obj fs, obj gs => sameFields fs gs
  | _, _ => false

def sameItems : List Json → List Json → Bool
  | [], [] => true
  | x :: xs, y :: ys => same x y && sameItems xs ys
  | _, _ => false

def sameFields : List (String × Json) → List (String × Json) → Bool
  | [], [] => true
  | (k, x) :: fs, (l, y) :: gs => k == l && same x y && sameFields fs gs
  | _, _ => false

end

instance : BEq Json := ⟨same⟩

mutual

theorem same_self : (j : Json) → j.same j = true
  | null => by simp [same]
  | bool b => by simp [same]
  | num n => by simp [same, n.same_self]
  | str s => by simp [same]
  | arr xs => by simp [same, sameItems_self xs]
  | obj fs => by simp [same, sameFields_self fs]

theorem sameItems_self : (xs : List Json) → sameItems xs xs = true
  | [] => by simp [sameItems]
  | x :: xs => by simp [sameItems, same_self x, sameItems_self xs]

theorem sameFields_self : (fs : List (String × Json)) → sameFields fs fs = true
  | [] => by simp [sameFields]
  | (k, x) :: fs => by simp [sameFields, same_self x, sameFields_self fs]

end

mutual

theorem same_symm : (i j : Json) → i.same j = true → j.same i = true
  | i, j, h => by
    cases i <;> cases j <;> simp only [same, Bool.false_eq_true, beq_iff_eq] at h ⊢
    case bool.bool => exact h.symm
    case num.num => exact JsonNumber.same_symm h
    case str.str => exact h.symm
    case arr.arr xs ys => exact sameItems_symm xs ys h
    case obj.obj fs gs => exact sameFields_symm fs gs h

theorem sameItems_symm : (xs ys : List Json) → sameItems xs ys = true → sameItems ys xs = true
  | [], [], _ => rfl
  | x :: xs, y :: ys, h => by
    simp only [sameItems, Bool.and_eq_true] at h ⊢
    exact ⟨same_symm x y h.1, sameItems_symm xs ys h.2⟩

theorem sameFields_symm : (fs gs : List (String × Json)) → sameFields fs gs = true →
    sameFields gs fs = true
  | [], [], _ => rfl
  | (k, x) :: fs, (l, y) :: gs, h => by
    simp only [sameFields, Bool.and_eq_true, beq_iff_eq] at h ⊢
    exact ⟨⟨h.1.1.symm, same_symm x y h.1.2⟩, sameFields_symm fs gs h.2⟩

end

mutual

theorem same_trans : (i j k : Json) → i.same j = true → j.same k = true → i.same k = true
  | i, j, k, h, h' => by
    cases i <;> cases j <;> simp only [same, Bool.false_eq_true] at h <;>
      cases k <;> simp only [same, Bool.false_eq_true, beq_iff_eq] at h h' ⊢
    case bool.bool.bool => exact h.trans h'
    case num.num.num => exact JsonNumber.same_trans h h'
    case str.str.str => exact h.trans h'
    case arr.arr.arr xs ys zs => exact sameItems_trans xs ys zs h h'
    case obj.obj.obj fs gs hs => exact sameFields_trans fs gs hs h h'

theorem sameItems_trans : (xs ys zs : List Json) → sameItems xs ys = true →
    sameItems ys zs = true → sameItems xs zs = true
  | [], [], [], _, _ => rfl
  | x :: xs, y :: ys, z :: zs, h, h' => by
    simp only [sameItems, Bool.and_eq_true] at h h' ⊢
    exact ⟨same_trans x y z h.1 h'.1, sameItems_trans xs ys zs h.2 h'.2⟩

theorem sameFields_trans : (fs gs hs : List (String × Json)) → sameFields fs gs = true →
    sameFields gs hs = true → sameFields fs hs = true
  | [], [], [], _, _ => rfl
  | (k, x) :: fs, (l, y) :: gs, (m, z) :: hs, h, h' => by
    simp only [sameFields, Bool.and_eq_true, beq_iff_eq] at h h' ⊢
    exact ⟨⟨h.1.1.trans h'.1.1, same_trans x y z h.1.2 h'.1.2⟩, sameFields_trans fs gs hs h.2 h'.2⟩

end

instance : ReflBEq Json := ⟨same_self _⟩

instance : EquivBEq Json where
  symm := same_symm _ _
  trans := same_trans _ _ _

/-- The object with these fields; of two with one name the later stays. -/
def ofFields (fields : List (String × Json)) : Json :=
  obj (fields.foldl (fun fs f => Table.insertEntry f.1 f.2 fs) [])

def field? (name : String) : Json → Option Json
  | obj fs => fs.lookup name
  | _ => none

def ofNat (n : Nat) : Json := num (.natural (UInt64.ofNat n))

end Json

end Switchboard
