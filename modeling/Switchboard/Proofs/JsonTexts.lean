import Mathlib
import Switchboard.Json.Parser
import Switchboard.Json.Printer
import Switchboard.Proofs.JsonReadBack
import Switchboard.Text.Blank

namespace Switchboard

namespace Json

mutual

/-- No number in it is a double. -/
def Exact : Json → Prop
  | num (.double _) => False
  | arr items => ExactItems items
  | obj fields => ExactFields fields
  | _ => True

def ExactItems : List Json → Prop
  | [] => True
  | j :: js => j.Exact ∧ ExactItems js

def ExactFields : List (String × Json) → Prop
  | [] => True
  | (_, j) :: fs => j.Exact ∧ ExactFields fs

end

/-- How a character may be written in a string: by the letter of an escape, by its number, or as it
is. -/
inductive Written (c : Char) : List Char → Prop
  | letter {e : Char} (short : e ≠ 'u') (printed : 0x20 ≤ e.toNat)
      (means : Document.simpleEscape? e = some c) : Written c ['\\', e]
  | number (control : c.toNat < 0x20) : Written c (['\\', 'u', '0', '0'] ++ hexPair c.toNat)
  | plain (quote : c ≠ '"') (escape : c ≠ '\\') (printed : ¬c.toNat < 0x20) : Written c [c]

theorem escapeChar_written (c : Char) : Written c (escapeChar c) := by
  unfold escapeChar
  split_ifs with quote escape back feed newline carriage tab control
  · exact .letter (by decide) (by decide) (by rw [quote]; rfl)
  · exact .letter (by decide) (by decide) (by rw [escape]; rfl)
  · exact .letter (by decide) (by decide) (back ▸ rfl)
  · exact .letter (by decide) (by decide) (feed ▸ rfl)
  · exact .letter (by decide) (by decide) (newline ▸ rfl)
  · exact .letter (by decide) (by decide) (carriage ▸ rfl)
  · exact .letter (by decide) (by decide) (tab ▸ rfl)
  · exact .number control
  · exact .plain quote escape control

end Json

/-! ## Numbers -/

namespace Numeral

variable {s n x : Nat} {xs ys : List Nat}

theorem accumulate_taken (h : s * 10 + x < UInt64.size) :
    accumulate s (x :: xs) = accumulate (s * 10 + x) xs := if_pos h

theorem accumulate_left (h : ¬s * 10 + x < UInt64.size) : accumulate s (x :: xs) = (s, x :: xs) :=
  if_neg h

theorem accumulate_append (h : accumulate s xs = (n, [])) :
    accumulate s (xs ++ ys) = accumulate n ys := by
  induction xs generalizing s with
  | nil =>
    obtain ⟨rfl, _⟩ := Prod.mk.inj h
    rfl
  | cons x xs ih =>
    by_cases fits : s * 10 + x < UInt64.size
    · rw [accumulate_taken fits] at h
      rw [List.cons_append, accumulate_taken fits, ih h]
    · rw [accumulate_left fits] at h
      cases h

theorem digitValue_digitChar (h : n < 10) : Document.digitValue (Nat.digitChar n) = n := by
  rw [Document.digitValue, Nat.toNat_digitChar_of_lt_ten h]
  exact Nat.add_sub_cancel_left ..

/-- The digits of a number that 64 bits hold give the number. -/
theorem accumulate_toDigits (h : n < UInt64.size) :
    accumulate 0 ((Nat.toDigits 10 n).map Document.digitValue) = (n, []) := by
  induction n using Nat.strongRecOn with
  | ind n ih =>
    by_cases small : n < 10
    · have whole : 0 * 10 + n = n := by omega
      rw [Nat.toDigits_of_lt_base small, List.map_singleton, digitValue_digitChar small,
        accumulate_taken (by rwa [whole]), whole]
      rfl
    · have rest := ih (n / 10) (by omega) (by omega)
      have whole : n / 10 * 10 + n % 10 = n := Nat.div_add_mod' n 10
      rw [Nat.toDigits_of_base_le (by decide) (Nat.not_lt.mp small), List.map_append,
        accumulate_append rest, List.map_singleton, digitValue_digitChar (Nat.mod_lt n (by decide)),
        accumulate_taken (by rwa [whole]), whole]
      rfl

end Numeral

namespace Document

variable {n fuel : Nat} {rest : List Char}

/-- Nothing that would go on with a number: the end, or what stands behind a value in an array or an
object. -/
def Closes (rest : List Char) : Prop := ∀ c ∈ rest.head?, c = ',' ∨ c = ']' ∨ c = '}'

theorem closes_nil : Closes [] := by simp [Closes]

theorem closes_cons {c : Char} {cs : List Char} :
    Closes (c :: cs) ↔ c = ',' ∨ c = ']' ∨ c = '}' := by
  simp [Closes]

theorem Closes.not_digit (h : Closes rest) : rest.takeWhile Char.isDigit = [] := by
  cases rest with
  | nil => rfl
  | cons c cs =>
    rcases closes_cons.mp h with rfl | rfl | rfl <;> rfl

theorem scanDigits_append {ds : List Char} (nonempty : ds ≠ []) (digits : ∀ c ∈ ds, c.isDigit)
    (h : Closes rest) : scanDigits (ds ++ rest) = some (ds.map digitValue, rest) := by
  have stop : rest.dropWhile Char.isDigit = rest := by
    have parts := List.takeWhile_append_dropWhile (p := Char.isDigit) (l := rest)
    rwa [h.not_digit] at parts
  rw [scanDigits, List.span_eq_takeWhile_dropWhile, List.takeWhile_append_of_pos digits,
    List.dropWhile_append_of_pos digits, h.not_digit, stop, List.append_nil]
  cases ds with
  | nil => exact absurd rfl nonempty
  | cons d ds => rfl

theorem scanFraction_closes (h : Closes rest) : scanFraction rest = some (none, rest) := by
  cases rest with
  | nil => rfl
  | cons c cs => rcases closes_cons.mp h with rfl | rfl | rfl <;> rfl

theorem scanExponent_closes (h : Closes rest) : scanExponent rest = some (none, rest) := by
  cases rest with
  | nil => rfl
  | cons c cs => rcases closes_cons.mp h with rfl | rfl | rfl <;> rfl

theorem toDigits_cons (n : Nat) : ∃ d ds, Nat.toDigits 10 n = d :: ds ∧ d.isDigit := by
  obtain ⟨d, ds, heq⟩ := List.exists_cons_of_ne_nil (Nat.toDigits_ne_nil (n := n) (b := 10))
  exact ⟨d, ds, heq, Nat.isDigit_of_mem_toDigits (by decide) (by decide)
    (heq ▸ List.mem_cons_self : d ∈ Nat.toDigits 10 n)⟩

/-- The digits of a number begin with a zero only if that is all. -/
theorem toDigits_head (h : 0 < n) : ∃ d ds, Nat.toDigits 10 n = d :: ds ∧ d ≠ '0' := by
  induction n using Nat.strongRecOn with
  | ind n ih =>
    by_cases small : n < 10
    · refine ⟨_, _, Nat.toDigits_of_lt_base small, ?_⟩
      rw [Ne, Nat.digitChar_eq_zero]
      omega
    · obtain ⟨d, ds, heq, hd⟩ := ih (n / 10) (by omega) (by omega)
      rw [Nat.toDigits_of_base_le (by decide) (Nat.not_lt.mp small), heq]
      exact ⟨d, _, rfl, hd⟩

theorem scanWhole_toDigits (n : Nat) (h : Closes rest) :
    scanWhole (Nat.toDigits 10 n ++ rest) =
      some ((Nat.toDigits 10 n).map digitValue, rest) := by
  rcases Nat.eq_zero_or_pos n with rfl | pos
  · rw [Nat.toDigits_zero]
    cases rest with
    | nil => rfl
    | cons c cs => rcases closes_cons.mp h with rfl | rfl | rfl <;> rfl
  · obtain ⟨d, ds, heq, hd⟩ := toDigits_head pos
    have digits : ∀ c ∈ Nat.toDigits 10 n, c.isDigit :=
      fun c hc => Nat.isDigit_of_mem_toDigits (by decide) (by decide) hc
    rw [← scanDigits_append Nat.toDigits_ne_nil digits h, heq, List.cons_append]
    unfold scanWhole
    split
    next same => exact absurd (List.cons_eq_cons.mp same).1 hd
    next => rfl

theorem scanNumeral_unsigned {c : Char} {cs : List Char} (h : c ≠ '-') :
    scanNumeral (c :: cs) = (do
      let (whole, cs) ← scanWhole (c :: cs)
      let (fraction, cs) ← scanFraction cs
      let (exponent, cs) ← scanExponent cs
      return (⟨false, whole, fraction, exponent⟩, cs)) := by
  unfold scanNumeral
  split
  next heq =>
    split at heq
    next same => exact absurd (List.cons_eq_cons.mp same).1 h
    next =>
      obtain ⟨rfl, rfl⟩ := Prod.mk.inj heq
      rfl

/-- A number that is no double is read back. -/
theorem scanNumeral_render (x : JsonNumber) (exact : (Json.num x).Exact) (h : Closes rest) :
    ∃ numeral, scanNumeral (x.render ++ rest) = some (numeral, rest) ∧
      numeral.value? = some x := by
  cases x with
  | natural x =>
    refine ⟨⟨false, (Nat.toDigits 10 x.toNat).map digitValue, none, none⟩, ?_, ?_⟩
    · obtain ⟨d, ds, heq, digit⟩ := toDigits_cons x.toNat
      have unsigned : d ≠ '-' := by
        rintro rfl
        cases digit
      have whole := scanWhole_toDigits x.toNat h
      rw [JsonNumber.render]
      rw [heq, List.cons_append] at whole ⊢
      rw [scanNumeral_unsigned unsigned, whole]
      simp [scanFraction_closes h, scanExponent_closes h]
    · simp only [Numeral.value?, Numeral.accumulate_toDigits x.toNat_lt_size, Numeral.ofWhole]
      simp
  | negative k =>
    refine ⟨⟨true, (Nat.toDigits 10 (k.val + 1)).map digitValue, none, none⟩, ?_, ?_⟩
    · simp [scanNumeral, JsonNumber.render, scanWhole_toDigits _ h,
        scanFraction_closes h, scanExponent_closes h]
    · have fits : k.val + 1 < UInt64.size := Nat.lt_trans (Nat.succ_lt_succ k.isLt) (by decide)
      simp only [Numeral.value?, Numeral.accumulate_toDigits fits, Numeral.ofWhole]
      simp
  | double x => exact absurd exact id

/-! ## Strings -/

theorem digitValue?_digitChar : ∀ n < 16, Bytes.digitValue? (Nat.digitChar n) = some n := by decide

theorem hexQuad?_hexPair {n : Nat} (h : n < 0x20) :
    hexQuad? '0' '0' (Nat.digitChar (n / 16)) (Nat.digitChar (n % 16)) = some n := by
  have high := digitValue?_digitChar (n / 16) (by omega)
  have low := digitValue?_digitChar (n % 16) (by omega)
  have zero : Bytes.digitValue? '0' = some 0 := digitValue?_digitChar 0 (by omega)
  simp only [hexQuad?, high, low, zero]
  simp
  omega

/-- A unit of a string that stands for a character. -/
def StandsFor (u : StringUnit) (c : Char) : Prop :=
  ∀ us, joinUnits (u :: us) = (joinUnits us).map (c :: ·)

theorem standsFor_char (c : Char) : StandsFor (.char c) c := fun us => by rw [joinUnits]

theorem standsFor_code {c : Char} (h : c.toNat < 0x20) : StandsFor (.code c.toNat) c := by
  intro us
  have high : isHighHalf c.toNat = false := by simp [isHighHalf]; omega
  have low : isLowHalf c.toNat = false := by simp [isLowHalf]; omega
  rw [joinUnits.eq_def]
  simp [high, low, c.ofNat_toNat]

theorem scanString_plain {c : Char} (quote : c ≠ '"') (escape : c ≠ '\\') (h : ¬c.toNat < 0x20)
    (cs : List Char) :
    scanString (c :: cs) = (scanString cs).map fun r => (.char c :: r.1, r.2) := by
  rw [scanString]
  · rw [if_neg h]
    cases scanString cs <;> rfl
  all_goals simp_all

theorem scanString_short {c e : Char} (he : e ≠ 'u') (hc : simpleEscape? e = some c)
    (cs : List Char) :
    scanString ('\\' :: e :: cs) = (scanString cs).map fun r => (.char c :: r.1, r.2) := by
  rw [scanString]
  · simp only [hc]
    cases scanString cs <;> rfl
  · simp_all

theorem scanString_code {n : Nat} (h : n < 0x20) (cs : List Char) :
    scanString ('\\' :: 'u' :: '0' :: '0' :: (Json.hexPair n ++ cs)) =
      (scanString cs).map fun r => (.code n :: r.1, r.2) := by
  rw [Json.hexPair, List.cons_append, List.cons_append, List.nil_append, scanString,
    hexQuad?_hexPair h]
  cases scanString cs <;> rfl

/-- However a character is written in a string, it is read as itself. -/
theorem scanString_escapeChar (c : Char) : ∃ u, StandsFor u c ∧
    ∀ cs, scanString (Json.escapeChar c ++ cs) =
      (scanString cs).map fun r => (u :: r.1, r.2) := by
  have written := Json.escapeChar_written c
  generalize Json.escapeChar c = w at written ⊢
  cases written with
  | letter short _ means => exact ⟨_, standsFor_char c, scanString_short short means⟩
  | number control => exact ⟨_, standsFor_code control, scanString_code control⟩
  | plain quote escape printed => exact ⟨_, standsFor_char c, scanString_plain quote escape printed⟩

/-- What stands between the quotes is read back. -/
theorem scanString_escaped (cs : List Char) (rest : List Char) :
    ∃ us, scanString (cs.flatMap Json.escapeChar ++ '"' :: rest) = some (us, rest) ∧
      joinUnits us = some cs := by
  induction cs with
  | nil => exact ⟨[], by simp [scanString], by simp [joinUnits]⟩
  | cons c cs ih =>
    obtain ⟨us, hscan, hjoin⟩ := ih
    obtain ⟨u, stands, hread⟩ := scanString_escapeChar c
    refine ⟨u :: us, ?_, ?_⟩
    · rw [List.flatMap_cons, List.append_assoc, hread, hscan]
      rfl
    · rw [stands, hjoin]
      rfl

theorem scanString_renderString (s : String) (rest : List Char) :
    ∃ cs us, Json.renderString s ++ rest = '"' :: cs ∧ scanString cs = some (us, rest) ∧
      unitsText us = some s := by
  obtain ⟨us, hscan, hjoin⟩ := scanString_escaped s.toList rest
  refine ⟨_, us, by simp [Json.renderString], hscan, ?_⟩
  rw [unitsText, hjoin]
  exact congrArg some String.ofList_toList

/-! ## Values -/

/-- What a value begins with: no blank, and not what ends an array. -/
def Opens (c : Char) : Prop := Text.isBlank c = false ∧ c ≠ ']'

theorem Opens.not_space {c : Char} (h : Opens c) : isSpace c = false := by
  by_contra space
  simp only [isSpace, Bool.not_eq_false, Bool.or_eq_true, beq_iff_eq] at space
  rcases space with ((rfl | rfl) | rfl) | rfl <;> exact absurd h.1 (by decide)

theorem opens_of_digit {c : Char} (h : c.isDigit) : Opens c := by
  obtain ⟨low, high⟩ := Char.isDigit_iff_toNat.mp h
  refine ⟨?_, ?_⟩
  · have : 48 ≤ c.toNat := low
    have : c.toNat ≤ 57 := high
    simp only [Text.isBlank, Bool.or_eq_false_iff, Bool.and_eq_false_iff, decide_eq_false_iff_not,
      beq_eq_false_iff_ne]
    omega
  · rintro rfl
    cases h

/-- A number that is no double begins with a digit or with a minus sign. -/
theorem render_number (n : JsonNumber) (exact : (Json.num n).Exact) :
    ∃ c cs, n.render = c :: cs ∧ (c.isDigit ∨ c = '-') := by
  cases n with
  | natural n =>
    obtain ⟨d, ds, heq, digit⟩ := toDigits_cons n.toNat
    exact ⟨d, ds, heq, .inl digit⟩
  | negative k => exact ⟨_, _, rfl, .inr rfl⟩
  | double x => exact absurd exact id

theorem render_opens (j : Json) (exact : j.Exact) : ∃ c cs, j.render = c :: cs ∧ Opens c := by
  cases j with
  | null => exact ⟨_, _, rfl, by decide, by decide⟩
  | bool b => cases b <;> exact ⟨_, _, rfl, by decide, by decide⟩
  | num n =>
    obtain ⟨c, cs, heq, digit | rfl⟩ := render_number n exact
    · exact ⟨c, cs, heq, opens_of_digit digit⟩
    · exact ⟨_, cs, heq, by decide, by decide⟩
  | str s => exact ⟨_, _, rfl, by decide, by decide⟩
  | arr items => cases items <;> exact ⟨_, _, rfl, by decide, by decide⟩
  | obj fields =>
    cases fields with
    | nil => exact ⟨_, _, rfl, by decide, by decide⟩
    | cons f fs => exact ⟨_, _, rfl, by decide, by decide⟩

theorem skipSpace_cons {c : Char} (h : isSpace c = false) (cs : List Char) :
    skipSpace (c :: cs) = c :: cs := List.dropWhile_cons_of_neg (by simp [h])

theorem scanValue_number {c : Char} (h : c.isDigit ∨ c = '-') (fuel : Nat) (cs : List Char) :
    scanValue (fuel + 1) (c :: cs) =
      (scanNumeral (c :: cs)).map fun r => (num r.1.value?, r.2) := by
  have opens : Opens c := by
    rcases h with digit | rfl
    · exact opens_of_digit digit
    · exact ⟨by decide, by decide⟩
  have other (d : Char) (no_digit : d.isDigit = false) (no_sign : d ≠ '-') : c ≠ d := by
    rintro rfl
    simp [no_digit, no_sign] at h
  rw [scanValue, skipSpace_cons opens.not_space]
  split
  case h_7 => rfl
  all_goals
    next heq => exact absurd (List.cons_eq_cons.mp heq).1 (other _ (by decide) (by decide))

theorem scanValue_array {c : Char} (h : Opens c) (fuel : Nat) (cs : List Char) :
    scanValue (fuel + 1) ('[' :: c :: cs) =
      (scanItems fuel (c :: cs)).map fun r => (arr r.1, r.2) := by
  rw [scanValue, skipSpace_cons (by decide)]
  simp only [skipSpace_cons h.not_space]
  split
  next heq => exact absurd (List.cons_eq_cons.mp heq).1 h.2
  next => rfl

theorem scanValue_string {cs : List Char} {us : List StringUnit}
    (h : scanString cs = some (us, rest)) (fuel : Nat) :
    scanValue (fuel + 1) ('"' :: cs) = some (str (unitsText us), rest) := by
  rw [scanValue, skipSpace_cons (by decide)]
  simp [h]

theorem scanValue_object (fuel : Nat) (cs : List Char) :
    scanValue (fuel + 1) ('\x7b' :: '"' :: cs) =
      (scanFields fuel ('"' :: cs)).map fun r => (obj r.1, r.2) := by
  rw [scanValue, skipSpace_cons (by decide)]
  rfl

theorem scanItems_last {cs : List Char} {d : Document}
    (value : scanValue fuel cs = some (d, ']' :: rest)) :
    scanItems (fuel + 1) cs = some ([d], rest) := by
  simp [scanItems, value, skipSpace_cons, isSpace]

theorem scanItems_more {cs more : List Char} {d : Document} {ds : List Document}
    (value : scanValue fuel cs = some (d, ',' :: more))
    (items : scanItems fuel more = some (ds, rest)) :
    scanItems (fuel + 1) cs = some (d :: ds, rest) := by
  simp [scanItems, value, skipSpace_cons, isSpace, items]

theorem scanFields_last {cs vs : List Char} {us : List StringUnit} {d : Document}
    (name : scanString cs = some (us, ':' :: vs))
    (value : scanValue fuel vs = some (d, '\x7d' :: rest)) :
    scanFields (fuel + 1) ('"' :: cs) = some ([(unitsText us, d)], rest) := by
  simp [scanFields, name, value, skipSpace_cons, isSpace]

theorem scanFields_more {cs vs more : List Char} {us : List StringUnit} {d : Document}
    {fs : List (Option String × Document)} (name : scanString cs = some (us, ':' :: vs))
    (value : scanValue fuel vs = some (d, ',' :: more))
    (fields : scanFields fuel more = some (fs, rest)) :
    scanFields (fuel + 1) ('"' :: cs) = some ((unitsText us, d) :: fs, rest) := by
  simp [scanFields, name, value, skipSpace_cons, isSpace, fields]

theorem closes_renderItems (js : List Json) (rest : List Char) :
    Closes (Json.renderItems js ++ rest) := by
  cases js <;> simp [Json.renderItems, closes_cons]

theorem closes_renderFields (fs : List (String × Json)) (rest : List Char) :
    Closes (Json.renderFields fs ++ rest) := by
  cases fs with
  | nil => simp [Json.renderFields, closes_cons]
  | cons f fs => simp [Json.renderFields, closes_cons]

open Json (ExactItems ExactFields)

theorem render_pos (j : Json) (exact : j.Exact) : 0 < j.render.length := by
  obtain ⟨c, cs, heq, _⟩ := render_opens j exact
  simp [heq]

theorem renderItems_pos (js : List Json) : 0 < (Json.renderItems js).length := by
  cases js <;> simp [Json.renderItems]

theorem renderFields_pos (fs : List (String × Json)) : 0 < (Json.renderFields fs).length := by
  cases fs with
  | nil => simp [Json.renderFields]
  | cons f fs => simp [Json.renderFields]

-- by recursion on the value; of two calls within each other one at least takes a character, so that
-- fuel for twice as many calls as there are characters lasts
mutual

/-- A value that is written is read back, if nothing behind it goes on with a number. -/
theorem scanValue_render : (j : Json) → j.Exact → ∀ {rest}, Closes rest → ∀ fuel,
    2 * j.render.length ≤ fuel → scanValue fuel (j.render ++ rest) = some (ofJson j, rest)
  | j, exact, rest, closes, 0, hf => by
    have := render_pos j exact
    omega
  | .null, _, rest, _, fuel + 1, _ => by
    simp [Json.render, scanValue, skipSpace_cons, isSpace, ofJson]
  | .bool true, _, rest, _, fuel + 1, _ => by
    simp [Json.render, scanValue, skipSpace_cons, isSpace, ofJson]
  | .bool false, _, rest, _, fuel + 1, _ => by
    simp [Json.render, scanValue, skipSpace_cons, isSpace, ofJson]
  | .num n, exact, rest, closes, fuel + 1, _ => by
    obtain ⟨c, cs, heq, starts⟩ := render_number n exact
    obtain ⟨numeral, hscan, hvalue⟩ := scanNumeral_render n exact closes
    rw [heq, List.cons_append] at hscan
    rw [Json.render, heq, List.cons_append, scanValue_number starts, hscan, ofJson, ← hvalue]
    rfl
  | .str s, _, rest, _, fuel + 1, _ => by
    obtain ⟨cs, us, heq, hscan, htext⟩ := scanString_renderString s rest
    rw [Json.render, heq, scanValue_string hscan, htext, ofJson]
  | .arr [], _, rest, _, fuel + 1, _ => by
    simp [Json.render, scanValue, skipSpace_cons, isSpace, ofJson, ofItems]
  | .arr (j :: js), exact, rest, _, fuel + 1, hf => by
    obtain ⟨c, cs, heq, opens⟩ := render_opens j exact.1
    simp only [Json.render, List.length_cons] at hf
    have items := scanItems_render (j :: js) exact rest fuel rfl (by omega)
    rw [heq, List.cons_append, List.cons_append] at items
    rw [Json.render, List.cons_append, heq, List.cons_append, List.cons_append,
      scanValue_array opens, items, ofJson]
    rfl
  | .obj [], _, rest, _, fuel + 1, _ => by
    simp [Json.render, scanValue, skipSpace_cons, isSpace, ofJson, ofFields]
  | .obj ((name, j) :: fs), exact, rest, _, fuel + 1, hf => by
    simp only [Json.render, List.length_cons] at hf
    have fields := scanFields_render ((name, j) :: fs) exact rest fuel rfl (by omega)
    have opens : ∃ cs, Json.renderString name = '"' :: cs := ⟨_, rfl⟩
    obtain ⟨cs, heq⟩ := opens
    rw [heq, List.cons_append, List.cons_append] at fields
    rw [Json.render, List.cons_append, heq, List.cons_append, List.cons_append,
      scanValue_object, fields, ofJson]
    rfl

theorem scanItems_render : (js : List Json) → ExactItems js → ∀ rest {cs} fuel,
    Json.renderItems js = ',' :: cs → 2 * cs.length ≤ fuel →
    scanItems fuel (cs ++ rest) = some (ofItems js, rest)
  | [], _, _, _, _, h, _ => by simp [Json.renderItems] at h
  | j :: js, exact, rest, _, fuel, h, hf => by
    obtain rfl := (List.cons_eq_cons.mp h).2
    have value := render_pos j exact.1
    have behind := renderItems_pos js
    rw [List.length_append] at hf
    obtain ⟨fuel, rfl⟩ := Nat.exists_eq_add_one_of_ne_zero (n := fuel) (by omega)
    have first := scanValue_render j exact.1 (closes_renderItems js rest) fuel (by omega)
    have more := @scanItems_render js exact.2 rest
    rw [List.append_assoc]
    cases js with
    | nil => exact scanItems_last first
    | cons j' js =>
      refine scanItems_more first (more fuel rfl ?_)
      simp only [Json.renderItems, List.length_cons] at hf
      omega

theorem scanFields_render : (fs : List (String × Json)) → ExactFields fs → ∀ rest {cs} fuel,
    Json.renderFields fs = ',' :: cs → 2 * cs.length ≤ fuel →
    scanFields fuel (cs ++ rest) = some (ofFields fs, rest)
  | [], _, _, _, _, h, _ => by simp [Json.renderFields] at h
  | (name, j) :: fs, exact, rest, _, fuel, h, hf => by
    obtain rfl := (List.cons_eq_cons.mp h).2
    obtain ⟨cs, us, heq, hname, htext⟩ := scanString_renderString name
      (':' :: (j.render ++ (Json.renderFields fs ++ rest)))
    have value := render_pos j exact.1
    have behind := renderFields_pos fs
    simp only [List.length_append, List.length_cons] at hf
    obtain ⟨fuel, rfl⟩ := Nat.exists_eq_add_one_of_ne_zero (n := fuel) (by omega)
    have first := scanValue_render j exact.1 (closes_renderFields fs rest) fuel (by omega)
    have more := @scanFields_render fs exact.2 rest
    rw [List.append_assoc, List.cons_append, List.append_assoc, heq, ofFields, ← htext]
    cases fs with
    | nil => exact scanFields_last hname first
    | cons f fs =>
      refine scanFields_more hname first (more fuel rfl ?_)
      simp only [Json.renderFields, List.length_cons] at hf
      omega

end

end Document

namespace Json

/-- The text of a value is read as the value. -/
theorem ofText?_toText {j : Json} (ordered : j.Ordered) (exact : j.Exact)
    (deep : j.depth ≤ Document.nestingLimit) : ofText? j.toText = some j := by
  have scan := Document.scanValue_render j exact Document.closes_nil
    (2 * j.render.length + 2) (by omega)
  rw [List.append_nil] at scan
  have read : Document.ofText? j.toText = some (.ofJson j) := by
    rw [Document.ofText?, toText, String.toList_ofList, Document.ofChars?, scan]
    rfl
  rw [ofText?, read]
  exact Document.toJson?_ofJson j ordered _ deep

theorem toText_not_blank {j : Json} (exact : j.Exact) :
    j.toText.toList.all Text.isBlank = false := by
  obtain ⟨c, cs, heq, opens⟩ := Document.render_opens j exact
  rw [toText, String.toList_ofList, heq, List.all_cons, opens.1, Bool.false_and]

/-! ## Characters -/

/-- No control character is in it. -/
def Printable (cs : List Char) : Prop := ∀ c ∈ cs, 0x20 ≤ c.toNat

variable {c : Char} {cs ds : List Char}

@[simp] theorem printable_nil : Printable [] := by simp [Printable]

@[simp] theorem printable_cons : Printable (c :: cs) ↔ 0x20 ≤ c.toNat ∧ Printable cs :=
  List.forall_mem_cons

@[simp] theorem printable_append : Printable (cs ++ ds) ↔ Printable cs ∧ Printable ds :=
  List.forall_mem_append

theorem digitChar_printable : ∀ n < 16, 0x20 ≤ (Nat.digitChar n).toNat := by decide

theorem toDigits_printable (n : Nat) : Printable (Nat.toDigits 10 n) := by
  intro c hc
  have digit : c.isDigit := Nat.isDigit_of_mem_toDigits (by decide) (by decide) hc
  have low := (Char.isDigit_iff_toNat.mp digit).1
  exact Nat.le_trans (by decide) low

theorem escapeChar_printable (c : Char) : Printable (escapeChar c) := by
  have written := escapeChar_written c
  generalize escapeChar c = w at written ⊢
  cases written with
  | letter _ printed _ => simpa using printed
  | number control =>
    have high := digitChar_printable (c.toNat / 16) (by omega)
    have low := digitChar_printable (c.toNat % 16) (by omega)
    simpa [hexPair] using ⟨high, low⟩
  | plain _ _ printed => simpa using printed

theorem renderString_printable (s : String) : Printable (renderString s) := by
  have inner : Printable (s.toList.flatMap escapeChar) := by
    intro x hx
    obtain ⟨c, _, hc⟩ := List.mem_flatMap.mp hx
    exact escapeChar_printable c x hc
  simp [renderString, inner]

theorem number_printable (n : JsonNumber) (exact : (num n).Exact) : Printable n.render := by
  cases n with
  | natural n => exact toDigits_printable n.toNat
  | negative k => exact printable_cons.mpr ⟨by decide, toDigits_printable _⟩
  | double x => exact absurd exact id

mutual

/-- Whatever stands in a value, its text has no control characters. -/
theorem render_printable : (j : Json) → j.Exact → Printable j.render
  | .null, _ => by simp [render]
  | .bool true, _ => by simp [render]
  | .bool false, _ => by simp [render]
  | .num n, exact => by simpa [render] using number_printable n exact
  | .str s, _ => by simpa [render] using renderString_printable s
  | .arr [], _ => by simp [render]
  | .arr (j :: js), exact => by
    simp [render, render_printable j exact.1, renderItems_printable js exact.2]
  | .obj [], _ => by simp [render]
  | .obj ((name, j) :: fs), exact => by
    simp [render, renderString_printable name, render_printable j exact.1,
      renderFields_printable fs exact.2]

theorem renderItems_printable : (js : List Json) → ExactItems js → Printable (renderItems js)
  | [], _ => by simp [renderItems]
  | j :: js, exact => by
    simp [renderItems, render_printable j exact.1, renderItems_printable js exact.2]

theorem renderFields_printable : (fs : List (String × Json)) → ExactFields fs →
    Printable (renderFields fs)
  | [], _ => by simp [renderFields]
  | (name, j) :: fs, exact => by
    simp [renderFields, renderString_printable name, render_printable j exact.1,
      renderFields_printable fs exact.2]

end

end Json

end Switchboard
