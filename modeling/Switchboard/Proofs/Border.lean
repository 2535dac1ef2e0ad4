import Mathlib.Order.Bounds.Basic
import Switchboard.Framer.Border

namespace Switchboard

variable {α : Type}

/-- The lengths up to `bound` of those prefixes of `p` that end `w`. -/
def overlaps (p w : List α) (bound : Nat) : Set Nat := {k | k ≤ bound ∧ p.take k <:+ w}

theorem zero_mem_overlaps (p w : List α) (bound : Nat) : 0 ∈ overlaps p w bound :=
  ⟨Nat.zero_le _, by simp⟩

theorem take_succ_suffix_concat_iff {p w : List α} {k : Nat} {a : α} (hk : k < p.length) :
    p.take (k + 1) <:+ w ++ [a] ↔ p[k]? = some a ∧ p.take k <:+ w := by
  rw [List.take_succ_eq_append_getElem hk, List.getElem?_eq_getElem hk, Option.some.injEq]
  constructor
  · rintro ⟨t, h⟩
    rw [← List.append_assoc] at h
    obtain ⟨hw, ha⟩ := List.append_inj' h rfl
    exact ⟨by simpa using ha, t, hw⟩
  · rintro ⟨rfl, h⟩
    exact List.suffix_append_self_iff.mpr h

/-- A longer overlap goes on from a shorter one, which the new element extends. -/
theorem succ_mem_overlaps_concat {p w : List α} {bound k : Nat} {a : α} (hb : bound < p.length) :
    k + 1 ∈ overlaps p (w ++ [a]) (bound + 1) ↔ p[k]? = some a ∧ k ∈ overlaps p w bound := by
  constructor
  · rintro ⟨hk, h⟩
    obtain ⟨ha, hw⟩ := (take_succ_suffix_concat_iff (by omega)).mp h
    exact ⟨ha, by omega, hw⟩
  · rintro ⟨ha, hk, hw⟩
    exact ⟨by omega, (take_succ_suffix_concat_iff (by omega)).mpr ⟨ha, hw⟩⟩

/-- The overlaps of a word are those of any end of it that is no shorter than they may be. -/
theorem overlaps_of_suffix {p w tail : List α} {bound : Nat} (ht : tail <:+ w)
    (hb : bound ≤ tail.length) : overlaps p tail bound = overlaps p w bound := by
  ext k
  constructor
  · rintro ⟨hk, hs⟩
    exact ⟨hk, hs.trans ht⟩
  · rintro ⟨hk, hs⟩
    refine ⟨hk, List.suffix_of_suffix_length_le hs ht ?_⟩
    exact (List.length_take_le k p).trans (hk.trans hb)

/-- The lengths of the borders of a word: of those prefixes, other than the word, that also end
it. -/
def borderLengths (w : List α) : Set Nat := {k | k < w.length ∧ w.take k <:+ w}

theorem overlaps_take_self {p : List α} {i : Nat} (hi : i < p.length) :
    overlaps p (p.take (i + 1)) i = borderLengths (p.take (i + 1)) := by
  ext k
  have hlen : (p.take (i + 1)).length = i + 1 := List.length_take_of_le (by omega)
  constructor
  · rintro ⟨hk, h⟩
    refine ⟨by omega, ?_⟩
    rwa [List.take_take, Nat.min_eq_left (by omega)]
  · rintro ⟨hk, h⟩
    rw [List.take_take, Nat.min_eq_left (by omega)] at h
    exact ⟨by omega, h⟩

namespace BorderTable

/-- The first `n` entries of the table are the lengths of the longest borders. -/
def ExactBelow (t : BorderTable α) (n : Nat) : Prop :=
  ∀ i < n, IsGreatest (overlaps t.pattern.toList (t.pattern.toList.take (i + 1)) i) (t.width i)

theorem ExactBelow.mono {t : BorderTable α} {m n : Nat} (h : t.ExactBelow n) (hm : m ≤ n) :
    t.ExactBelow m := fun i hi => h i (by omega)

variable [DecidableEq α]

/-- The longest overlap is followed up one element at a time: what falls back along the borders
misses no longer overlap. -/
theorem advance_greatest {t : BorderTable α} {w : List α} {bound depth : Nat} (a : α)
    (exact : t.ExactBelow depth) (hb : bound < t.pattern.toList.length)
    (h : IsGreatest (overlaps t.pattern.toList w bound) depth) :
    IsGreatest (overlaps t.pattern.toList (w ++ [a]) (bound + 1)) (t.advance depth a) := by
  induction depth using Nat.strongRecOn generalizing bound with
  | ind depth ih =>
    have hdb : depth ≤ bound := h.1.1
    unfold advance
    rw [← Array.getElem?_toList]
    split
    next hit =>
      refine ⟨(succ_mem_overlaps_concat hb).mpr ⟨hit, h.1⟩, ?_⟩
      intro k hk
      cases k with
      | zero => omega
      | succ k =>
        have := h.2 ((succ_mem_overlaps_concat hb).mp hk).2
        omega
    next miss =>
      -- every overlap of the longer word goes on from one below `depth`
      have below : ∀ k, k + 1 ∈ overlaps t.pattern.toList (w ++ [a]) (bound + 1) → k < depth := by
        intro k hk
        obtain ⟨ha, hk⟩ := (succ_mem_overlaps_concat hb).mp hk
        have hle := h.2 hk
        have hne : k ≠ depth := fun he => miss (he ▸ ha)
        omega
      split
      next hpos =>
        have border := exact (depth - 1) (by omega)
        have hdepth : depth - 1 + 1 = depth := by omega
        have hlen : (t.pattern.toList.take depth).length = depth :=
          List.length_take_of_le (by omega)
        rw [hdepth, overlaps_of_suffix h.1.2 (by omega)] at border
        have hw := t.width_le (depth - 1)
        have next := ih (t.width (depth - 1)) (by unfold width; omega)
          (exact.mono (by unfold width; omega)) (by omega) border
        rw [hdepth] at next
        refine ⟨⟨Nat.le_trans next.1.1 (by omega), next.1.2⟩, ?_⟩
        intro k hk
        cases k with
        | zero => omega
        | succ k => exact next.2 ⟨below k hk, hk.2⟩
      next hzero =>
        refine ⟨zero_mem_overlaps _ _ _, ?_⟩
        intro k hk
        cases k with
        | zero => omega
        | succ k =>
          have := below k hk
          omega

@[simp] theorem upTo_pattern (p : Array α) (n : Nat) : (upTo p n).pattern = p := by
  induction n with
  | zero => rfl
  | succ n ih => exact ih

@[simp] theorem upTo_size (p : Array α) (n : Nat) : (upTo p n).widths.size = n := by
  induction n with
  | zero => rfl
  | succ n ih => simp [upTo, extend, ih]

theorem extend_width_of_lt (t : BorderTable α) {i : Nat} (hi : i < t.widths.size) :
    t.extend.width i = t.width i := by
  simp [width, extend, Array.getD_eq_getD_getElem?, Array.getElem?_push, Nat.ne_of_lt hi]

theorem extend_width_size (t : BorderTable α) : t.extend.width t.widths.size = t.nextWidth := by
  simp [width, extend, Array.getD_eq_getD_getElem?]

/-- The entry after the exact ones is exact. -/
theorem nextWidth_greatest {t : BorderTable α} (exact : t.ExactBelow t.widths.size)
    (hn : t.widths.size < t.pattern.toList.length) :
    IsGreatest (overlaps t.pattern.toList (t.pattern.toList.take (t.widths.size + 1))
      t.widths.size) t.nextWidth := by
  unfold nextWidth
  split
  next i a hi ha =>
    rw [hi] at exact hn ha ⊢
    rw [← Array.getElem?_toList] at ha
    have hw := t.width_le i
    have htake : t.pattern.toList.take (i + 1 + 1) = t.pattern.toList.take (i + 1) ++ [a] := by
      rw [List.take_succ_eq_append_getElem (by omega)]
      simpa [List.getElem?_eq_getElem (show i + 1 < t.pattern.toList.length by omega)] using ha
    rw [htake]
    exact advance_greatest a (exact.mono (by unfold width; omega)) (by omega)
      (exact i (by omega))
  next other =>
    cases hs : t.widths.size with
    | zero => exact ⟨zero_mem_overlaps _ _ _, fun k hk => hk.1⟩
    | succ i =>
      rw [hs] at hn
      exact absurd (Array.getElem?_eq_getElem (by simpa using hn))
        (other i _ hs ∘ by rw [hs]; exact id)

theorem upTo_exact (p : Array α) {n : Nat} (hn : n ≤ p.toList.length) :
    (upTo p n).ExactBelow n := by
  induction n with
  | zero => exact fun i hi => absurd hi (Nat.not_lt_zero i)
  | succ n ih =>
    have earlier := ih (by omega)
    intro i hi
    by_cases he : i = n
    · subst he
      have last := (upTo p i).extend_width_size
      have greatest := nextWidth_greatest (t := upTo p i) (by simpa using earlier)
        (by simpa using (show i < p.toList.length by omega))
      simp only [upTo_size, upTo_pattern] at last greatest
      rw [upTo_pattern]
      change IsGreatest _ ((upTo p i).extend.width i)
      rw [last]
      exact greatest
    · have old := (upTo p n).extend_width_of_lt (i := i) (by simp only [upTo_size]; omega)
      have hold := earlier i (by omega)
      rw [upTo_pattern] at hold ⊢
      change IsGreatest _ ((upTo p n).extend.width i)
      rw [old]
      exact hold

@[simp] theorem ofPattern_pattern (p : List α) : (ofPattern p).pattern.toList = p := by
  simp [ofPattern]

/-- Every entry of the table of a pattern is the length of its longest border. -/
theorem ofPattern_exact (p : List α) : (ofPattern p).ExactBelow p.length :=
  upTo_exact p.toArray (by simp)

theorem ofPattern_size (p : List α) : (ofPattern p).widths.size = p.length :=
  upTo_size p.toArray p.length

/-- The table has an entry for each prefix of the pattern but the empty one: the length of the
longest border of that prefix. -/
theorem entries_are_longest_borders (p : List α) :
    (ofPattern p).widths.size = p.length ∧
      ∀ i (hi : i < (ofPattern p).widths.size),
        IsGreatest (borderLengths (p.take (i + 1))) (ofPattern p).widths[i] := by
  refine ⟨ofPattern_size p, fun i hi => ?_⟩
  have hip : i < p.length := ofPattern_size p ▸ hi
  have entry : (ofPattern p).width i = (ofPattern p).widths[i] := by
    simp [width, Array.getD_eq_getD_getElem?, hi]
  have exact := ofPattern_exact p i hip
  rw [entry, ofPattern_pattern, overlaps_take_self hip] at exact
  exact exact

/-- Behind `aabaa` another `a` does not go on with the border `aa`, but with `a`, the border of
that border. -/
theorem entries_are_longest_borders_of_fallback :
    (ofPattern ([97, 97, 98, 97, 97, 97, 98] : List UInt8)).widths = #[0, 1, 0, 1, 2, 2, 3] ∧
      5 < (#[0, 1, 0, 1, 2, 2, 3] : Array Nat).size ∧
      IsGreatest (borderLengths ([97, 97, 98, 97, 97, 97] : List UInt8)) 2 := by
  have table : (ofPattern ([97, 97, 98, 97, 97, 97, 98] : List UInt8)).widths =
      #[0, 1, 0, 1, 2, 2, 3] := by cbv
  obtain ⟨_, greatest⟩ := entries_are_longest_borders ([97, 97, 98, 97, 97, 97, 98] : List UInt8)
  rw [table] at greatest
  have hi : 5 < (#[0, 1, 0, 1, 2, 2, 3] : Array Nat).size := by decide
  exact ⟨table, hi, greatest 5 hi⟩

end BorderTable

end Switchboard
