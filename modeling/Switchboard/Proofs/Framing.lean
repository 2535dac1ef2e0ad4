import Switchboard.Framer
import Switchboard.Proofs.Border

namespace Switchboard

section

variable {α : Type}

/-- `r` stands before the leftmost occurrence of `d` in `s`, and `t` behind it. -/
def LeftmostCut (d s r t : List α) : Prop :=
  s = r ++ d ++ t ∧ ∀ r' t', s = r' ++ d ++ t' → r.length ≤ r'.length

/-- The reference split: `s` is cut at the leftmost `d`, again behind it and so on; nothing of the
rest is a `d`. -/
inductive Cuts (d : List α) : List α → List (List α) → List α → Prop
  | rest {s} (absent : ¬ d <:+: s) : Cuts d s [] s
  | cut {s r t rs u} (first : LeftmostCut d s r t) (more : Cuts d t rs u) : Cuts d s (r :: rs) u

variable {d s r t u w : List α} {rs : List (List α)}

theorem LeftmostCut.infix (h : LeftmostCut d s r t) : d <:+: s := ⟨r, t, h.1.symm⟩

theorem LeftmostCut.unique {r' t' : List α} (h : LeftmostCut d s r t)
    (h' : LeftmostCut d s r' t') : r = r' ∧ t = t' := by
  have hlen : r.length = r'.length := Nat.le_antisymm (h.2 r' t' h'.1) (h'.2 r t h.1)
  have heq := h.1.symm.trans h'.1
  rw [List.append_assoc, List.append_assoc] at heq
  obtain ⟨hr, hrest⟩ := List.append_inj heq hlen
  exact ⟨hr, List.append_cancel_left hrest⟩

/-- What follows changes nothing about the leftmost occurrence. -/
theorem LeftmostCut.append (h : LeftmostCut d s r t) (x : List α) :
    LeftmostCut d (s ++ x) r (t ++ x) := by
  refine ⟨by rw [h.1]; simp, ?_⟩
  intro r' t' h'
  by_contra hlt
  have hlen : (r' ++ d).length ≤ s.length := by
    rw [h.1]
    simp only [List.length_append]
    omega
  obtain ⟨v, hv⟩ := List.prefix_of_prefix_length_le ⟨t', h'.symm⟩ (List.prefix_append s x) hlen
  exact hlt (h.2 r' v hv.symm)

/-- What has the delimiter behind it only at its own end is cut off there. -/
theorem leftmostCut_of_last (last : ∀ r' t', r ++ d = r' ++ d ++ t' → t' = []) (t : List α) :
    LeftmostCut d (r ++ d ++ t) r t := by
  have first : LeftmostCut d (r ++ d) r [] := by
    refine ⟨(List.append_nil _).symm, fun r' t' h => ?_⟩
    have lengths := congrArg List.length h
    rw [last r' t' h, List.append_nil, List.length_append, List.length_append] at lengths
    omega
  simpa using first.append t

/-- What ends at a delimiter that does not occur in it is cut off there. -/
theorem leftmostCut_singleton {a : α} (h : a ∉ r) :
    LeftmostCut [a] (r ++ [a] ++ t) r t := by
  refine ⟨rfl, fun r' t' heq => ?_⟩
  by_contra hlt
  have short : r'.length < r.length := Nat.lt_of_not_le hlt
  have here : (r ++ [a] ++ t)[r'.length]? = some a := by
    rw [heq]
    simp
  rw [List.append_assoc, List.getElem?_append_left short] at here
  exact h (List.mem_of_getElem? here)

/-- An occurrence that the last element completes is the leftmost one. -/
theorem leftmostCut_of_completed {a : α} (hw : ¬ d <:+: w) (h : w ++ [a] = r ++ d) :
    LeftmostCut d (w ++ [a]) r [] := by
  refine ⟨by rw [h]; simp, ?_⟩
  intro r' t' h'
  rcases List.eq_nil_or_concat t' with rfl | ⟨v, b, rfl⟩
  · have := congrArg List.length (h.symm.trans h')
    simp only [List.length_append, List.length_nil] at this
    omega
  · rw [List.concat_eq_append, ← List.append_assoc] at h'
    exact absurd ⟨r', v, (List.append_inj' h' rfl).1.symm⟩ hw

theorem Cuts.unique {rs' : List (List α)} {u' : List α} (h : Cuts d s rs u)
    (h' : Cuts d s rs' u') : rs = rs' ∧ u = u' := by
  induction h generalizing rs' u' with
  | rest absent =>
    cases h' with
    | rest => exact ⟨rfl, rfl⟩
    | cut first => exact absurd first.infix absent
  | cut first more ih =>
    cases h' with
    | rest absent => exact absurd first.infix absent
    | cut first' more' =>
      obtain ⟨rfl, rfl⟩ := first.unique first'
      obtain ⟨rfl, rfl⟩ := ih more'
      exact ⟨rfl, rfl⟩

/-- No element is lost or doubled. -/
theorem Cuts.rebuild (h : Cuts d s rs u) : rs.flatMap (· ++ d) ++ u = s := by
  induction h with
  | rest => rfl
  | cut first more ih => rw [first.1, List.flatMap_cons, List.append_assoc, ih]

/-- Behind a delimiter the split starts anew. -/
theorem Cuts.append {rs' : List (List α)} (h : Cuts d s rs []) (h' : Cuts d t rs' u) :
    Cuts d (s ++ t) (rs ++ rs') u := by
  generalize hnone : [] = none at h
  induction h with
  | rest =>
    subst hnone
    exact h'
  | cut first more ih => exact .cut (first.append t) (ih hnone)

/-- Records with a delimiter behind each are split into the same records. -/
theorem Cuts.of_records (hd : d ≠ []) (first : ∀ r ∈ rs, ∀ t, LeftmostCut d (r ++ d ++ t) r t) :
    Cuts d (rs.flatMap (· ++ d)) rs [] := by
  induction rs with
  | nil => exact .rest fun hi => hd (List.infix_nil.mp hi)
  | cons r rs ih =>
    obtain ⟨here, others⟩ := List.forall_mem_cons.mp first
    exact .cut (here _) (ih others)

theorem Cuts.concat_open {a : α} (h : Cuts d s rs u) (open' : ¬ d <:+: u ++ [a]) :
    Cuts d (s ++ [a]) rs (u ++ [a]) := by
  induction h with
  | rest => exact .rest open'
  | cut first more ih => exact .cut (first.append [a]) (ih open')

theorem Cuts.concat_completed {a : α} (hd : d ≠ []) (h : Cuts d s rs u)
    (hr : u ++ [a] = r ++ d) : Cuts d (s ++ [a]) (rs ++ [r]) [] := by
  induction h with
  | rest absent =>
    exact .cut (leftmostCut_of_completed absent hr) (.rest fun hi => hd (List.infix_nil.mp hi))
  | cut first more ih => exact .cut (first.append [a]) (ih hr)

end

namespace Framer

variable {d w : Bytes} {f : Framer} {records taken : List Bytes}

/-- What a framer has to remember of the bytes behind the last cut: all of them, none of which
completes a delimiter, and how much of a delimiter they end with. -/
structure Tracks (d : Bytes) (f : Framer) : Prop where
  nonempty : d ≠ []
  borders : f.borders = .ofPattern d
  absent : ¬ d <:+: f.residual
  depth : IsGreatest (overlaps d f.residual (d.length - 1)) f.depth

theorem Tracks.length_pos (h : f.Tracks d) : 0 < d.length := List.length_pos_iff.mpr h.nonempty

theorem Tracks.size (h : f.Tracks d) : f.borders.pattern.size = d.length := by
  rw [h.borders, ← Array.length_toList, BorderTable.ofPattern_pattern]

theorem overlaps_nil_greatest (d : Bytes) : IsGreatest (overlaps d [] (d.length - 1)) 0 := by
  refine ⟨zero_mem_overlaps _ _ _, ?_⟩
  rintro k ⟨hk, hs⟩
  have := congrArg List.length (List.suffix_nil.mp hs)
  simp only [List.length_take, List.length_nil] at this
  omega

/-- A framer that starts anew has nothing to remember. -/
theorem Tracks.clear (h : f.Tracks d) : f.clear.Tracks d where
  nonempty := h.nonempty
  borders := h.borders
  absent hi := h.nonempty (List.infix_nil.mp hi)
  depth := overlaps_nil_greatest d

theorem new_tracks (hd : d ≠ []) : ∃ f, new d = .ok f ∧ f.Tracks d ∧ f.residual = [] ∧
    f.limit = none := by
  refine ⟨{ borders := .ofPattern d }, by simp [new, hd], ?_, rfl, rfl⟩
  exact ⟨hd, rfl, fun hi => hd (List.infix_nil.mp hi), overlaps_nil_greatest d⟩

theorem new_delimiter (h : new d = .ok f) : f.delimiter = d := by
  rw [new] at h
  split at h
  next => cases h
  next =>
    obtain rfl := Except.ok.inj h
    exact BorderTable.ofPattern_pattern d

/-- The depth that one more byte leads to. -/
theorem Tracks.advance (h : f.Tracks d) (b : UInt8) :
    IsGreatest (overlaps d (f.residual ++ [b]) d.length) (f.borders.advance f.depth b) := by
  have hpos := h.length_pos
  have hdepth := h.depth
  have hle := hdepth.1.1
  rw [h.borders]
  have exact := (BorderTable.ofPattern_exact d).mono (show f.depth ≤ d.length by omega)
  rw [← BorderTable.ofPattern_pattern d] at hdepth
  have next := BorderTable.advance_greatest b exact (by rw [BorderTable.ofPattern_pattern]; omega)
    hdepth
  rwa [BorderTable.ofPattern_pattern, show d.length - 1 + 1 = d.length by omega] at next

/-- One byte either stays open or completes a delimiter, and the framer tells which. -/
theorem push_cases (h : f.Tracks d) (b : UInt8) :
    (∃ g, f.push b = (g, none) ∧ g.Tracks d ∧ g.limit = f.limit ∧
      g.residual = f.residual ++ [b]) ∨
    (∃ g r, f.push b = (g, some r) ∧ g.Tracks d ∧ g.limit = f.limit ∧ g.residual = [] ∧
      f.residual ++ [b] = r ++ d) := by
  have next := h.advance b
  have hle := next.1.1
  by_cases hit : f.borders.advance f.depth b = d.length
  · right
    have hs := next.1.2
    rw [hit, List.take_length] at hs
    obtain ⟨r, hr⟩ := hs
    refine ⟨f.clear, r, ?_, h.clear, rfl, rfl, hr.symm⟩
    have held : b :: f.held = d.reverse ++ r.reverse := by
      rw [← List.reverse_append, hr, residual, List.reverse_append, List.reverse_reverse]
      rfl
    simp [push, hit, h.size, held]
  · left
    refine ⟨{ f with held := b :: f.held, depth := f.borders.advance f.depth b }, ?_, ?_, rfl, ?_⟩
    · simp [push, hit, h.size]
    · refine ⟨h.nonempty, h.borders, ?_, ?_⟩
      · simp only [residual, List.reverse_cons]
        intro hi
        rcases List.infix_concat_iff.mp hi with hs | hs
        · have := next.2 (show d.length ∈ _ from ⟨Nat.le_refl _, by rwa [List.take_length]⟩)
          omega
        · exact h.absent hs
      · simp only [residual, List.reverse_cons]
        exact ⟨⟨by omega, next.1.2⟩, fun k hk => next.2 ⟨by have := hk.1; omega, hk.2⟩⟩
    · simp [residual]

/-- Byte by byte, the framer keeps to the reference split of all bytes so far. -/
theorem foldl_pushOnto_cuts (bytes : Bytes) (h : f.Tracks d)
    (hc : Cuts d w (records ++ taken.reverse) f.residual) :
    ∃ g more, bytes.foldl pushOnto (f, taken) = (g, more) ∧ g.Tracks d ∧ g.limit = f.limit ∧
      Cuts d (w ++ bytes) (records ++ more.reverse) g.residual := by
  induction bytes generalizing f w taken with
  | nil => exact ⟨f, taken, rfl, h, rfl, by simpa using hc⟩
  | cons b bytes ih =>
    rcases push_cases h b with ⟨g, hp, hg, hl, hr⟩ | ⟨g, r, hp, hg, hl, hr, hrec⟩
    · have hopen : Cuts d (w ++ [b]) (records ++ taken.reverse) g.residual := by
        rw [hr]
        exact hc.concat_open (hr ▸ hg.absent)
      obtain ⟨last, more, hf, ht, hlim, hcuts⟩ := ih hg hopen
      exact ⟨last, more, by simpa [pushOnto, hp] using hf, ht, hlim.trans hl, by simpa using hcuts⟩
    · have hdone : Cuts d (w ++ [b]) (records ++ (r :: taken).reverse) g.residual := by
        rw [hr, List.reverse_cons, ← List.append_assoc]
        exact hc.concat_completed h.nonempty hrec
      obtain ⟨last, more, hf, ht, hlim, hcuts⟩ := ih hg hdone
      exact ⟨last, more, by simpa [pushOnto, hp] using hf, ht, hlim.trans hl, by simpa using hcuts⟩

/-- Takes chunks in turn and gives all records they end. -/
def splitEach (f : Framer) : List Bytes → List Bytes × Framer
  | [] => ([], f)
  | chunk :: chunks =>
    let (records, g) := f.split chunk
    let (more, last) := g.splitEach chunks
    (records ++ more, last)

theorem split_cuts (bytes : Bytes) (h : f.Tracks d) (hl : f.limit = none)
    (hc : Cuts d w records f.residual) :
    ∃ g more, f.split bytes = (more, g) ∧ g.Tracks d ∧ g.limit = none ∧
      Cuts d (w ++ bytes) (records ++ more) g.residual := by
  have start : Cuts d w (records ++ ([] : List Bytes).reverse) f.residual := by simpa using hc
  obtain ⟨g, more, hf, ht, hlim, hcuts⟩ := foldl_pushOnto_cuts bytes h start
  have hnone : g.limit = none := hlim.trans hl
  exact ⟨g, more.reverse, by simp [split, hf, exceedsLimit, hnone], ht, hnone, hcuts⟩

theorem splitEach_cuts (chunks : List Bytes) (h : f.Tracks d) (hl : f.limit = none)
    (hc : Cuts d w records f.residual) :
    Cuts d (w ++ chunks.flatten) (records ++ (f.splitEach chunks).1)
      (f.splitEach chunks).2.residual := by
  induction chunks generalizing f w records with
  | nil => simpa [splitEach] using hc
  | cons chunk chunks ih =>
    obtain ⟨g, more, hs, ht, hlim, hcuts⟩ := split_cuts chunk h hl hc
    simpa [splitEach, hs] using ih ht hlim hcuts

/-- The chunks of a stream do not matter: a framer without a limit makes the reference split of
the whole stream, for every delimiter, and gives every byte back. -/
theorem splitEach_eq_reference_split (hd : d ≠ []) (chunks : List Bytes) :
    ∃ f, new d = .ok f ∧
      (∀ records rest, Cuts d chunks.flatten records rest ↔
        (f.splitEach chunks).1 = records ∧ (f.splitEach chunks).2.residual = rest) ∧
      (∀ others : List Bytes, others.flatten = chunks.flatten →
        (f.splitEach others).1 = (f.splitEach chunks).1 ∧
          (f.splitEach others).2.residual = (f.splitEach chunks).2.residual) ∧
      (f.splitEach chunks).1.flatMap (· ++ d) ++ (f.splitEach chunks).2.residual =
        chunks.flatten := by
  obtain ⟨f, hn, ht, hr, hl⟩ := new_tracks hd
  have start : Cuts d [] [] f.residual := by
    rw [hr]
    exact .rest fun hi => hd (List.infix_nil.mp hi)
  have cuts : ∀ cs : List Bytes,
      Cuts d cs.flatten (f.splitEach cs).1 (f.splitEach cs).2.residual := fun cs => by
    simpa using splitEach_cuts cs ht hl start
  refine ⟨f, hn, fun records rest => ⟨fun h => (cuts chunks).unique h, ?_⟩, ?_, ?_⟩
  · rintro ⟨rfl, rfl⟩
    exact cuts chunks
  · intro others he
    exact (he ▸ cuts others).unique (cuts chunks)
  · exact (cuts chunks).rebuild

/-- A delimiter with a border, twice in a stream that is cut inside both. -/
theorem splitEach_eq_reference_split_of_bordered :
    ([97, 98, 97, 98] : Bytes) ≠ [] ∧ ∃ f, new [97, 98, 97, 98] = .ok f ∧
      (f.splitEach [[120, 97, 98, 97], [98, 97, 98], [97, 98, 97]]).1 = [[120], []] ∧
      (f.splitEach [[120, 97, 98, 97], [98, 97, 98], [97, 98, 97]]).2.residual = [97] := by
  have hd : ([97, 98, 97, 98] : Bytes) ≠ [] := by decide
  obtain ⟨f, hn, cuts, _⟩ :=
    splitEach_eq_reference_split hd [[120, 97, 98, 97], [98, 97, 98], [97, 98, 97]]
  have second : Cuts ([97, 98, 97, 98] : Bytes) [97, 98, 97, 98, 97] [[]] [97] :=
    .cut ⟨rfl, fun _ _ _ => Nat.zero_le _⟩ (.rest (by decide))
  have first : LeftmostCut ([97, 98, 97, 98] : Bytes)
      [120, 97, 98, 97, 98, 97, 98, 97, 98, 97] [120] [97, 98, 97, 98, 97] := by
    refine ⟨rfl, fun r' t' h => ?_⟩
    cases r' with
    | nil => simp at h
    | cons a r' => simp
  obtain ⟨hr, hu⟩ := (cuts _ _).mp (.cut first second)
  exact ⟨hd, f, hn, hr, hu⟩

end Framer

end Switchboard
