import Switchboard.Proofs.LimitedFraming

namespace Switchboard

/-- `a - b`, which fails below zero. -/
def sub? (a b : Nat) : Option Nat := if b ≤ a then some (a - b) else none

theorem sub?_eq_some {a b c : Nat} (h : a = c + b) : sub? a b = some c := by
  simp [sub?, h]

namespace BorderTable

variable {α : Type} [DecidableEq α]

/-- `advance`, which fails where it would look behind the end of the pattern or of the table. -/
def advance? (t : BorderTable α) (depth : Nat) (a : α) : Option Nat :=
  match t.pattern[depth]? with
  | none => none
  | some next =>
    if next = a then some (depth + 1)
    else if h : 0 < depth then
      if depth - 1 < t.widths.size then
        have : t.width (depth - 1) < depth :=
          Nat.lt_of_le_of_lt (t.width_le (depth - 1)) (by omega)
        t.advance? (t.width (depth - 1)) a
      else none
    else some 0
termination_by depth

/-- Below the end of the pattern, every depth that is tried has an entry. -/
theorem advance?_eq_some (t : BorderTable α) (full : t.pattern.size ≤ t.widths.size) (a : α)
    {depth : Nat} (inside : depth < t.pattern.size) :
    t.advance? depth a = some (t.advance depth a) := by
  induction depth using Nat.strongRecOn with
  | ind depth ih =>
    have hp : t.pattern[depth]? = some t.pattern[depth] := Array.getElem?_eq_getElem inside
    unfold advance? advance
    simp only [hp, Option.some.injEq]
    split
    next => rfl
    next =>
      split
      next hpos =>
        have hw : t.width (depth - 1) ≤ depth - 1 := t.width_le (depth - 1)
        rw [if_pos (by omega)]
        exact ih _ (by omega) (by omega)
      next => rfl

end BorderTable

namespace Framer

variable {d : Bytes} {f g start : Framer}

/-- The positions behind the delimiters that `bytes` complete, when `position` bytes are in front
of them, and how much of a delimiter is matched behind the last byte. -/
def ends? (t : BorderTable UInt8) : (position depth : Nat) → Bytes → Option (List Nat × Nat)
  | _, depth, [] => some ([], depth)
  | position, depth, b :: bytes => do
    let depth ← t.advance? depth b
    if depth = t.pattern.size then
      let (ends, last) ← ends? t (position + 1) 0 bytes
      return ((position + 1) :: ends, last)
    else ends? t (position + 1) depth bytes

/-- Cuts a buffer, of which `consumed` bytes are gone already, at the positions `ends`, and takes
the delimiter of `size` bytes off each piece. -/
def cutAt? (size : Nat) : (consumed : Nat) → (ends : List Nat) → Bytes →
    Option (List Bytes × Bytes)
  | _, [], buffer => some ([], buffer)
  | consumed, position :: ends, buffer => do
    let taken ← sub? position consumed
    if buffer.length < taken then none
    else
      let kept ← sub? taken size
      let (records, rest) ← cutAt? size position ends (buffer.drop taken)
      return ((buffer.take taken).take kept :: records, rest)

/-- A record and the delimiter behind it are cut off the front of a buffer. -/
theorem cutAt?_record {size consumed position : Nat} (hs : size = d.length) {ends : List Nat}
    {r rest : Bytes} (hp : position = consumed + (r ++ d).length) :
    cutAt? size consumed (position :: ends) (r ++ d ++ rest) =
      (cutAt? size position ends rest).map fun cut => (r :: cut.1, cut.2) := by
  have taken : sub? position consumed = some (r ++ d).length := sub?_eq_some (by omega)
  have kept : sub? (r ++ d).length size = some r.length :=
    sub?_eq_some (by rw [List.length_append, hs])
  have fits : ¬ (r ++ d ++ rest).length < (r ++ d).length :=
    Nat.not_lt.mpr (List.prefix_append (r ++ d) rest).length_le
  simp only [cutAt?, taken, kept, Option.bind_eq_bind, Option.bind_some, if_neg fits,
    List.take_left, List.drop_left]
  cases cutAt? size position ends rest <;> rfl

/-- `split` in two passes over one buffer, of which the first finds where delimiters end and the
second cuts there. An index out of range or a difference below zero makes it fail. -/
def split? (f : Framer) (bytes : Bytes) : Option (List Bytes × Framer) := do
  let (ends, depth) ← ends? f.borders f.residual.length f.depth bytes
  let (records, rest) ← cutAt? f.borders.pattern.size 0 ends (f.residual ++ bytes)
  let g : Framer := { f with held := rest.reverse, depth }
  return (records, if g.exceedsLimit then g.clear else g)

theorem push_eq_open {b : UInt8} (h : f.push b = (g, none)) :
    f.borders.advance f.depth b ≠ f.borders.pattern.size ∧
      g.depth = f.borders.advance f.depth b ∧ g.borders = f.borders := by
  simp only [push] at h
  split at h
  next => cases h
  next open' =>
    cases h
    exact ⟨open', rfl, rfl⟩

theorem push_eq_closed {b : UInt8} {r : Bytes} (h : f.push b = (g, some r)) :
    f.borders.advance f.depth b = f.borders.pattern.size ∧ g.depth = 0 ∧
      g.borders = f.borders := by
  simp only [push] at h
  split at h
  next closed =>
    cases h
    exact ⟨closed, rfl, rfl⟩
  next => cases h

theorem Tracks.depth_lt (h : f.Tracks d) : f.depth < f.borders.pattern.size := by
  have hle := h.depth.1.1
  have hpos := h.length_pos
  rw [h.size]
  omega

theorem Tracks.advance?_eq_some (h : f.Tracks d) (b : UInt8) :
    f.borders.advance? f.depth b = some (f.borders.advance f.depth b) := by
  refine f.borders.advance?_eq_some ?_ b h.depth_lt
  rw [h.size, h.borders, BorderTable.ofPattern_size]

/-- Both passes follow the bytes one by one: what the first finds, the second cuts off. -/
theorem Tracks.passes (h : f.Tracks d) (bytes : Bytes) (consumed : Nat) :
    ∃ ends records g, g.Tracks d ∧ g.limit = f.limit ∧
      (∀ taken, bytes.foldl pushOnto (f, taken) = (g, records.reverse ++ taken)) ∧
      ends? f.borders (consumed + f.residual.length) f.depth bytes = some (ends, g.depth) ∧
      cutAt? f.borders.pattern.size consumed ends (f.residual ++ bytes) =
        some (records, g.residual) := by
  induction bytes generalizing f consumed with
  | nil => exact ⟨[], [], f, h, rfl, fun _ => rfl, rfl, by simp [cutAt?]⟩
  | cons b bytes ih =>
    rcases push_cases h b with ⟨f', hp, tracks, limit, residual⟩ |
      ⟨f', r, hp, tracks, limit, residual, hr⟩
    · obtain ⟨open', depth, borders⟩ := push_eq_open hp
      obtain ⟨ends, records, g, tracks', limit', run, first, second⟩ := ih tracks consumed
      refine ⟨ends, records, g, tracks', limit'.trans limit, ?_, ?_, ?_⟩
      · intro taken
        simpa [pushOnto, hp] using run taken
      · rw [borders, depth, residual, List.length_append] at first
        simpa [ends?, h.advance?_eq_some, open', ← Nat.add_assoc] using first
      · rw [borders, residual, List.append_assoc] at second
        exact second
    · obtain ⟨closed, depth, borders⟩ := push_eq_closed hp
      -- behind a delimiter everything up to it is consumed
      obtain ⟨ends, records, g, tracks', limit', run, first, second⟩ :=
        ih tracks (consumed + f.residual.length + 1)
      refine ⟨(consumed + f.residual.length + 1) :: ends, r :: records, g, tracks',
        limit'.trans limit, ?_, ?_, ?_⟩
      · intro taken
        simpa [pushOnto, hp] using run (r :: taken)
      · rw [borders, depth, residual, List.length_nil, Nat.add_zero] at first
        simp [ends?, h.advance?_eq_some, closed, first]
      · rw [borders, residual, List.nil_append] at second
        have lengths := congrArg List.length hr
        rw [List.length_append, List.length_singleton] at lengths
        have buffer : f.residual ++ b :: bytes = r ++ d ++ bytes := by rw [← hr]; simp
        rw [buffer, cutAt?_record h.size (by omega), second]
        rfl

/-- No index of the two passes is out of range and no difference below zero, and together they do
what `split` does. -/
theorem Tracks.split?_eq_some (h : f.Tracks d) (bytes : Bytes) :
    f.split? bytes = some (f.split bytes) := by
  obtain ⟨ends, records, g, tracks, limit, run, first, second⟩ := h.passes bytes 0
  have borders : g.borders = f.borders := tracks.borders.trans h.borders.symm
  have state : { f with held := g.residual.reverse, depth := g.depth } = g := by
    rw [residual, List.reverse_reverse, ← borders, ← limit]
  rw [Nat.zero_add] at first
  simp only [split?, Framer.split, first, second, run [], state, Option.bind_eq_bind,
    Option.bind_some, List.append_nil, List.reverse_reverse]
  rfl

section

variable (fresh : start.Tracks d) (empty : start.residual = [])
include fresh empty

/-- Bytes without a delimiter all stay open. -/
theorem scan_absent {bytes : Bytes} (absent : ¬ d <:+: bytes) :
    ∃ g, bytes.foldl pushOnto (start, []) = (g, []) ∧ g.Tracks d ∧ g.limit = start.limit ∧
      g.residual = bytes := by
  have nothing : Cuts d [] ([] ++ ([] : List Bytes).reverse) start.residual := by
    rw [empty]
    exact .rest fun hi => fresh.nonempty (List.infix_nil.mp hi)
  obtain ⟨g, more, run, tracks, limit, cuts⟩ := foldl_pushOnto_cuts bytes fresh nothing
  obtain ⟨none_cut, residual⟩ := cuts.unique (.rest absent)
  obtain rfl : more = [] := List.reverse_eq_nil_iff.mp none_cut
  exact ⟨g, run, tracks, limit, residual⟩

/-- Scanning the open bytes again from their start leads back to where the scan is. -/
theorem Tracks.rescan (h : f.Tracks d) (limit : start.limit = f.limit) (bytes : Bytes) :
    start.split (f.residual ++ bytes) = f.split bytes := by
  obtain ⟨g, run, tracks, limit', residual⟩ := scan_absent fresh empty h.absent
  obtain rfl : g = f := tracks.eq_of_residual h residual (limit'.trans limit)
  simp only [Framer.split, List.foldl_append, run]

/-- The depth already follows from the last of them, as many as the delimiter has but one. -/
theorem Tracks.rescan_tail (h : f.Tracks d) (unlimited : start.limit = none) {tail : Bytes}
    (ht : tail <:+ f.residual) (hl : d.length ≤ tail.length + 1) :
    (start.split tail).2.depth = f.depth := by
  obtain ⟨g, run, tracks, limit, residual⟩ :=
    scan_absent fresh empty fun hi => h.absent (hi.trans ht.isInfix)
  have depth := tracks.depth
  rw [residual, overlaps_of_suffix ht (by omega)] at depth
  simp only [Framer.split, run, exceedsLimit, limit, unlimited]
  exact depth.unique h.depth

end

/-- What can be asked of a framer. -/
inductive Operation where
  | split (bytes : Bytes)
  | clear
  | withLimit (limit : Nat)

/-- The framer behind an operation. -/
def operate (f : Framer) : Operation → Framer
  | .split bytes => (f.split bytes).2
  | .clear => f.clear
  | .withLimit limit => f.withLimit limit

theorem Tracks.operate (h : f.Tracks d) (operation : Operation) :
    (f.operate operation).Tracks d := by
  cases operation with
  | split bytes => exact (h.split bytes).1
  | clear => exact h.clear
  | withLimit limit => exact h.withLimit limit

theorem Tracks.operate_all (h : f.Tracks d) (operations : List Operation) :
    (operations.foldl Framer.operate f).Tracks d := by
  induction operations generalizing f with
  | nil => exact h
  | cons operation operations ih => exact ih (h.operate operation)

/-- Whatever a framer was used for, no delimiter is among the open bytes, and its depth is the
length of the longest proper prefix of the delimiter that ends them. So it goes on as if it scanned
the open bytes again, of which the last ones tell the depth, and whatever comes, no index is out of
range and no difference below zero. -/
theorem scan_resumes (hd : d ≠ []) (operations : List Operation) :
    ∃ start, new d = .ok start ∧
      let f := operations.foldl operate start
      ¬ d <:+: f.residual ∧
      IsGreatest {k | k < d.length ∧ d.take k <:+ f.residual} f.depth ∧
      (∀ bytes, { start with limit := f.limit }.split (f.residual ++ bytes) = f.split bytes) ∧
      (∀ tail, tail <:+ f.residual → d.length ≤ tail.length + 1 →
        (start.split tail).2.depth = f.depth) ∧
      ∀ bytes, f.split? bytes = some (f.split bytes) := by
  obtain ⟨start, hnew, fresh, empty, unlimited⟩ := new_tracks hd
  refine ⟨start, hnew, ?_⟩
  intro f
  have tracks : f.Tracks d := fresh.operate_all operations
  have again : Tracks d { start with limit := f.limit } :=
    ⟨fresh.nonempty, fresh.borders, fresh.absent, fresh.depth⟩
  have proper : overlaps d f.residual (d.length - 1) =
      {k | k < d.length ∧ d.take k <:+ f.residual} := by
    ext k
    exact and_congr_left fun _ => Nat.le_sub_one_iff_lt tracks.length_pos
  exact ⟨tracks.absent, proper ▸ tracks.depth, again.rescan empty tracks rfl,
    fun _ => fresh.rescan_tail empty tracks unlimited, tracks.split?_eq_some⟩

/-- The limit drops `aaaa`, which ends with the `aa` of a delimiter. Of the `aaa` behind it the
first byte is no part of a delimiter, as the scan finds out by falling back from `aa` to `a`. -/
theorem scan_resumes_of_dropped :
    ([97, 97, 98] : Bytes) ≠ [] ∧ ∃ start, new [97, 97, 98] = .ok start ∧
      let f := [.split [120, 97, 97, 98, 97, 97], .withLimit 3, .split [97, 97],
        .split [97, 97, 97]].foldl operate start
      f.residual = [97, 97, 97] ∧ f.depth = 2 ∧
        IsGreatest {k | k < 3 ∧ ([97, 97, 98] : Bytes).take k <:+ [97, 97, 97]} 2 ∧
        f.split? [98] = some ([[97]], start.withLimit 3) := by
  have hd : ([97, 97, 98] : Bytes) ≠ [] := by decide
  obtain ⟨start, hnew, all⟩ := scan_resumes hd [.split [120, 97, 97, 98, 97, 97], .withLimit 3,
    .split [97, 97], .split [97, 97, 97]]
  obtain rfl : { borders := .ofPattern [97, 97, 98] } = start := Except.ok.inj hnew
  have reached : [.split [120, 97, 97, 98, 97, 97], .withLimit 3, .split [97, 97],
      .split [97, 97, 97]].foldl operate { borders := .ofPattern [97, 97, 98] } =
      { borders := .ofPattern [97, 97, 98], limit := some 3, held := [97, 97, 97],
        depth := 2 } := by
    cbv
  refine ⟨hd, _, hnew, ?_⟩
  rw [reached] at all ⊢
  obtain ⟨_, greatest, _, _, guarded⟩ := all
  refine ⟨rfl, rfl, greatest, (guarded [98]).trans ?_⟩
  cbv

end Framer

end Switchboard
