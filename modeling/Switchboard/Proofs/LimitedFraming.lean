import Mathlib.Data.List.Permutation
import Switchboard.Proofs.Framing

namespace Switchboard

namespace Framer

variable {d : Bytes} {f g : Framer} {limit : Nat} {chunks : List Bytes}

/-- The records that each of the chunks gives, and the bytes that are open behind it. -/
def calls (f : Framer) : List Bytes → List (List Bytes × Bytes)
  | [] => []
  | chunk :: chunks =>
    let (records, g) := f.split chunk
    (records, g.residual) :: g.calls chunks

/-- Between any two chunks no more bytes are open than the limit. -/
def Fits (limit : Nat) (calls : List (List Bytes × Bytes)) : Prop :=
  ∀ call ∈ calls, call.2.length ≤ limit

/-- What a framer without a limit gives that starts anew behind each chunk which leaves more bytes
open than the limit: the records up to there stay, and the open bytes are dropped. -/
inductive Restarts (f : Framer) (limit : Nat) : List Bytes → List (List Bytes × Bytes) → Prop
  | within {chunks : List Bytes} (fits : Fits limit (f.calls chunks)) :
      Restarts f limit chunks (f.calls chunks)
  | restart {before after : List Bytes} {chunk residual : Bytes} {records : List Bytes}
      {earlier later : List (List Bytes × Bytes)}
      (first : f.calls (before ++ [chunk]) = earlier ++ [(records, residual)])
      (fits : Fits limit earlier) (exceeds : limit < residual.length)
      (again : Restarts f limit after later) :
      Restarts f limit (before ++ chunk :: after) (earlier ++ (records, []) :: later)

theorem calls_append (f : Framer) (xs ys : List Bytes) :
    f.calls (xs ++ ys) = f.calls xs ++ (f.splitEach xs).2.calls ys := by
  induction xs generalizing f with
  | nil => rfl
  | cons x xs ih => exact congrArg _ (ih _)

theorem splitEach_concat (f : Framer) (chunks : List Bytes) (chunk : Bytes) :
    (f.splitEach (chunks ++ [chunk])).2 = ((f.splitEach chunks).2.split chunk).2 := by
  induction chunks generalizing f with
  | nil => rfl
  | cons first chunks ih => exact ih _

theorem Tracks.withLimit (h : f.Tracks d) (limit : Nat) : (f.withLimit limit).Tracks d :=
  ⟨h.nonempty, h.borders, h.absent, h.depth⟩

/-- The open bytes are all that a framer knows of what it was given: how much of a delimiter they
end with follows from them. -/
theorem Tracks.eq_of_residual (h : f.Tracks d) (h' : g.Tracks d) (open' : f.residual = g.residual)
    (same : f.limit = g.limit) : f = g := by
  have borders := h.borders.trans h'.borders.symm
  have held : f.held = g.held := List.reverse_inj.mp open'
  have depth : f.depth = g.depth := h.depth.unique (open' ▸ h'.depth)
  cases f
  cases g
  simp_all

theorem exceedsLimit_withLimit (f : Framer) (limit : Nat) :
    (f.withLimit limit).exceedsLimit = decide (limit < f.residual.length) := by
  rw [residual, List.length_reverse]
  rfl

theorem Tracks.split (h : f.Tracks d) (bytes : Bytes) :
    (f.split bytes).2.Tracks d ∧ (f.split bytes).2.limit = f.limit := by
  have start : Cuts d f.residual ([] ++ ([] : List Bytes).reverse) f.residual := .rest h.absent
  obtain ⟨g, more, hf, tracks, same, _⟩ := foldl_pushOnto_cuts bytes h start
  simp only [Framer.split, hf]
  split
  · exact ⟨tracks.clear, same⟩
  · exact ⟨tracks, same⟩

theorem Tracks.splitEach (h : f.Tracks d) (chunks : List Bytes) :
    (f.splitEach chunks).2.Tracks d ∧ (f.splitEach chunks).2.limit = f.limit := by
  induction chunks generalizing f with
  | nil => exact ⟨h, rfl⟩
  | cons chunk chunks ih =>
    obtain ⟨tracks, same⟩ := h.split chunk
    obtain ⟨tracks', same'⟩ := ih tracks
    exact ⟨tracks', same'.trans same⟩

/-- A chunk gives the same records with a limit, which is looked at only behind it. -/
theorem Tracks.split_withLimit (h : f.Tracks d) (unlimited : f.limit = none) (limit : Nat)
    (bytes : Bytes) :
    ∃ records g, f.split bytes = (records, g) ∧ g.Tracks d ∧ g.limit = none ∧
      (f.withLimit limit).split bytes = (records,
        if limit < g.residual.length then (g.withLimit limit).clear else g.withLimit limit) := by
  have start : Cuts d f.residual ([] ++ ([] : List Bytes).reverse) f.residual := .rest h.absent
  obtain ⟨g, more, hf, tracks, free, cuts⟩ := foldl_pushOnto_cuts bytes h start
  obtain ⟨g', more', hf', tracks', limited, cuts'⟩ :=
    foldl_pushOnto_cuts bytes (h.withLimit limit) start
  obtain ⟨hmore, open'⟩ := cuts'.unique cuts
  obtain rfl : more' = more := List.reverse_inj.mp hmore
  obtain rfl : g' = g.withLimit limit :=
    tracks'.eq_of_residual (tracks.withLimit limit) open' limited
  refine ⟨more'.reverse, g, ?_, tracks, free.trans unlimited, ?_⟩
  · simp [Framer.split, hf, exceedsLimit, free, unlimited]
  · simp only [Framer.split, hf', exceedsLimit_withLimit, decide_eq_true_eq]

/-- As long as no more bytes are open than the limit, it changes nothing. -/
theorem Tracks.calls_withLimit (h : f.Tracks d) (unlimited : f.limit = none)
    (fits : Fits limit (f.calls chunks)) :
    (f.withLimit limit).calls chunks = f.calls chunks ∧
      ((f.withLimit limit).splitEach chunks).2 = (f.splitEach chunks).2.withLimit limit := by
  induction chunks generalizing f with
  | nil => exact ⟨rfl, rfl⟩
  | cons chunk chunks ih =>
    obtain ⟨records, g, hsplit, tracks, free, hlimited⟩ := h.split_withLimit unlimited limit chunk
    simp only [calls, hsplit] at fits
    obtain ⟨here, later⟩ := List.forall_mem_cons.mp fits
    rw [if_neg (Nat.not_lt.mpr here)] at hlimited
    obtain ⟨hcalls, hlast⟩ := ih tracks free later
    simp only [Framer.splitEach, calls, hsplit, hlimited, hcalls, hlast]
    exact ⟨rfl, trivial⟩

theorem Restarts.fits {calls : List (List Bytes × Bytes)} (h : Restarts f limit chunks calls) :
    Fits limit calls := by
  induction h with
  | within fits => exact fits
  | restart first fits exceeds again ih =>
    exact List.forall_mem_append.mpr ⟨fits, List.forall_mem_cons.mpr ⟨Nat.zero_le _, ih⟩⟩

section

variable (fresh : f.Tracks d) (empty : f.residual = []) (unlimited : f.limit = none)
include fresh empty

/-- Dropping what is open leaves nothing of it, not even the part of a delimiter it may have ended
with. -/
theorem clear_withLimit (h : g.Tracks d) : (g.withLimit limit).clear = f.withLimit limit :=
  (h.withLimit limit).clear.eq_of_residual (fresh.withLimit limit) empty.symm rfl

include unlimited

theorem Restarts.calls_eq {calls : List (List Bytes × Bytes)}
    (h : Restarts f limit chunks calls) : (f.withLimit limit).calls chunks = calls := by
  induction h with
  | within fits => exact (fresh.calls_withLimit unlimited fits).1
  | @restart before after chunk residual records earlier later first fits exceeds again ih =>
    rw [calls_append] at first
    obtain ⟨hearlier, hlast⟩ := List.append_inj' first rfl
    obtain ⟨hcalls, hstate⟩ :=
      fresh.calls_withLimit unlimited (hearlier ▸ fits : Fits limit (f.calls before))
    obtain ⟨tracks, free⟩ := fresh.splitEach before
    obtain ⟨records', g, hsplit, tracks', _, hlimited⟩ :=
      tracks.split_withLimit (free.trans unlimited) limit chunk
    simp only [Framer.calls, hsplit] at hlast
    obtain ⟨rfl, rfl⟩ := Prod.mk.inj (List.singleton_inj.mp hlast)
    rw [if_pos exceeds, clear_withLimit fresh empty tracks'] at hlimited
    rw [calls_append, hcalls, hstate, hearlier]
    simp only [Framer.calls, hlimited, ih]
    exact congrArg (fun rest => earlier ++ (records', rest) :: later) empty

theorem restarts_calls (before chunks : List Bytes) (fits : Fits limit (f.calls before)) :
    Restarts f limit (before ++ chunks)
      (f.calls before ++ ((f.splitEach before).2.withLimit limit).calls chunks) := by
  -- by induction on the chunks to come, behind all that have fit since the last start
  induction chunks generalizing before with
  | nil => simpa [calls] using Restarts.within fits
  | cons chunk chunks ih =>
    obtain ⟨tracks, free⟩ := fresh.splitEach before
    obtain ⟨records, g, hsplit, tracks', _, hlimited⟩ :=
      tracks.split_withLimit (free.trans unlimited) limit chunk
    have longer : f.calls (before ++ [chunk]) = f.calls before ++ [(records, g.residual)] := by
      rw [calls_append]
      simp only [calls, hsplit]
    simp only [calls, hlimited]
    split
    next exceeds =>
      have again := ih [] fun _ h => absurd h List.not_mem_nil
      rw [clear_withLimit fresh empty tracks']
      have none_left : (f.withLimit limit).residual = [] := empty
      rw [none_left]
      exact .restart longer fits exceeds again
    next within =>
      have all : Fits limit (f.calls (before ++ [chunk])) := by
        rw [longer]
        exact List.forall_mem_append.mpr
          ⟨fits, List.forall_mem_singleton.mpr (Nat.not_lt.mp within)⟩
      have rest := ih (before ++ [chunk]) all
      rw [longer, splitEach_concat, hsplit, List.append_assoc, List.append_assoc] at rest
      exact rest

end

/-- A framer with a limit never has more bytes open between two chunks, and gives just what one
without gives that starts anew whenever more are open. As long as the limit is kept it changes
nothing, and once nothing is open, as when the open bytes were dropped, what comes is treated as if
nothing had come before. -/
theorem limited_restarts (hd : d ≠ []) (limit : Nat) :
    ∃ f, new d = .ok f ∧ ∀ chunks,
      Fits limit ((f.withLimit limit).calls chunks) ∧
      (∀ calls, Restarts f limit chunks calls ↔ (f.withLimit limit).calls chunks = calls) ∧
      (Fits limit (f.calls chunks) → (f.withLimit limit).calls chunks = f.calls chunks) ∧
      (((f.withLimit limit).splitEach chunks).2.residual = [] →
        ∀ later, (f.withLimit limit).calls (chunks ++ later) =
          (f.withLimit limit).calls chunks ++ (f.withLimit limit).calls later) := by
  obtain ⟨f, hnew, fresh, empty, unlimited⟩ := new_tracks hd
  refine ⟨f, hnew, fun chunks => ?_⟩
  have restarts : Restarts f limit chunks ((f.withLimit limit).calls chunks) :=
    restarts_calls fresh empty unlimited [] chunks fun _ h => absurd h List.not_mem_nil
  refine ⟨restarts.fits, fun calls => ⟨Restarts.calls_eq fresh empty unlimited, ?_⟩,
    fun fits => (fresh.calls_withLimit unlimited fits).1, fun nothing later => ?_⟩
  · rintro rfl
    exact restarts
  · obtain ⟨tracks, same⟩ := (fresh.withLimit limit).splitEach chunks
    rw [calls_append, tracks.eq_of_residual (fresh.withLimit limit) (nothing.trans empty.symm) same]

/-- The carriage return in front of a line feed is dropped with the bytes in front of it, so that
the line feed ends nothing. -/
theorem limited_restarts_of_torn :
    let d : Bytes := [13, 10]
    let chunks : List Bytes := [[97, 98, 13], [10, 120, 13, 10, 121]]
    let calls : List (List Bytes × Bytes) := [([], []), ([[10, 120]], [121])]
    d ≠ [] ∧ ∃ f, new d = .ok f ∧ (f.withLimit 2).calls chunks = calls ∧ Fits 2 calls ∧
      Restarts f 2 chunks calls ∧ (f.splitEach chunks).1 = [[97, 98], [120]] := by
  intro d chunks calls
  have hd : d ≠ [] := by decide
  obtain ⟨f, hnew, all⟩ := limited_restarts hd 2
  obtain rfl : { borders := .ofPattern d } = f := Except.ok.inj hnew
  obtain ⟨fits, restarts, _⟩ := all chunks
  have given : (Framer.withLimit { borders := .ofPattern d } 2).calls chunks = calls := by cbv
  exact ⟨hd, _, hnew, given, given ▸ fits, (restarts calls).mpr given, by cbv⟩

end Framer

end Switchboard
