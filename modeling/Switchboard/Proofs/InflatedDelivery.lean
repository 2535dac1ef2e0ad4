import Switchboard.Deflate.Codec
import Switchboard.Proofs.InflateCourse

namespace Switchboard

section

variable {C : Type} [Codec C] {c c' : C} {source : String} {v w : Bytes}
  {packets : List Packet}

/-- A codec that finds the packets in the bytes: with any first part of them, cut in any way, it
finds the first packets, and with all of them all packets. -/
def Delivers (c : C) (source : String) (wire : Bytes) (packets : List Packet) : Prop :=
  ∀ pieces : List Bytes, pieces.flatten <+: wire → ∃ got c',
    Codec.decodeChunks source pieces c = (.ok got, c') ∧ got <+: packets ∧
      (pieces.flatten = wire → got = packets)

theorem Delivers.nil (h : Delivers c source [] packets) : packets = [] := by
  obtain ⟨got, c', hnone, _, hall⟩ := h [] (List.prefix_refl _)
  cases hnone
  exact (hall rfl).symm

/-- What comes first is decoded, and the codec then finds the other packets in the rest. -/
theorem Delivers.decode (h : Delivers c source (v ++ w) packets) :
    ∃ got rest c', Codec.decode c source v = (.ok got, c') ∧ packets = got ++ rest ∧
      Delivers c' source w rest := by
  obtain ⟨got, c', hfirst, ⟨rest, rfl⟩, _⟩ := h [v] (by simp)
  have hdecode : Codec.decode c source v = (.ok got, c') := by
    rcases hd : Codec.decode c source v with ⟨_ | found, d⟩
    · simp [Codec.decodeChunks, hd] at hfirst
    · simp only [Codec.decodeChunks, hd, List.append_nil] at hfirst
      exact hfirst
  refine ⟨got, rest, c', hdecode, rfl, fun pieces hpieces => ?_⟩
  have hflat : (v :: pieces).flatten = v ++ pieces.flatten := List.flatten_cons
  obtain ⟨all, c'', hchunks, hprefix, hall⟩ :=
    h (v :: pieces) (hflat ▸ (List.prefix_append_right_inj v).mpr hpieces)
  rcases hmore : Codec.decodeChunks source pieces c' with ⟨_ | more, d⟩
  · simp [Codec.decodeChunks, hdecode, hmore] at hchunks
  · simp only [Codec.decodeChunks, hdecode, hmore, Prod.mk.injEq, Except.ok.injEq] at hchunks
    obtain ⟨rfl, rfl⟩ := hchunks
    refine ⟨more, d, rfl, (List.prefix_append_right_inj got).mp hprefix, fun heq => ?_⟩
    exact List.append_cancel_left (hall (by rw [hflat, heq]))

end

namespace Deflated

open Deflate Inflater

variable {K C : Type} [Compressor K] [Codec C] {c : Deflated K C} {source : String}
  {input later out wire : Bytes} {packets : List Packet}

theorem decodePlain_delivers {d : C} {v w : Bytes} (h : Delivers d source (v ++ w) packets) :
    ∃ got rest d', decodePlain source d v = (.ok got, d') ∧ packets = got ++ rest ∧
      Delivers d' source w rest := by
  unfold decodePlain
  cases v with
  | nil => exact ⟨[], packets, d, rfl, rfl, h⟩
  | cons => exact h.decode

/-- One block of the input: what it holds is decoded, and what is left is to come. -/
theorem block_delivers {block : Block} (hblock : c.inflater.nextBlock input = some block)
    (h : Along c.inflater (input ++ later) out)
    (d : Delivers c.inner source (c.inflater.ready ++ out) packets) :
    ∃ got rest left inner, decodePlain source c.inner block.plain = (.ok got, inner) ∧
      packets = got ++ rest ∧ Along block.inflater (block.input ++ later) left ∧
      Delivers inner source (block.inflater.ready ++ left) rest ∧ block.ended = false ∧
      (block.plain.length < blockSize → block.inflater.ready = []) ∧
      (block.plain = [] → block.input = []) := by
  obtain ⟨block', hblock', takes, hnil, _⟩ := nextBlock_course Along.course h
  obtain rfl : block' = block := Option.some.inj (hblock'.symm.trans hblock)
  obtain ⟨left, hout, along⟩ := takes.out
  have goesOn : block'.ended = false :=
    eq_false_of_ne_true fun ended => along.not_ended (takes.ended.mp ended).2
  rw [hout] at d
  obtain ⟨got, rest, inner, hdecode, hpackets, d'⟩ := decodePlain_delivers d
  refine ⟨got, rest, left, inner, hdecode, hpackets, along, d', goesOn, takes.room, fun empty => ?_⟩
  exact ((hnil empty).resolve_right (by rw [goesOn]; decide)).1

/-- How inflating ends: the packets of the input stand behind those before, and the codec finds the
other packets in what comes later. -/
def Reaches (source : String) (later : Bytes) (acc packets : List Packet)
    (r : Except Error (List Packet) × Deflated K C) : Prop :=
  ∃ got rest c left, r = (.ok (acc.reverse ++ got), c) ∧ packets = got ++ rest ∧
    Along c.inflater later left ∧ c.inflater.ready = [] ∧ Delivers c.inner source left rest

variable {acc more rest : List Packet}

theorem reaches_last {i : Inflater} {inner : C} {left : Bytes} (h : Along i later left)
    (hready : i.ready = []) (d : Delivers inner source (i.ready ++ left) rest) :
    Reaches source later acc (more ++ rest)
      (.ok (more.reverseAux acc).reverse, { c with inner, inflater := i }) := by
  rw [hready] at d
  exact ⟨more, rest, { c with inner, inflater := i }, left, by simp, rfl, h, hready, d⟩

theorem Reaches.behind {r : Except Error (List Packet) × Deflated K C}
    (h : Reaches source later (more.reverseAux acc) rest r) :
    Reaches source later acc (more ++ rest) r := by
  obtain ⟨got, others, c, left, rfl, rfl, along, hready, d⟩ := h
  exact ⟨more ++ got, others, c, left, by simp, (List.append_assoc ..).symm, along, hready, d⟩

/-- The inner codec is given what the input stands for, however it comes. -/
theorem inflateAll_reaches (h : Along c.inflater (input ++ later) out)
    (d : Delivers c.inner source (c.inflater.ready ++ out) packets) :
    Reaches source later acc packets (c.inflateAll source input acc) := by
  -- The cases are those of one turn of the loop; those that fail or end the stream cannot arise.
  fun_induction inflateAll source c input acc generalizing out packets with
  | case1 c input acc hblock =>
    obtain ⟨block, hblock', _⟩ := nextBlock_course Along.course h
    rw [hblock] at hblock'
    cases hblock'
  | case2 c input acc block hblock e inner hplain =>
    obtain ⟨_, _, _, _, hdecode, _⟩ := block_delivers hblock h d
    rw [hplain] at hdecode
    cases hdecode
  | case3 c input acc block hblock more inner hplain _ ended
  | case4 c input acc block hblock more inner hplain _ ended =>
    obtain ⟨_, _, _, _, _, _, _, _, goesOn, _⟩ := block_delivers hblock h d
    rw [goesOn] at ended
    cases ended
  | case5 c input acc block hblock more inner hplain =>
    have last : block.plain.length < blockSize ∧ block.input.isEmpty = true := by assumption
    obtain ⟨got, rest, left, inner', hdecode, rfl, along, d', _, room, _⟩ :=
      block_delivers hblock h d
    rw [hplain] at hdecode
    cases hdecode
    rw [List.isEmpty_iff.mp last.2] at along
    exact reaches_last along (room last.1) d'
  | case6 c input acc block hblock more inner hplain =>
    have stuck : block.plain.isEmpty = true ∧ block.input.length = input.length := by assumption
    obtain ⟨got, rest, left, inner', hdecode, rfl, along, d', _, room, hnil⟩ :=
      block_delivers hblock h d
    rw [hplain] at hdecode
    cases hdecode
    have empty : block.plain = [] := List.isEmpty_iff.mp stuck.1
    rw [hnil empty] at along
    exact reaches_last along (room (by rw [empty]; decide)) d'
  | case7 c input acc block hblock more inner hplain =>
    rename_i ih
    obtain ⟨got, rest, left, inner', hdecode, rfl, along, d', _, _, _⟩ :=
      block_delivers hblock h d
    rw [hplain] at hdecode
    cases hdecode
    exact (ih along d').behind

/-- A codec behind an inflater finds the packets that the inner codec finds in what the bytes stand
for. -/
theorem delivers (h : Along c.inflater wire out) (hready : c.inflater.ready = [])
    (d : Delivers c.inner source out packets) : Delivers c source wire packets := by
  intro pieces hpieces
  induction pieces generalizing c wire out packets with
  | nil =>
    refine ⟨[], c, rfl, List.nil_prefix, fun heq => ?_⟩
    have hout : out = [] := h.done heq.symm
    exact (hout ▸ d).nil.symm
  | cons piece pieces ih =>
    obtain ⟨later, rfl⟩ : ∃ later, piece ++ later = wire :=
      (List.prefix_append piece pieces.flatten).trans hpieces
    have reaches : Reaches source later [] packets (c.inflateAll source piece []) :=
      inflateAll_reaches h (by rwa [hready])
    obtain ⟨first, rest, c', left, hdecode, rfl, along, hready', d'⟩ := reaches
    have hflat : (piece :: pieces).flatten = piece ++ pieces.flatten := List.flatten_cons
    have hlater : pieces.flatten <+: later :=
      (List.prefix_append_right_inj piece).mp (hflat ▸ hpieces)
    obtain ⟨more, c'', hmore, hprefix, hall⟩ := ih along hready' d' hlater
    have hdecode : Codec.decode c source piece = (.ok first, c') := hdecode
    refine ⟨first ++ more, c'', by simp [Codec.decodeChunks, hdecode, hmore],
      (List.prefix_append_right_inj first).mpr hprefix, fun heq => ?_⟩
    rw [hall (List.append_cancel_left (hflat ▸ heq))]

end Deflated

end Switchboard
