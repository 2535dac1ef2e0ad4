namespace Switchboard

/-- A run of octets, first octet first. -/
abbrev Bytes := List UInt8

namespace Bytes

/-- Pieces of `size` octets; the last may be shorter. -/
def pieces (bytes : Bytes) (size : Nat) : List Bytes :=
  if h : 0 < size ∧ bytes ≠ [] then
    have : (bytes.drop size).length < bytes.length := by
      have := List.length_pos_iff.2 h.2
      simp only [List.length_drop]
      omega
    bytes.take size :: pieces (bytes.drop size) size
  else []
termination_by bytes.length

theorem flatten_pieces (bytes : Bytes) {size : Nat} (h : 0 < size) :
    (bytes.pieces size).flatten = bytes := by
  fun_induction pieces bytes size with
  | case1 bytes _ _ ih => rw [List.flatten_cons, ih, List.take_append_drop]
  | case2 bytes hstop =>
    have none : bytes = [] := Decidable.byContradiction fun ne => hstop ⟨h, ne⟩
    rw [none, List.flatten_nil]

theorem mem_pieces {bytes piece : Bytes} {size : Nat} (h : piece ∈ bytes.pieces size) :
    piece ≠ [] ∧ piece.length ≤ size := by
  fun_induction pieces bytes size with
  | case1 bytes hgo _ ih =>
    rcases List.mem_cons.mp h with rfl | h
    · obtain ⟨b, bytes, rfl⟩ := List.exists_cons_of_ne_nil hgo.2
      obtain ⟨n, hn⟩ := Nat.exists_eq_succ_of_ne_zero (Nat.pos_iff_ne_zero.mp hgo.1)
      exact ⟨by simp [hn], List.length_take_le ..⟩
    · exact ih h
  | case2 => cases h

end Bytes

end Switchboard
