namespace Switchboard

section

variable {κ α : Type} [BEq κ] [LawfulBEq κ]

theorem lookup_filter_self (key : κ) (es : List (κ × α)) :
    (es.filter fun e => e.1 != key).lookup key = none := by
  refine List.lookup_eq_none_iff.mpr fun e he => ?_
  have hne : e.1 ≠ key := by simpa using (List.mem_filter.mp he).2
  simpa using Ne.symm hne

variable [DecidableEq κ]

theorem lookup_cons_ite (k : κ) (e : κ × α) (es : List (κ × α)) :
    (e :: es).lookup k = if k = e.1 then some e.2 else es.lookup k := by
  by_cases h : k = e.1
  · rw [if_pos h, h]
    exact List.lookup_cons_self
  · have hk : (k == e.1) = false := by simpa using h
    rw [List.lookup_cons, hk, if_neg h]

/-- Entries under other keys can be taken out. -/
theorem lookup_filter_ne {k key : κ} (h : k ≠ key) (es : List (κ × α)) :
    (es.filter fun e => e.1 != key).lookup k = es.lookup k := by
  induction es with
  | nil => rfl
  | cons e es ih =>
    by_cases he : e.1 = key
    · rw [List.filter_cons_of_neg (by simpa using he), ih, lookup_cons_ite, he, if_neg h]
    · rw [List.filter_cons_of_pos (by simpa using he), lookup_cons_ite, lookup_cons_ite, ih]

end

/-- Entries under names, in the order of the names. -/
structure Table (α : Type) where
  entries : List (String × α) := []
  ordered : entries.Pairwise (fun a b => a.1 < b.1) := by simp

namespace Table

variable {α : Type}

/-- Sets the entry under a name in a list that is in the order of the names. -/
def insertEntry (name : String) (value : α) : List (String × α) → List (String × α)
  | [] => [(name, value)]
  | e :: es =>
    if name < e.1 then (name, value) :: e :: es
    else if name = e.1 then (name, value) :: es
    else e :: insertEntry name value es

theorem mem_insertEntry {name : String} {value : α} {es : List (String × α)} {e : String × α}
    (h : e ∈ insertEntry name value es) : e = (name, value) ∨ e ∈ es := by
  induction es with
  | nil => simpa [insertEntry] using h
  | cons d ds ih =>
    simp only [insertEntry] at h
    split at h
    · simpa using h
    · split at h
      · rcases List.mem_cons.1 h with h | h
        · exact .inl h
        · exact .inr (List.mem_cons_of_mem _ h)
      · rcases List.mem_cons.1 h with h | h
        · exact .inr (h ▸ List.mem_cons_self)
        · exact (ih h).imp id (List.mem_cons_of_mem _)

theorem lt_of_not_lt_of_ne {a b : String} (h : ¬a < b) (hne : a ≠ b) : b < a :=
  String.not_le.1 fun hba => hne (String.le_antisymm hba (String.not_lt.1 h))

theorem insertEntry_ordered {name : String} {value : α} {es : List (String × α)}
    (h : es.Pairwise fun a b => a.1 < b.1) :
    (insertEntry name value es).Pairwise fun a b => a.1 < b.1 := by
  induction es with
  | nil => simp [insertEntry]
  | cons e es ih =>
    obtain ⟨he, hes⟩ := List.pairwise_cons.1 h
    simp only [insertEntry]
    split
    next hlt =>
      refine List.pairwise_cons.2 ⟨fun d hd => ?_, h⟩
      rcases List.mem_cons.1 hd with rfl | hd
      · exact hlt
      · exact String.lt_trans hlt (he d hd)
    next hlt =>
      split
      next heq => exact List.pairwise_cons.2 ⟨fun d hd => heq ▸ he d hd, hes⟩
      next hne =>
        refine List.pairwise_cons.2 ⟨fun d hd => ?_, ih hes⟩
        rcases mem_insertEntry hd with rfl | hd
        · exact lt_of_not_lt_of_ne hlt hne
        · exact he d hd

def empty : Table α := {}

def insert (t : Table α) (name : String) (value : α) : Table α :=
  ⟨insertEntry name value t.entries, insertEntry_ordered t.ordered⟩

def erase (t : Table α) (name : String) : Table α :=
  ⟨t.entries.filter fun e => e.1 != name, t.ordered.filter _⟩

def get? (t : Table α) (name : String) : Option α := t.entries.lookup name

def contains (t : Table α) (name : String) : Bool := (t.get? name).isSome

def values (t : Table α) : List α := t.entries.map (·.2)

def size (t : Table α) : Nat := t.entries.length

theorem lookup_insertEntry (name other : String) (value : α) (es : List (String × α)) :
    (insertEntry name value es).lookup other =
      if other = name then some value else es.lookup other := by
  induction es with
  | nil => rw [insertEntry, lookup_cons_ite]
  | cons e es ih =>
    rw [insertEntry]
    split
    next => rw [lookup_cons_ite]
    next =>
      split
      next heq =>
        rw [lookup_cons_ite, lookup_cons_ite, ← heq]
        by_cases ho : other = name <;> simp [ho]
      next hne =>
        rw [lookup_cons_ite, lookup_cons_ite, ih]
        by_cases ho : other = name
        · have : other ≠ e.1 := fun h => hne (ho ▸ h)
          simp [ho, hne]
        · simp [ho]

@[simp] theorem get?_empty (name : String) : (empty : Table α).get? name = none := rfl

theorem get?_insert (t : Table α) (name other : String) (value : α) :
    (t.insert name value).get? other = if other = name then some value else t.get? other :=
  lookup_insertEntry name other value t.entries

theorem get?_erase (t : Table α) (name other : String) :
    (t.erase name).get? other = if other = name then none else t.get? other := by
  by_cases h : other = name
  · rw [if_pos h, h]
    exact lookup_filter_self name t.entries
  · rw [if_neg h]
    exact lookup_filter_ne h t.entries

/-- A table has the entries that can be found in it. -/
theorem mem_entries_iff {t : Table α} {name : String} {value : α} :
    (name, value) ∈ t.entries ↔ t.get? name = some value := by
  obtain ⟨es, hes⟩ := t
  show (name, value) ∈ es ↔ es.lookup name = some value
  induction es with
  | nil => simp
  | cons e es ih =>
    obtain ⟨hlt, hes⟩ := List.pairwise_cons.1 hes
    rw [List.mem_cons, ih hes, lookup_cons_ite]
    by_cases h : name = e.1
    · have absent : es.lookup name ≠ some value := by
        intro hl
        have hmem : (name, value) ∈ es := (ih hes).2 hl
        exact String.lt_irrefl name (h ▸ hlt (name, value) hmem)
      rw [if_pos h, Option.some.injEq]
      constructor
      · rintro (rfl | hl)
        · rfl
        · exact absurd hl absent
      · rintro rfl
        exact .inl (by rw [h])
    · rw [if_neg h]
      constructor
      · rintro (rfl | hl)
        · exact absurd rfl h
        · exact hl
      · exact .inr

end Table

end Switchboard
