import Switchboard.Json.Reader

namespace Switchboard

namespace Table

variable {α : Type} {name : String} {value : α} {es fs : List (String × α)}

theorem insertEntry_of_greatest (h : ∀ e ∈ es, e.1 < name) :
    insertEntry name value es = es ++ [(name, value)] := by
  induction es with
  | nil => rfl
  | cons e es ih =>
    obtain ⟨he, hes⟩ := List.forall_mem_cons.mp h
    have behind : ¬name < e.1 := fun hlt => String.lt_irrefl name (String.lt_trans hlt he)
    have other : name ≠ e.1 := fun heq => String.lt_irrefl name (heq ▸ he)
    rw [insertEntry, if_neg behind, if_neg other, ih hes]
    rfl

/-- Entries in the order of their names can be entered one behind the other. -/
theorem foldl_insertEntry_of_ordered (es : List (String × α))
    (h : (es ++ fs).Pairwise fun a b => a.1 < b.1) :
    fs.foldl (fun es f => insertEntry f.1 f.2 es) es = es ++ fs := by
  induction fs generalizing es with
  | nil => simp
  | cons f fs ih =>
    have before : ∀ e ∈ es, e.1 < f.1 := fun e he =>
      (List.pairwise_append.mp h).2.2 e he f List.mem_cons_self
    rw [List.foldl_cons, insertEntry_of_greatest before, ih _ (by simpa using h)]
    simp

theorem lookup_foldl_insertEntry (h : (fs.map (·.1)).Nodup) (es : List (String × α)) :
    (fs.foldl (fun es f => insertEntry f.1 f.2 es) es).lookup name =
      (fs.lookup name).or (es.lookup name) := by
  induction fs generalizing es with
  | nil => simp
  | cons f fs ih =>
    obtain ⟨hf, hfs⟩ := List.nodup_cons.mp h
    rw [List.foldl_cons, ih hfs, lookup_insertEntry, lookup_cons_ite]
    by_cases hn : name = f.1
    · have absent : fs.lookup name = none := by
        refine List.lookup_eq_none_iff.mpr fun e he => ?_
        have other : e.1 ≠ f.1 := fun heq => hf (List.mem_map.mpr ⟨e, he, heq⟩)
        simpa [hn] using Ne.symm other
      rw [absent, if_pos hn, if_pos hn]
      rfl
    · simp [hn]

theorem mem_foldl_insertEntry {e : String × α}
    (h : e ∈ fs.foldl (fun es f => insertEntry f.1 f.2 es) es) : e ∈ fs ∨ e ∈ es := by
  induction fs generalizing es with
  | nil => exact .inr h
  | cons f fs ih =>
    rcases ih h with h | h
    · exact .inl (List.mem_cons_of_mem _ h)
    · rcases mem_insertEntry h with rfl | h
      · exact .inl List.mem_cons_self
      · exact .inr h

theorem foldl_insertEntry_ordered (h : es.Pairwise fun a b => a.1 < b.1) :
    (fs.foldl (fun es f => insertEntry f.1 f.2 es) es).Pairwise fun a b => a.1 < b.1 := by
  induction fs generalizing es with
  | nil => exact h
  | cons f fs ih => exact ih (insertEntry_ordered h)

theorem entries_foldl_insert (es : List (String × α)) (t : Table α) :
    (es.foldl (fun t e => t.insert e.1 e.2) t).entries =
      es.foldl (fun es e => insertEntry e.1 e.2 es) t.entries := by
  induction es generalizing t with
  | nil => rfl
  | cons e es ih => exact ih _

/-- A table is made of its entries. -/
theorem foldl_insert_entries (t : Table α) :
    t.entries.foldl (fun (back : Table α) e => back.insert e.1 e.2) empty = t := by
  have same := (entries_foldl_insert t.entries empty).trans
    (foldl_insertEntry_of_ordered [] t.ordered)
  generalize t.entries.foldl (fun (back : Table α) e => back.insert e.1 e.2) empty = back at same
  obtain ⟨entries, ordered⟩ := back
  obtain rfl : entries = t.entries := same
  rfl

/-- Of entries in the order of their names one at most has a given name. -/
theorem filter_eq_lookup (h : fs.Pairwise fun a b => a.1 < b.1) (name : String) :
    fs.filter (fun f => f.1 == name) = ((fs.lookup name).map fun value => (name, value)).toList := by
  induction fs with
  | nil => rfl
  | cons f fs ih =>
    obtain ⟨hf, hfs⟩ := List.pairwise_cons.mp h
    rw [lookup_cons_ite]
    by_cases hn : name = f.1
    · have none_left : fs.filter (fun f => f.1 == name) = [] := by
        refine List.filter_eq_nil_iff.mpr fun e he => ?_
        have hlt := hf e he
        simpa [hn] using fun heq : e.1 = f.1 => String.lt_irrefl f.1 (heq ▸ hlt)
      rw [List.filter_cons_of_pos (by simp [hn]), none_left, if_pos hn, hn]
      rfl
    · rw [List.filter_cons_of_neg (by simpa using Ne.symm hn), ih hfs, if_neg hn]

end Table

namespace Json

mutual

/-- Every object in it has its fields in the order of their names, each name once. -/
def Ordered : Json → Prop
  | arr items => OrderedItems items
  | obj fields => fields.Pairwise (fun a b => a.1 < b.1) ∧ OrderedFields fields
  | _ => True

def OrderedItems : List Json → Prop
  | [] => True
  | j :: js => j.Ordered ∧ OrderedItems js

def OrderedFields : List (String × Json) → Prop
  | [] => True
  | (_, j) :: fs => j.Ordered ∧ OrderedFields fs

end

theorem orderedItems_iff {js : List Json} : OrderedItems js ↔ ∀ j ∈ js, j.Ordered := by
  induction js with
  | nil => simp [OrderedItems]
  | cons j js ih => simp [OrderedItems, ih]

theorem orderedFields_iff {fs : List (String × Json)} :
    OrderedFields fs ↔ ∀ f ∈ fs, f.2.Ordered := by
  induction fs with
  | nil => simp [OrderedFields]
  | cons f fs ih => simp [OrderedFields, ih]

theorem depthOfItems_le_iff {js : List Json} {n : Nat} :
    depthOfItems js ≤ n ↔ ∀ j ∈ js, j.depth ≤ n := by
  induction js with
  | nil => simp [depthOfItems]
  | cons j js ih => rw [depthOfItems, Nat.max_le, ih, List.forall_mem_cons]

theorem depthOfFields_le_iff {fs : List (String × Json)} {n : Nat} :
    depthOfFields fs ≤ n ↔ ∀ f ∈ fs, f.2.depth ≤ n := by
  induction fs with
  | nil => simp [depthOfFields]
  | cons f fs ih => rw [depthOfFields, Nat.max_le, ih, List.forall_mem_cons]

/-- The fields of an object made of `fields`. -/
def arranged (fields : List (String × Json)) : List (String × Json) :=
  fields.foldl (fun fs f => Table.insertEntry f.1 f.2 fs) []

variable {fields : List (String × Json)} {name : String} {j : Json}

theorem ofFields_eq (fields : List (String × Json)) : ofFields fields = obj (arranged fields) := rfl

theorem arranged_ordered (fields : List (String × Json)) :
    (arranged fields).Pairwise fun a b => a.1 < b.1 :=
  Table.foldl_insertEntry_ordered .nil

theorem arranged_of_ordered (h : fields.Pairwise fun a b => a.1 < b.1) :
    arranged fields = fields :=
  Table.foldl_insertEntry_of_ordered [] h

theorem mem_of_mem_arranged {f : String × Json} (h : f ∈ arranged fields) : f ∈ fields :=
  (Table.mem_foldl_insertEntry h).resolve_right (by simp)

theorem lookup_arranged (h : (fields.map (·.1)).Nodup) (name : String) :
    (arranged fields).lookup name = fields.lookup name := by
  rw [arranged, Table.lookup_foldl_insertEntry h]
  simp

theorem ofFields_ordered (h : ∀ f ∈ fields, f.2.Ordered) : (ofFields fields).Ordered :=
  ⟨arranged_ordered fields, orderedFields_iff.mpr fun f hf => h f (mem_of_mem_arranged hf)⟩

/-- What stands in an object nests less deep than the object. -/
theorem depth_lt_of_lookup (h : (fields.map (·.1)).Nodup) (hj : fields.lookup name = some j) :
    j.depth < (ofFields fields).depth := by
  rw [← lookup_arranged h] at hj
  obtain ⟨before, behind, heq, _⟩ := List.lookup_eq_some_iff.mp hj
  have hmem : (name, j) ∈ arranged fields := heq ▸ by simp
  exact Nat.lt_succ_of_le (depthOfFields_le_iff.mp (Nat.le_refl _) _ hmem)

end Json

namespace Document

open Json (Ordered OrderedItems OrderedFields depthOfItems depthOfFields)

mutual

/-- A value written as a document is read back by any reader that goes as deep as it does. -/
theorem toJson?_ofJson : (j : Json) → j.Ordered → (room : Nat) → j.depth ≤ room →
    toJson? room (ofJson j) = some j
  | .null, _, _, _ => by simp [ofJson, toJson?]
  | .bool _, _, _, _ => by simp [ofJson, toJson?]
  | .num _, _, _, _ => by simp [ofJson, toJson?]
  | .str _, _, _, _ => by simp [ofJson, toJson?]
  | .arr items, ho, room, hd => by
    cases room with
    | zero => simp [Json.depth] at hd
    | succ room =>
      simp [ofJson, toJson?,
        itemsToJson?_ofItems items ho room (by simpa [Json.depth] using hd)]
  | .obj fields, ho, room, hd => by
    cases room with
    | zero => simp [Json.depth] at hd
    | succ room =>
      have read := fieldsToJson?_ofFields fields ho.2 room (by simpa [Json.depth] using hd)
      simp [ofJson, toJson?, read, Json.ofFields_eq, Json.arranged_of_ordered ho.1]

theorem itemsToJson?_ofItems : (js : List Json) → OrderedItems js → (room : Nat) →
    depthOfItems js ≤ room → itemsToJson? room (ofItems js) = some js
  | [], _, _, _ => by simp [ofItems, itemsToJson?]
  | j :: js, ho, room, hd => by
    obtain ⟨hj, hjs⟩ := Nat.max_le.mp hd
    simp [ofItems, itemsToJson?, toJson?_ofJson j ho.1 room hj,
      itemsToJson?_ofItems js ho.2 room hjs]

theorem fieldsToJson?_ofFields : (fs : List (String × Json)) → OrderedFields fs →
    (room : Nat) → depthOfFields fs ≤ room → fieldsToJson? room (ofFields fs) = some fs
  | [], _, _, _ => by simp [ofFields, fieldsToJson?]
  | (name, j) :: fs, ho, room, hd => by
    obtain ⟨hj, hfs⟩ := Nat.max_le.mp hd
    simp [ofFields, fieldsToJson?, toJson?_ofJson j ho.1 room hj,
      fieldsToJson?_ofFields fs ho.2 room hfs]

end

mutual

/-- Values that were read are in order. -/
theorem toJson?_ordered : (d : Document) → (room : Nat) → {j : Json} → toJson? room d = some j →
    j.Ordered
  | null, _, _, h => by
    simp only [toJson?, Option.some.injEq] at h
    simp [← h, Ordered]
  | bool _, _, _, h => by
    simp only [toJson?, Option.some.injEq] at h
    simp [← h, Ordered]
  | num _, _, _, h => by
    simp only [toJson?, Option.map_eq_some_iff] at h
    obtain ⟨n, _, rfl⟩ := h
    simp [Ordered]
  | str _, _, _, h => by
    simp only [toJson?, Option.map_eq_some_iff] at h
    obtain ⟨s, _, rfl⟩ := h
    simp [Ordered]
  | arr _, 0, _, h => by simp [toJson?] at h
  | arr items, room + 1, _, h => by
    simp only [toJson?, Option.map_eq_some_iff] at h
    obtain ⟨js, read, rfl⟩ := h
    exact itemsToJson?_ordered items room read
  | obj _, 0, _, h => by simp [toJson?] at h
  | obj fields, room + 1, _, h => by
    simp only [toJson?, Option.map_eq_some_iff] at h
    obtain ⟨fs, read, rfl⟩ := h
    exact Json.ofFields_ordered (fieldsToJson?_ordered fields room read)

theorem itemsToJson?_ordered : (ds : List Document) → (room : Nat) → {js : List Json} →
    itemsToJson? room ds = some js → OrderedItems js
  | [], _, _, h => by
    simp only [itemsToJson?, Option.some.injEq] at h
    simp [← h, OrderedItems]
  | d :: ds, room, _, h => by
    simp only [itemsToJson?, Option.bind_eq_bind, Option.bind_eq_some_iff] at h
    obtain ⟨j, first, js, rest, heq⟩ := h
    obtain rfl := Option.some.inj heq
    exact ⟨toJson?_ordered d room first, itemsToJson?_ordered ds room rest⟩

theorem fieldsToJson?_ordered : (fs : List (Option String × Document)) → (room : Nat) →
    {js : List (String × Json)} → fieldsToJson? room fs = some js → ∀ f ∈ js, f.2.Ordered
  | [], _, _, h => by
    simp only [fieldsToJson?, Option.some.injEq] at h
    simp [← h]
  | (name, d) :: fs, room, _, h => by
    simp only [fieldsToJson?, Option.bind_eq_bind, Option.bind_eq_some_iff] at h
    obtain ⟨name, _, j, first, js, rest, heq⟩ := h
    obtain rfl := Option.some.inj heq
    exact List.forall_mem_cons.mpr
      ⟨toJson?_ordered d room first, fieldsToJson?_ordered fs room rest⟩

end

section

variable {fs fields : List (String × Json)}

theorem ofFields_eq_map (fs : List (String × Json)) :
    ofFields fs = fs.map fun f => (some f.1, ofJson f.2) := by
  induction fs with
  | nil => simp [ofFields]
  | cons f fs ih => simp [ofFields, ih]

theorem filter_ofFields (p : Option String → Bool) (fs : List (String × Json)) :
    (ofFields fs).filter (fun f => p f.1) = ofFields (fs.filter fun f => p (some f.1)) := by
  simp only [ofFields_eq_map, List.filter_map]
  rfl

theorem slot?_ofFields (h : fs.Pairwise fun a b => a.1 < b.1) (name : String) :
    slot? (ofFields fs) name = some ((fs.lookup name).map ofJson) := by
  have only : fs.filter (fun f => some f.1 == some name) =
      ((fs.lookup name).map fun value => (name, value)).toList := Table.filter_eq_lookup h name
  rw [slot?, filter_ofFields (· == some name), only]
  cases fs.lookup name <;> simp [ofFields]

/-- An object gives every slot what stands under its name. -/
theorem slots?_ofFields (h : fs.Pairwise fun a b => a.1 < b.1) (names : List String) :
    (obj (ofFields fs)).slots? names = some (names.map fun n => (fs.lookup n).map ofJson) := by
  have named : (ofFields fs).all (fun f => f.1.isSome) = true := by simp [ofFields_eq_map]
  rw [slots?, if_pos named]
  induction names with
  | nil => rfl
  | cons name names ih => simp [slot?_ofFields h, ih]

/-- Whoever looks into the document for other names than the one of the tag finds these fields. -/
def Shows (d : Document) (fields : List (String × Json)) : Prop :=
  ∀ names, tagName ∉ names →
    d.slots? names = some (names.map fun n => (fields.lookup n).map ofJson)

theorem Shows.tail {d : Document} {tag : Json} (h : d.Shows ((tagName, tag) :: fields)) :
    d.Shows fields := by
  intro names untagged
  rw [h names untagged]
  refine congrArg some (List.map_congr_left fun n hn => ?_)
  have other : n ≠ tagName := fun heq => untagged (heq ▸ hn)
  rw [lookup_cons_ite, if_neg other]

theorem slots?_of_fields (h : (fields.map (·.1)).Nodup) (names : List String) :
    (ofJson (.ofFields fields)).slots? names =
      some (names.map fun n => (fields.lookup n).map ofJson) := by
  rw [Json.ofFields_eq, ofJson, slots?_ofFields (Json.arranged_ordered fields)]
  simp only [Json.lookup_arranged h]

theorem tagged?_ofFields {tags : List String} {tag : String} {place room : Nat} (inner : Bool)
    (horder : fs.Pairwise fun a b => a.1 < b.1) (values : OrderedFields fs)
    (htag : fs.lookup tagName = some (.str tag)) (known : tags.idxOf? tag = some place)
    (deep : depthOfFields fs < room) :
    (obj (ofFields fs)).tagged? inner tags room =
      some (place, obj (ofFields (fs.filter fun f => f.1 != tagName))) := by
  obtain ⟨room, rfl⟩ := Nat.exists_eq_add_one_of_ne_zero (Nat.ne_zero_of_lt deep)
  have first : (ofFields fs).filter (fun f => f.1 == some tagName) =
      [(some tagName, str (some tag))] := by
    have only : fs.filter (fun f => some f.1 == some tagName) =
        ((fs.lookup tagName).map fun value => (tagName, value)).toList :=
      Table.filter_eq_lookup horder tagName
    rw [filter_ofFields (· == some tagName), only, htag]
    simp [ofFields, ofJson]
  have others : (ofFields fs).filter (fun f => f.1 != some tagName) =
      ofFields (fs.filter fun f => f.1 != tagName) := filter_ofFields (· != some tagName) fs
  have readable : fieldsToJson? room (ofFields (fs.filter fun f => f.1 != tagName)) =
      some (fs.filter fun f => f.1 != tagName) := by
    refine fieldsToJson?_ofFields _ (Json.orderedFields_iff.mpr fun f hf => ?_) room
      (Json.depthOfFields_le_iff.mpr fun f hf => ?_)
    · exact Json.orderedFields_iff.mp values f (List.mem_filter.mp hf).1
    · exact Json.depthOfFields_le_iff.mp (Nat.le_of_lt_succ deep) f (List.mem_filter.mp hf).1
  simp only [tagged?]
  rw [first, others, readable]
  simp [alternative?, known]

/-- A tagged object is read as the alternative that its tag names, with the fields it has besides. -/
theorem tagged?_of_fields {tags : List String} {tag : String} {place room : Nat} (inner : Bool)
    (nodup : (((tagName, Json.str tag) :: fields).map (·.1)).Nodup)
    (ordered : ∀ f ∈ fields, f.2.Ordered) (known : tags.idxOf? tag = some place)
    (deep : (Json.ofFields ((tagName, .str tag) :: fields)).depth ≤ room) :
    ∃ rest, (ofJson (.ofFields ((tagName, .str tag) :: fields))).tagged? inner tags room =
      some (place, obj rest) ∧ (obj rest).Shows fields := by
  have horder := Json.arranged_ordered ((tagName, .str tag) :: fields)
  have values : ∀ f ∈ (tagName, Json.str tag) :: fields, f.2.Ordered :=
    List.forall_mem_cons.mpr ⟨by simp [Ordered], ordered⟩
  have hlookup (n) : (Json.arranged ((tagName, .str tag) :: fields)).lookup n =
      ((tagName, Json.str tag) :: fields).lookup n := Json.lookup_arranged nodup n
  have htag := (hlookup tagName).trans List.lookup_cons_self
  rw [Json.ofFields_eq] at deep
  rw [Json.ofFields_eq, ofJson]
  refine ⟨_, tagged?_ofFields inner horder (Json.ofFields_ordered values).2 htag known deep,
    fun names untagged => ?_⟩
  rw [slots?_ofFields (horder.filter _)]
  refine congrArg some (List.map_congr_left fun n hn => ?_)
  have other : n ≠ tagName := fun heq => untagged (heq ▸ hn)
  rw [lookup_filter_ne other, hlookup, lookup_cons_ite, if_neg other]

end

end Document

end Switchboard
