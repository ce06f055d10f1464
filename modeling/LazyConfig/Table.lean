import LazyConfig.Sorting
set_option autoImplicit false

/-!
# Tables

A table gives at most one entry to each text.  Its entries are stored in strictly
ascending order of their keys, which the type demands, so two tables that answer
every query alike are equal whatever the order they were built in, and every
listing of a table is in the order that printed answers use.
-/

namespace LazyConfig

/-- At most one entry for each key. -/
structure Table (α : Type) where
  /-- The entries with their keys. -/
  entries : List (String × α)
  /-- The keys strictly ascend. -/
  ascending : entries.Pairwise (fun p q => p.1 < q.1)

namespace Table

variable {α β : Type}

/-- The table without entries. -/
def empty : Table α := ⟨[], List.Pairwise.nil⟩

instance : Inhabited (Table α) := ⟨empty⟩

/-- The keys, in ascending order. -/
def keys (t : Table α) : List String := t.entries.map Prod.fst

/-- The first entry with a key in a list of entries. -/
def findEntry (key : String) : List (String × α) → Option α
  | [] => none
  | (k, v) :: rest => if k = key then some v else findEntry key rest

/-- The entry of a key. -/
def get? (t : Table α) (key : String) : Option α := findEntry key t.entries

/-- Whether a key has an entry. -/
def contains (t : Table α) (key : String) : Bool := (t.get? key).isSome

/-! ## Insertion -/

/-- A sorted list of entries in which the key has the given entry. -/
def insertEntry (key : String) (value : α) : List (String × α) → List (String × α)
  | [] => [(key, value)]
  | (k, v) :: rest =>
      if key < k then (key, value) :: (k, v) :: rest
      else if key = k then (key, value) :: rest
      else (k, v) :: insertEntry key value rest

theorem key_of_mem_insertEntry {key : String} {value : α} {entries : List (String × α)}
    {p : String × α} (h : p ∈ insertEntry key value entries) :
    p.1 = key ∨ p ∈ entries := by
  induction entries with
  | nil => simp [insertEntry] at h; simp [h]
  | cons q rest ih =>
    obtain ⟨k, v⟩ := q
    unfold insertEntry at h
    split at h
    · rcases List.mem_cons.mp h with rfl | h
      · exact Or.inl rfl
      · exact Or.inr h
    · split at h
      · rcases List.mem_cons.mp h with rfl | h
        · exact Or.inl rfl
        · exact Or.inr (List.mem_cons_of_mem _ h)
      · rcases List.mem_cons.mp h with rfl | h
        · exact Or.inr List.mem_cons_self
        · rcases ih h with h | h
          · exact Or.inl h
          · exact Or.inr (List.mem_cons_of_mem _ h)

theorem lt_of_not_lt_of_ne {a b : String} (h : ¬ a < b) (hne : a ≠ b) : b < a := by
  apply Decidable.byContradiction
  intro hba
  exact hne (String.le_antisymm (String.not_lt.mp hba) (String.not_lt.mp h))

theorem insertEntry_ascending (key : String) (value : α) {entries : List (String × α)}
    (h : entries.Pairwise (fun p q => p.1 < q.1)) :
    (insertEntry key value entries).Pairwise (fun p q => p.1 < q.1) := by
  induction entries with
  | nil => simp [insertEntry]
  | cons q rest ih =>
    obtain ⟨k, v⟩ := q
    have hq := List.pairwise_cons.mp h
    unfold insertEntry
    split
    · next hlt =>
      refine List.pairwise_cons.mpr ⟨?_, h⟩
      intro p hp
      rcases List.mem_cons.mp hp with rfl | hp
      · exact hlt
      · exact String.lt_trans hlt (hq.1 p hp)
    · next hge =>
      split
      · next heq => subst heq; exact List.pairwise_cons.mpr ⟨hq.1, hq.2⟩
      · next hne =>
        refine List.pairwise_cons.mpr ⟨?_, ih hq.2⟩
        intro p hp
        rcases key_of_mem_insertEntry hp with hk | hp
        · exact hk ▸ lt_of_not_lt_of_ne hge hne
        · exact hq.1 p hp

/-- The table in which the key has the given entry and all other keys are as before. -/
def insert (t : Table α) (key : String) (value : α) : Table α :=
  ⟨insertEntry key value t.entries, insertEntry_ascending key value t.ascending⟩

/-- The table of a list of entries; of two entries for one key the later one stays. -/
def ofList (entries : List (String × α)) : Table α :=
  entries.foldl (fun t p => t.insert p.1 p.2) empty

/-- All entries of both tables; where both have a key, the left entry stays. -/
def merge (left right : Table α) : Table α :=
  left.entries.foldl (fun t p => t.insert p.1 p.2) right

/-! ## Mapping -/

/-- The entries changed by a function, under the same keys. -/
def map (f : α → β) (t : Table α) : Table β :=
  ⟨t.entries.map (fun e => (e.1, f e.2)), by
    rw [List.pairwise_map]; exact t.ascending⟩

/-! ## The view by key -/

@[ext] theorem ext_entries {s t : Table α} (h : s.entries = t.entries) : s = t := by
  cases s; cases t; cases h; rfl

@[simp] theorem get?_empty (key : String) : (empty : Table α).get? key = none := rfl

theorem findEntry_insertEntry (key : String) (value : α) (entries : List (String × α))
    (other : String) :
    findEntry other (insertEntry key value entries)
      = if key = other then some value else findEntry other entries := by
  induction entries with
  | nil => rfl
  | cons q rest ih =>
    obtain ⟨k, v⟩ := q
    unfold insertEntry
    split
    · simp [findEntry]
    · split
      · next heq => subst heq; by_cases hk : key = other <;> simp [findEntry, hk]
      · next hne =>
        by_cases hk : k = other <;> by_cases ho : key = other
        · exact absurd (ho.trans hk.symm) hne
        · simp [findEntry, hk, ho]
        · rw [if_pos ho] at ih ⊢
          simp only [findEntry, if_neg hk, ih]
        · rw [if_neg ho] at ih ⊢
          simp only [findEntry, if_neg hk, ih]

theorem get?_insert (t : Table α) (key : String) (value : α) (other : String) :
    (t.insert key value).get? other = if key = other then some value else t.get? other :=
  findEntry_insertEntry key value t.entries other

end Table

/-- Texts in ascending order, each once. -/
def distinctTexts (texts : List String) : List String :=
  (Table.ofList (texts.map fun text => (text, ()))).keys

/-- The distinct texts of a list ascend strictly. -/
theorem distinctTexts_pairwise (texts : List String) :
    (distinctTexts texts).Pairwise (· < ·) := by
  unfold distinctTexts Table.keys
  rw [List.pairwise_map]
  exact (Table.ofList _).ascending

end LazyConfig
