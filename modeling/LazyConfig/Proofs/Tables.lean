import LazyConfig.Table
import Mathlib.Data.List.Forall2
set_option autoImplicit false

/-!
# Tables in parallel, and lookups

Two lists of entries run in parallel if they have the same keys in the same order and
their values are related.  The operations on tables are insertions and lookups in such
lists, so they keep this, whatever the relation is.  Behind them stands what a lookup
finds in a table that was made of others.
-/

namespace LazyConfig

variable {α β : Type}

/-- Related values, or none on both sides. -/
def Paired (R : α → β → Prop) (o : Option α) (o' : Option β) : Prop :=
  (∃ a b, o = some a ∧ o' = some b ∧ R a b) ∨ (o = none ∧ o' = none)

theorem Paired.some {R : α → β → Prop} {a : α} {b : β} (h : R a b) :
    Paired R (some a) (some b) :=
  Or.inl ⟨a, b, rfl, rfl, h⟩

theorem Paired.imp {R S : α → β → Prop} {o : Option α} {o' : Option β} (h : Paired R o o')
    (hRS : ∀ a b, R a b → S a b) : Paired S o o' := by
  obtain ⟨a, b, ha, hb, hab⟩ | hnone := h
  · exact Or.inl ⟨a, b, ha, hb, hRS a b hab⟩
  · exact Or.inr hnone

/-- The same keys in the same order, with related values. -/
def Keyed (R : α → β → Prop) (entries : List (String × α)) (others : List (String × β)) : Prop :=
  List.Forall₂ (fun e q => e.1 = q.1 ∧ R e.2 q.2) entries others

/-- Entries put into a sorted list of entries one after the other. -/
def insertAll (entries into : List (String × α)) : List (String × α) :=
  entries.foldl (fun es e => Table.insertEntry e.1 e.2 es) into

namespace Keyed

variable {R : α → β → Prop} {entries into : List (String × α)} {others others' : List (String × β)}

theorem imp {S : α → β → Prop} (h : Keyed R entries others) (hRS : ∀ a b, R a b → S a b) :
    Keyed S entries others :=
  List.Forall₂.imp (fun _ _ hq => ⟨hq.1, hRS _ _ hq.2⟩) h

theorem keys_eq (h : Keyed R entries others) : entries.map Prod.fst = others.map Prod.fst := by
  induction h with
  | nil => rfl
  | cons hq _ ih => rw [List.map_cons, List.map_cons, hq.1, ih]

theorem insertEntry (h : Keyed R entries others) (key : String) {a : α} {b : β} (hab : R a b) :
    Keyed R (Table.insertEntry key a entries) (Table.insertEntry key b others) := by
  induction h with
  | nil => exact .cons ⟨rfl, hab⟩ .nil
  | @cons e q entries others hq hrest ih =>
    obtain ⟨k, c⟩ := e
    obtain ⟨k', d⟩ := q
    obtain ⟨rfl, hcd⟩ : k = k' ∧ R c d := hq
    unfold Table.insertEntry
    split
    · exact .cons ⟨rfl, hab⟩ (.cons ⟨rfl, hcd⟩ hrest)
    · split
      · exact .cons ⟨rfl, hab⟩ hrest
      · exact .cons ⟨rfl, hcd⟩ ih

theorem insertAll (h : Keyed R entries others) (hinto : Keyed R into others') :
    Keyed R (insertAll entries into) (insertAll others others') := by
  induction h generalizing into others' with
  | nil => exact hinto
  | @cons e q entries others hq hrest ih =>
    obtain ⟨k, a⟩ := e
    obtain ⟨k', b⟩ := q
    obtain ⟨rfl, hab⟩ : k = k' ∧ R a b := hq
    exact ih (hinto.insertEntry k hab)

/-- A key has related entries in both lists, or an entry in none. -/
theorem findEntry (h : Keyed R entries others) (key : String) :
    Paired R (Table.findEntry key entries) (Table.findEntry key others) := by
  induction h with
  | nil => exact Or.inr ⟨rfl, rfl⟩
  | @cons e q entries others hq hrest ih =>
    obtain ⟨k, a⟩ := e
    obtain ⟨k', b⟩ := q
    obtain ⟨rfl, hab⟩ : k = k' ∧ R a b := hq
    by_cases hk : k = key
    · exact Or.inl ⟨a, b, by simp [Table.findEntry, hk], by simp [Table.findEntry, hk], hab⟩
    · simpa [Table.findEntry, hk] using ih

theorem isSome_findEntry (h : Keyed R entries others) (key : String) :
    (Table.findEntry key entries).isSome = (Table.findEntry key others).isSome := by
  obtain ⟨a, b, ha, hb, -⟩ | ⟨ha, hb⟩ := h.findEntry key
  · rw [ha, hb, Option.isSome_some, Option.isSome_some]
  · rw [ha, hb, Option.isSome_none, Option.isSome_none]

/-- Related values under the same keys. -/
theorem zip (keys : List String) {as : List α} {bs : List β} (h : List.Forall₂ R as bs) :
    Keyed R (keys.zip as) (keys.zip bs) := by
  induction h generalizing keys with
  | nil =>
    rw [List.zip_nil_right, List.zip_nil_right]
    exact .nil
  | cons hab _ ih =>
    cases keys with
    | nil => exact .nil
    | cons key keys => exact .cons ⟨rfl, hab⟩ (ih keys)

/-- Related values under the keys of a list. -/
theorem of_zip {γ : Type} (keyed : List (String × γ)) {as : List α} {f : γ → β}
    (h : List.Forall₂ R as ((keyed.map Prod.snd).map f)) :
    Keyed R ((keyed.map Prod.fst).zip as) (keyed.map fun e => (e.1, f e.2)) := by
  induction keyed generalizing as with
  | nil => exact .nil
  | cons e keyed ih =>
    obtain ⟨a, rest, ha, hrest, rfl⟩ := List.forall₂_cons_right_iff.mp h
    exact .cons ⟨rfl, ha⟩ (ih hrest)

end Keyed

theorem entries_foldl_insert (entries : List (String × α)) (t : Table α) :
    (entries.foldl (fun t p => t.insert p.1 p.2) t).entries = insertAll entries t.entries := by
  induction entries generalizing t with
  | nil => rfl
  | cons e entries ih => exact ih (t.insert e.1 e.2)

theorem entries_merge (left right : Table α) :
    (left.merge right).entries = insertAll left.entries right.entries :=
  entries_foldl_insert left.entries right

theorem entries_ofList (entries : List (String × α)) :
    (Table.ofList entries).entries = insertAll entries [] :=
  entries_foldl_insert entries Table.empty

/-! ## Lookups -/

namespace Table

theorem isSome_findEntry_iff (key : String) (entries : List (String × α)) :
    (findEntry key entries).isSome = true ↔ key ∈ entries.map Prod.fst := by
  induction entries with
  | nil => simp [findEntry]
  | cons e rest ih =>
    by_cases hkey : e.1 = key
    · simp [findEntry, hkey]
    · simp [findEntry, hkey, Ne.symm hkey, ih]

theorem mem_keys_iff (t : Table α) (key : String) : key ∈ t.keys ↔ t.contains key = true :=
  (isSome_findEntry_iff key t.entries).symm

/-- Entries with distinct keys that are put into a table one after the other. -/
theorem get?_foldl_insert {entries : List (String × α)}
    (hdistinct : entries.Pairwise fun p q => p.1 < q.1) (t : Table α) (key : String) :
    (entries.foldl (fun t p => t.insert p.1 p.2) t).get? key =
      (findEntry key entries).or (t.get? key) := by
  induction entries generalizing t with
  | nil => rfl
  | cons e rest ih =>
    obtain ⟨hfirst, hrest⟩ := List.pairwise_cons.mp hdistinct
    rw [List.foldl_cons, ih hrest, get?_insert]
    by_cases hkey : e.1 = key
    · have hlater : findEntry key rest = none := by
        rw [← Option.not_isSome_iff_eq_none, isSome_findEntry_iff]
        intro hmem
        obtain ⟨q, hq, hqkey⟩ := List.mem_map.mp hmem
        have hlt := hfirst q hq
        rw [hkey, hqkey] at hlt
        exact String.lt_irrefl key hlt
      rw [hlater, if_pos hkey]
      simp [findEntry, hkey]
    · rw [if_neg hkey]
      simp [findEntry, hkey]

theorem get?_merge (left right : Table α) (key : String) :
    (left.merge right).get? key = (left.get? key).or (right.get? key) :=
  get?_foldl_insert left.ascending right key

theorem contains_merge (left right : Table α) (key : String) :
    (left.merge right).contains key = (left.contains key || right.contains key) := by
  unfold contains
  rw [get?_merge, Option.isSome_or]

theorem contains_foldl_insert (entries : List (String × α)) (t : Table α) (key : String) :
    (entries.foldl (fun t p => t.insert p.1 p.2) t).contains key = true ↔
      key ∈ entries.map Prod.fst ∨ t.contains key = true := by
  induction entries generalizing t with
  | nil => simp
  | cons e rest ih =>
    rw [List.foldl_cons, ih]
    unfold contains
    rw [get?_insert]
    by_cases hkey : e.1 = key
    · simp [hkey]
    · simp [hkey, Ne.symm hkey]

theorem contains_ofList (entries : List (String × α)) (key : String) :
    (ofList entries).contains key = true ↔ key ∈ entries.map Prod.fst := by
  unfold ofList
  rw [contains_foldl_insert]
  simp [contains]

theorem get?_foldl_insert_of_not_mem {entries : List (String × α)} {key : String}
    (h : key ∉ entries.map Prod.fst) (t : Table α) :
    (entries.foldl (fun t p => t.insert p.1 p.2) t).get? key = t.get? key := by
  induction entries generalizing t with
  | nil => rfl
  | cons e rest ih =>
    rw [List.map_cons, List.mem_cons, not_or] at h
    rw [List.foldl_cons, ih h.2, get?_insert, if_neg (Ne.symm h.1)]

/-- Of entries with distinct keys each one stays. -/
theorem get?_ofList_of_mem {entries : List (String × α)} (hkeys : (entries.map Prod.fst).Nodup)
    {key : String} {v : α} (h : (key, v) ∈ entries) : (ofList entries).get? key = some v := by
  unfold ofList
  generalize empty = t
  induction entries generalizing t with
  | nil => exact absurd h List.not_mem_nil
  | cons e rest ih =>
    obtain ⟨hfirst, hrest⟩ := List.nodup_cons.mp hkeys
    rw [List.foldl_cons]
    rcases List.mem_cons.mp h with rfl | h
    · rw [get?_foldl_insert_of_not_mem hfirst, get?_insert, if_pos rfl]
    · exact ih hrest h _

/-! ## Entries in order -/

theorem insertEntry_of_lt {key : String} (value : α) {entries : List (String × α)}
    (h : ∀ e ∈ entries, e.1 < key) :
    insertEntry key value entries = entries ++ [(key, value)] := by
  induction entries with
  | nil => rfl
  | cons e rest ih =>
    have hlt : e.1 < key := h e List.mem_cons_self
    rw [insertEntry, if_neg (String.lt_asymm hlt), if_neg (Ne.symm (String.ne_of_lt hlt)),
      ih fun d hd => h d (List.mem_cons_of_mem _ hd), List.cons_append]

/-- A table of entries in order has just these entries. -/
theorem entries_ofList_of_ascending {entries : List (String × α)}
    (h : entries.Pairwise fun d e => d.1 < e.1) : (ofList entries).entries = entries := by
  have hinto : ∀ into : List (String × α), (∀ d ∈ into, ∀ e ∈ entries, d.1 < e.1) →
      insertAll entries into = into ++ entries := by
    induction entries with
    | nil =>
      intro into _
      rw [List.append_nil]
      rfl
    | cons e rest ih =>
      intro into hlt
      obtain ⟨hfirst, hrest⟩ := List.pairwise_cons.mp h
      have hstep : insertAll (e :: rest) into =
          insertAll rest (insertEntry e.1 e.2 into) := rfl
      rw [hstep, insertEntry_of_lt e.2 fun d hd => hlt d hd e List.mem_cons_self, ih hrest,
        List.append_assoc, List.singleton_append]
      intro d hd c hc
      rcases List.mem_append.mp hd with hd | hd
      · exact hlt d hd c (List.mem_cons_of_mem _ hc)
      · obtain rfl := List.mem_singleton.mp hd
        exact hfirst c hc
  rw [entries_ofList, hinto [] fun d hd => absurd hd List.not_mem_nil, List.nil_append]

theorem mem_of_findEntry {key : String} {v : α} {entries : List (String × α)}
    (h : findEntry key entries = some v) : (key, v) ∈ entries := by
  induction entries with
  | nil => exact nomatch h
  | cons e rest ih =>
    unfold findEntry at h
    split at h
    · next hkey =>
      obtain rfl := Option.some.inj h
      exact hkey ▸ List.mem_cons_self
    · exact List.mem_cons_of_mem _ (ih h)

/-- What a table has under a key is the entry in its list. -/
theorem get?_eq_some_iff {t : Table α} {key : String} {v : α} :
    t.get? key = some v ↔ (key, v) ∈ t.entries := by
  refine ⟨mem_of_findEntry, fun h => ?_⟩
  have hdistinct : (t.entries.map Prod.fst).Nodup :=
    (List.pairwise_map.mpr t.ascending).imp String.ne_of_lt
  have hself : ofList t.entries = t := ext_entries (entries_ofList_of_ascending t.ascending)
  have hget := get?_ofList_of_mem hdistinct h
  rwa [hself] at hget

end Table

/-- What is in order stays as it is. -/
theorem sortBy_of_pairwise {α : Type} {key : α → String} {xs : List α}
    (h : (xs.map key).Pairwise (· < ·)) : sortBy key xs = xs := by
  induction xs with
  | nil => rfl
  | cons x rest ih =>
    obtain ⟨hfirst, hrest⟩ := List.pairwise_cons.mp h
    have hsorted : sortBy key (x :: rest) =
        insertOrdered (fun a b => decide (key a ≤ key b)) x (sortBy key rest) := rfl
    rw [hsorted, ih hrest]
    cases rest with
    | nil => rfl
    | cons y rest =>
      have hle : key x ≤ key y :=
        String.not_lt.mp (String.lt_asymm (hfirst _ List.mem_cons_self))
      rw [insertOrdered, if_pos (decide_eq_true hle)]

theorem mem_distinctTexts {texts : List String} {text : String} :
    text ∈ distinctTexts texts ↔ text ∈ texts := by
  unfold distinctTexts
  rw [Table.mem_keys_iff, Table.contains_ofList]
  simp

end LazyConfig
