import LazyConfig.Proofs.Patterns.Stages
import LazyConfig.Proofs.Patterns.Destructure
set_option autoImplicit false

/-!
# Patterns: from the argument to its names

The two dicts are merged once the argument is there, and the names are bound to what is
in the merged dict.  The dict of the defaults is made only now, and its cells stay as
they are.
-/

namespace LazyConfig

open Run.Ends

variable {n : Nat} {tr : Bool} {s t u w r : Store} {env : Env} {o q : Outcome Value}

/-- The check and the merge together take the entries of the argument. -/
theorem checked_asDict (names : List String) (ellipsis : Bool) (v : Value) :
    (checked names ellipsis v >>= asDict .mergeLeft) = takeEntries names ellipsis v := by
  cases ellipsis with
  | true =>
    cases v with
    | dict entries =>
      simp only [takeEntries]
      cases entries.keys.filter fun k => !names.contains k with
      | nil => rfl
      | cons k extra => rfl
    | text text => rfl
    | list items => rfl
    | closure binder body env => rfl
    | builtin b arguments => rfl
  | false =>
    cases v with
    | dict entries =>
      have honly : checked names false (.dict entries) = onlyKeys names entries := rfl
      simp only [honly, onlyKeys, takeEntries]
      cases entries.keys.filter fun k => !names.contains k with
      | nil => rfl
      | cons k extra => rfl
    | text text => rfl
    | list items => rfl
    | closure binder body env => rfl
    | builtin b arguments => rfl

/-- Only a dict has entries to take, and they are its own. -/
theorem eq_dict_of_takeEntries {names : List String} {ellipsis : Bool} {v : Value}
    {entries : Table Addr} (h : takeEntries names ellipsis v = .value entries) :
    v = .dict entries ∧ (ellipsis = false → ∀ k ∈ entries.keys, k ∈ names) := by
  cases v with
  | dict entries' =>
    simp only [takeEntries] at h
    cases hextra : entries'.keys.filter fun k => !names.contains k with
    | nil =>
      rw [hextra] at h
      obtain rfl : entries' = entries := by cases ellipsis <;> simpa using h
      refine ⟨rfl, fun _ k hk => ?_⟩
      simpa using List.filter_eq_nil_iff.mp hextra k hk
    | cons k extra =>
      rw [hextra] at h
      cases ellipsis with
      | true =>
        obtain rfl : entries' = entries := by simpa using h
        exact ⟨rfl, fun hell => absurd hell.symm Bool.false_ne_true⟩
      | false => cases h
  | text text => cases h
  | list items => cases h
  | closure binder body env => cases h
  | builtin b arguments => cases h

/-- A dict has its entries taken if it has no keys that are refused, and the check gives it
back. -/
theorem taken_of_keys {names : List String} {ellipsis : Bool} {entries : Table Addr}
    (h : ellipsis = false → ∀ k ∈ entries.keys, k ∈ names) :
    takeEntries names ellipsis (.dict entries) = .value entries ∧
      checked names ellipsis (.dict entries) = .value (.dict entries) := by
  cases ellipsis with
  | true =>
    refine ⟨?_, rfl⟩
    simp only [takeEntries]
    cases entries.keys.filter fun k => !names.contains k with
    | nil => rfl
    | cons k extra => rfl
  | false =>
    have hnone : (entries.keys.filter fun k => !names.contains k) = [] := by
      refine List.filter_eq_nil_iff.mpr fun k hk => ?_
      simpa using h rfl k hk
    have honly : checked names false (.dict entries) = onlyKeys names entries := rfl
    simp only [honly, onlyKeys, takeEntries, hnone]
    trivial

/-! ## Defaults -/

/-- The cells for defaults from an address on, by their keys. -/
def newTable (base : Addr) (defaults : List (String × Term)) : Table Addr :=
  Table.ofList ((defaults.map Prod.fst).zip (List.range' base defaults.length))

/-- Cells for defaults that are not computed. -/
def defaultCells (defaults : List (String × Term)) (env : Env) : List Cell :=
  defaults.map fun e => .delayed (.term e.2 env)

theorem delayTable_ends (env : Env) (defaults : List (String × Term)) (tr : Bool) (s : Store) :
    (delayTable env defaults).Ends tr s (.value (newTable s.next defaults))
      (s.append (defaultCells defaults env)) := by
  have hcells := Run.Ends.delayAll env (defaults.map Prod.snd) tr s
  rw [List.length_map, List.map_map, List.map_map] at hcells
  exact hcells.bind (pure _ tr _)

/-- The second dict to merge is that of the defaults. -/
theorem force_defaults {c : Addr} {defaults : List (String × Term)} {caller : Builtin}
    (hc : r.get? c = some (.delayed (.term (.dict defaults) env))) :
    (forceDict (perform (n + 2)) caller c).Ends tr r (.value (newTable r.next defaults))
      ((r.set c (.done (.dict (newTable r.next defaults)))).append
        (defaultCells defaults env)) := by
  have hforce : (perform (n + 2) (.force c)).Ends tr r
      (.value (.dict (newTable r.next defaults)))
      ((r.set c (.done (.dict (newTable r.next defaults)))).append
        (defaultCells defaults env)) := by
    refine force_append hc fun t ht => ?_
    have hcells := Run.Ends.delayAll env (defaults.map Prod.snd) tr t
    rw [List.length_map, List.map_map, List.map_map, ht] at hcells
    exact hcells.bind (pure _ tr _)
  exact hforce.forceDict

/-- A key has a default exactly if there is one under it. -/
theorem contains_newTable (base : Addr) (defaults : List (String × Term)) (key : String) :
    (newTable base defaults).contains key = true ↔ key ∈ defaults.map Prod.fst := by
  unfold newTable
  rw [Table.contains_ofList, List.map_fst_zip (by simp)]

/-- The cell of a default, when no two defaults stand under one key. -/
theorem get?_newTable (base : Addr) {defaults : List (String × Term)} {e : String × Term} {i : Nat}
    (hkeys : (defaults.map Prod.fst).Nodup) (he : defaults[i]? = some e) :
    (newTable base defaults).get? e.1 = some (base + i) := by
  have hlength : (defaults.map Prod.fst).length = (List.range' base defaults.length).length := by
    simp
  refine Table.get?_ofList_of_mem ?_ ?_
  · rwa [List.map_fst_zip (Nat.le_of_eq hlength)]
  · obtain ⟨hi, rfl⟩ := List.getElem?_eq_some_iff.mp he
    refine List.mem_iff_getElem?.mpr ⟨i, ?_⟩
    simp [hi]

theorem getElem?_defaultCells {defaults : List (String × Term)} {e : String × Term} {i : Nat}
    (he : defaults[i]? = some e) (env : Env) :
    (defaultCells defaults env)[i]? = some (.delayed (.term e.2 env)) := by
  rw [defaultCells, List.getElem?_map, he]
  rfl

/-! ## The merged dict -/

section

variable {a₁ a₂ x : Addr} {binder : Binder} {body : Term} {defaults : List (String × Term)}

/-- The merged dict has no keys outside a pattern if the argument has none. -/
theorem mem_names_of_merged {entries : Table Addr} {names : List String} (base : Addr)
    (hentries : ∀ k ∈ entries.keys, k ∈ names) (hkeys : ∀ e ∈ defaults, e.1 ∈ names) :
    ∀ k ∈ (entries.merge (newTable base defaults)).keys, k ∈ names := by
  intro k hk
  rw [Table.mem_keys_iff, Table.contains_merge, Bool.or_eq_true] at hk
  rcases hk with hk | hk
  · exact hentries k ((Table.mem_keys_iff entries k).mpr hk)
  · obtain ⟨d, hd, rfl⟩ := List.mem_map.mp ((contains_newTable _ _ _).mp hk)
    exact hkeys d hd

theorem force_opened_stops {e : Outcome (Table Addr)}
    (harg : (forceDict (perform (n + 6)) .mergeLeft (u.next + 4)).Ends tr
      (mergingStore u a₁ a₂ x binder body defaults env) e r) (hstop : e.Stops q) :
    (perform (n + 10) (.force (u.next + 3))).Ends tr
      (openedStore u a₁ a₂ x binder body defaults env) q
      (r.settle (u.next + 3) (.composed (u.next + 1) (u.next + 2)) q) :=
  force_merged (harg.bind_of_stops hstop)

/-- The store behind the merged dict, given the one behind the entries of the argument. -/
def mergedStore (u r : Store) (entries : Table Addr) (defaults : List (String × Term))
    (env : Env) : Store :=
  ((r.set (u.next + 5) (.done (.dict (newTable r.next defaults)))).append
    (defaultCells defaults (fillEnv u.next env))).set (u.next + 3)
    (.done (.dict (entries.merge (newTable r.next defaults))))

/-- Making the merged dict changes two of the cells that are there. -/
theorem get?_mergedStore {entries : Table Addr} {c : Addr} (h₃ : u.next + 3 ≠ c)
    (h₅ : u.next + 5 ≠ c) (hc : c < r.next) :
    (mergedStore u r entries defaults env).get? c = r.get? c := by
  rw [mergedStore, Store.get?_set, if_neg h₃, Store.get?_append, Store.next_set, if_pos hc,
    Store.get?_set, if_neg h₅]

theorem get?_mergedStore_add {entries : Table Addr} (h : u.next + 3 < r.next) (i : Nat) :
    (mergedStore u r entries defaults env).get? (r.next + i) =
      (defaultCells defaults (fillEnv u.next env))[i]? := by
  have hne : u.next + 3 ≠ r.next + i := Nat.ne_of_lt (Nat.lt_of_lt_of_le h (Nat.le_add_right _ i))
  have hcell := Store.get?_append_add
    (r.set (u.next + 5) (.done (.dict (newTable r.next defaults))))
    (defaultCells defaults (fillEnv u.next env)) i
  rw [Store.next_set] at hcell
  rw [mergedStore, Store.get?_set, if_neg hne, hcell]

theorem force_opened_value {entries : Table Addr}
    (harg : (forceDict (perform (n + 6)) .mergeLeft (u.next + 4)).Ends tr
      (mergingStore u a₁ a₂ x binder body defaults env) (.value entries) r)
    (hr : r.get? (u.next + 5) = some (.delayed (.term (.dict defaults) (fillEnv u.next env)))) :
    (perform (n + 10) (.force (u.next + 3))).Ends tr
      (openedStore u a₁ a₂ x binder body defaults env)
      (.value (.dict (entries.merge (newTable r.next defaults))))
      (mergedStore u r entries defaults env) :=
  force_merged (harg.bind ((force_defaults hr).bind (pure _ tr _)))

end

/-! ## Names -/

/-- The names are bound unless some have nothing to be bound to. -/
def bindOutcome (names : List String) (has : String → Bool) (bound : Env) : Outcome Env :=
  match names.filter fun x => !has x with
  | [] => .value bound
  | missing => .error (.missingKeys missing)

/-- The names that are missing are those without anything, in ascending order. -/
theorem missing_of_bindOutcome {names missing : List String} {has : String → Bool} {bound : Env}
    (h : bindOutcome (distinctTexts names) has bound = .error (.missingKeys missing)) :
    missing.Pairwise (· < ·) ∧ ∀ x, x ∈ missing ↔ x ∈ names ∧ has x = false := by
  unfold bindOutcome at h
  cases hmissing : (distinctTexts names).filter fun x => !has x with
  | nil =>
    rw [hmissing] at h
    cases h
  | cons x rest =>
    rw [hmissing] at h
    obtain rfl := EvalError.missingKeys.inj (Outcome.error.inj h)
    refine ⟨hmissing ▸ (distinctTexts_pairwise names).filter _, fun y => ?_⟩
    rw [← hmissing, List.mem_filter, mem_distinctTexts, Bool.not_eq_true']

/-- A dict without keys outside a pattern has its names bound. -/
theorem bindArgument_dict {a : Addr} {names : List String} {ellipsis : Bool} {merged : Table Addr}
    (ha : (perform n (.force a)).Ends tr s (.value (.dict merged)) t)
    (hextra : ellipsis = false → ∀ k ∈ merged.keys, k ∈ names) :
    (bindArgument (perform n) (.keys names ellipsis) a env).Ends tr s
      (bindOutcome names (merged.contains ·) (bindNames merged names env)) t := by
  refine ha.bind ?_
  dsimp only [bindOutcome]
  cases names.filter fun x => !merged.contains x with
  | cons x missing => exact fail _ tr t
  | nil =>
    cases hkeys : merged.keys.filter fun k => !names.contains k with
    | nil => exact pure _ tr t
    | cons k extra =>
      cases ellipsis with
      | true => exact pure _ tr t
      | false =>
        have hmem : k ∈ merged.keys.filter fun k => !names.contains k := by
          rw [hkeys]
          exact List.mem_cons_self
        obtain ⟨hk, hout⟩ := List.mem_filter.mp hmem
        simp [hextra rfl k hk] at hout

/-! ## Taking the argument apart directly -/

section

variable {argument : Run Value} {names : List String} {ellipsis : Bool}
  {defaults : List (String × Term)}

theorem destructure_stops (harg : argument.Ends tr s o t) {p : Outcome Env}
    (hstop : (o >>= takeEntries names ellipsis).Stops p) :
    (destructure names ellipsis defaults argument env).Ends tr s p t := by
  cases o with
  | value v =>
    rw [Outcome.value_bind] at hstop
    exact harg.bind ((Run.Ends.conclude _ tr t).bind_of_stops hstop)
  | error e =>
    rw [Outcome.error_bind] at hstop
    cases hstop
    exact harg.bind_of_stops (.error e)
  | exhausted =>
    rw [Outcome.exhausted_bind] at hstop
    cases hstop
    exact harg.bind_of_stops .exhausted

theorem destructure_value {v : Value} {entries : Table Addr}
    (harg : argument.Ends tr s (.value v) t)
    (hv : takeEntries names ellipsis v = .value entries) :
    (destructure names ellipsis defaults argument env).Ends tr s
      (bindOutcome names
        (fun x => entries.contains x || (newTable t.next defaults).contains x)
        (bindFields entries (newTable t.next defaults) names env))
      (t.append (defaultCells defaults env)) := by
  have hentries : (Run.conclude (takeEntries names ellipsis v)).Ends tr t (.value entries) t :=
    hv ▸ Run.Ends.conclude _ tr t
  refine harg.bind (hentries.bind ((delayTable_ends env defaults tr t).bind ?_))
  dsimp only [bindOutcome]
  cases names.filter fun x => !(entries.contains x || (newTable t.next defaults).contains x) with
  | nil => exact pure _ tr _
  | cons x missing => exact fail _ tr _

end

end LazyConfig
