import LazyConfig.Proofs.Patterns.Binding
import LazyConfig.Proofs.Safety.Stores
import LazyConfig.Proofs.Scope
set_option autoImplicit false

/-!
# Scopes: new cells

Recursive bindings and dicts put their terms into new cells and force none.  Nothing older
refers to a new cell, so what is forced there has the result of the term by itself.
-/

namespace LazyConfig

variable {s : Store} {env : Env} {cs ds : List Cell} {tr : Bool}

/-! ## Stores with new cells -/

theorem Store.self_le_append (s : Store) (cs : List Cell) : s.self.Le (s.append cs).self := by
  rintro a c ⟨rfl, ha⟩
  rw [Store.self, Store.next_append]
  exact ⟨rfl, Nat.lt_add_right _ ha⟩

/-- New cells may refer to each other. -/
theorem Store.Closed.append (hs : s.Closed)
    (hcs : ∀ c ∈ cs, CellAlike (s.append cs).self c c) : (s.append cs).Closed := by
  intro a d hd
  rw [Store.get?_append] at hd
  split at hd
  · exact (hs a d hd).mono (s.self_le_append cs)
  · exact hcs d (List.mem_of_getElem? hd)

/-- Stores that differ in new cells. -/
theorem Store.Closed.linked_append (hs : s.Closed) (cs ds : List Cell) :
    Linked s.self .silent (s.append cs) (s.append ds) where
  cells := by
    rintro a c hac
    obtain ⟨d, d', hd, hd', halike⟩ := hs.linked.cells a c hac
    exact ⟨d, d', Store.get?_append_of_some hd cs, Store.get?_append_of_some hd' ds, halike⟩
  forth := hs.linked.forth
  back := hs.linked.back
  held := fun a d hd => hd.elim
  whole := fun hw => hw.elim

/-- What is forced in a new cell for a term has the result of the term. -/
theorem sameResult_force (hs : s.Closed) (henv : s.Binds env) {i : Nat} {t : Term}
    (hcell : cs[i]? = some (.delayed (.term t env))) (m : Nat) :
    SameResult tr (s.append cs) (perform (m + 1) (.force (s.next + i)))
      (perform m (.eval t env)) := by
  have hget : (s.append cs).get? (s.next + i) = some (.delayed (.term t env)) := by
    rw [Store.get?_append_add, hcell]
  refine .of_alike (β := s.self) ?_
  refine Alike.force_left (hs.linked_append cs cs) hget ?_ (fun d hd => hd.elim) fun ψ hψ => ?_
  · rintro c ⟨-, hlt⟩
    exact absurd hlt (Nat.not_lt.mpr (Nat.le_add_right _ _))
  · exact perform_alike ψ tr tr m _ _ _ _ _ hψ (.eval (henv.alike t))

/-! ## Recursive bindings -/

theorem get?_bindFrom_of_not_mem {x : String} {names : List String} (h : x ∉ names) (base : Addr)
    (env : Env) : (bindFrom base names env).get? x = env.get? x := by
  induction names generalizing base env with
  | nil => rfl
  | cons y rest ih =>
    rw [List.mem_cons, not_or] at h
    rw [bindFrom, ih h.2, Table.get?_insert, if_neg (Ne.symm h.1)]

/-- Of distinct names each one is bound to its own cell. -/
theorem get?_bindFrom_of_nodup {names : List String} (h : names.Nodup) {i : Nat} {x : String}
    (hi : names[i]? = some x) (base : Addr) (env : Env) :
    (bindFrom base names env).get? x = some (base + i) := by
  induction names generalizing i base env with
  | nil => exact nomatch hi
  | cons y rest ih =>
    obtain ⟨hfirst, hrest⟩ := List.nodup_cons.mp h
    cases i with
    | zero =>
      obtain rfl := Option.some.inj hi
      rw [bindFrom, get?_bindFrom_of_not_mem hfirst, Table.get?_insert, if_pos rfl]
      rfl
    | succ i =>
      rw [bindFrom, ih hrest hi, Nat.add_assoc, Nat.add_comm 1]

/-- The environment that recursive bindings make in a store. -/
def bindingEnv (s : Store) (bindings : List (String × Term)) (env : Env) : Env :=
  bindFrom s.next (bindings.map Prod.fst) env

/-- The store of recursive bindings. -/
def bindingStore (s : Store) (bindings : List (String × Term)) (env : Env) : Store :=
  s.append (bindingCells bindings (bindingEnv s bindings env))

variable {bindings : List (String × Term)}

theorem bindingStore_binds (henv : s.Binds env) :
    (bindingStore s bindings env).Binds (bindingEnv s bindings env) := by
  rw [Store.Binds, bindingStore, Store.next_append, length_bindingCells]
  refine Table.Below.bindFrom (Table.Below.mono henv (Nat.le_add_right _ _)) (Nat.le_of_eq ?_)
  rw [List.length_map]

theorem bindingStore_closed (hs : s.Closed) (henv : s.Binds env) :
    (bindingStore s bindings env).Closed := by
  refine hs.append fun c hc => ?_
  obtain ⟨u, hu, rfl⟩ := List.mem_map.mp hc
  obtain ⟨t, -, rfl⟩ := List.mem_map.mp hu
  exact .delayed (.term ((bindingStore_binds henv).alike t))

/-- Each name is bound to a cell of its term, which sees all the names. -/
theorem exists_cell_of_binding (hkeys : (bindings.map Prod.fst).Nodup) {x : String} {t : Term}
    (hmem : (x, t) ∈ bindings) (s : Store) (env : Env) :
    ∃ a, (bindingEnv s bindings env).get? x = some a ∧
      (bindingStore s bindings env).get? a =
        some (.delayed (.term t (bindingEnv s bindings env))) := by
  obtain ⟨i, hi⟩ := List.mem_iff_getElem?.mp hmem
  refine ⟨s.next + i, get?_bindFrom_of_nodup hkeys ?_ _ _, ?_⟩
  · rw [List.getElem?_map, hi]
    rfl
  · rw [bindingStore, Store.get?_append_add, getElem?_bindingCells, hi]
    rfl

/-! ## Dicts -/

/-- A dict has new cells for its entries. -/
theorem Run.Ends.eval_dict {n : Nat} (entries : List (String × Term)) :
    (perform (n + 1) (.eval (.dict entries) env)).Ends tr s
      (.value (.dict (newTable s.next entries))) (s.append (defaultCells entries env)) := by
  have hcells := Run.Ends.delayAll env (entries.map Prod.snd) tr s
  rw [List.length_map, List.map_map, List.map_map] at hcells
  exact hcells.bind (pure _ tr _)

/-- Each key has a cell with the result of its term. -/
theorem exists_cell_of_entry (hs : s.Closed) (henv : s.Binds env)
    {entries : List (String × Term)} (hkeys : (entries.map Prod.fst).Nodup) {x : String} {t : Term}
    (hmem : (x, t) ∈ entries) :
    ∃ a, (newTable s.next entries).get? x = some a ∧ ∀ m,
      SameResult tr (s.append (defaultCells entries env)) (perform (m + 1) (.force a))
        (perform m (.eval t env)) := by
  obtain ⟨i, hi⟩ := List.mem_iff_getElem?.mp hmem
  exact ⟨s.next + i, get?_newTable s.next hkeys hi,
    sameResult_force hs henv (getElem?_defaultCells hi env)⟩

end LazyConfig
