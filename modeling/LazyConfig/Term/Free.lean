import LazyConfig.Term
set_option autoImplicit false

/-!
# Core terms: free names

A name is free in a term if the value of the term may depend on what the environment
binds it to.
-/

namespace LazyConfig

/-- Whether a binder binds a name. -/
def Binder.binds (x : String) : Binder → Bool
  | .name y => y == x
  | .keys names _ => names.contains x

mutual

/-- Whether a name is free in a term. -/
def Term.hasFree (x : String) : Term → Bool
  | .var y => y == x
  | .lam binder body => !binder.binds x && body.hasFree x
  | .app f a => f.hasFree x || a.hasFree x
  | .text _ => false
  | .data _ _ => false
  | .list items => anyHasFree x items
  | .dict entries => anyEntryHasFree x entries
  | .letrec bindings body =>
      !bindings.any (fun e => e.1 == x) && (anyEntryHasFree x bindings || body.hasFree x)
  | .builtin _ => false

/-- Whether a name is free in one of the terms. -/
def anyHasFree (x : String) : List Term → Bool
  | [] => false
  | t :: rest => t.hasFree x || anyHasFree x rest

/-- Whether a name is free in the term of one of the entries. -/
def anyEntryHasFree (x : String) : List (String × Term) → Bool
  | [] => false
  | (_, t) :: rest => t.hasFree x || anyEntryHasFree x rest

end

theorem anyHasFree_of_mem {x : String} {t : Term} {items : List Term} (ht : t ∈ items)
    (hx : t.hasFree x = true) : anyHasFree x items = true := by
  induction items with
  | nil => exact absurd ht List.not_mem_nil
  | cons u rest ih =>
    unfold anyHasFree
    rcases List.mem_cons.mp ht with rfl | ht
    · rw [hx, Bool.true_or]
    · rw [ih ht, Bool.or_true]

theorem anyEntryHasFree_of_mem {x : String} {e : String × Term} {entries : List (String × Term)}
    (he : e ∈ entries) (hx : e.2.hasFree x = true) : anyEntryHasFree x entries = true := by
  induction entries with
  | nil => exact absurd he List.not_mem_nil
  | cons d rest ih =>
    unfold anyEntryHasFree
    rcases List.mem_cons.mp he with rfl | he
    · rw [hx, Bool.true_or]
    · rw [ih he, Bool.or_true]

theorem anyEntryHasFree_eq_false_iff {x : String} {entries : List (String × Term)} :
    anyEntryHasFree x entries = false ↔ ∀ e ∈ entries, e.2.hasFree x = false := by
  induction entries with
  | nil => simp [anyEntryHasFree]
  | cons e rest ih => simp [anyEntryHasFree, ih]

theorem anyHasFree_eq_false_iff {x : String} {items : List Term} :
    anyHasFree x items = false ↔ ∀ t ∈ items, t.hasFree x = false := by
  induction items with
  | nil => simp [anyHasFree]
  | cons t rest ih => simp [anyHasFree, ih]

/-- The order of the entries of a dict does not matter. -/
theorem hasFree_ofEntries {x : String} {entries : List (String × Term)}
    (h : ∀ e ∈ entries, e.2.hasFree x = false) : (Term.ofEntries entries).hasFree x = false := by
  refine anyEntryHasFree_eq_false_iff.mpr fun e he => ?_
  exact h e ((sortBy_perm Prod.fst entries).mem_iff.mp he)

/-- Names are free in recursive bindings only if they are free in a term or the body and
are not bound. -/
theorem hasFree_ofBindings {x : String} {bindings : List (String × Term)} {body : Term}
    (h : ∀ e ∈ bindings, e.2.hasFree x = false)
    (hbody : x ∉ bindings.map Prod.fst → body.hasFree x = false) :
    (Term.ofBindings bindings body).hasFree x = false := by
  have hsorted : anyEntryHasFree x (sortBy Prod.fst bindings) = false := hasFree_ofEntries h
  unfold Term.ofBindings Term.hasFree
  rw [hsorted, Bool.false_or, Bool.and_eq_false_iff]
  by_cases hmem : x ∈ bindings.map Prod.fst
  · refine Or.inl ?_
    obtain ⟨e, he, rfl⟩ := List.mem_map.mp hmem
    rw [Bool.not_eq_false', List.any_eq_true]
    exact ⟨e, (sortBy_perm Prod.fst bindings).mem_iff.mpr he, beq_self_eq_true e.1⟩
  · exact Or.inr (hbody hmem)

end LazyConfig
