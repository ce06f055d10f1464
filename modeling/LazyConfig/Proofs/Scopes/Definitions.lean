import LazyConfig.Proofs.Lowering.Gathering
import LazyConfig.Proofs.Scopes.Lookup
set_option autoImplicit false

/-!
# Scopes: definitions

A scope has names of its own, each with a definition, and names that it takes over from the
scope around.  A definition is the value of an equation, or what a source has under the name.
-/

namespace LazyConfig

/-- What gives a name its value in a scope. -/
inductive Definition where
  /-- The value of an equation. -/
  | value (e : Expr)
  /-- What a source has under the name. -/
  | entry (source : Expr)

namespace Binding

variable {κ : Type}

/-- The names that get a definition from a binding. -/
def definitions (key : κ → Option String) : Binding κ Expr → List (String × Definition)
  | .equation k e => (key k).toList.map fun name => (name, .value e)
  | .inherit none _ => []
  | .inherit (some source) names => names.map fun name => (name, .entry source)

/-- The names that a binding takes over from the scope around. -/
def outerNames : Binding κ Expr → List String
  | .equation _ _ => []
  | .inherit none names => names
  | .inherit (some _) _ => []

end Binding

section

variable {κ : Type} (key : κ → Option String) (bindings : List (Binding κ Expr))

/-- The names of a scope's own with their definitions. -/
def definitions : List (String × Definition) := bindings.flatMap (Binding.definitions key)

/-- The names that a scope takes over from the scope around. -/
def outerNames : List String := bindings.flatMap Binding.outerNames

end

/-! ## The terms of definitions -/

/-- The term that lowering gives to the definition of a name. -/
inductive Definition.Lowers (x : String) : Definition → Term → Prop
  | value {e : Expr} {t : Term} (h : e.lower = .ok t) : Lowers x (.value e) t
  | entry {source : Expr} {u : Term} (h : source.lower = .ok u) :
      Lowers x (.entry source) (lookupTerm u (.text x))

/-- What the term of a definition stands for: it is the term of the value, or it has in every
environment what the source has there under the name. -/
inductive Definition.StandsFor (x : String) : Definition → Term → Prop
  | value {e : Expr} {t : Term} (h : e.lower = .ok t) : StandsFor x (.value e) t
  | entry {source : Expr} {u t : Term} (h : source.lower = .ok u)
      (hselect : ∀ (tr : Bool) (s : Store) (env : Env) (n : Nat), s.Closed → s.Binds env →
        SameResult tr s (perform (n + 3) (.eval t env)) (select n u x env)) :
      StandsFor x (.entry source) t

theorem Definition.Lowers.standsFor {x : String} {d : Definition} {t : Term} (h : d.Lowers x t) :
    d.StandsFor x t := by
  cases h with
  | value h => exact .value h
  | entry h => exact .entry h fun tr s env n hs henv => .of_alike (lookup_alike hs henv)

namespace Amounts

variable {κ : Type} {key : κ → Option String} {taken : List String}
  {bindings : List (Binding κ Expr)} {bound : Bound}

/-- The names of a scope's own have the terms of their definitions. -/
theorem own_lowers (h : Amounts key taken bindings bound) :
    List.Forall₂ (fun d e => d.1 = e.1 ∧ d.2.Lowers d.1 e.2) (definitions key bindings)
      bound.own := by
  induction h with
  | nil => exact .nil
  | @equation taken k name value t rest later hkey hnew hvalue hrest ih =>
    rw [definitions, List.flatMap_cons, Binding.definitions, hkey]
    exact .cons ⟨rfl, .value hvalue⟩ ih
  | outer _ _ _ ih => exact ih
  | @source taken names e u rest later hsource _ _ _ ih =>
    refine List.rel_append ?_ ih
    rw [Binding.definitions, lookupNames, List.forall₂_map_left_iff, List.forall₂_map_right_iff,
      List.forall₂_same]
    exact fun name _ => ⟨rfl, .entry hsource⟩

theorem outer_eq (h : Amounts key taken bindings bound) : bound.outer = outerNames bindings := by
  induction h with
  | nil => rfl
  | equation _ _ _ _ ih | source _ _ _ _ ih => exact ih
  | outer _ _ _ ih => exact congrArg _ ih

/-- All names of a scope, those of its own first. -/
theorem perm_boundNames (h : Amounts key taken bindings bound) :
    (bound.own.map Prod.fst ++ bound.outer).Perm (boundNames key bindings) :=
  (amounts_iff_gathers.mp h).1.perm_names

theorem nodup_names (h : Amounts key taken bindings bound) :
    (bound.own.map Prod.fst ++ bound.outer).Nodup :=
  h.perm_boundNames.nodup_iff.mpr h.nodup_boundNames.1

/-- A name with a definition has the term of it. -/
theorem exists_own (h : Amounts key taken bindings bound) {x : String} {d : Definition}
    (hmem : (x, d) ∈ definitions key bindings) : ∃ t, (x, t) ∈ bound.own ∧ d.Lowers x t := by
  obtain ⟨⟨y, t⟩, hown, rfl, hlowers⟩ := exists_of_forall₂ h.own_lowers hmem
  exact ⟨t, hown, hlowers⟩

/-- A name of the scope's own has a definition. -/
theorem exists_definition (h : Amounts key taken bindings bound) {x : String} {t : Term}
    (hmem : (x, t) ∈ bound.own) : ∃ d, (x, d) ∈ definitions key bindings := by
  obtain ⟨⟨y, d⟩, hdefinition, rfl, -⟩ := exists_of_forall₂ h.own_lowers.flip hmem
  exact ⟨d, hdefinition⟩

theorem mem_own_iff (h : Amounts key taken bindings bound) {x : String} :
    x ∈ bound.own.map Prod.fst ↔ ∃ d, (x, d) ∈ definitions key bindings := by
  rw [List.mem_map]
  constructor
  · rintro ⟨⟨y, t⟩, hmem, rfl⟩
    exact h.exists_definition hmem
  · rintro ⟨d, hd⟩
    obtain ⟨t, ht, -⟩ := h.exists_own hd
    exact ⟨(x, t), ht, rfl⟩

end Amounts

end LazyConfig
