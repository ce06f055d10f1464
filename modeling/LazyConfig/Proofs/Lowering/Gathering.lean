import LazyConfig.Proofs.Lowering.Scopes
import Mathlib.Data.List.Nodup
set_option autoImplicit false

/-!
# Lowering: bindings one by one

`Amounts` goes through the bindings of a scope with the names that are taken in front of them.
Here the two are taken apart.  `Gathers` says what the bindings amount to one by one, whatever
their names are, and a scope is not refused if moreover no name is bound twice.  What one
binding gives depends on no other, so bindings can be moved, and one can be put in the place
of several.

The entries of a term are put in order, and as no two have one name, their order in the program
does not show in it.
-/

namespace LazyConfig

/-! ## Entries in order -/

/-- Entries without a key in common are put in one order, however they came. -/
theorem sortBy_eq_of_perm {entries others : List (String × Term)} (h : entries.Perm others)
    (hnodup : (entries.map Prod.fst).Nodup) :
    sortBy Prod.fst entries = sortBy Prod.fst others := by
  have hsame : (sortBy Prod.fst entries).Perm (sortBy Prod.fst others) :=
    (sortBy_perm _ _).trans (h.trans (sortBy_perm _ _).symm)
  have hkeys : ∀ e ∈ entries, ∀ e' ∈ entries, e.1 = e'.1 → e = e' := fun e he e' he' =>
    List.inj_on_of_nodup_map hnodup he he'
  refine hsame.eq_of_pairwise (fun e e' he he' hle hge => ?_) (sortBy_pairwise _ _)
    (sortBy_pairwise _ _)
  exact hkeys e ((sortBy_perm _ _).mem_iff.mp he) e'
    (h.mem_iff.mpr ((sortBy_perm _ _).mem_iff.mp he')) (String.le_antisymm hle hge)

/-- Each name with the variable of the name. -/
def nameEntries (names : List String) : List (String × Term) :=
  names.map fun name => (name, .var name)

theorem map_fst_nameEntries (names : List String) : (nameEntries names).map Prod.fst = names := by
  simp [nameEntries, Function.comp_def]

theorem map_fst_lookupNames (source : Term) (names : List String) :
    (lookupNames source names).map Prod.fst = names := by
  simp [lookupNames, Function.comp_def]

/-! ## What a scope amounts to -/

namespace Bound

/-- What more bindings amount to. -/
def append (b c : Bound) : Bound := ⟨b.own ++ c.own, b.outer ++ c.outer⟩

instance : Append Bound := ⟨append⟩

/-- All names, those of the scope's own first. -/
def names (b : Bound) : List String := b.own.map Prod.fst ++ b.outer

/-- The entries of a plain dict. -/
def entries (b : Bound) : List (String × Term) := b.own ++ nameEntries b.outer

theorem map_fst_entries (b : Bound) : b.entries.map Prod.fst = b.names := by
  rw [entries, List.map_append, map_fst_nameEntries, names]

theorem entries_append_perm (b c : Bound) : (b ++ c).entries.Perm (b.entries ++ c.entries) := by
  show ((b.own ++ c.own) ++ nameEntries (b.outer ++ c.outer)).Perm _
  rw [nameEntries, List.map_append, List.append_assoc, entries, entries, List.append_assoc]
  exact (List.perm_append_comm_assoc _ _ _).append_left _

/-- The same, in any order. -/
structure Permuted (b c : Bound) : Prop where
  /-- The names of the scope's own. -/
  own : b.own.Perm c.own
  /-- The names that are taken over. -/
  outer : b.outer.Perm c.outer

namespace Permuted

variable {b c : Bound}

theorem refl (b : Bound) : Permuted b b := ⟨.refl _, .refl _⟩

theorem append {b' c' : Bound} (h : Permuted b c) (h' : Permuted b' c') :
    Permuted (b ++ b') (c ++ c') :=
  ⟨h.own.append h'.own, h.outer.append h'.outer⟩

theorem names (h : Permuted b c) : b.names.Perm c.names :=
  (h.own.map Prod.fst).append h.outer

theorem entries (h : Permuted b c) : b.entries.Perm c.entries :=
  h.own.append (h.outer.map _)

end Permuted

end Bound

/-! ## One binding after the other -/

variable {κ : Type} {key : κ → Option String} {bindings more : List (Binding κ Expr)}
  {bound : Bound}

theorem Binding.names_equation {k : κ} {name : String} (hkey : key k = some name)
    (value : Expr) : Binding.names key (.equation k value) = [name] := by
  rw [Binding.names, hkey]
  rfl

/-- What a binding amounts to by itself. -/
inductive Binding.Gives (key : κ → Option String) : Binding κ Expr → Bound → Prop
  | equation {k : κ} {name : String} {value : Expr} {t : Term} (hkey : key k = some name)
      (hvalue : value.lower = .ok t) : Gives key (.equation k value) ⟨[(name, t)], []⟩
  | outer (names : List String) : Gives key (.inherit none names) ⟨[], names⟩
  | source {e : Expr} {u : Term} (hsource : e.lower = .ok u) (names : List String) :
      Gives key (.inherit (some e) names) ⟨lookupNames u names, []⟩

/-- What bindings amount to, if it does not matter whether a name is bound twice. -/
inductive Gathers (key : κ → Option String) : List (Binding κ Expr) → Bound → Prop
  | nil : Gathers key [] ⟨[], []⟩
  | cons {binding : Binding κ Expr} {rest : List (Binding κ Expr)} {b c : Bound}
      (h : binding.Gives key b) (hrest : Gathers key rest c) :
      Gathers key (binding :: rest) (b ++ c)

namespace Gathers

theorem append {b c : Bound} (h : Gathers key bindings b) (h' : Gathers key more c) :
    Gathers key (bindings ++ more) (b ++ c) := by
  induction h with
  | nil => exact h'
  | @cons binding rest b d hb _ ih =>
    have happend : b ++ d ++ c = b ++ (d ++ c) :=
      congrArg₂ Bound.mk (List.append_assoc _ _ _) (List.append_assoc _ _ _)
    rw [happend]
    exact .cons hb ih

theorem append_iff : Gathers key (bindings ++ more) bound ↔
    ∃ b c, Gathers key bindings b ∧ Gathers key more c ∧ b ++ c = bound := by
  constructor
  · intro h
    induction bindings generalizing bound with
    | nil => exact ⟨_, _, .nil, h, rfl⟩
    | cons binding rest ih =>
      obtain _ | ⟨hb, hrest⟩ := h
      obtain ⟨b, c, hb', hc, rfl⟩ := ih hrest
      refine ⟨_, c, .cons hb hb', hc, ?_⟩
      exact congrArg₂ Bound.mk (List.append_assoc _ _ _) (List.append_assoc _ _ _)
  · rintro ⟨b, c, hb, hc, rfl⟩
    exact hb.append hc

theorem singleton_iff {binding : Binding κ Expr} :
    Gathers key [binding] bound ↔ binding.Gives key bound := by
  have hempty : ∀ b : Bound, b ++ (⟨[], []⟩ : Bound) = b := fun b =>
    congrArg₂ Bound.mk (List.append_nil _) (List.append_nil _)
  constructor
  · rintro (_ | ⟨hb, ⟨⟩⟩)
    rwa [hempty]
  · intro h
    rw [← hempty bound]
    exact .cons h .nil

/-- The names that are bound. -/
theorem perm_names (h : Gathers key bindings bound) :
    bound.names.Perm (boundNames key bindings) := by
  induction h with
  | nil => exact .nil
  | @cons binding rest b c hb hrest ih =>
    have hfirst : b.names = binding.names key := by
      cases hb with
      | equation hkey _ => exact (Binding.names_equation hkey _).symm
      | outer names => rfl
      | source hsource names => exact (List.append_nil _).trans (map_fst_lookupNames _ _)
    have hsplit : (b ++ c).names.Perm (b.names ++ c.names) := by
      have hfst := (b.entries_append_perm c).map Prod.fst
      rwa [List.map_append, Bound.map_fst_entries, Bound.map_fst_entries,
        Bound.map_fst_entries] at hfst
    rw [boundNames, List.flatMap_cons, ← hfirst]
    exact hsplit.trans (ih.append_left _)

end Gathers

/-- A scope is not refused if its bindings amount to something one by one and bind no name
twice, and none that is taken. -/
theorem amounts_iff_gathers {taken : List String} :
    Amounts key taken bindings bound ↔ Gathers key bindings bound ∧
      (boundNames key bindings).Nodup ∧ ∀ name ∈ boundNames key bindings, name ∉ taken := by
  constructor
  · intro h
    refine ⟨?_, h.nodup_boundNames⟩
    induction h with
    | nil => exact .nil
    | equation hkey _ hvalue _ ih => exact .cons (.equation hkey hvalue) ih
    | @outer _ names _ _ _ _ _ ih => exact .cons (.outer names) ih
    | @source _ names _ _ _ _ hsource _ _ _ ih => exact .cons (.source hsource names) ih
  · rintro ⟨h, hnodup, hfresh⟩
    induction h generalizing taken with
    | nil => exact .nil taken
    | @cons binding rest b c hb hrest ih =>
      rw [boundNames, List.flatMap_cons] at hnodup hfresh
      obtain ⟨hnames, hlater, hdisjoint⟩ := List.nodup_append.mp hnodup
      have hnew : ∀ name ∈ binding.names key, name ∉ taken := fun name hname =>
        hfresh name (List.mem_append_left _ hname)
      have hrest : Amounts key ((binding.names key).reverse ++ taken) rest c := by
        refine ih hlater fun name hname hmem => ?_
        rcases List.mem_append.mp hmem with hmem | hmem
        · exact hdisjoint name (List.mem_reverse.mp hmem) name hname rfl
        · exact hfresh name (List.mem_append_right _ hname) hmem
      cases hb with
      | equation hkey hvalue =>
        rw [Binding.names_equation hkey] at hnew hrest
        exact .equation hkey (hnew _ List.mem_cons_self) hvalue hrest
      | outer names => exact .outer hnames hnew hrest
      | source hsource names => exact .source hsource hnames hnew hrest

/-! ## Scopes and their terms -/

theorem entryTerms_eq_ok_iff {taken : List String} {bindings : List (Binding Expr Expr)} :
    (entryTerms taken bindings false).1 = .ok bound ↔
      Amounts Expr.staticText? taken bindings bound := by
  refine ⟨amounts_of_entryTerms, fun h => ?_⟩
  induction h with
  | nil => rfl
  | equation hkey hnew hvalue _ ih =>
    rw [entryTerms, Lowering.bind_ok (staticKey_eq_ok_iff.mpr hkey),
      Lowering.bind_ok (claim_eq_ok_iff.mpr ⟨hnew, rfl⟩), Lowering.bind_ok hvalue,
      Lowering.bind_ok ih]
    rfl
  | outer hnodup hnew _ ih =>
    rw [entryTerms, Lowering.bind_ok (claimAll_eq_ok_iff.mpr ⟨hnodup, hnew, rfl⟩),
      Lowering.bind_ok ih]
    rfl
  | source hsource hnodup hnew _ ih =>
    rw [entryTerms, Lowering.bind_ok hsource,
      Lowering.bind_ok (claimAll_eq_ok_iff.mpr ⟨hnodup, hnew, rfl⟩), Lowering.bind_ok ih]
    rfl

theorem definitionTerms_eq_ok_iff {taken : List String} {bindings : List (Binding String Expr)} :
    (definitionTerms taken bindings false).1 = .ok bound ↔ Amounts some taken bindings bound := by
  refine ⟨amounts_of_definitionTerms, fun h => ?_⟩
  induction h with
  | nil => rfl
  | equation hkey hnew hvalue _ ih =>
    obtain rfl := Option.some.inj hkey
    rw [definitionTerms, Lowering.bind_ok (claim_eq_ok_iff.mpr ⟨hnew, rfl⟩),
      Lowering.bind_ok hvalue, Lowering.bind_ok ih]
    rfl
  | outer hnodup hnew _ ih =>
    rw [definitionTerms, Lowering.bind_ok (claimAll_eq_ok_iff.mpr ⟨hnodup, hnew, rfl⟩),
      Lowering.bind_ok ih]
    rfl
  | source hsource hnodup hnew _ ih =>
    rw [definitionTerms, Lowering.bind_ok hsource,
      Lowering.bind_ok (claimAll_eq_ok_iff.mpr ⟨hnodup, hnew, rfl⟩), Lowering.bind_ok ih]
    rfl

/-- What a scope without names around it amounts to. -/
theorem amounts_nil_iff :
    Amounts key [] bindings bound ↔ Gathers key bindings bound ∧ bound.names.Nodup := by
  rw [amounts_iff_gathers]
  constructor
  · rintro ⟨h, hnodup, -⟩
    exact ⟨h, h.perm_names.nodup_iff.mpr hnodup⟩
  · rintro ⟨h, hnodup⟩
    exact ⟨h, h.perm_names.nodup_iff.mp hnodup, fun _ _ => List.not_mem_nil⟩

variable {t : Term}

theorem lower_plainDict_iff {bindings : List (Binding Expr Expr)} :
    (Expr.dict false bindings).lower = .ok t ↔ ∃ bound,
      Gathers Expr.staticText? bindings bound ∧ bound.names.Nodup ∧
        Term.ofEntries bound.entries = t := by
  rw [Expr.lower, Expr.toTerm, Lowering.bind_eq_ok_iff]
  refine exists_congr fun bound => ?_
  rw [entryTerms_eq_ok_iff, amounts_nil_iff, and_assoc]
  exact and_congr_right' (and_congr_right' (Iff.of_eq (Except.ok.injEq _ _)))

theorem lower_recursiveDict_iff {bindings : List (Binding Expr Expr)} :
    (Expr.dict true bindings).lower = .ok t ↔ ∃ bound,
      Gathers Expr.staticText? bindings bound ∧ bound.names.Nodup ∧
        Term.ofBindings bound.own (.ofEntries (nameEntries bound.names)) = t := by
  rw [Expr.lower, Expr.toTerm, Lowering.bind_eq_ok_iff]
  refine exists_congr fun bound => ?_
  rw [entryTerms_eq_ok_iff, amounts_nil_iff, and_assoc]
  exact and_congr_right' (and_congr_right' (Iff.of_eq (Except.ok.injEq _ _)))

theorem lower_letIn_iff {bindings : List (Binding String Expr)} {body : Expr} :
    (Expr.letIn bindings body).lower = .ok t ↔ ∃ bound,
      Gathers some bindings bound ∧ bound.names.Nodup ∧
        ∃ u, body.lower = .ok u ∧ Term.ofBindings bound.own u = t := by
  rw [Expr.lower, Expr.toTerm, Lowering.bind_eq_ok_iff]
  refine exists_congr fun bound => ?_
  rw [definitionTerms_eq_ok_iff, amounts_nil_iff, and_assoc, Lowering.bind_eq_ok_iff]
  exact and_congr_right' (and_congr_right' (exists_congr fun u =>
    and_congr_right' (Iff.of_eq (Except.ok.injEq _ _))))

end LazyConfig
