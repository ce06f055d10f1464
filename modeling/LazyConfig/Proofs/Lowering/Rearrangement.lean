import LazyConfig.Proofs.Lowering.Contexts
import LazyConfig.Proofs.Lowering.Gathering
set_option autoImplicit false

/-!
# Lowering: the order of bindings

The bindings of a dict or a `let` can come in any order, and so can the names of an `inherit`,
which can also be divided among several.  What the bindings amount to is then the same in
another order, and the order does not show in the term.
-/

namespace LazyConfig

/-! ## Bindings that amount to the same -/

section

variable {κ : Type} {key : κ → Option String} {bindings others : List (Binding κ Expr)}

theorem Binding.Gives.unique {binding : Binding κ Expr} {b c : Bound} (h : binding.Gives key b)
    (h' : binding.Gives key c) : b = c := by
  cases h with
  | equation hkey hvalue =>
    obtain ⟨hkey', hvalue'⟩ := h'
    rw [Option.some.inj (hkey.symm.trans hkey'), Except.ok.inj (hvalue.symm.trans hvalue')]
  | outer names =>
    cases h'
    rfl
  | source hsource names =>
    obtain _ | _ | hsource' := h'
    rw [Except.ok.inj (hsource.symm.trans hsource')]

theorem Gathers.unique {b c : Bound} (h : Gathers key bindings b)
    (h' : Gathers key bindings c) : b = c := by
  induction h generalizing c with
  | nil =>
    cases h'
    rfl
  | cons hb _ ih =>
    obtain _ | ⟨hb', hrest'⟩ := h'
    rw [hb.unique hb', ih hrest']

/-- What bindings amount to others do too, in some order. -/
def GathersInto (key : κ → Option String) (bindings others : List (Binding κ Expr)) : Prop :=
  ∀ b, Gathers key bindings b → ∃ c, Gathers key others c ∧ b.Permuted c

namespace GathersInto

theorem of_perm (h : bindings.Perm others) : GathersInto key bindings others := by
  intro b hb
  induction h generalizing b with
  | nil => exact ⟨b, hb, .refl b⟩
  | cons binding _ ih =>
    obtain _ | ⟨hfirst, hrest⟩ := hb
    obtain ⟨c, hc, hperm⟩ := ih _ hrest
    exact ⟨_, .cons hfirst hc, (Bound.Permuted.refl _).append hperm⟩
  | swap x y rest =>
    obtain _ | ⟨hy, _ | ⟨hx, hrest⟩⟩ := hb
    exact ⟨_, .cons hx (.cons hy hrest),
      List.perm_append_comm_assoc _ _ _, List.perm_append_comm_assoc _ _ _⟩
  | trans _ _ ih ih' =>
    obtain ⟨c, hc, hperm⟩ := ih b hb
    obtain ⟨d, hd, hperm'⟩ := ih' c hc
    exact ⟨d, hd, hperm.own.trans hperm'.own, hperm.outer.trans hperm'.outer⟩

/-- The other bindings of a scope do not matter. -/
theorem around (h : GathersInto key bindings others) (front back : List (Binding κ Expr)) :
    GathersInto key (front ++ (bindings ++ back)) (front ++ (others ++ back)) := by
  intro b hb
  obtain ⟨x, yz, hx, hyz, rfl⟩ := Gathers.append_iff.mp hb
  obtain ⟨y, z, hy, hz, rfl⟩ := Gathers.append_iff.mp hyz
  obtain ⟨c, hc, hperm⟩ := h y hy
  exact ⟨_, hx.append (hc.append hz),
    (Bound.Permuted.refl x).append (hperm.append (.refl z))⟩

end GathersInto

/-! ## Dividing an `inherit` -/

/-- What an `inherit` makes of its names, whichever they are. -/
inductive Takes : Option Expr → (List String → Bound) → Prop
  | scope : Takes none fun names => ⟨[], names⟩
  | source {e : Expr} {u : Term} (h : e.lower = .ok u) :
      Takes (some e) fun names => ⟨lookupNames u names, []⟩

theorem gives_inherit_iff {source : Option Expr} {names : List String} {b : Bound} :
    (Binding.inherit source names).Gives key b ↔ ∃ f, Takes source f ∧ f names = b := by
  constructor
  · rintro (_ | _ | hsource)
    · exact ⟨_, .scope, rfl⟩
    · exact ⟨_, .source hsource, rfl⟩
  · rintro ⟨f, hf, rfl⟩
    cases hf with
    | scope => exact .outer names
    | source h => exact .source h names

theorem Takes.permuted {source : Option Expr} {f : List String → Bound} (h : Takes source f)
    {names names' : List String} (hperm : names.Perm names') :
    (f names).Permuted (f names') := by
  cases h with
  | scope => exact ⟨.refl _, hperm⟩
  | source => exact ⟨hperm.map _, .refl _⟩

/-- Names in groups are taken like all of them together. -/
theorem Takes.gathers {source : Option Expr} {f : List String → Bound} (h : Takes source f)
    (groups : List (List String)) :
    Gathers key (groups.map (.inherit source)) (f groups.flatten) := by
  induction groups with
  | nil => cases h <;> exact .nil
  | cons names rest ih =>
    have hsplit : f (names ++ rest.flatten) = f names ++ f rest.flatten := by
      cases h with
      | scope => rfl
      | source => exact congrArg (Bound.mk · []) List.map_append
    rw [List.flatten_cons, hsplit, List.map_cons]
    exact .cons (gives_inherit_iff.mpr ⟨f, h, rfl⟩) ih

variable {source : Option Expr} {names : List String} {groups : List (List String)}

theorem gathersInto_groups (hperm : groups.flatten.Perm names) :
    GathersInto key [.inherit source names] (groups.map (.inherit source)) := by
  intro b hb
  obtain ⟨f, hf, rfl⟩ := gives_inherit_iff.mp (Gathers.singleton_iff.mp hb)
  exact ⟨_, hf.gathers groups, hf.permuted hperm.symm⟩

/-- Without a group there would be nothing that looks at the source. -/
theorem groups_gathersInto (hsome : groups ≠ []) (hperm : groups.flatten.Perm names) :
    GathersInto key (groups.map (.inherit source)) [.inherit source names] := by
  intro b hb
  obtain ⟨f, hf⟩ : ∃ f, Takes source f := by
    obtain ⟨first, rest, rfl⟩ := List.exists_cons_of_ne_nil hsome
    obtain _ | ⟨hfirst, -⟩ := hb
    obtain ⟨f, hf, -⟩ := gives_inherit_iff.mp hfirst
    exact ⟨f, hf⟩
  obtain rfl := hb.unique (hf.gathers groups)
  exact ⟨_, Gathers.singleton_iff.mpr (gives_inherit_iff.mpr ⟨f, hf, rfl⟩), hf.permuted hperm⟩

end

/-! ## Scopes with other bindings -/

theorem Term.ofEntries_eq_of_perm {entries others : List (String × Term)}
    (h : entries.Perm others) (hnodup : (entries.map Prod.fst).Nodup) :
    Term.ofEntries entries = Term.ofEntries others :=
  congrArg Term.dict (sortBy_eq_of_perm h hnodup)

theorem Term.ofEntries_nameEntries_eq_of_perm {names others : List String}
    (h : names.Perm others) (hnodup : names.Nodup) :
    Term.ofEntries (nameEntries names) = Term.ofEntries (nameEntries others) :=
  Term.ofEntries_eq_of_perm (h.map _) ((map_fst_nameEntries names).symm ▸ hnodup)

theorem Term.ofBindings_eq_of_perm {entries others : List (String × Term)}
    (h : entries.Perm others) (hnodup : (entries.map Prod.fst).Nodup) (body : Term) :
    Term.ofBindings entries body = Term.ofBindings others body :=
  congrArg (Term.letrec · body) (sortBy_eq_of_perm h hnodup)

/-- In a plain dict it does not matter which names have a value of their own. -/
theorem lower_plainDict_of_entries {bindings others : List (Binding Expr Expr)}
    (h : ∀ b, Gathers Expr.staticText? bindings b →
      ∃ c, Gathers Expr.staticText? others c ∧ b.entries.Perm c.entries) {t : Term}
    (ht : (Expr.dict false bindings).lower = .ok t) :
    (Expr.dict false others).lower = .ok t := by
  obtain ⟨b, hb, hnodup, rfl⟩ := lower_plainDict_iff.mp ht
  obtain ⟨c, hc, hperm⟩ := h b hb
  rw [← b.map_fst_entries] at hnodup
  have hnodup' : (c.entries.map Prod.fst).Nodup := (hperm.map Prod.fst).nodup_iff.mp hnodup
  refine lower_plainDict_iff.mpr ⟨c, hc, c.map_fst_entries ▸ hnodup', ?_⟩
  exact (Term.ofEntries_eq_of_perm hperm hnodup).symm

theorem lower_dict_of_gathersInto {bindings others : List (Binding Expr Expr)}
    (h : GathersInto Expr.staticText? bindings others) (recursive : Bool) {t : Term}
    (ht : (Expr.dict recursive bindings).lower = .ok t) :
    (Expr.dict recursive others).lower = .ok t := by
  cases recursive with
  | false =>
    refine lower_plainDict_of_entries (fun b hb => ?_) ht
    obtain ⟨c, hc, hperm⟩ := h b hb
    exact ⟨c, hc, hperm.entries⟩
  | true =>
    obtain ⟨b, hb, hnodup, rfl⟩ := lower_recursiveDict_iff.mp ht
    obtain ⟨c, hc, hperm⟩ := h b hb
    refine lower_recursiveDict_iff.mpr ⟨c, hc, hperm.names.nodup_iff.mp hnodup, ?_⟩
    rw [Term.ofEntries_nameEntries_eq_of_perm hperm.names hnodup]
    exact (Term.ofBindings_eq_of_perm hperm.own (List.nodup_append.mp hnodup).1 _).symm

theorem lower_letIn_of_gathersInto {bindings others : List (Binding String Expr)}
    (h : GathersInto some bindings others) {body : Expr} {t : Term}
    (ht : (Expr.letIn bindings body).lower = .ok t) :
    (Expr.letIn others body).lower = .ok t := by
  obtain ⟨b, hb, hnodup, u, hu, rfl⟩ := lower_letIn_iff.mp ht
  obtain ⟨c, hc, hperm⟩ := h b hb
  refine lower_letIn_iff.mpr ⟨c, hc, hperm.names.nodup_iff.mp hnodup, u, hu, ?_⟩
  exact (Term.ofBindings_eq_of_perm hperm.own (List.nodup_append.mp hnodup).1 u).symm

/-- Bindings that amount to the same each way can stand for each other in a dict. -/
theorem Expr.lowersLike_dict {bindings others : List (Binding Expr Expr)} (recursive : Bool)
    (h : GathersInto staticText? bindings others) (h' : GathersInto staticText? others bindings) :
    (dict recursive bindings).LowersLike (dict recursive others) :=
  ⟨fun _ => ⟨lower_dict_of_gathersInto h recursive, lower_dict_of_gathersInto h' recursive⟩, rfl⟩

theorem Expr.lowersLike_letIn {bindings others : List (Binding String Expr)} (body : Expr)
    (h : GathersInto some bindings others) (h' : GathersInto some others bindings) :
    (letIn bindings body).LowersLike (letIn others body) :=
  ⟨fun _ => ⟨lower_letIn_of_gathersInto h, lower_letIn_of_gathersInto h'⟩, rfl⟩

/-! ## Rearranged programs -/

/-- Bindings that bind the same in another order. -/
inductive Reordered {κ ε : Type} : List (Binding κ ε) → List (Binding κ ε) → Prop
  /-- The bindings come in another order. -/
  | bindings {bs cs : List (Binding κ ε)} (h : bs.Perm cs) : Reordered bs cs
  /-- The names of an `inherit` come in another order. -/
  | names (front back : List (Binding κ ε)) (source : Option ε) {names names' : List String}
      (h : names.Perm names') :
      Reordered (front ++ ([.inherit source names] ++ back))
        (front ++ ([.inherit source names'] ++ back))
  /-- The names of an `inherit` are divided among several. -/
  | groups (front back : List (Binding κ ε)) (source : Option ε) {names : List String}
      {groups : List (List String)} (hsome : groups ≠ []) (h : groups.flatten.Perm names) :
      Reordered (front ++ ([.inherit source names] ++ back))
        (front ++ (groups.map (.inherit source) ++ back))

/-- Either of two scopes with bindings that bind the same in another order. -/
inductive Expr.Rearranged : Expr → Expr → Prop
  | dict (recursive : Bool) {bs cs : List (Binding Expr Expr)} (h : Reordered bs cs) :
      Rearranged (.dict recursive bs) (.dict recursive cs)
  | letIn (body : Expr) {bs cs : List (Binding String Expr)} (h : Reordered bs cs) :
      Rearranged (.letIn bs body) (.letIn cs body)

theorem Reordered.gathersInto {κ : Type} {bs cs : List (Binding κ Expr)} (h : Reordered bs cs)
    (key : κ → Option String) : GathersInto key bs cs ∧ GathersInto key cs bs := by
  cases h with
  | bindings h => exact ⟨.of_perm h, .of_perm h.symm⟩
  | @names front back source names names' h =>
    have hone : [names'].flatten.Perm names := by
      rw [List.flatten_singleton]
      exact h.symm
    exact ⟨(gathersInto_groups hone).around front back,
      (groups_gathersInto (List.cons_ne_nil _ _) hone).around front back⟩
  | groups front back source hsome h =>
    exact ⟨(gathersInto_groups h).around front back,
      (groups_gathersInto hsome h).around front back⟩

theorem Expr.Rearranged.lowersLike {d e : Expr} (h : d.Rearranged e) : d.LowersLike e := by
  cases h with
  | dict recursive h =>
    exact lowersLike_dict recursive (h.gathersInto _).1 (h.gathersInto _).2
  | letIn body h => exact lowersLike_letIn body (h.gathersInto _).1 (h.gathersInto _).2

/-- The order of bindings is irrelevant.  Programs that differ in the order of bindings, in the
order of the names of an `inherit`, and in how these are divided among several, anywhere and any
number of times, have the same core term, or none of them has one. -/
theorem lower_eq_ok_iff_of_rearranged {d e : Expr}
    (h : Relation.EqvGen (Expr.Within Expr.Rearranged) d e) (t : Term) :
    d.lower = .ok t ↔ e.lower = .ok t :=
  Expr.lower_eq_ok_iff_of_changes (fun _ _ => Expr.Rearranged.lowersLike) h t

/-- In a list, names out of a source are divided in two, and the equation goes to the front. -/
theorem lower_eq_ok_iff_of_rearranged_divided :
    let s : Expr := .var ⟨"s", by decide⟩
    let d : Expr := .list [.dict true [.inherit (some s) ["x", "y"], .equation (.text "a") s]]
    let e : Expr := .list [.dict true [.equation (.text "a") s, .inherit (some s) ["y"],
      .inherit (some s) ["x"]]]
    let t : Term := .list [.letrec [("a", .var "s"), ("x", lookupTerm (.var "s") (.text "x")),
      ("y", lookupTerm (.var "s") (.text "y"))]
      (.dict [("a", .var "a"), ("x", .var "x"), ("y", .var "y")])]
    Relation.EqvGen (Expr.Within Expr.Rearranged) d e ∧ d.lower = .ok t ∧ e.lower = .ok t := by
  intro s d e t
  let a : Binding Expr Expr := .equation (.text "a") s
  let x : Binding Expr Expr := .inherit (some s) ["x"]
  let y : Binding Expr Expr := .inherit (some s) ["y"]
  have hgroups : [["y"], ["x"]].flatten.Perm ["x", "y"] := .swap "x" "y" []
  have hdivide : Reordered [.inherit (some s) ["x", "y"], a] [y, x, a] :=
    .groups [] [a] (some s) (List.cons_ne_nil _ _) hgroups
  have hmove : Reordered [y, x, a] [a, y, x] := .bindings (@List.perm_append_comm _ [y, x] [a])
  have h : Relation.EqvGen (Expr.Within Expr.Rearranged) d e :=
    .trans _ _ _ (.rel _ _ (.inside (.item [] []) (.here (.dict true hdivide))))
      (.rel _ _ (.inside (.item [] []) (.here (.dict true hmove))))
  exact ⟨h, rfl, (lower_eq_ok_iff_of_rearranged h t).mp rfl⟩

end LazyConfig
