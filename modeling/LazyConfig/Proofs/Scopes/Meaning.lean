import LazyConfig.Proofs.Scopes.Cells
import LazyConfig.Proofs.Scopes.Definitions
set_option autoImplicit false

/-!
# Scopes: what they mean

A `let` is its body in an environment where the names of its own are bound to their
definitions, which are left to this environment in turn.  A recursive dict is the dict of all
its names in such an environment, and the entries of a plain dict are left to the environment
around.
-/

namespace LazyConfig

variable {tr : Bool} {s : Store} {env : Env}

/-- The later store has new cells for computations that are not started, and what was there
is as it was. -/
def Store.Unforced (s w : Store) : Prop := ∃ cs : List Suspension, w = s.append (cs.map .delayed)

theorem unforced_bindingStore (s : Store) (bindings : List (String × Term)) (env : Env) :
    s.Unforced (bindingStore s bindings env) :=
  ⟨_, rfl⟩

theorem unforced_defaultCells (s : Store) (entries : List (String × Term)) (env : Env) :
    s.Unforced (s.append (defaultCells entries env)) := by
  refine ⟨entries.map fun e => .term e.2 env, ?_⟩
  rw [List.map_map]
  rfl

/-! ## Environments of scopes -/

/-- The environment `inner` over the store `w` is that of a scope in `env` over `s`. -/
structure Opened {κ : Type} (key : κ → Option String) (bindings : List (Binding κ Expr))
    (s : Store) (env : Env) (w : Store) (inner : Env) : Prop where
  /-- Nothing is forced. -/
  unforced : s.Unforced w
  /-- A name that has no definition is bound as in the environment around. -/
  around : ∀ x, (∀ d, (x, d) ∉ definitions key bindings) → inner.get? x = env.get? x
  /-- So is a name that is taken over from there. -/
  outer : ∀ x ∈ outerNames bindings, inner.get? x = env.get? x
  /-- A name with a definition is bound to a cell for the definition in the inner
  environment. -/
  own : ∀ x d, (x, d) ∈ definitions key bindings → ∃ a t, inner.get? x = some a ∧
    w.get? a = some (.delayed (.term t inner)) ∧ d.StandsFor x t

/-- The names of a scope in the order that recursive bindings have. -/
theorem nodup_sorted {entries : List (String × Term)} (h : (entries.map Prod.fst).Nodup) :
    ((sortBy Prod.fst entries).map Prod.fst).Nodup :=
  ((sortBy_perm Prod.fst entries).map Prod.fst).nodup_iff.mpr h

/-- Recursive bindings for what a scope amounts to make its environment. -/
theorem Amounts.opened {κ : Type} {key : κ → Option String} {bindings : List (Binding κ Expr)}
    {bound : Bound} (h : Amounts key [] bindings bound) (s : Store) (env : Env) :
    Opened key bindings s env (bindingStore s (sortBy Prod.fst bound.own) env)
      (bindingEnv s (sortBy Prod.fst bound.own) env) := by
  obtain ⟨hown, -, hdisjoint⟩ := List.nodup_append.mp h.nodup_names
  have hsorted : ∀ x, x ∈ (sortBy Prod.fst bound.own).map Prod.fst ↔
      x ∈ bound.own.map Prod.fst := fun x =>
    ((sortBy_perm Prod.fst bound.own).map Prod.fst).mem_iff
  have haround : ∀ x, x ∉ bound.own.map Prod.fst →
      (bindingEnv s (sortBy Prod.fst bound.own) env).get? x = env.get? x := fun x hx =>
    get?_bindFrom_of_not_mem (fun hmem => hx ((hsorted x).mp hmem)) s.next env
  refine ⟨unforced_bindingStore _ _ _, ?_, ?_, ?_⟩
  · intro x hx
    refine haround x fun hmem => ?_
    obtain ⟨d, hd⟩ := h.mem_own_iff.mp hmem
    exact hx d hd
  · intro x hx
    refine haround x fun hmem => ?_
    exact hdisjoint x hmem x (h.outer_eq ▸ hx) rfl
  · intro x d hd
    obtain ⟨t, ht, hlowers⟩ := h.exists_own hd
    have hmem : (x, t) ∈ sortBy Prod.fst bound.own :=
      (sortBy_perm Prod.fst bound.own).mem_iff.mpr ht
    obtain ⟨a, ha, hcell⟩ := exists_cell_of_binding (nodup_sorted hown) hmem s env
    exact ⟨a, t, ha, hcell, hlowers.standsFor⟩

/-! ## Dicts of names -/

theorem mem_nameEntries {names : List String} {x : String} (hx : x ∈ names) :
    (x, .var x) ∈ nameEntries names :=
  List.mem_map_of_mem hx

theorem mem_keys_newTable {base : Addr} {entries : List (String × Term)} {x : String} :
    x ∈ (newTable base (sortBy Prod.fst entries)).keys ↔ x ∈ entries.map Prod.fst := by
  rw [Table.mem_keys_iff, contains_newTable]
  exact ((sortBy_perm Prod.fst entries).map Prod.fst).mem_iff

/-- What a dict has under a key has the result of the term of the entry. -/
theorem exists_cell_of_sorted (tr : Bool) (hs : s.Closed) (henv : s.Binds env)
    {entries : List (String × Term)} (hkeys : (entries.map Prod.fst).Nodup) {x : String} {t : Term}
    (hmem : (x, t) ∈ entries) :
    ∃ a, (newTable s.next (sortBy Prod.fst entries)).get? x = some a ∧ ∀ m,
      SameResult tr (s.append (defaultCells (sortBy Prod.fst entries) env))
        (perform (m + 1) (.force a)) (perform m (.eval t env)) :=
  exists_cell_of_entry hs henv (nodup_sorted hkeys)
    ((sortBy_perm Prod.fst entries).mem_iff.mpr hmem)

/-! ## The three kinds of scope -/

section

variable (tr : Bool) (s : Store) (env : Env)

/-- The term is evaluated like the body of a `let` in the environment of its scope. -/
def IsLet (bindings : List (Binding String Expr)) (body : Expr) (t : Term) : Prop :=
  ∃ w inner b, body.lower = .ok b ∧ Opened some bindings s env w inner ∧
    ∀ n, (perform (n + 1) (.eval t env)).Ends tr s (perform n (.eval b inner) tr w).outcome
      (perform n (.eval b inner) tr w).store

/-- The keys are the names of a scope. -/
def KeysOf (bindings : List (Binding Expr Expr)) (entries : Table Addr) : Prop :=
  ∀ x, x ∈ entries.keys ↔
    (∃ d, (x, d) ∈ definitions Expr.staticText? bindings) ∨ x ∈ outerNames bindings

/-- The term is evaluated to a dict of all names of a scope, and under each one is the value
that the name has in the environment of the scope.  Nothing is forced. -/
def IsRecursiveDict (bindings : List (Binding Expr Expr)) (t : Term) : Prop :=
  ∃ w inner entries v, Opened Expr.staticText? bindings s env w inner ∧ w.Unforced v ∧
    (∀ n, (perform (n + 2) (.eval t env)).Ends tr s (.value (.dict entries)) v) ∧
    KeysOf bindings entries ∧ ∀ x a, entries.get? x = some a → ∀ m,
      SameResult tr v (perform (m + 1) (.force a)) (perform m (.eval (.var x) inner))

/-- The term is evaluated to a dict of all names of a scope, and under each one is its
definition, or the name itself if it is taken over, in the environment around.  Nothing is
forced. -/
def IsPlainDict (bindings : List (Binding Expr Expr)) (t : Term) : Prop :=
  ∃ entries v, s.Unforced v ∧
    (∀ n, (perform (n + 1) (.eval t env)).Ends tr s (.value (.dict entries)) v) ∧
    KeysOf bindings entries ∧
    (∀ x d, (x, d) ∈ definitions Expr.staticText? bindings → ∃ a u,
      entries.get? x = some a ∧ d.StandsFor x u ∧ ∀ m,
        SameResult tr v (perform (m + 1) (.force a)) (perform m (.eval u env))) ∧
    ∀ x ∈ outerNames bindings, ∃ a, entries.get? x = some a ∧ ∀ m,
      SameResult tr v (perform (m + 1) (.force a)) (perform m (.eval (.var x) env))

end

theorem isLet_of_lower {bindings : List (Binding String Expr)} {body : Expr} {t : Term}
    (h : (Expr.letIn bindings body).lower = .ok t) : IsLet tr s env bindings body t := by
  rw [Expr.lower, Expr.toTerm, Lowering.bind_eq_ok_iff] at h
  obtain ⟨bound, hbound, h⟩ := h
  obtain ⟨b, hb, h⟩ := Lowering.bind_eq_ok_iff.mp h
  obtain rfl : Term.ofBindings bound.own b = t := Except.ok.inj h
  have hopened := (amounts_of_definitionTerms hbound).opened s env
  exact ⟨_, _, b, hb, hopened, fun n => Run.Ends.eval_letrec ⟨rfl, rfl⟩⟩

/-- The keys of the dict that bindings amount to. -/
theorem Amounts.mem_names_iff {κ : Type} {key : κ → Option String}
    {bindings : List (Binding κ Expr)} {bound : Bound} (h : Amounts key [] bindings bound)
    (x : String) : x ∈ bound.own.map Prod.fst ++ bound.outer ↔
      (∃ d, (x, d) ∈ definitions key bindings) ∨ x ∈ outerNames bindings := by
  rw [List.mem_append, h.mem_own_iff, h.outer_eq]

theorem isRecursiveDict_of_lower (hs : s.Closed) (henv : s.Binds env)
    {bindings : List (Binding Expr Expr)} {t : Term}
    (h : (Expr.dict true bindings).lower = .ok t) : IsRecursiveDict tr s env bindings t := by
  rw [Expr.lower, Expr.toTerm, Lowering.bind_eq_ok_iff] at h
  obtain ⟨bound, hbound, h⟩ := h
  have hamounts := amounts_of_entryTerms hbound
  generalize hnames : bound.own.map Prod.fst ++ bound.outer = names
  have ht : Term.ofBindings bound.own (.ofEntries (nameEntries names)) = t := by
    rw [← hnames]
    exact Except.ok.inj h
  have hnodup : ((nameEntries names).map Prod.fst).Nodup := by
    rw [map_fst_nameEntries, ← hnames]
    exact hamounts.nodup_names
  have hkeys : ∀ (base : Addr) (x : String),
      x ∈ (newTable base (sortBy Prod.fst (nameEntries names))).keys ↔ x ∈ names := by
    intro base x
    rw [mem_keys_newTable, map_fst_nameEntries]
  obtain rfl := ht
  refine ⟨_, _, _, _, hamounts.opened s env, unforced_defaultCells _ _ _,
    fun n => Run.Ends.eval_letrec (Run.Ends.eval_dict _), fun x => ?_, fun x a ha => ?_⟩
  · rw [hkeys, ← hnames]
    exact hamounts.mem_names_iff x
  · have hx : x ∈ names := by
      rw [← hkeys, Table.mem_keys_iff, Table.contains, ha]
      rfl
    obtain ⟨c, hc, hsame⟩ := exists_cell_of_sorted tr (bindingStore_closed hs henv)
      (bindingStore_binds henv) hnodup (mem_nameEntries hx)
    obtain rfl : a = c := Option.some.inj (ha.symm.trans hc)
    exact hsame

theorem isPlainDict_of_lower (hs : s.Closed) (henv : s.Binds env)
    {bindings : List (Binding Expr Expr)} {t : Term}
    (h : (Expr.dict false bindings).lower = .ok t) : IsPlainDict tr s env bindings t := by
  rw [Expr.lower, Expr.toTerm, Lowering.bind_eq_ok_iff] at h
  obtain ⟨bound, hbound, h⟩ := h
  have hamounts := amounts_of_entryTerms hbound
  obtain rfl : Term.ofEntries (bound.own ++ nameEntries bound.outer) = t := Except.ok.inj h
  have hfst : (bound.own ++ nameEntries bound.outer).map Prod.fst =
      bound.own.map Prod.fst ++ bound.outer := by
    rw [List.map_append, map_fst_nameEntries]
  have hnodup : ((bound.own ++ nameEntries bound.outer).map Prod.fst).Nodup := by
    rw [hfst]
    exact hamounts.nodup_names
  refine ⟨_, _, unforced_defaultCells s _ env, fun n => Run.Ends.eval_dict _, fun x => ?_,
    fun x d hd => ?_, fun x hx => ?_⟩
  · rw [mem_keys_newTable, hfst]
    exact hamounts.mem_names_iff x
  · obtain ⟨u, hu, hlowers⟩ := hamounts.exists_own hd
    obtain ⟨a, ha, hsame⟩ := exists_cell_of_sorted tr hs henv hnodup
      (List.mem_append_left _ hu)
    exact ⟨a, u, ha, hlowers.standsFor, hsame⟩
  · rw [← hamounts.outer_eq] at hx
    exact exists_cell_of_sorted tr hs henv hnodup (List.mem_append_right _ (mem_nameEntries hx))

/-- In every environment a `let`, a recursive dict and a plain dict do what their scopes say,
whatever the bindings are. -/
theorem scopes_in_environment (tr : Bool) (s : Store) (env : Env) (hs : s.Closed)
    (henv : s.Binds env) :
    (∀ bindings body t, (Expr.letIn bindings body).lower = .ok t →
      IsLet tr s env bindings body t) ∧
    (∀ bindings t, (Expr.dict true bindings).lower = .ok t →
      IsRecursiveDict tr s env bindings t) ∧
    ∀ bindings t, (Expr.dict false bindings).lower = .ok t → IsPlainDict tr s env bindings t := by
  refine ⟨?_, ?_, ?_⟩
  · intro bindings body t h
    exact isLet_of_lower h
  · intro bindings t h
    exact isRecursiveDict_of_lower hs henv h
  · intro bindings t h
    exact isPlainDict_of_lower hs henv h

/-- A recursive dict with an equation, a name out of a source and a name that is taken over,
where nothing is bound yet. -/
theorem scopes_in_environment_mixed :
    let bindings : List (Binding Expr Expr) :=
      [.equation (.str []) (.text "a"), .inherit (some (.dict false [])) ["b"],
        .inherit none ["c"]]
    let t : Term := .letrec [("", .text "a"), ("b", lookupTerm (.dict []) (.text "b"))]
      (.dict [("", .var ""), ("b", .var "b"), ("c", .var "c")])
    Store.empty.Closed ∧ Store.empty.Binds Table.empty ∧
      (Expr.dict true bindings).lower = .ok t ∧
      IsRecursiveDict false Store.empty Table.empty bindings t := by
  have hempty : Store.empty.Binds Table.empty := fun x a hx => nomatch hx
  exact ⟨closed_empty, hempty, rfl,
    (scopes_in_environment false Store.empty Table.empty closed_empty hempty).2.1 _ _ rfl⟩

end LazyConfig
