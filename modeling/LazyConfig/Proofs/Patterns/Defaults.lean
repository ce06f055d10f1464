import LazyConfig.Program
import LazyConfig.Proofs.FreeNames
import LazyConfig.Proofs.Patterns.Application
import Mathlib.Data.List.Permutation
set_option autoImplicit false

/-!
# Patterns: what a default sees

The function that adds the defaults has bound the name of the argument, and this is where
the defaults are evaluated.  So a default is evaluated like any other term in the
environment of the function, except that the name of the argument stands for the
argument.  A program can see the difference: no variable has that name, but a dict may
take it over from the scope around.
-/

namespace LazyConfig

open Run.Ends

variable {n : Nat} {tr tr' : Bool} {β γ : Link} {u s s' t t' r' : Store} {env env' : Env}
  {a₁ a₂ x : Addr} {names : List String} {ellipsis : Bool} {body : Term}
  {defaults : List (String × Term)} {argument : Run Value}

/-- The run comes down to evaluating a body from a later store, where a name is bound to a
cell of a certain kind. -/
def BindsIn (run : Run Value) (n : Nat) (body : Term) (tr : Bool) (s : Store) (y : String)
    (Holds : Addr → Store → Prop) : Prop :=
  ∃ (inner : Env) (w : Store) (a : Addr),
    run.Ends tr s (perform n (.eval body inner) tr w).outcome
      (perform n (.eval body inner) tr w).store ∧
    inner.get? y = some a ∧ Holds a w

/-- The data in a cell is that of a term in an environment, or both fail alike. -/
def SameData (β : Link) (tr tr' : Bool) (a : Addr) (w : Store) (d : Term) (env : Env)
    (s : Store) : Prop :=
  ∀ m k, Alike β .silent (fun _ => Eq) ((do deepen k (← perform (m + 1) (.force a)) : Run _) tr w)
    ((do deepen k (← perform m (.eval d env)) : Run _) tr' s)

/-- A cell of its own for a term has the data of the term. -/
theorem SameData.of_delayed {w : Store} {a : Addr} {d : Term} (hs : Linked β .silent w s)
    (ha : w.get? a = some (.delayed (.term d env))) (hfree : ∀ c, ¬ β a c)
    (henv : EnvAlike β d env env') : SameData β tr tr' a w d env' s := by
  intro m k
  have hforce : Alike β .silent ValueAlike (perform (m + 1) (.force a) tr w)
      (perform m (.eval d env') tr' s) := by
    refine Alike.force_left hs ha hfree (fun d hd => hd.elim) fun ψ hψ => ?_
    exact perform_alike ψ tr tr' m β _ s _ _ hψ (.eval henv)
  refine Alike.bind hforce ?_
  intro γ t t' v v' _ ht hv
  exact deepen_alike k ht hv

theorem SameData.of_le {w : Store} {a : Addr} {d : Term} (h : β.Le γ)
    (hsame : SameData γ tr tr' a w d env s) : SameData β tr tr' a w d env s := by
  intro m k
  exact (hsame m k).of_le h

/-- What holds of the cell of a default: it has the data of the default in the environment
where the name of the argument is bound to the argument, and if the default does not need
that name, in the environment without it. -/
def DefaultData (β : Link) (tr tr' : Bool) (d : Term) (env : Env) (entries : Table Addr)
    (r : Store) (a : Addr) (w : Store) : Prop :=
  SameData β tr tr' a w d (env.insert argumentName r.next) (r.append [.done (.dict entries)]) ∧
    (d.hasFree argumentName = false → SameData β tr tr' a w d env r)

/-! ## The cell of a default -/

/-- What the function that adds the defaults has bound, in both runs. -/
theorem EnvAlike.insert_both {d : Term} {y : String} {a c : Addr} (h : EnvAlike β d env env')
    (hac : β a c) : EnvAlike β d (env.insert y a) (env'.insert y c) := by
  refine EnvAlike.insert (fun z hz => h z ?_) hac
  rw [Term.hasFree, Bool.and_eq_true] at hz
  exact hz.2

/-- The store behind the merged dict, where the cells of the defaults are not linked and the
cell of the argument as it was checked is not either. -/
structure Merged (β γ : Link) (u r r' : Store) (entries entries' : Table Addr)
    (defaults : List (String × Term)) (env : Env) : Prop where
  later : β.Le γ
  linked : Linked γ .silent (mergedStore u r entries defaults env) r'
  alike : Keyed γ entries.entries entries'.entries
  old : ∀ a c, γ a c → a < r.next
  room : u.next + 3 < r.next
  checked : (mergedStore u r entries defaults env).get? (u.next + 2) = some (.done (.dict entries))
  free : ∀ c, ¬ γ (u.next + 2) c

theorem exists_merged (h : Applied β u s' a₁ a₂ names ellipsis body defaults env)
    (hx : ArgumentAlike (n + 2) tr tr' β u s' a₁ a₂ x argument) {entries' : Table Addr}
    (harg : argument.Ends tr' s' (.value (.dict entries')) r')
    (hextra : ellipsis = false → ∀ k ∈ entries'.keys, k ∈ names) :
    ∃ (γ : Link) (r : Store) (entries : Table Addr),
      Merged β γ u r r' entries entries' defaults env ∧
        (perform (n + 10) (.force (u.next + 3))).Ends tr
          (openedStore u a₁ a₂ x (.keys names ellipsis) body defaults env)
          (.value (.dict (entries.merge (newTable r.next defaults))))
          (mergedStore u r entries defaults env) := by
  obtain ⟨γ, o, o', t, t', hle, ho, harg', ht, hdict⟩ := exists_argument h hx
  obtain ⟨rfl, rfl⟩ : o' = .value (.dict entries') ∧ t' = r' :=
    ⟨harg'.1.symm.trans harg.1, harg'.2.symm.trans harg.2⟩
  obtain ⟨entries, hentries, rfl⟩ : ∃ entries : Table Addr,
      Keyed γ entries.entries entries'.entries ∧ o = .value (.dict entries) := by
    cases ho with
    | value hv =>
      cases hv with
      | dict hentries => exact ⟨_, hentries, rfl⟩
  have hsame : entries.keys = entries'.keys := hentries.keys_eq
  obtain ⟨htaken, hchecked⟩ := taken_of_keys (hsame ▸ hextra)
  rw [Outcome.value_bind, Outcome.value_bind, htaken, hchecked] at hdict
  have h₂ := get?_of_waiting ht (get?_busyStore u a₁ a₂ x _ body defaults env 2)
  have h₃ := get?_of_waiting ht (get?_busyStore u a₁ a₂ x _ body defaults env 3)
  have h₅ := get?_of_waiting ht (get?_busyStore u a₁ a₂ x _ body defaults env 5)
  have hr : Linked γ .silent (settledStore u t a₂ x env (.value (.dict entries))) t' :=
    linked_settled ht _
  have hvalue := get?_settledStore_value u t a₂ x env (.dict entries) (Store.lt_next_of_get? h₂.1)
  have hroom := lt_next_settled ht (.value (.dict entries))
  refine ⟨γ, _, entries, ?_, force_opened_value hdict (get?_settled_defaults ht _)⟩
  generalize settledStore u t a₂ x env (.value (.dict entries)) = r at hr hvalue hroom
  refine ⟨hle, ?_, hentries, fun a c hac => (hr.lt_next hac).1, hroom, ?_, h₂.2⟩
  · refine hr.left (fun a c hac => ?_) (fun a d hd => hd.elim) id
    refine get?_mergedStore ?_ ?_ (hr.lt_next hac).1
    · rintro rfl
      exact h₃.2 c hac
    · rintro rfl
      exact h₅.2 c hac
  · rw [get?_mergedStore (by simp) (by simp) (Store.lt_next_of_get? hvalue), hvalue]

theorem Merged.defaultData {r : Store} {entries entries' : Table Addr} {e : String × Term} {i : Nat}
    (h : Merged β γ u r r' entries entries' defaults env) (he : defaults[i]? = some e)
    (henv : EnvAlike β e.2 env env') :
    DefaultData β tr tr' e.2 env' entries' r' (r.next + i)
      (mergedStore u r entries defaults env) := by
  have hcell : (mergedStore u r entries defaults env).get? (r.next + i) =
      some (.delayed (.term e.2 (fillEnv u.next env))) := by
    rw [get?_mergedStore_add h.room, getElem?_defaultCells he]
  have hfree : ∀ c, ¬ γ (r.next + i) c := fun c hc =>
    Nat.not_lt.mpr (Nat.le_add_right r.next i) (h.old _ c hc)
  have hlater := henv.mono h.later
  constructor
  · have hadopted := h.linked.adopt h.checked h.free (.done (.dict h.alike))
    have hle : γ.Le (γ.extend (u.next + 2) r'.next 1) := γ.le_extend _ _ _
    have hbound := (hlater.mono hle).insert_both (y := argumentName)
      (γ.extend_add (u.next + 2) r'.next Nat.one_pos)
    refine (SameData.of_delayed hadopted hcell ?_ hbound).of_le (h.later.trans hle)
    rintro c (hc | ⟨j, hj, ha, -⟩)
    · exact hfree c hc
    · obtain rfl : j = 0 := Nat.lt_one_iff.mp hj
      have hlt : u.next + 2 < r.next := Nat.lt_of_succ_lt h.room
      exact Nat.not_lt.mpr (Nat.le_add_right r.next i) (ha ▸ hlt)
  · intro hclean
    exact (SameData.of_delayed h.linked hcell hfree (hlater.fillEnv hclean)).of_le h.later

/-- The name of a default without an entry is bound to the cell of the default. -/
theorem bindsIn_default (h : Applied β u s' a₁ a₂ names ellipsis body defaults env)
    (hx : ArgumentAlike (n + 2) tr tr' β u s' a₁ a₂ x argument) {entries' : Table Addr}
    (harg : argument.Ends tr' s' (.value (.dict entries')) r')
    (hextra : ellipsis = false → ∀ k ∈ entries'.keys, k ∈ names)
    (hnames : ∀ y ∈ names, entries'.contains y = true ∨ y ∈ defaults.map Prod.fst)
    (hkeys : ∀ e ∈ defaults, e.1 ∈ names) (hdistinct : (defaults.map Prod.fst).Nodup)
    {e : String × Term} (he : e ∈ defaults) (habsent : entries'.get? e.1 = none)
    (henv : EnvAlike β e.2 env env') :
    BindsIn (perform (n + 13) (.apply (.builtin .compose [a₁, a₂]) x)) (n + 10) body tr u e.1
      (DefaultData β tr tr' e.2 env' entries' r') := by
  obtain ⟨γ, r, entries, hmerged, hforce⟩ := exists_merged h hx harg hextra
  obtain ⟨i, hi⟩ := List.mem_iff_getElem?.mp he
  have hcontains : ∀ y, entries.contains y = entries'.contains y := contains_eq hmerged.alike
  have hall :
      (names.filter fun y => !(entries.merge (newTable r.next defaults)).contains y) = [] := by
    refine List.filter_eq_nil_iff.mpr fun y hy => ?_
    rw [Table.contains_merge, hcontains]
    rcases hnames y hy with hentry | hdefault
    · simp [hentry]
    · simp [(contains_newTable r.next defaults y).mpr hdefault]
  have hsame : entries.keys = entries'.keys := hmerged.alike.keys_eq
  have hmergedKeys : ellipsis = false →
      ∀ k ∈ (entries.merge (newTable r.next defaults)).keys, k ∈ names := fun hell =>
    mem_names_of_merged r.next (hsame ▸ hextra hell) hkeys
  have hbind : (bindArgument (perform (n + 10)) (.keys names ellipsis) (u.next + 3) env).Ends tr
      _ _ _ := bindArgument_dict hforce hmergedKeys
  rw [bindOutcome, hall] at hbind
  refine ⟨_, _, r.next + i, apply_pattern (n := n + 8) h.first (hbind.bind ⟨rfl, rfl⟩), ?_,
    hmerged.defaultData hi henv⟩
  have hnone : entries.get? e.1 = none := by
    have hmissing := hcontains e.1
    rw [Table.contains, Table.contains, habsent, Option.isSome_none] at hmissing
    exact Option.isNone_iff_eq_none.mp (Option.isSome_eq_false_iff.mp hmissing)
  rw [get?_bindNames, if_pos (hkeys e he), Table.get?_merge, hnone,
    get?_newTable r.next hdistinct hi]
  rfl

/-! ## Functions of a program -/

section

variable {p : Pattern Expr} {b d : Expr} {y : Name} {t : Term} {entries : Table Addr} {r : Store}

variable (hdefaults : (defaultTerms p.fields false).1 = .ok defaults) (hp : p.Distinct)
  (hfield : ⟨y, some d⟩ ∈ p.fields) (hd : d.lower = .ok t) (habsent : entries.get? y.text = none)
  (hextra : p.ellipsis = false → ∀ k ∈ entries.keys, k ∈ p.names)
  (hrequired : ∀ field ∈ p.fields, field.default = none → entries.contains field.name.text = true)

include hdefaults hp hfield hd habsent hextra hrequired

/-- The conditions of `bindsIn_default` for the fields of a pattern. -/
theorem bindsIn_field (h : Applied β u s' a₁ a₂ (distinctTexts p.names) p.ellipsis body
      (sortBy Prod.fst defaults) env)
    (hx : ArgumentAlike (n + 2) tr tr' β u s' a₁ a₂ x argument)
    (harg : argument.Ends tr' s' (.value (.dict entries)) r) (henv : EnvAlike β t env env') :
    BindsIn (perform (n + 13) (.apply (.builtin .compose [a₁, a₂]) x)) (n + 10) body tr u y.text
      (DefaultData β tr tr' t env' entries r) := by
  obtain ⟨t', ht', hmem⟩ := exists_default_of_mem hdefaults hfield
  obtain rfl : t' = t := Except.ok.inj (ht'.symm.trans hd)
  have hperm := sortBy_perm Prod.fst defaults
  refine bindsIn_default (e := (y.text, t')) h hx harg (fun hell k hk => ?_) (fun z hz => ?_)
    (mem_of_sorted_defaults (mem_names_of_defaultTerms hdefaults)) ?_ (hperm.mem_iff.mpr hmem)
    habsent henv
  · exact mem_distinctTexts.mpr (hextra hell k hk)
  · obtain ⟨field, hfield', rfl⟩ := List.mem_map.mp (mem_distinctTexts.mp hz)
    obtain ⟨z, default⟩ := field
    cases default with
    | none => exact Or.inl (hrequired _ hfield' rfl)
    | some c =>
      obtain ⟨q, -, hq⟩ := exists_default_of_mem hdefaults hfield'
      exact Or.inr (List.mem_map_of_mem (hperm.mem_iff.mpr hq))
  · refine (hperm.map Prod.fst).nodup_iff.mpr ?_
    exact (keys_sublist_of_defaultTerms hdefaults).nodup hp

variable (hs : s.Closed) (henv : s.Binds env) (hx : x < s.next)

include hs henv hx

theorem bindsIn_pattern (n : Nat) (tr : Bool) (body : Term)
    (harg : (perform (n + 2) (.force x)).Ends tr s (.value (.dict entries)) r) :
    BindsIn (applyTerm (n + 13) (patternTerm p.names p.ellipsis defaults body) env x) (n + 10) body
      tr s y.text (DefaultData s.self tr tr t env entries r) := by
  have heval := eval_pattern (n + 10) p.names p.ellipsis defaults body env tr s
  obtain ⟨inner, w, a, hrun, hname, hcell⟩ := bindsIn_field hdefaults hp hfield hd habsent hextra
    hrequired (applied_append hs.linked []) (argument_of_linked ⟨rfl, hx⟩) harg (henv.alike t)
  exact ⟨inner, w, a, heval.bind hrun, hname, hcell⟩

theorem bindsIn_both (n : Nat) (tr : Bool) (body : Term) (z : String)
    (harg : (perform n (.force x)).Ends tr s (.value (.dict entries)) r) :
    BindsIn (applyTerm (n + 15)
      (.lam (.name z) (.app (patternTerm p.names p.ellipsis defaults body) (.var z))) env x)
      (n + 10)
      body tr s y.text (DefaultData s.self tr tr t (env.insert z x) entries r) := by
  have hinner : s.Binds (env.insert z x) := henv.insert z hx
  have heval := eval_pattern (n + 10) p.names p.ellipsis defaults body (env.insert z x) tr s
  have happlied : Applied s.self (s.append (functionCells (distinctTexts p.names) p.ellipsis body
      (sortBy Prod.fst defaults) (env.insert z x) ++
        [.delayed (.term (.var z) (env.insert z x))])) s s.next (s.next + 1) _ _ body _ _ :=
    applied_append hs.linked _
  obtain ⟨inner, w, a, hrun, hname, hcell⟩ := bindsIn_field hdefaults hp hfield hd habsent hextra
    hrequired happlied (argument_of_name hs.linked ⟨rfl, hx⟩) harg (hinner.alike t)
  refine ⟨inner, w, a, (eval_lam _ _ env).bind (apply_name (eval_app heval ?_)), hname, hcell⟩
  rw [Store.append_append, Store.next_append]
  exact hrun

end

/-- A name whose key is absent is bound to the default of its field, not computed yet.  It
has the data that the default has in the environment of the function, as this is when the
argument has been forced, but with the name of the argument bound to the argument; with a
name for the whole argument, that name is bound as well.  The default can see the
difference only if the name of the argument is free in its term, and this needs a dict in
the default that takes over that name from the scope around.  Every other default has the
data that it has in the environment of the function. -/
theorem default_of_absent_key {p : Pattern Expr} {b d : Expr} {y : Name} {t : Term}
    {entries : Table Addr} (hbody : b.lower = .ok body)
    (hdefaults : (defaultTerms p.fields false).1 = .ok defaults) (hp : p.Distinct)
    (hfield : ⟨y, some d⟩ ∈ p.fields) (hd : d.lower = .ok t) (hs : s.Closed) (henv : s.Binds env)
    (hx : x < s.next) (habsent : entries.get? y.text = none)
    (hextra : p.ellipsis = false → ∀ k ∈ entries.keys, k ∈ p.names)
    (hrequired : ∀ field ∈ p.fields, field.default = none →
      entries.contains field.name.text = true) (n : Nat) (tr : Bool) :
    (∃ f, (Expr.lambda (.pattern p) b).lower = .ok f ∧
      ∀ r, (perform (n + 2) (.force x)).Ends tr s (.value (.dict entries)) r →
        BindsIn (applyTerm (n + 13) f env x) (n + 10) body tr s y.text
          (DefaultData s.self tr tr t env entries r)) ∧
      (∀ z : Name, ∃ f, (Expr.lambda (.both z p) b).lower = .ok f ∧
        ∀ r, (perform n (.force x)).Ends tr s (.value (.dict entries)) r →
          BindsIn (applyTerm (n + 15) f env x) (n + 10) body tr s y.text
            (DefaultData s.self tr tr t (env.insert z.text x) entries r)) ∧
      (t.hasFree argumentName = true → d.inherits argumentName = true) := by
  refine ⟨⟨_, lower_pattern hbody hdefaults, fun r harg => ?_⟩,
    fun z => ⟨_, lower_both hbody hdefaults z, fun r harg => ?_⟩, fun hfree => ?_⟩
  · exact bindsIn_pattern hdefaults hp hfield hd habsent hextra hrequired hs henv hx n tr body harg
  · exact bindsIn_both hdefaults hp hfield hd habsent hextra hrequired hs henv hx n tr body z.text
      harg
  · by_contra hinherits
    have hclean := Expr.hasFree_toTerm Name.text_ne_argumentName d hd
      (Bool.eq_false_iff.mpr hinherits)
    exact Bool.false_ne_true (hclean.symm.trans hfree)

/-- A default that takes over the name of the argument, for a key that is absent from an
empty argument. -/
theorem default_of_absent_key_inherit :
    let r := placeEnv [(argumentName, .text "outer"), ("z", .dict [])] false Store.empty
    let env : Env := (Table.empty.insert "z" 1).insert argumentName 0
    let y : Name := ⟨"a", by decide⟩
    let p : Pattern Expr := ⟨[⟨y, some (.dict false [.inherit none [argumentName]])⟩], false⟩
    r.outcome = .value env ∧ ∃ f, (Expr.lambda (.pattern p) (.var y)).lower = .ok f ∧
      ∀ r', (perform 2 (.force 1)).Ends false r.store (.value (.dict Table.empty)) r' →
        BindsIn (applyTerm 13 f env 1) 10 (.var "a") false r.store "a"
          (DefaultData r.store.self false false (.dict [(argumentName, .var argumentName)]) env
            Table.empty r') := by
  intro r env y p
  obtain ⟨hclosed, hbinds⟩ :=
    placeEnv_closed [(argumentName, .text "outer"), ("z", .dict [])] closed_empty false
  have hp : p.Distinct := by decide
  have hx : 1 < r.store.next := by decide
  have hrequired : ∀ field ∈ p.fields, field.default = none →
      (Table.empty : Table Addr).contains field.name.text = true := by
    intro field hfield hnone
    obtain rfl := List.mem_singleton.mp hfield
    exact nomatch hnone
  exact ⟨rfl, (default_of_absent_key (p := p) (b := .var y) (y := y) rfl rfl hp
    List.mem_cons_self rfl hclosed (hbinds env rfl) hx rfl
    (fun _ k hk => absurd hk List.not_mem_nil) hrequired 0
    false).1⟩

/-- The name of the argument is captured: a default that takes it over from the scope around
has other data when it is bound than on its own. -/
theorem default_captures_argument :
    let d : Expr := .dict false [.inherit none [argumentName]]
    let y : Name := ⟨"a", by decide⟩
    let e : Expr := .apply (.lambda (.pattern ⟨[⟨y, some d⟩], false⟩) (.var y)) (.dict false [])
    let outer : List (String × Plain) := [(argumentName, .text "outer")]
    (Source.expr e).run 16 outer = .ok (.dict [(argumentName, .dict [])]) ∧
      (Source.expr d).run 16 outer = .ok (.dict [(argumentName, .text "outer")]) := by
  constructor
  · cbv
  · cbv

end LazyConfig
