import LazyConfig.Expr.ToTerm
import LazyConfig.Proofs.Ends
set_option autoImplicit false

/-!
# Patterns: the three functions at work

A function with a pattern becomes the composition of three functions.  When it is applied,
some cells are made for the functions and for what they hand on to each other, and only
then is the argument forced.  Here this is followed step by step, up to the point where
the argument is forced and from there to the point where the names are bound.
-/

namespace LazyConfig

/-- Two functions composed. -/
def composeTerm (f g : Term) : Term := .app (.app (.function .compose) f) g

/-- The function that refuses keys outside a list, or takes all. -/
def checkTerm (names : List String) (ellipsis : Bool) : Term :=
  if ellipsis then .function .identity
  else .app (.function .disallowExtra) (.list (names.map .text))

/-- The body of the function that adds defaults. -/
def fillTerm (defaults : List (String × Term)) : Term :=
  .app (.app (.function .mergeLeft) (.var argumentName)) (.dict defaults)

theorem patternTerm_eq (names : List String) (ellipsis : Bool) (defaults : List (String × Term))
    (body : Term) :
    patternTerm names ellipsis defaults body =
      composeTerm (composeTerm (.lam (.keys (distinctTexts names) ellipsis) body)
        (.lam (.name argumentName) (fillTerm (sortBy Prod.fst defaults))))
        (checkTerm (distinctTexts names) ellipsis) :=
  rfl

open Run.Ends

variable {n : Nat} {tr : Bool} {s t u w : Store} {env : Env} {o q : Outcome Value}

theorem eval_compose (f g : Term) (env : Env) :
    (perform (n + 3) (.eval (composeTerm f g) env)).Ends tr s
      (.value (.builtin .compose [s.next, s.next + 1]))
      (s.append [.delayed (.term f env), .delayed (.term g env)]) := by
  have hnone : (perform (n + 1) (.eval (.function .compose) env)).Ends tr s
      (.value (.builtin .compose [])) s := eval_function .compose env
  have hboth := eval_partial (x := g) (eval_partial (x := f) hnone rfl) rfl
  rw [Store.append_append, Store.next_append] at hboth
  exact hboth

/-- A cell for two functions composed. -/
theorem force_compose {f g : Term} {a : Addr}
    (ha : u.get? a = some (.delayed (.term (composeTerm f g) env))) :
    (perform (n + 4) (.force a)).Ends tr u (.value (.builtin .compose [u.next, u.next + 1]))
      ((u.set a (.done (.builtin .compose [u.next, u.next + 1]))).append
        [.delayed (.term f env), .delayed (.term g env)]) := by
  refine force_append ha fun t ht => ?_
  rw [← ht]
  exact eval_compose f g env

theorem apply_compose {f g x : Addr} {v : Value}
    (hf : (perform (n + 1) (.force f)).Ends tr s (.value v) t)
    (hv : (perform (n + 1) (.apply v t.next)).Ends tr (t.append [.delayed (.composed g x)]) q w) :
    (perform (n + 2) (.apply (.builtin .compose [f, g]) x)).Ends tr s q w :=
  apply_call rfl (hf.bind ((delay _ tr t).bind hv))

/-- A cell for a function. -/
theorem force_lam {binder : Binder} {body : Term} {a : Addr}
    (ha : u.get? a = some (.delayed (.term (.lam binder body) env))) :
    (perform (n + 2) (.force a)).Ends tr u (.value (.closure binder body env))
      (u.set a (.done (.closure binder body env))) :=
  force_still ha fun _ => eval_lam binder body env

/-! ## Up to the binding of names -/

/-- The store when a pattern takes its argument apart, with cells for what the second and
the third function of the composition are applied to. -/
def openedStore (u : Store) (a₁ a₂ x : Addr) (binder : Binder) (body : Term)
    (defaults : List (String × Term)) (env : Env) : Store :=
  (u.set a₁ (.done (.builtin .compose [u.next, u.next + 1]))).append
    [.done (.closure binder body env),
      .delayed (.term (.lam (.name argumentName) (fillTerm defaults)) env),
      .delayed (.composed a₂ x), .delayed (.composed (u.next + 1) (u.next + 2))]

theorem apply_pattern {a₁ a₂ x : Addr} {binder : Binder} {body : Term}
    {defaults : List (String × Term)}
    (h₁ : u.get? a₁ = some (.delayed (.term (composeTerm (.lam binder body)
      (.lam (.name argumentName) (fillTerm defaults))) env)))
    (h : (applyValue (perform (n + 2)) (.closure binder body env) (u.next + 3)).Ends tr
      (openedStore u a₁ a₂ x binder body defaults env) q w) :
    (perform (n + 5) (.apply (.builtin .compose [a₁, a₂]) x)).Ends tr u q w := by
  refine apply_compose (force_compose h₁) ?_
  unfold openedStore at h
  generalize hv : u.set a₁ (.done (.builtin .compose [u.next, u.next + 1])) = v at h ⊢
  have hnext : v.next = u.next := by rw [← hv, Store.next_set]
  rw [← hnext] at h ⊢
  rw [Store.append_append, Store.next_append]
  refine apply_compose (force_lam (Store.get?_append_next v _ _)) ?_
  rw [List.cons_append, Store.set_append_next, Store.append_append, Store.next_append]
  exact h

/-! ## Up to the argument -/

/-- The environment of the function that adds defaults. -/
def fillEnv (base : Addr) (env : Env) : Env := env.insert argumentName (base + 2)

/-- The store when defaults are added, with cells for the argument as it was checked and
for the dict of the defaults. -/
def mergingStore (u : Store) (a₁ a₂ x : Addr) (binder : Binder) (body : Term)
    (defaults : List (String × Term)) (env : Env) : Store :=
  (u.set a₁ (.done (.builtin .compose [u.next, u.next + 1]))).append
    [.done (.closure binder body env),
      .done (.closure (.name argumentName) (fillTerm defaults) env),
      .delayed (.composed a₂ x), .running (.composed (u.next + 1) (u.next + 2)),
      .delayed (.term (.var argumentName) (fillEnv u.next env)),
      .delayed (.term (.dict defaults) (fillEnv u.next env))]

theorem force_merged {a₁ a₂ x : Addr} {binder : Binder} {body : Term}
    {defaults : List (String × Term)}
    (h : (runCall (perform (n + 1)) (.mergeLeft (u.next + 4) (u.next + 5))).Ends tr
      (mergingStore u a₁ a₂ x binder body defaults env) q w) :
    (perform (n + 5) (.force (u.next + 3))).Ends tr
      (openedStore u a₁ a₂ x binder body defaults env) q
      (w.settle (u.next + 3) (.composed (u.next + 1) (u.next + 2)) q) := by
  unfold mergingStore at h
  unfold openedStore
  generalize hv : u.set a₁ (.done (.builtin .compose [u.next, u.next + 1])) = v at h ⊢
  have hnext : v.next = u.next := by rw [← hv, Store.next_set]
  rw [← hnext] at h ⊢
  refine force (Store.get?_append_add v _ 3) ?_
  rw [Store.set_append_add]
  refine bind (force_lam (Store.get?_append_add v _ 1)) ?_
  rw [Store.set_append_add]
  refine apply_name (eval_app (eval_partial (eval_function .mergeLeft _) rfl) (apply_call rfl ?_))
  rw [Store.append_append, Store.append_append, Store.next_append, Store.next_append]
  exact h

/-! ## The argument -/

/-- A dict without keys outside a list. -/
def onlyKeys (names : List String) (entries : Table Addr) : Outcome Value :=
  match entries.keys.filter fun k => !names.contains k with
  | [] => .value (.dict entries)
  | extra => .error (.unexpectedKeys extra)

/-- What the check makes of the argument. -/
def checked (names : List String) : Bool → Value → Outcome Value
  | true, v => .value v
  | false, v => asDict .disallowExtra v >>= onlyKeys names

/-- The check forces the argument after some cells of its own, and nothing else. -/
theorem resume_checked {a₂ x : Addr} {names : List String} {ellipsis : Bool}
    (h₂ : u.get? a₂ = some (.delayed (.term (checkTerm names ellipsis) env))) :
    ∃ s, (∀ b d, b ≠ a₂ → u.get? b = some d → s.get? b = some d) ∧
      ∀ o t, (perform (n + 2) (.force x)).Ends tr s o t →
        (resume (perform (n + 3)) (.composed a₂ x)).Ends tr u (o >>= checked names ellipsis) t := by
  cases ellipsis with
  | true =>
    have hcheck : (perform (n + 3) (.force a₂)).Ends tr u (.value (.builtin .identity []))
        (u.set a₂ (.done (.builtin .identity []))) :=
      force_still h₂ fun _ => eval_function .identity env
    refine ⟨u.set a₂ (.done (.builtin .identity [])), fun b d hne hb => ?_, fun o t hx => ?_⟩
    · rw [Store.get?_set, if_neg (Ne.symm hne), hb]
    · refine hcheck.bind (apply_call rfl ?_)
      have hsame : (o >>= checked names true) = o := by
        cases o with
        | value v => rfl
        | error e => rfl
        | exhausted => rfl
      rw [hsame]
      exact hx
  | false =>
    have hcheck : (perform (n + 3) (.force a₂)).Ends tr u
        (.value (.builtin .disallowExtra [u.next]))
        ((u.set a₂ (.done (.builtin .disallowExtra [u.next]))).append
          [.delayed (.term (.list (names.map .text)) env)]) := by
      refine force_append h₂ fun t ht => ?_
      rw [← ht]
      exact eval_partial (eval_function .disallowExtra env) rfl
    generalize hv : u.set a₂ (.done (.builtin .disallowExtra [u.next])) = v at hcheck
    have hnext : v.next = u.next := by rw [← hv, Store.next_set]
    rw [← hnext] at hcheck
    obtain ⟨s, hkeys, hsame⟩ :=
      Run.Ends.forceKeys n .disallowExtra tr (Store.get?_append_next v _ [])
    refine ⟨s, fun b d hne hb => ?_, fun o t hx => ?_⟩
    · have hb' : v.get? b = some d := by rw [← hv, Store.get?_set, if_neg (Ne.symm hne), hb]
      have hold : b ≠ v.next := hnext ▸ Store.ne_new_of_get? hb 0
      exact hsame b d hold (Store.get?_append_of_some hb' _)
    · refine hcheck.bind (apply_call rfl (hkeys.bind ?_))
      have hassoc : (o >>= checked names false) =
          o >>= asDict .disallowExtra >>= onlyKeys names := (Outcome.bind_assoc o _ _).symm
      rw [hassoc]
      refine bind_of_still hx.forceDict fun entries => ?_
      unfold onlyKeys
      cases entries.keys.filter fun k => !names.contains k with
      | nil => exact pure _ tr t
      | cons k extra => exact fail _ tr t

/-- The store when the check begins, with the cells that wait for the argument occupied. -/
def busyStore (u : Store) (a₁ a₂ x : Addr) (binder : Binder) (body : Term)
    (defaults : List (String × Term)) (env : Env) : Store :=
  (u.set a₁ (.done (.builtin .compose [u.next, u.next + 1]))).append
    [.done (.closure binder body env),
      .done (.closure (.name argumentName) (fillTerm defaults) env),
      .running (.composed a₂ x), .running (.composed (u.next + 1) (u.next + 2)),
      .running (.term (.var argumentName) (fillEnv u.next env)),
      .delayed (.term (.dict defaults) (fillEnv u.next env))]

/-- The first dict to merge is the argument as it was checked. -/
theorem force_argument (n : Nat) (tr : Bool) (x : Addr) (binder : Binder) (body : Term)
    (defaults : List (String × Term)) {a₁ a₂ : Addr} {names : List String} {ellipsis : Bool}
    (hne : a₂ ≠ a₁)
    (h₂ : u.get? a₂ = some (.delayed (.term (checkTerm names ellipsis) env))) :
    ∃ s, (∀ b d, b ≠ a₂ → (busyStore u a₁ a₂ x binder body defaults env).get? b = some d →
        s.get? b = some d) ∧
      ∀ o t, (perform (n + 2) (.force x)).Ends tr s o t →
        (forceDict (perform (n + 6)) .mergeLeft (u.next + 4)).Ends tr
          (mergingStore u a₁ a₂ x binder body defaults env)
          (o >>= checked names ellipsis >>= asDict .mergeLeft)
          ((t.settle (u.next + 2) (.composed a₂ x) (o >>= checked names ellipsis)).settle
            (u.next + 4) (.term (.var argumentName) (fillEnv u.next env))
            (o >>= checked names ellipsis)) := by
  have hcheck : (busyStore u a₁ a₂ x binder body defaults env).get? a₂ =
      some (.delayed (.term (checkTerm names ellipsis) env)) := by
    refine Store.get?_append_of_some ?_ _
    rw [Store.get?_set, if_neg (Ne.symm hne), h₂]
  obtain ⟨s, hs, hx⟩ := resume_checked hcheck
  refine ⟨s, hs, fun o t ho => ?_⟩
  have hresume := hx o t ho
  have hname : (fillEnv u.next env).get? argumentName = some (u.next + 2) := by
    rw [fillEnv, Table.get?_insert, if_pos rfl]
  unfold busyStore at hresume
  unfold mergingStore
  generalize hv : u.set a₁ (.done (.builtin .compose [u.next, u.next + 1])) = v at hresume ⊢
  have hnext : v.next = u.next := by rw [← hv, Store.next_set]
  rw [← hnext] at hresume hname ⊢
  refine Run.Ends.forceDict (force (Store.get?_append_add v _ 4) (force_var hname ?_))
  rw [Store.set_append_add]
  refine force (Store.get?_append_add v _ 2) ?_
  rw [Store.set_append_add]
  exact hresume

end LazyConfig
