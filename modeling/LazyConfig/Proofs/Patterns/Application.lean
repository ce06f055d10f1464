import LazyConfig.Proofs.Lockstep.Closed
import LazyConfig.Proofs.Lowering
import LazyConfig.Proofs.Patterns.Lambda
set_option autoImplicit false

/-!
# Patterns: functions of a program

What holds of the composed functions is stated for the functions with a pattern that a
program has, with a name for the whole argument or without.
-/

namespace LazyConfig

open Run.Ends

variable {n : Nat} {tr tr' : Bool} {β : Link} {φ : Frame} {u s s' : Store} {env : Env}
  {a₁ a₂ x : Addr} {names : List String} {ellipsis : Bool} {body : Term}
  {defaults : List (String × Term)}

/-- The value of a term applied to the argument in a cell. -/
def applyTerm (n : Nat) (t : Term) (env : Env) (argument : Addr) : Run Value := do
  let f ← perform n (.eval t env)
  perform n (.apply f argument)

/-! ## Arguments -/

/-- A linked cell is forced like the one that stands for it. -/
theorem argument_of_linked {x' : Addr} (hx : β x x') :
    ArgumentAlike n tr tr' β u s' a₁ a₂ x (perform n (.force x')) := by
  intro ψ s hs _ _
  exact perform_alike ψ tr tr' n β s s' _ _ hs (.force hx)

/-- A cell for a variable is forced like the linked cell that the variable is bound to. -/
theorem argument_of_var {w x' : Addr} {y : String} (hx : β x x') (hy : env.get? y = some x)
    (hw : u.get? w = some (.delayed (.term (.var y) env))) (h₁ : w ≠ a₁) (h₂ : w ≠ a₂)
    (hfree : ∀ c, ¬ β w c) :
    ArgumentAlike (n + 2) tr tr' β u s' a₁ a₂ w (perform n (.force x')) := by
  intro ψ s hs hnew hkeep
  have hcell := hkeep w _ h₁ h₂ hw
  have hlt : w < u.next := Store.lt_next_of_get? hw
  refine Alike.force_left hs hcell hfree (fun d hd => Nat.not_lt.mpr (hnew w d hd) hlt) ?_
  intro ω hω
  refine Alike.of_ends_left (force_var hy ⟨rfl, rfl⟩) ?_
  exact perform_alike ω tr tr' n β _ s' _ _ hω (.force hx)

/-! ## The two functions -/

/-- The cells of the first two functions that a function with a pattern is composed of. -/
def functionCells (names : List String) (ellipsis : Bool) (body : Term)
    (defaults : List (String × Term)) (env : Env) : List Cell :=
  [.delayed (.term (composeTerm (.lam (.keys names ellipsis) body)
      (.lam (.name argumentName) (fillTerm defaults))) env),
    .delayed (.term (checkTerm names ellipsis) env)]

theorem eval_pattern (n : Nat) (names : List String) (ellipsis : Bool)
    (defaults : List (String × Term)) (body : Term) (env : Env) (tr : Bool) (s : Store) :
    (perform (n + 3) (.eval (patternTerm names ellipsis defaults body) env)).Ends tr s
      (.value (.builtin .compose [s.next, s.next + 1]))
      (s.append
        (functionCells (distinctTexts names) ellipsis body (sortBy Prod.fst defaults) env)) := by
  rw [patternTerm_eq]
  exact eval_compose _ _ env

theorem applied_append (hs : Linked β φ s s') (cs : List Cell) :
    Applied β (s.append (functionCells names ellipsis body defaults env ++ cs)) s' s.next
      (s.next + 1) names ellipsis body defaults env where
  linked := by
    refine hs.left (fun a c hac => ?_) (fun a d hd => hd.elim) id
    obtain ⟨d, -, hd, -⟩ := hs.cells a c hac
    rw [Store.get?_append_of_some hd, hd]
  first := Store.get?_append_next s _ _
  second := Store.get?_append_add s _ 1
  distinct := Nat.succ_ne_self s.next
  apart := fun c hc => (hs.ne_new hc 0).1 rfl
  apart' := fun c hc => (hs.ne_new hc 1).1 rfl

/-- The cell that a name for the whole argument hands on to the functions behind it. -/
theorem argument_of_name (hs : Linked β φ s s') {x' : Addr} (hx : β x x') {y : String} :
    ArgumentAlike (n + 2) tr tr' β
      (s.append (functionCells names ellipsis body defaults (env.insert y x) ++
        [.delayed (.term (.var y) (env.insert y x))])) s' s.next (s.next + 1) (s.next + 2)
      (perform n (.force x')) := by
  have hname : (env.insert y x).get? y = some x := by rw [Table.get?_insert, if_pos rfl]
  refine argument_of_var hx hname (Store.get?_append_add s _ 2) ?_ ?_ ?_
  · exact Nat.ne_of_gt (Nat.lt_add_of_pos_right Nat.two_pos)
  · exact Nat.succ_ne_self (s.next + 1)
  · exact fun c hc => (hs.ne_new hc 2).1 rfl

/-- Defaults without the name of the argument do not see what it is bound to. -/
theorem EnvAlike.fillEnv {base : Addr} {t : Term} {env env' : Env} (h : EnvAlike β t env env')
    (hclean : t.hasFree argumentName = false) :
    EnvAlike β t (LazyConfig.fillEnv base env) env' := by
  intro y hy
  have hne : argumentName ≠ y := by
    rintro rfl
    rw [hclean] at hy
    exact Bool.false_ne_true hy
  rw [LazyConfig.fillEnv, Table.get?_insert, if_neg hne]
  exact h y hy

/-- What a function with a pattern is for: it takes its argument apart and evaluates its
body with the names bound. -/
def applyDirectly (n : Nat) (names : List String) (ellipsis : Bool)
    (defaults : List (String × Term)) (body : Term) (argument : Run Value) (env : Env) :
    Run Value := do
  let inner ← destructure (distinctTexts names) ellipsis (sortBy Prod.fst defaults) argument env
  perform n (.eval body inner)

/-- The defaults in the order of their keys stand under names of the pattern. -/
theorem mem_of_sorted_defaults (hkeys : ∀ e ∈ defaults, e.1 ∈ names) :
    ∀ e ∈ sortBy Prod.fst defaults, e.1 ∈ distinctTexts names := by
  intro e he
  exact mem_distinctTexts.mpr (hkeys e ((sortBy_perm Prod.fst defaults).mem_iff.mp he))

section

variable (hs : s.Closed) (henv : s.Binds env) (hx : x < s.next)
  (hclean : ∀ e ∈ defaults, e.2.hasFree argumentName = false)
  (hkeys : ∀ e ∈ defaults, e.1 ∈ names)

include henv hclean in
theorem sorted_defaults_alike (base : Addr) :
    ∀ e ∈ sortBy Prod.fst defaults, EnvAlike s.self e.2 (fillEnv base env) env := by
  intro e he
  exact (henv.alike e.2).fillEnv (hclean e ((sortBy_perm Prod.fst defaults).mem_iff.mp he))

include hs henv hx hclean hkeys

theorem patternTerm_alike (n : Nat) (tr : Bool) (ellipsis : Bool) (body : Term) :
    Alike s.self .silent ValueAlike
      (applyTerm (n + 13) (patternTerm names ellipsis defaults body) env x tr s)
      (applyDirectly (n + 10) names ellipsis defaults body (perform (n + 2) (.force x)) env tr
        s) := by
  have heval := eval_pattern (n + 10) names ellipsis defaults body env tr s
  refine Alike.of_ends_left (heval.bind ⟨rfl, rfl⟩) ?_
  exact apply_alike (applied_append hs.linked []) (argument_of_linked ⟨rfl, hx⟩) (henv.alike _)
    (sorted_defaults_alike henv hclean _) (mem_of_sorted_defaults hkeys)

theorem bothTerm_alike (n : Nat) (tr : Bool) (ellipsis : Bool) (body : Term) (y : String) :
    Alike s.self .silent ValueAlike
      (applyTerm (n + 15)
        (.lam (.name y) (.app (patternTerm names ellipsis defaults body) (.var y))) env x tr s)
      (applyDirectly (n + 10) names ellipsis defaults body (perform n (.force x))
        (env.insert y x) tr s) := by
  have hinner : s.Binds (env.insert y x) := henv.insert y hx
  have heval := eval_pattern (n + 10) names ellipsis defaults body (env.insert y x) tr s
  refine Alike.of_ends_left ((eval_lam _ _ env).bind (apply_name (eval_app heval ⟨rfl, rfl⟩))) ?_
  rw [Store.append_append, Store.next_append]
  exact apply_alike (applied_append hs.linked [_]) (argument_of_name hs.linked ⟨rfl, hx⟩)
    (hinner.alike _) (sorted_defaults_alike hinner hclean _) (mem_of_sorted_defaults hkeys)

end

/-! ## Functions of a program -/

/-- A function with a pattern takes its argument apart: the argument is forced and must be
a dict, keys outside the pattern are refused before missing ones, and the body sees each
name bound to the entry under it, or else to its default in the environment of the
function, which is not computed yet.  With a name for the whole argument, the body and the
defaults see that name too. -/
theorem lambda_destructures {p : Pattern Expr} {b : Expr} (hbody : b.lower = .ok body)
    (hdefaults : (defaultTerms p.fields false).1 = .ok defaults)
    (hclean : ∀ e ∈ defaults, e.2.hasFree argumentName = false) (hs : s.Closed)
    (henv : s.Binds env) (hx : x < s.next) (n : Nat) (tr : Bool) :
    (∃ t, (Expr.lambda (.pattern p) b).lower = .ok t ∧
      Alike s.self .silent ValueAlike (applyTerm (n + 13) t env x tr s)
        (applyDirectly (n + 10) p.names p.ellipsis defaults body (perform (n + 2) (.force x)) env
          tr s)) ∧
      ∀ y : Name, ∃ t, (Expr.lambda (.both y p) b).lower = .ok t ∧
        Alike s.self .silent ValueAlike (applyTerm (n + 15) t env x tr s)
          (applyDirectly (n + 10) p.names p.ellipsis defaults body (perform n (.force x))
            (env.insert y.text x) tr s) := by
  have hkeys := mem_names_of_defaultTerms hdefaults
  refine ⟨⟨_, lower_pattern hbody hdefaults, ?_⟩, fun y => ⟨_, lower_both hbody hdefaults y, ?_⟩⟩
  · exact patternTerm_alike hs henv hx hclean hkeys n tr p.ellipsis body
  · exact bothTerm_alike hs henv hx hclean hkeys n tr p.ellipsis body y.text

/-- A function with a default that is not in the way of a key of its argument. -/
theorem lambda_destructures_default :
    let z : String × Plain := ("z", .dict [("a", .text "1")])
    let r := placeEnv [z] false Store.empty
    let env : Env := Table.empty.insert "z" 1
    let a : Name := ⟨"a", by decide⟩
    let b : Name := ⟨"b", by decide⟩
    let p : Pattern Expr := ⟨[⟨a, none⟩, ⟨b, some (.text "d")⟩], false⟩
    let body : Expr := .list [.var a, .var b]
    r.outcome = .value env ∧ ∃ t, (Expr.lambda (.pattern p) body).lower = .ok t ∧
      Alike r.store.self .silent ValueAlike (applyTerm 13 t env 1 false r.store)
        (applyDirectly 10 ["a", "b"] false [("b", .text "d")] (.list [.var "a", .var "b"])
          (perform 2 (.force 1)) env false r.store) := by
  intro z r env a b p body
  obtain ⟨hclosed, hbinds⟩ := placeEnv_closed [z] closed_empty false
  have hclean : ∀ e ∈ [("b", Term.text "d")], e.2.hasFree argumentName = false := by
    intro e he
    obtain rfl := List.mem_singleton.mp he
    rfl
  have hx : 1 < r.store.next := by decide
  exact ⟨rfl, (lambda_destructures (p := p) (b := body) rfl rfl hclean hclosed (hbinds env rfl) hx
    0 false).1⟩

end LazyConfig
