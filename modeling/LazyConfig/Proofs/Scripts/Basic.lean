import LazyConfig.Eval.Data
import LazyConfig.Proofs.Stores
set_option autoImplicit false

/-!
# Scripts

What one level of the evaluator does is a *script*: it makes cells, has cells forced and
has jobs done one level deeper, and goes on according to what they give.  A script has no
store.  It is a tree, so a fact about all runs is proved by induction on scripts, with one
case for each thing that a script may do, and not for each construct of the language.

`Script.run` is the run that a script describes.
-/

namespace LazyConfig

/-! ## Runs in sequence -/

namespace Run

variable {α β γ : Type}

theorem pure_bind (a : α) (k : α → Run β) : ((pure a : Run α) >>= k) = k a := rfl

theorem bind_pure (p : Run α) : (p >>= pure) = p := by
  funext tr s
  rw [bind_apply]
  rcases p tr s with ⟨outcome, t, notes⟩
  cases outcome with
  | value a => simp
  | error e => rfl
  | exhausted => rfl

theorem bind_assoc (p : Run α) (k : α → Run β) (l : β → Run γ) :
    (p >>= k >>= l) = p >>= fun a => k a >>= l := by
  funext tr s
  rcases hp : p tr s with ⟨outcome, t, notes⟩
  cases outcome with
  | value a =>
    rw [bind_apply, bind_of_value hp, bind_of_value hp, bind_apply (k a)]
    rcases k a tr t with ⟨outcome', t', notes'⟩
    cases outcome' with
    | value b => simp
    | error e => rfl
    | exhausted => rfl
  | error e =>
    rw [bind_of_error hp, bind_of_error]
    rw [bind_of_error hp]
  | exhausted =>
    rw [bind_of_exhausted hp, bind_of_exhausted]
    rw [bind_of_exhausted hp]

/-- New cells for suspended computations, which may refer to each other. -/
def grow (cs : Addr → List Suspension) : Run Addr := fun _ s =>
  ⟨.value s.next, s.append ((cs s.next).map .delayed), []⟩

theorem delay_eq_grow (c : Suspension) : delay c = grow fun _ => [c] := by
  funext tr s
  exact delay_apply c tr s

end Run

/-! ## Jobs -/

/-- What kinds of results jobs have. -/
inductive Kind where
  /-- A value. -/
  | value
  /-- The data of a value. -/
  | data
  /-- The program that stands for a value. -/
  | program

/-- The results of a kind. -/
abbrev Kind.Result : Kind → Type
  | .value => Value
  | .data => Data FunctionKind
  | .program => Expr

/-- What is done one level deeper, besides forcing a cell. -/
inductive Job : Kind → Type where
  /-- A term is evaluated in an environment. -/
  | eval (t : Term) (env : Env) : Job .value
  /-- A value is applied to the argument in a cell. -/
  | apply (f : Value) (argument : Addr) : Job .value
  /-- Everything inside a value is computed. -/
  | deepen (v : Value) : Job .data
  /-- A value is turned into a program. -/
  | express (v : Value) : Job .program

/-- A job with an allowance of nested levels. -/
def Job.run (n : Nat) : {κ : Kind} → Job κ → Run κ.Result
  | _, .eval t env => perform n (.eval t env)
  | _, .apply f a => perform n (.apply f a)
  | _, .deepen v => LazyConfig.deepen n v
  | _, .express v => LazyConfig.express n v

theorem Job.run_zero {κ : Kind} (j : Job κ) : j.run 0 = Run.exhausted := by
  cases j <;> rfl

/-! ## Scripts -/

/-- What one level does. -/
inductive Script (α : Type) where
  /-- It is over, with a value. -/
  | done (a : α)
  /-- It fails. -/
  | fail (e : EvalError)
  /-- It leaves a note. -/
  | note (x : EvalNote) (next : Script α)
  /-- It makes cells for suspended computations and goes on with the address of the first. -/
  | grow (cs : Addr → List Suspension) (next : Addr → Script α)
  /-- It puts a value into a new cell. -/
  | store (v : Value) (next : Addr → Script α)
  /-- It has a cell forced. -/
  | force (a : Addr) (next : Value → Script α)
  /-- It has a job done. -/
  | work {κ : Kind} (j : Job κ) (next : κ.Result → Script α)

namespace Script

variable {α β : Type}

/-- One script behind the other. -/
protected def bind (p : Script α) (f : α → Script β) : Script β :=
  match p with
  | .done a => f a
  | .fail e => .fail e
  | .note x p => .note x (p.bind f)
  | .grow cs next => .grow cs fun base => (next base).bind f
  | .store v next => .store v fun a => (next a).bind f
  | .force a next => .force a fun v => (next v).bind f
  | .work j next => .work j fun x => (next x).bind f

instance : Monad Script where
  pure := .done
  bind := Script.bind

/-- Does one thing after the other for the members of a list. -/
def forEach (f : α → Script β) : List α → Script (List β)
  | [] => pure []
  | x :: rest => do
      let y ← f x
      let ys ← forEach f rest
      return y :: ys

/-- The run that a script describes, with an allowance of levels below it. -/
def run (n : Nat) : Script α → Run α
  | .done a => pure a
  | .fail e => Run.fail e
  | .note x p => do
      Run.note x
      p.run n
  | .grow cs next => do (next (← Run.grow cs)).run n
  | .store v next => do (next (← Run.allocate (.done v))).run n
  | .force a next => do (next (← perform n (.force a))).run n
  | .work j next => do (next (← j.run n)).run n

theorem run_bind (n : Nat) (p : Script α) (f : α → Script β) :
    (p >>= f).run n = p.run n >>= fun a => (f a).run n := by
  induction p with
  | done a => rfl
  | fail e => rfl
  | note x p ih =>
    refine Eq.trans ?_ (Run.bind_assoc _ _ _).symm
    exact bind_congr fun _ => ih
  | grow cs next ih =>
    refine Eq.trans ?_ (Run.bind_assoc _ _ _).symm
    exact bind_congr fun base => ih base
  | store v next ih =>
    refine Eq.trans ?_ (Run.bind_assoc _ _ _).symm
    exact bind_congr fun a => ih a
  | force a next ih =>
    refine Eq.trans ?_ (Run.bind_assoc _ _ _).symm
    exact bind_congr fun v => ih v
  | work j next ih =>
    refine Eq.trans ?_ (Run.bind_assoc _ _ _).symm
    exact bind_congr fun x => ih x

theorem run_forEach (n : Nat) (f : α → Script β) (xs : List α) :
    (forEach f xs).run n = Run.forEach (fun x => (f x).run n) xs := by
  induction xs with
  | nil => rfl
  | cons x rest ih =>
    rw [forEach, run_bind, Run.forEach]
    refine bind_congr fun y => ?_
    rw [run_bind, ih]
    rfl

end Script

end LazyConfig
