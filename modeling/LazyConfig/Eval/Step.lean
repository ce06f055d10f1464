import LazyConfig.Eval.Run
set_option autoImplicit false

/-!
# Evaluation: the steps

There are three tasks: to evaluate a term in an environment, to apply a value to an
argument, and to force a cell.  `step` does one task with the help of tasks one level
deeper, and `perform` allows a number of levels.  A run that ends within its allowance
ends the same way with a larger one, so the allowance is no part of the meaning.

Evaluation is lazy.  Items of lists, entries of dicts, bindings and arguments are put
into cells unevaluated, and only a variable, a builtin function or a pattern forces
one.
-/

namespace LazyConfig

/-- What the evaluator does. -/
inductive Task where
  /-- It evaluates a term in an environment. -/
  | eval (t : Term) (env : Env)
  /-- It applies a value to the argument in a cell. -/
  | apply (f : Value) (argument : Addr)
  /-- It computes a cell. -/
  | force (a : Addr)

/-! ## Forcing to a form -/

section

variable (self : Task → Run Value)

/-- The text in a cell. -/
def forceText (caller : Builtin) (a : Addr) : Run String := do
  match ← self (.force a) with
  | .text s => return s
  | v => Run.fail (.notAString caller v.summary)

/-- The dict in a cell. -/
def forceDict (caller : Builtin) (a : Addr) : Run (Table Addr) := do
  match ← self (.force a) with
  | .dict entries => return entries
  | v => Run.fail (.notADict caller v.summary)

/-- The texts of the list in a cell. -/
def forceKeys (caller : Builtin) (a : Addr) : Run (List String) := do
  match ← self (.force a) with
  | .list items => Run.forEach (forceText self caller) items
  | v => Run.fail (.notAKeyList caller v.summary)

/-! ## Builtin functions -/

/-- A call of a builtin function. -/
def runCall : Call → Run Value
  | .identity x => self (.force x)
  | .compose f g x => do
      let v ← self (.force f)
      let y ← Run.delay (.composed g x)
      self (.apply v y)
  | .append a b => do
      let s ← forceText self .append a
      let t ← forceText self .append b
      return .text (s ++ t)
  | .lookup subject key => do
      let entries ← forceDict self .lookup subject
      let k ← forceText self .lookup key
      match entries.get? k with
      | some a => self (.force a)
      | none => Run.fail (.keyNotFound k)
  | .mergeLeft a b => do
      let left ← forceDict self .mergeLeft a
      let right ← forceDict self .mergeLeft b
      return .dict (left.merge right)
  | .disallowExtra keys subject => do
      let allowed ← forceKeys self .disallowExtra keys
      let entries ← forceDict self .disallowExtra subject
      match entries.keys.filter fun k => !allowed.contains k with
      | [] => return .dict entries
      | extra => Run.fail (.unexpectedKeys extra)

/-! ## Application -/

/-- An environment in which each name has the cell that a dict has under it. -/
def bindNames (entries : Table Addr) (names : List String) (env : Env) : Env :=
  names.foldl (fun env x =>
    match entries.get? x with
    | some a => env.insert x a
    | none => env) env

/-- The environment of a function's body, with the argument in a cell. -/
def bindArgument (binder : Binder) (argument : Addr) (env : Env) : Run Env :=
  match binder with
  | .name x => return env.insert x argument
  | .keys names ellipsis => do
      match ← self (.force argument) with
      | .dict entries =>
          match names.filter fun x => !entries.contains x with
          | [] =>
              match entries.keys.filter fun k => !names.contains k, ellipsis with
              | extra@(_ :: _), false => Run.fail (.unexpectedKeys extra)
              | _, _ => return bindNames entries names env
          | missing => Run.fail (.missingKeys missing)
      | v => Run.fail (.argumentNotADict v.summary)

/-- A value applied to the argument in a cell. -/
def applyValue (f : Value) (argument : Addr) : Run Value :=
  match f with
  | .closure binder body env => do
      let inner ← bindArgument self binder argument env
      self (.eval body inner)
  | .builtin b arguments =>
      match b.call? (arguments ++ [argument]) with
      | none => return .builtin b (arguments ++ [argument])
      | some call => do
          Run.note (.builtin b)
          runCall self call
  | v => Run.fail (.notAFunction v.summary)

/-! ## Terms -/

/-- An environment in which names have consecutive cells from an address on. -/
def bindFrom (base : Addr) : List String → Env → Env
  | [], env => env
  | x :: rest, env => bindFrom (base + 1) rest (env.insert x base)

/-- New cells for terms in an environment. -/
def delayAll (env : Env) (ts : List Term) : Run (List Addr) :=
  Run.forEach (fun t => Run.delay (.term t env)) ts

/-- A term in an environment. -/
def evalTerm (t : Term) (env : Env) : Run Value :=
  match t with
  | .var x =>
      match env.get? x with
      | some a => self (.force a)
      | none => Run.fail (.unbound x)
  | .text s => return .text s
  | .data type _ => Run.fail (.unknownType type)
  | .list items => return .list (← delayAll env items)
  | .dict entries => do
      let cells ← delayAll env (entries.map Prod.snd)
      return .dict (Table.ofList ((entries.map Prod.fst).zip cells))
  | .lam binder body => return .closure binder body env
  | .builtin name =>
      match Builtin.ofName? name with
      | some b => return .builtin b []
      | none => Run.fail (.unknownBuiltin name)
  | .letrec bindings body => do
      Run.note (.letrec (bindings.map Prod.fst))
      let base ← Run.nextAddr
      let inner := bindFrom base (bindings.map Prod.fst) env
      let _ ← delayAll inner (bindings.map Prod.snd)
      self (.eval body inner)
  | .app f a => do
      Run.note (.application (.app f a))
      let g ← self (.eval f env)
      let x ← Run.delay (.term a env)
      self (.apply g x)

/-! ## Cells -/

/-- A suspended computation. -/
def resume : Suspension → Run Value
  | .term t env => self (.eval t env)
  | .composed f x => do
      let v ← self (.force f)
      self (.apply v x)

/-- The value of a cell. -/
def forceCell (a : Addr) : Run Value := do
  match ← Run.peek a with
  | .done v => return v
  | .running c => Run.fail (.infiniteRecursion c)
  | .delayed c => Run.occupy a c (resume self c)

/-- One task, with the help of tasks one level deeper. -/
def step : Task → Run Value
  | .eval t env => evalTerm self t env
  | .apply f argument => applyValue self f argument
  | .force a => forceCell self a

end

/-- A task with an allowance of nested levels. -/
def perform : Nat → Task → Run Value
  | 0, _ => Run.exhausted
  | n + 1, task => step (perform n) task

/-- A builtin function called by name with arguments in cells.  No name but those of the
builtin functions can be called, and a call needs all arguments. -/
def callByName (n : Nat) (name : String) (arguments : List Addr) : Run Value :=
  match Builtin.ofName? name with
  | none => Run.fail (.unknownPrimitive name)
  | some b =>
      match b.call? arguments with
      | some call => runCall (perform n) call
      | none => return .builtin b arguments

end LazyConfig
