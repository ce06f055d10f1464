import LazyConfig.Proofs.Scripts.Basic
set_option autoImplicit false

/-!
# Scripts: the steps of the evaluator

Each step of the evaluator is the run of a script: builtin functions, applications and
terms, and likewise computing everything inside a value.  Forcing a cell is not, as what it
does depends on what is in the cell; but what it starts in a delayed cell is.  `Job.run_succ`
puts this together.
-/

namespace LazyConfig

namespace Script

variable {α : Type}

/-- The value of a cell. -/
def cell (a : Addr) : Script Value := .force a .done

/-- The result of a job. -/
def job {κ : Kind} (j : Job κ) : Script κ.Result := .work j .done

/-- A new cell for a suspended computation. -/
def delay (c : Suspension) : Script Addr := .grow (fun _ => [c]) .done

/-- A new cell that holds a value. -/
def keep (v : Value) : Script Addr := .store v .done

/-- New cells for terms in an environment. -/
def delayAll (env : Env) (ts : List Term) : Script (List Addr) :=
  .grow (fun _ => ts.map fun t => .term t env) fun base => .done (List.range' base ts.length)

/-! ## Forcing to a form -/

/-- The text in a cell. -/
def forceText (caller : Builtin) (a : Addr) : Script String := do
  match ← cell a with
  | .text s => return s
  | v => .fail (.notAString caller v.summary)

/-- The dict in a cell. -/
def forceDict (caller : Builtin) (a : Addr) : Script (Table Addr) := do
  match ← cell a with
  | .dict entries => return entries
  | v => .fail (.notADict caller v.summary)

/-- The texts of the list in a cell. -/
def forceKeys (caller : Builtin) (a : Addr) : Script (List String) := do
  match ← cell a with
  | .list items => forEach (forceText caller) items
  | v => .fail (.notAKeyList caller v.summary)

/-! ## Builtin functions, applications and terms -/

/-- A call of a builtin function. -/
def call : Call → Script Value
  | .identity x => cell x
  | .compose f g x => do
      let v ← cell f
      let y ← delay (.composed g x)
      job (.apply v y)
  | .append a b => do
      let s ← forceText .append a
      let t ← forceText .append b
      return .text (s ++ t)
  | .lookup subject key => do
      let entries ← forceDict .lookup subject
      let k ← forceText .lookup key
      match entries.get? k with
      | some a => cell a
      | none => .fail (.keyNotFound k)
  | .mergeLeft a b => do
      let left ← forceDict .mergeLeft a
      let right ← forceDict .mergeLeft b
      return .dict (left.merge right)
  | .disallowExtra keys subject => do
      let allowed ← forceKeys .disallowExtra keys
      let entries ← forceDict .disallowExtra subject
      match entries.keys.filter fun k => !allowed.contains k with
      | [] => return .dict entries
      | extra => .fail (.unexpectedKeys extra)

/-- The environment of a function's body, with the argument in a cell. -/
def bindArgument (binder : Binder) (argument : Addr) (env : Env) : Script Env :=
  match binder with
  | .name x => return env.insert x argument
  | .keys names ellipsis => do
      match ← cell argument with
      | .dict entries =>
          match names.filter fun x => !entries.contains x with
          | [] =>
              match entries.keys.filter fun k => !names.contains k, ellipsis with
              | extra@(_ :: _), false => .fail (.unexpectedKeys extra)
              | _, _ => return bindNames entries names env
          | missing => .fail (.missingKeys missing)
      | v => .fail (.argumentNotADict v.summary)

/-- A value applied to the argument in a cell. -/
def apply (f : Value) (argument : Addr) : Script Value :=
  match f with
  | .closure binder body env => do
      let inner ← bindArgument binder argument env
      job (.eval body inner)
  | .builtin b arguments =>
      match b.call? (arguments ++ [argument]) with
      | none => return .builtin b (arguments ++ [argument])
      | some c => .note (.builtin b) (call c)
  | v => .fail (.notAFunction v.summary)

/-- A term in an environment. -/
def eval (t : Term) (env : Env) : Script Value :=
  match t with
  | .var x =>
      match env.get? x with
      | some a => cell a
      | none => .fail (.unbound x)
  | .text s => return .text s
  | .data type _ => .fail (.unknownType type)
  | .list items => do return .list (← delayAll env items)
  | .dict entries => do
      let cells ← delayAll env (entries.map Prod.snd)
      return .dict (Table.ofList ((entries.map Prod.fst).zip cells))
  | .lam binder body => return .closure binder body env
  | .builtin name =>
      match Builtin.ofName? name with
      | some b => return .builtin b []
      | none => .fail (.unknownBuiltin name)
  | .letrec bindings body =>
      .note (.letrec (bindings.map Prod.fst))
        (.grow (fun base => (bindings.map Prod.snd).map fun t =>
            .term t (bindFrom base (bindings.map Prod.fst) env))
          fun base => job (.eval body (bindFrom base (bindings.map Prod.fst) env)))
  | .app f a => .note (.application (.app f a)) do
      let g ← job (.eval f env)
      let x ← delay (.term a env)
      job (.apply g x)

/-- A suspended computation. -/
def resume : Suspension → Script Value
  | .term t env => job (.eval t env)
  | .composed f x => do
      let v ← cell f
      job (.apply v x)

/-! ## Everything inside a value -/

/-- The data of a value. -/
def deepen : Value → Script (Data FunctionKind)
  | .text s => return .text s
  | .list items => do
      let ds ← forEach (fun a => do job (.deepen (← cell a))) items
      return .list ds
  | .dict entries => do
      let ds ← forEach (fun e : String × Addr => do
        let d ← job (.deepen (← cell e.2))
        return (e.1, d)) entries.entries
      return .dict ds
  | .closure _ _ _ => return .function .lambda
  | .builtin b _ => return .function (.builtin b)

/-- The program that stands for the data of a value. -/
def express : Value → Script Expr
  | .text s => return .text s
  | .list items => do
      let es ← forEach (fun a => do job (.express (← cell a))) items
      return .list es
  | .dict entries => do
      let bs ← forEach (fun e : String × Addr => do
        let v ← job (.express (← cell e.2))
        return Binding.equation (Expr.text e.1) v) entries.entries
      return .dict false bs
  | v => .fail (.noExpression v.summary)

/-! ## Plain data -/

mutual

/-- A value of plain data, with everything inside it computed. -/
def place : Plain → Script Value
  | .text s => return .text s
  | .list items => do return .list (← placeItems items)
  | .dict entries => do return .dict (Table.ofList (← placeEntries entries))
  | .function f => nomatch f

/-- Cells that hold the items of a list. -/
def placeItems : List Plain → Script (List Addr)
  | [] => return []
  | d :: rest => do
      let v ← place d
      let a ← keep v
      return a :: (← placeItems rest)

/-- Cells that hold the entries of a dict, with their keys. -/
def placeEntries : List (String × Plain) → Script (List (String × Addr))
  | [] => return []
  | (key, d) :: rest => do
      let v ← place d
      let a ← keep v
      return (key, a) :: (← placeEntries rest)

end

end Script

/-- What the level below does for a job. -/
def Job.script : {κ : Kind} → Job κ → Script κ.Result
  | _, .eval t env => Script.eval t env
  | _, .apply f a => Script.apply f a
  | _, .deepen v => Script.deepen v
  | _, .express v => Script.express v

/-! ## The runs of the scripts -/

namespace Script

variable (n : Nat)

theorem run_cell (a : Addr) : (cell a).run n = perform n (.force a) :=
  Run.bind_pure _

theorem run_job {κ : Kind} (j : Job κ) : (job j).run n = j.run n :=
  Run.bind_pure _

theorem run_delay (c : Suspension) : (delay c).run n = Run.delay c := by
  rw [Run.delay_eq_grow]
  exact Run.bind_pure _

theorem run_delayAll (env : Env) (ts : List Term) :
    (delayAll env ts).run n = LazyConfig.delayAll env ts := by
  funext tr s
  rw [delayAll_apply]
  rfl

theorem run_forceText (caller : Builtin) (a : Addr) :
    (forceText caller a).run n = LazyConfig.forceText (perform n) caller a :=
  bind_congr fun v => by cases v <;> rfl

theorem run_forceDict (caller : Builtin) (a : Addr) :
    (forceDict caller a).run n = LazyConfig.forceDict (perform n) caller a :=
  bind_congr fun v => by cases v <;> rfl

theorem run_forceKeys (caller : Builtin) (a : Addr) :
    (forceKeys caller a).run n = LazyConfig.forceKeys (perform n) caller a :=
  bind_congr fun v => by
    cases v with
    | list items =>
      show (forEach (forceText caller) items).run n = _
      rw [run_forEach]
      exact congrArg (fun f => Run.forEach f items) (funext (run_forceText n caller))
    | _ => rfl

theorem run_call (c : Call) : (call c).run n = runCall (perform n) c := by
  cases c with
  | identity x => exact run_cell n x
  | compose f g x =>
    refine bind_congr fun v => ?_
    show (delay (.composed g x) >>= fun y => job (.apply v y)).run n = _
    rw [run_bind, run_delay]
    exact bind_congr fun y => run_job n _
  | append a b =>
    rw [call, runCall, run_bind, run_forceText]
    refine bind_congr fun s => ?_
    rw [run_bind, run_forceText]
    rfl
  | lookup subject key =>
    rw [call, runCall, run_bind, run_forceDict]
    refine bind_congr fun entries => ?_
    rw [run_bind, run_forceText]
    refine bind_congr fun k => ?_
    cases entries.get? k with
    | none => rfl
    | some a => exact run_cell n a
  | mergeLeft a b =>
    rw [call, runCall, run_bind, run_forceDict]
    refine bind_congr fun left => ?_
    rw [run_bind, run_forceDict]
    rfl
  | disallowExtra keys subject =>
    rw [call, runCall, run_bind, run_forceKeys]
    refine bind_congr fun allowed => ?_
    rw [run_bind, run_forceDict]
    refine bind_congr fun entries => ?_
    cases entries.keys.filter fun k => !allowed.contains k with
    | nil => rfl
    | cons k extra => rfl

theorem run_bindArgument (binder : Binder) (a : Addr) (env : Env) :
    (bindArgument binder a env).run n = LazyConfig.bindArgument (perform n) binder a env := by
  cases binder with
  | name x => rfl
  | keys names ellipsis =>
    refine bind_congr fun v => ?_
    cases v with
    | dict entries =>
      dsimp only [Script.bind]
      cases names.filter fun x => !entries.contains x with
      | cons x missing => rfl
      | nil =>
        cases entries.keys.filter fun k => !names.contains k with
        | nil => rfl
        | cons k extra => cases ellipsis <;> rfl
    | _ => rfl

theorem run_apply (f : Value) (a : Addr) :
    (apply f a).run n = applyValue (perform n) f a := by
  cases f with
  | closure binder body env =>
    rw [apply, applyValue, run_bind, run_bindArgument]
    exact bind_congr fun inner => run_job n _
  | builtin b arguments =>
    rw [apply]
    cases hcall : b.call? (arguments ++ [a]) with
    | none =>
      rw [applyValue_partial hcall]
      rfl
    | some c =>
      rw [applyValue_call hcall]
      exact bind_congr fun _ => run_call n c
  | _ => rfl

theorem run_eval (t : Term) (env : Env) : (eval t env).run n = evalTerm (perform n) t env := by
  cases t with
  | var x =>
    rw [eval]
    cases hx : env.get? x with
    | none =>
      rw [evalTerm_unbound hx]
      rfl
    | some a =>
      rw [evalTerm_var hx]
      exact run_cell n a
  | list items =>
    rw [eval, evalTerm, run_bind, run_delayAll]
    rfl
  | dict entries =>
    rw [eval, evalTerm, run_bind, run_delayAll]
    rfl
  | builtin name =>
    rw [eval, evalTerm]
    cases Builtin.ofName? name <;> rfl
  | letrec bindings body =>
    refine bind_congr fun _ => ?_
    funext tr s
    have hcells := delayAll_apply (bindFrom s.next (bindings.map Prod.fst) env)
      (bindings.map Prod.snd) tr s
    refine (Run.bind_of_value rfl _).trans ?_
    rw [run_job, Run.bind_of_value (p := Run.nextAddr) rfl, Run.bind_of_value hcells]
    rfl
  | app f a =>
    refine bind_congr fun _ => ?_
    show (job (.eval f env) >>= fun g =>
      delay (.term a env) >>= fun x => job (.apply g x)).run n = _
    rw [run_bind, run_job]
    refine bind_congr fun g => ?_
    rw [run_bind, run_delay]
    exact bind_congr fun x => run_job n _
  | _ => rfl

theorem run_resume (c : Suspension) : (resume c).run n = LazyConfig.resume (perform n) c := by
  cases c with
  | term t env => exact run_job n _
  | composed f x => exact bind_congr fun v => run_job n _

theorem run_deepen (v : Value) : (deepen v).run n = LazyConfig.deepen (n + 1) v := by
  cases v with
  | list items =>
    rw [deepen, LazyConfig.deepen, run_bind, run_forEach]
    refine congrArg (fun f => Run.forEach f items >>= _) (funext fun a => ?_)
    exact bind_congr fun v => run_job n _
  | dict entries =>
    rw [deepen, LazyConfig.deepen, run_bind, run_forEach]
    refine congrArg (fun f => Run.forEach f entries.entries >>= _) (funext fun e => ?_)
    rfl
  | _ => rfl

theorem run_express (v : Value) : (express v).run n = LazyConfig.express (n + 1) v := by
  cases v with
  | list items =>
    rw [express, LazyConfig.express, run_bind, run_forEach]
    refine congrArg (fun f => Run.forEach f items >>= _) (funext fun a => ?_)
    exact bind_congr fun v => run_job n _
  | dict entries =>
    rw [express, LazyConfig.express, run_bind, run_forEach]
    refine congrArg (fun f => Run.forEach f entries.entries >>= _) (funext fun e => ?_)
    rfl
  | _ => rfl

mutual

theorem run_place : ∀ d : Plain, (place d).run n = LazyConfig.place d
  | .text _ => rfl
  | .list items => by
    rw [place, LazyConfig.place, run_bind, run_placeItems items]
    rfl
  | .dict entries => by
    rw [place, LazyConfig.place, run_bind, run_placeEntries entries]
    rfl

theorem run_placeItems : ∀ ds : List Plain, (placeItems ds).run n = LazyConfig.placeItems ds
  | [] => by
    rw [placeItems, LazyConfig.placeItems]
    rfl
  | d :: rest => by
    rw [placeItems, LazyConfig.placeItems, run_bind, run_place d]
    refine bind_congr fun v => bind_congr fun a => ?_
    rw [← run_placeItems rest]
    exact run_bind n (placeItems rest) fun as => pure (a :: as)

theorem run_placeEntries : ∀ ds : List (String × Plain),
    (placeEntries ds).run n = LazyConfig.placeEntries ds
  | [] => by
    rw [placeEntries, LazyConfig.placeEntries]
    rfl
  | (key, d) :: rest => by
    rw [placeEntries, LazyConfig.placeEntries, run_bind, run_place d]
    refine bind_congr fun v => bind_congr fun a => ?_
    rw [← run_placeEntries rest]
    exact run_bind n (placeEntries rest) fun es => pure ((key, a) :: es)

end

end Script

/-- A job is done by its script on the level below. -/
theorem Job.run_succ (n : Nat) {κ : Kind} (j : Job κ) : j.run (n + 1) = j.script.run n := by
  cases j with
  | eval t env => exact (Script.run_eval n t env).symm
  | apply f a => exact (Script.run_apply n f a).symm
  | deepen v => exact (Script.run_deepen n v).symm
  | express v => exact (Script.run_express n v).symm

end LazyConfig
