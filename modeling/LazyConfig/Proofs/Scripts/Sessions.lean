import LazyConfig.Session
import LazyConfig.Proofs.Scripts.Steps
set_option autoImplicit false

/-!
# Scripts: the commands of a session

A command is answered at once, or a script is run for it over the store of the session.
There are four kinds of scripts for commands, by what is done with the result: a value is
kept, an environment is kept, and data and programs are the answer.
-/

namespace LazyConfig

namespace Script

/-- A builtin function called by name with arguments in cells. -/
def callByName (name : String) (arguments : List Addr) : Script Value :=
  match Builtin.ofName? name with
  | none => .fail (.unknownPrimitive name)
  | some b =>
      match b.call? arguments with
      | some c => call c
      | none => return .builtin b arguments

/-- A cell for an argument. -/
def argument (env : Env) : Argument → Script Addr
  | .delayed t => delay (.term t env)
  | .ready d => do keep (← place d)

/-- An environment with bindings whose terms see another. -/
def bindArguments (scope : Env) : List (String × Argument) → Env → Script Env
  | [], env => return env
  | (name, a) :: rest, env => do bindArguments scope rest (env.insert name (← argument scope a))

variable (n : Nat)

theorem run_callByName (name : String) (arguments : List Addr) :
    (callByName name arguments).run n = LazyConfig.callByName n name arguments := by
  unfold callByName LazyConfig.callByName
  cases Builtin.ofName? name with
  | none => rfl
  | some b =>
    dsimp only
    cases b.call? arguments with
    | none => rfl
    | some c => exact run_call n c

theorem run_argument (env : Env) (a : Argument) : (argument env a).run n = a.cell env := by
  cases a with
  | delayed t => exact run_delay n _
  | ready d =>
    rw [argument, run_bind, run_place]
    exact bind_congr fun v => Run.bind_pure _

theorem run_bindArguments (scope : Env) (bindings : List (String × Argument)) (env : Env) :
    (bindArguments scope bindings env).run n = Session.bindArguments scope bindings env := by
  induction bindings generalizing env with
  | nil => rfl
  | cons binding rest ih =>
    obtain ⟨name, a⟩ := binding
    rw [bindArguments, Session.bindArguments, run_bind, run_argument]
    exact bind_congr fun c => ih _

end Script

/-- How a command is answered. -/
inductive Plan where
  /-- At once. -/
  | reply (answer : Answer)
  /-- By a value that is kept. -/
  | value (p : Script Value)
  /-- By an environment that is kept. -/
  | env (p : Script Env)
  /-- By data. -/
  | data (p : Script (Data FunctionKind))
  /-- By the text of a program. -/
  | program (p : Script Expr)

namespace Session

/-- What follows a plan, with an allowance of nested levels. -/
def follow (n : Nat) (tracing : Bool) (s : Session) : Plan → Turn
  | .reply answer => s.reply answer
  | .value p => s.running tracing (p.run n) keep
  | .env p => s.running tracing (p.run n) keepEnv
  | .data p => s.running tracing (p.run n) fun s d => (s, .data d)
  | .program p => s.running tracing (p.run n) fun s e => (s, .text (e.render .normal))

/-- The plan for a command about an environment. -/
def planEnv (s : Session) (env : Nat) (plan : Env → Plan) : Plan :=
  match s.envs[env]? with
  | none => .reply .nowhere
  | some scope => plan scope

/-- The plan for a command about a value. -/
def planValue (s : Session) (value : Nat) (plan : Value → Plan) : Plan :=
  match s.values[value]? with
  | none => .reply .nowhere
  | some v => plan v

/-- The plan for the value of a cell, if there is one. -/
def planCell (missing : Answer) : Option Addr → Plan
  | none => .reply missing
  | some a => .value (.cell a)

/-- How a session answers a command. -/
def plan (s : Session) : Command → Plan
  | .bind env bindings => s.planEnv env fun scope => .env (.bindArguments scope bindings scope)
  | .contains env name => s.planEnv env fun scope => .reply (.truth (scope.contains name))
  | .marks env => s.planEnv env fun scope => .reply (.marks (scope.map s.store.isDone).entries)
  | .lookup env name => s.planEnv env fun scope => planCell .absent (scope.get? name)
  | .evaluate env t => s.planEnv env fun scope => .value (.job (.eval t scope))
  | .call env name arguments => s.planEnv env fun scope =>
      .value do Script.callByName name (← Script.delayAll scope arguments)
  | .apply value env argument => s.planValue value fun f => s.planEnv env fun scope =>
      .value do Script.job (.apply f (← Script.argument scope argument))
  | .item value position => s.planValue value fun v =>
      match v with
      | .list items => planCell .nowhere items[position]?
      | _ => .reply .nowhere
  | .entry value key => s.planValue value fun v =>
      match v with
      | .dict entries => planCell .nowhere (entries.get? key)
      | _ => .reply .nowhere
  | .view value => s.planValue value fun v => .reply (.view (v.view s.store))
  | .deepen value => s.planValue value fun v => .data (.job (.deepen v))
  | .render value => s.planValue value fun v => .program (.job (.express v))

variable (s : Session) (n : Nat) (tracing : Bool)

@[simp] theorem follow_reply (answer : Answer) :
    s.follow n tracing (.reply answer) = s.reply answer := rfl

@[simp] theorem follow_value (p : Script Value) :
    s.follow n tracing (.value p) = s.running tracing (p.run n) keep := rfl

@[simp] theorem follow_env (p : Script Env) :
    s.follow n tracing (.env p) = s.running tracing (p.run n) keepEnv := rfl

@[simp] theorem follow_data (p : Script (Data FunctionKind)) :
    s.follow n tracing (.data p) = s.running tracing (p.run n) fun s d => (s, .data d) := rfl

@[simp] theorem follow_program (p : Script Expr) :
    s.follow n tracing (.program p) =
      s.running tracing (p.run n) fun s e => (s, .text (e.render .normal)) := rfl

@[simp] theorem follow_planEnv (env : Nat) (plan : Env → Plan) :
    s.follow n tracing (s.planEnv env plan) =
      match s.envs[env]? with
      | none => s.reply .nowhere
      | some scope => s.follow n tracing (plan scope) := by
  unfold planEnv
  cases s.envs[env]? <;> rfl

@[simp] theorem follow_planValue (value : Nat) (plan : Value → Plan) :
    s.follow n tracing (s.planValue value plan) =
      match s.values[value]? with
      | none => s.reply .nowhere
      | some v => s.follow n tracing (plan v) := by
  unfold planValue
  cases s.values[value]? <;> rfl

@[simp] theorem follow_planCell (missing : Answer) (a : Option Addr) :
    s.follow n tracing (planCell missing a) =
      match a with
      | none => s.reply missing
      | some a => s.running tracing (LazyConfig.perform n (.force a)) keep := by
  cases a with
  | none => rfl
  | some a => rw [planCell, follow, Script.run_cell]

/-- A command is done by following its plan. -/
theorem perform_eq_follow (c : Command) :
    s.perform n tracing c = s.follow n tracing (s.plan c) := by
  cases c with
  | bind env bindings =>
    cases henv : s.envs[env]? with
    | none => simp only [plan, perform, follow_planEnv, henv]
    | some scope =>
      simp only [plan, perform, follow_planEnv, follow_env, Script.run_bindArguments, henv]
  | contains env name =>
    cases henv : s.envs[env]? with
    | none => simp only [plan, perform, follow_planEnv, henv]
    | some scope => simp only [plan, perform, follow_planEnv, follow_reply, henv]
  | marks env =>
    cases henv : s.envs[env]? with
    | none => simp only [plan, perform, follow_planEnv, henv]
    | some scope => simp only [plan, perform, follow_planEnv, follow_reply, henv]
  | lookup env name =>
    simp only [plan, perform, follow_planEnv]
    cases s.envs[env]? with
    | none => rfl
    | some scope => exact (s.follow_planCell n tracing _ _).symm
  | evaluate env t =>
    simp only [plan, perform, follow_planEnv]
    cases s.envs[env]? with
    | none => rfl
    | some scope =>
      exact congrArg (s.running tracing · keep) (Script.run_job n (.eval t scope)).symm
  | call env name arguments =>
    simp only [plan, perform, follow_planEnv]
    cases s.envs[env]? with
    | none => rfl
    | some scope =>
      simp only [follow_value, Script.run_bind, Script.run_delayAll, Script.run_callByName]
  | apply value env argument =>
    simp only [plan, perform, follow_planValue, follow_planEnv]
    cases s.values[value]? with
    | none => rfl
    | some f =>
      cases s.envs[env]? with
      | none => rfl
      | some scope =>
        simp only [follow_value, Script.run_bind, Script.run_argument]
        exact congrArg (s.running tracing · keep)
          (bind_congr fun a => (Script.run_job n (.apply f a)).symm)
  | item value position =>
    simp only [plan, perform, follow_planValue]
    cases s.values[value]? with
    | none => rfl
    | some v =>
      cases v with
      | list items => exact (s.follow_planCell n tracing _ _).symm
      | _ => rfl
  | entry value key =>
    simp only [plan, perform, follow_planValue]
    cases s.values[value]? with
    | none => rfl
    | some v =>
      cases v with
      | dict entries => exact (s.follow_planCell n tracing _ _).symm
      | _ => rfl
  | view value =>
    simp only [plan, perform, follow_planValue]
    cases s.values[value]? <;> rfl
  | deepen value =>
    simp only [plan, perform, follow_planValue]
    cases s.values[value]? with
    | none => rfl
    | some v =>
      exact congrArg (s.running tracing · fun s d => (s, .data d))
        (Script.run_job n (.deepen v)).symm
  | render value =>
    simp only [plan, perform, follow_planValue]
    cases s.values[value]? with
    | none => rfl
    | some v =>
      exact congrArg (s.running tracing · fun s e => (s, .text (e.render .normal)))
        (Script.run_job n (.express v)).symm

end Session

end LazyConfig
