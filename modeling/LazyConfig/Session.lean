import LazyConfig.Expr.Render
import LazyConfig.Program
set_option autoImplicit false

/-!
# Sessions

A session keeps environments and values over one store, each under a number, and
answers commands about them.  Environments and values share their cells, so what one
command computes the next one finds computed.  A command that fails changes nothing but
the cells it computed on the way.

`View` is what can be seen of a value without computing anything: which of its cells
hold values already.
-/

namespace LazyConfig

/-! ## Views -/

/-- What can be seen inside a value; a mark says that a cell holds a value. -/
inductive Inside where
  /-- Nothing. -/
  | nothing
  /-- The marks of the items of a list. -/
  | items (marks : List Bool)
  /-- The marks of the entries of a dict. -/
  | entries (marks : List (String × Bool))
  /-- The parts of a function. -/
  | closure (binder : Binder) (body : Term)
  /-- The marks of the arguments of a builtin function. -/
  | arguments (marks : List Bool)

/-- What can be seen of a value. -/
structure View where
  /-- What messages say about it. -/
  summary : Summary
  /-- What is inside it. -/
  inside : Inside

/-- What can be seen of a value over a store. -/
def Value.view (s : Store) (v : Value) : View :=
  ⟨v.summary, match v with
    | .text _ => .nothing
    | .list items => .items (items.map s.isDone)
    | .dict entries => .entries (entries.map s.isDone).entries
    | .closure binder body _ => .closure binder body
    | .builtin _ arguments => .arguments (arguments.map s.isDone)⟩

/-! ## Sessions -/

/-- Environments and values over one store. -/
structure Session where
  /-- The cells. -/
  store : Store
  /-- The environments by number. -/
  envs : Array Env
  /-- The kept values by number. -/
  values : Array Value

/-- The session with the empty environment under the number zero. -/
def Session.start : Session := ⟨Store.empty, #[Table.empty], #[]⟩

/-- What a name may be bound to. -/
inductive Argument where
  /-- The value of a term, uncomputed. -/
  | delayed (t : Term)
  /-- Plain data. -/
  | ready (d : Plain)

/-- A cell for an argument; a term sees an environment. -/
def Argument.cell (env : Env) : Argument → Run Addr
  | .delayed t => Run.delay (.term t env)
  | .ready d => placeCell d

/-- What a session can be asked. -/
inductive Command where
  /-- A new environment with bindings added to an old one. -/
  | bind (env : Nat) (bindings : List (String × Argument))
  /-- Whether an environment binds a name. -/
  | contains (env : Nat) (name : String)
  /-- What an environment binds. -/
  | marks (env : Nat)
  /-- The value that an environment binds to a name. -/
  | lookup (env : Nat) (name : String)
  /-- The value of a term in an environment. -/
  | evaluate (env : Nat) (t : Term)
  /-- A builtin function called by name; the arguments see an environment. -/
  | call (env : Nat) (name : String) (arguments : List Term)
  /-- A kept value applied to an argument, which sees an environment. -/
  | apply (value : Nat) (env : Nat) (argument : Argument)
  /-- An item of a kept list. -/
  | item (value : Nat) (position : Nat)
  /-- An entry of a kept dict. -/
  | entry (value : Nat) (key : String)
  /-- A kept value as it is. -/
  | view (value : Nat)
  /-- All data of a kept value. -/
  | deepen (value : Nat)
  /-- The text of the program that stands for a kept value. -/
  | render (value : Nat)

/-- What a session answers. -/
inductive Answer where
  /-- A new environment has the number, and its bindings have the marks. -/
  | environment (number : Nat) (marks : List (String × Bool))
  /-- Yes or no. -/
  | truth (b : Bool)
  /-- The bindings have the marks. -/
  | marks (marks : List (String × Bool))
  /-- There is no binding. -/
  | absent
  /-- A value was kept under the number. -/
  | kept (number : Nat) (view : View)
  /-- A kept value as it is. -/
  | view (view : View)
  /-- Data. -/
  | data (d : Data FunctionKind)
  /-- A text. -/
  | text (s : String)
  /-- The command failed. -/
  | failed (e : EvalError)
  /-- The allowance of nested steps was used up. -/
  | exhausted
  /-- The command is about a number or a part that does not exist. -/
  | nowhere

namespace Session

/-- A session after a command, its answer, and the notes of the run. -/
structure Turn where
  /-- The session behind the command. -/
  session : Session
  /-- The answer. -/
  answer : Answer
  /-- The notes in order. -/
  notes : List EvalNote

/-- Answers without running anything. -/
def reply (s : Session) (answer : Answer) : Turn := ⟨s, answer, []⟩

/-- Runs over the session's store; a value that comes out is dealt with, and anything else
is the answer. -/
def running {α : Type} (s : Session) (tracing : Bool) (p : Run α)
    (finish : Session → α → Session × Answer) : Turn :=
  let ⟨outcome, store, notes⟩ := p tracing s.store
  let s : Session := ⟨store, s.envs, s.values⟩
  match outcome with
  | .value a =>
      let (s, answer) := finish s a
      ⟨s, answer, notes⟩
  | .error e => ⟨s, .failed e, notes⟩
  | .exhausted => ⟨s, .exhausted, notes⟩

/-- Keeps a value. -/
def keep (s : Session) (v : Value) : Session × Answer :=
  (⟨s.store, s.envs, s.values.push v⟩, .kept s.values.size (v.view s.store))

/-- Keeps an environment. -/
def keepEnv (s : Session) (env : Env) : Session × Answer :=
  (⟨s.store, s.envs.push env, s.values⟩,
    .environment s.envs.size (env.map s.store.isDone).entries)

/-- An environment with bindings whose terms see another. -/
def bindArguments (scope : Env) : List (String × Argument) → Env → Run Env
  | [], env => return env
  | (name, argument) :: rest, env => do
      let a ← argument.cell scope
      bindArguments scope rest (env.insert name a)

/-- One command, with an allowance of nested steps. -/
def perform (n : Nat) (tracing : Bool) (s : Session) : Command → Turn
  | .bind env bindings =>
      match s.envs[env]? with
      | none => s.reply .nowhere
      | some scope => s.running tracing (bindArguments scope bindings scope) keepEnv
  | .contains env name =>
      match s.envs[env]? with
      | none => s.reply .nowhere
      | some scope => s.reply (.truth (scope.contains name))
  | .marks env =>
      match s.envs[env]? with
      | none => s.reply .nowhere
      | some scope => s.reply (.marks (scope.map s.store.isDone).entries)
  | .lookup env name =>
      match s.envs[env]? with
      | none => s.reply .nowhere
      | some scope =>
          match scope.get? name with
          | none => s.reply .absent
          | some a => s.running tracing (LazyConfig.perform n (.force a)) keep
  | .evaluate env t =>
      match s.envs[env]? with
      | none => s.reply .nowhere
      | some scope => s.running tracing (LazyConfig.evaluate n t scope) keep
  | .call env name arguments =>
      match s.envs[env]? with
      | none => s.reply .nowhere
      | some scope =>
          s.running tracing (do callByName n name (← delayAll scope arguments)) keep
  | .apply value env argument =>
      match s.values[value]?, s.envs[env]? with
      | some f, some scope =>
          s.running tracing
            (do LazyConfig.perform n (.apply f (← argument.cell scope))) keep
      | _, _ => s.reply .nowhere
  | .item value position =>
      match s.values[value]? with
      | some (.list items) =>
          match items[position]? with
          | none => s.reply .nowhere
          | some a => s.running tracing (LazyConfig.perform n (.force a)) keep
      | _ => s.reply .nowhere
  | .entry value key =>
      match s.values[value]? with
      | some (.dict entries) =>
          match entries.get? key with
          | none => s.reply .nowhere
          | some a => s.running tracing (LazyConfig.perform n (.force a)) keep
      | _ => s.reply .nowhere
  | .view value =>
      match s.values[value]? with
      | none => s.reply .nowhere
      | some v => s.reply (.view (v.view s.store))
  | .deepen value =>
      match s.values[value]? with
      | none => s.reply .nowhere
      | some v => s.running tracing (LazyConfig.deepen n v) fun s d => (s, .data d)
  | .render value =>
      match s.values[value]? with
      | none => s.reply .nowhere
      | some v =>
          s.running tracing (express n v) fun s e => (s, .text (e.render .normal))

/-- The sessions that commands lead to, whatever they answer. -/
inductive Reachable : Session → Prop where
  /-- The session at the start. -/
  | start : Reachable Session.start
  /-- A session behind a command. -/
  | perform {s : Session} (h : Reachable s) (n : Nat) (tracing : Bool) (c : Command) :
      Reachable (s.perform n tracing c).session

end Session

end LazyConfig
