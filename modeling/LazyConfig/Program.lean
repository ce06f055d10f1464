import LazyConfig.Eval.Data
import LazyConfig.Expr.ToTerm
import LazyConfig.Parser
set_option autoImplicit false

/-!
# Programs

From a program to its data.  A program is given as a text, a tree or a core term; the
stages it has yet to go through are reading, lowering and evaluation, and
`ProgramError` says in which of them it failed.
-/

namespace LazyConfig

/-- A program at some stage. -/
inductive Source where
  /-- A text that is yet to be read. -/
  | text (s : String)
  /-- A tree that is yet to be lowered. -/
  | expr (e : Expr)
  /-- A core term. -/
  | term (t : Term)

/-- Where a program failed, and why. -/
inductive ProgramError where
  /-- The text was refused. -/
  | refused (text : String) (failure : Failure)
  /-- The tree has no core term. -/
  | lowering (e : LoweringError)
  /-- The evaluation failed. -/
  | evaluation (e : EvalError)
  /-- An allowance of nested steps was used up. -/
  | exhausted

/-- The tree that a text is read as. -/
def readSource (text : String) : Except ProgramError Expr :=
  match readProgram .standard text with
  | .accepted e => .ok e
  | .refused failure => .error (.refused text failure)
  | .exhausted => .error .exhausted

/-- The core term of a tree. -/
def lowerSource (e : Expr) : Except ProgramError Term :=
  match e.lower with
  | .ok t => .ok t
  | .error error => .error (.lowering error)

/-- The core term of a program. -/
def Source.toTerm : Source → Except ProgramError Term
  | .text s => do lowerSource (← readSource s)
  | .expr e => lowerSource e
  | .term t => .ok t

/-- The run that evaluates a term in an environment. -/
def evaluate (n : Nat) (t : Term) (env : Env) : Run Value := perform n (.eval t env)

/-- The run that evaluates a term in an environment of plain data, and everything inside
its value. -/
def evaluateDeep (n : Nat) (t : Term) (bindings : List (String × Plain)) :
    Run (Data FunctionKind) := do
  let env ← placeEnv bindings
  deepen n (← evaluate n t env)

/-- The data of a program in an environment of plain data. -/
def Source.run (n : Nat) (source : Source) (bindings : List (String × Plain)) :
    Except ProgramError (Data FunctionKind) := do
  let t ← source.toTerm
  match (evaluateDeep n t bindings false Store.empty).outcome with
  | .value d => .ok d
  | .error e => .error (.evaluation e)
  | .exhausted => .error .exhausted

end LazyConfig
