import LazyConfig.Eval.Value
set_option autoImplicit false

/-!
# Evaluation: failures

Each constructor is one cause.  The wording is in `EvalError.message`, which is told
whether delayed computations are labelled with their terms: they are when a trace is
wanted, and only then does the message about infinite recursion name the term.

Causes fall into the classes that a caller can tell apart, `EvalError.errorClass?`.
-/

namespace LazyConfig

/-- Why an evaluation failed. -/
inductive EvalError where
  /-- A variable has no binding. -/
  | unbound (name : String)
  /-- No builtin function has the name. -/
  | unknownBuiltin (name : String)
  /-- Data is of a type that has no values. -/
  | unknownType (type : String)
  /-- A builtin function needs a dict. -/
  | notADict (caller : Builtin) (got : Summary)
  /-- A builtin function needs a text. -/
  | notAString (caller : Builtin) (got : Summary)
  /-- A builtin function needs a list of keys. -/
  | notAKeyList (caller : Builtin) (got : Summary)
  /-- A function that takes a dict apart was given something else. -/
  | argumentNotADict (got : Summary)
  /-- A dict lacks keys that a function binds. -/
  | missingKeys (keys : List String)
  /-- A dict has keys that a function does not allow. -/
  | unexpectedKeys (keys : List String)
  /-- A dict lacks the key that is looked up. -/
  | keyNotFound (key : String)
  /-- Something that is no function was applied. -/
  | notAFunction (got : Summary)
  /-- A computation needs its own value. -/
  | infiniteRecursion (s : Suspension)
  /-- A function has no text in the language. -/
  | noExpression (got : Summary)
  /-- A builtin function was called by a name that none has. -/
  | unknownPrimitive (name : String)
  /-- An address has no cell. -/
  | dangling (a : Addr)

/-- The classes of failures of an evaluation. -/
inductive ErrorClass where
  /-- A name without a binding. -/
  | unboundVariable
  /-- A dict with other keys than a function takes. -/
  | dictKeyMismatch
  /-- A key that a dict lacks. -/
  | dictLookupFailure
  /-- Something applied that is no function. -/
  | notAFunction
  /-- A value of another type than is needed. -/
  | typeMismatch
  /-- A computation that needs its own value. -/
  | infiniteRecursion
  deriving DecidableEq, Repr

/-- The class of a failure.  A call by a name that no builtin function has and an address
without a cell are misuses of the evaluator, which no class is for. -/
def EvalError.errorClass? : EvalError → Option ErrorClass
  | .unbound _ | .unknownBuiltin _ => some .unboundVariable
  | .argumentNotADict _ | .missingKeys _ | .unexpectedKeys _ => some .dictKeyMismatch
  | .keyNotFound _ => some .dictLookupFailure
  | .notAFunction _ => some .notAFunction
  | .unknownType _ | .notADict _ _ | .notAString _ _ | .notAKeyList _ _ | .noExpression _ =>
      some .typeMismatch
  | .infiniteRecursion _ => some .infiniteRecursion
  | .unknownPrimitive _ | .dangling _ => none

/-- The label of a computation that needs its own value.  A term shows if computations are
labelled with their terms; the composition of two functions has a label of its own. -/
def Suspension.label (labelled : Bool) : Suspension → String
  | .composed _ _ => "comp"
  | .term t _ =>
      let shown := if labelled then t.display else ""
      if shown = "" then "a value" else shown

/-- The failure in words. -/
def EvalError.message (labelled : Bool) : EvalError → String
  | .unbound name => "unbound variable: " ++ name
  | .unknownBuiltin name => "unknown builtin: " ++ name
  | .unknownType type => "unknown data type: " ++ type
  | .notADict b got => b.name ++ ": expected a dict, got " ++ got.display
  | .notAString b got => b.name ++ ": expected a string, got " ++ got.display
  | .notAKeyList b got => b.name ++ ": expected a list of keys, got " ++ got.display
  | .argumentNotADict got => "expected a dict argument, got " ++ got.describe
  | .missingKeys keys => "missing keys: " ++ String.intercalate ", " keys
  | .unexpectedKeys keys => "unexpected keys: " ++ String.intercalate ", " keys
  | .keyNotFound key => "key not found: " ++ key
  | .notAFunction got => "cannot apply " ++ got.describe ++ " as a function"
  | .infiniteRecursion s => "infinite recursion while evaluating " ++ s.label labelled
  | .noExpression got => "cannot convert " ++ got.describe ++ " to an expression"
  | .unknownPrimitive name => "Unknown primitive: " ++ name
  | .dangling a => "no cell at address " ++ toString a

end LazyConfig
