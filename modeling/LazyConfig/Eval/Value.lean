import LazyConfig.Term
set_option autoImplicit false

/-!
# Evaluation: values and cells

A value is evaluated only as far as its outermost form.  What is inside it, and
whatever a name is bound to, lives in cells of a store and is referred to by address,
so it can be shared, may refer to itself, and is computed at most once.

* A *cell* holds a suspended computation, a computation that is going on, or a value.
* A *suspension* is a term with its environment, or the composition that the builtin
  `compose` leaves to its first function.
* A *summary* is what messages may say about a value.  It has no addresses, so two
  runs that differ only in where they keep their cells report the same.
-/

namespace LazyConfig

/-- The place of a cell in the store. -/
abbrev Addr := Nat

/-- The cells that names are bound to. -/
abbrev Env := Table Addr

/-- A value, evaluated as far as its outermost form. -/
inductive Value where
  /-- A text. -/
  | text (s : String)
  /-- A list of cells. -/
  | list (items : List Addr)
  /-- A dict of cells. -/
  | dict (entries : Table Addr)
  /-- A function with the environment it was made in. -/
  | closure (binder : Binder) (body : Term) (env : Env)
  /-- A builtin function with the arguments it has been applied to so far. -/
  | builtin (b : Builtin) (arguments : List Addr)

/-- A computation that has not been started. -/
inductive Suspension where
  /-- The value of a term in an environment. -/
  | term (t : Term) (env : Env)
  /-- The value of a function applied to an argument, both in cells. -/
  | composed (function argument : Addr)

/-- What a cell of the store holds. -/
inductive Cell where
  /-- A computation that has not been started, or that failed. -/
  | delayed (s : Suspension)
  /-- A computation that is going on. -/
  | running (s : Suspension)
  /-- A value. -/
  | done (v : Value)

/-- Whether a cell holds a value. -/
def Cell.isDone : Cell → Bool
  | .done _ => true
  | _ => false

/-! ## Summaries -/

/-- The kinds of functions. -/
inductive FunctionKind where
  /-- A function of the program. -/
  | lambda
  /-- A builtin function. -/
  | builtin (b : Builtin)
  deriving DecidableEq, Repr

/-- A function as a listing shows it. -/
def FunctionKind.display : FunctionKind → String
  | .lambda => "<lambda>"
  | .builtin b => "<" ++ b.name ++ ">"

/-- What messages may say about a value. -/
inductive Summary where
  /-- A text. -/
  | text (s : String)
  /-- A list of so many items. -/
  | list (length : Nat)
  /-- A dict with these keys. -/
  | dict (keys : List String)
  /-- A function. -/
  | function (kind : FunctionKind)
  deriving DecidableEq, Repr

namespace Summary

/-- The summary as a listing shows it; a text stands for itself. -/
def display : Summary → String
  | .text s => s
  | .list n => "<list of " ++ toString n ++ ">"
  | .dict keys => "<dict \x7b" ++ String.intercalate ", " keys ++ "\x7d>"
  | .function kind => kind.display

/-- The kind of the value in words. -/
def describe : Summary → String
  | .text _ => "a string"
  | .list _ => "a list"
  | .dict _ => "a dict"
  | .function _ => "a function"

end Summary

/-- What messages may say about a value. -/
def Value.summary : Value → Summary
  | .text s => .text s
  | .list items => .list items.length
  | .dict entries => .dict entries.keys
  | .closure _ _ _ => .function .lambda
  | .builtin b _ => .function (.builtin b)

/-! ## Saturated calls -/

/-- A builtin function with all its arguments. -/
inductive Call where
  /-- The argument of `identity`. -/
  | identity (x : Addr)
  /-- Two functions and the argument of `compose`. -/
  | compose (f g x : Addr)
  /-- Two texts of `append`. -/
  | append (a b : Addr)
  /-- A dict and a key of `lookup`. -/
  | lookup (subject key : Addr)
  /-- Two dicts of `mergeLeft`. -/
  | mergeLeft (a b : Addr)
  /-- A list of keys and a dict of `disallowExtra`. -/
  | disallowExtra (keys subject : Addr)
  deriving DecidableEq, Repr

/-- The call of a builtin function, if the arguments are as many as it takes. -/
def Builtin.call? : Builtin → List Addr → Option Call
  | .identity, [x] => some (.identity x)
  | .compose, [f, g, x] => some (.compose f g x)
  | .append, [a, b] => some (.append a b)
  | .lookup, [d, k] => some (.lookup d k)
  | .mergeLeft, [a, b] => some (.mergeLeft a b)
  | .disallowExtra, [ks, d] => some (.disallowExtra ks d)
  | _, _ => none

/-- There is a call exactly when the arguments are as many as the arity says. -/
theorem Builtin.isSome_call?_iff (b : Builtin) (arguments : List Addr) :
    (b.call? arguments).isSome = true ↔ arguments.length = b.arity := by
  rcases arguments with _ | ⟨x, _ | ⟨y, _ | ⟨z, _ | ⟨w, rest⟩⟩⟩⟩ <;>
    cases b <;> simp [Builtin.call?, Builtin.arity]

end LazyConfig
