import LazyConfig.Builtin
import LazyConfig.Table
import LazyConfig.Text.Quote
set_option autoImplicit false

/-!
# Core terms

What a program is taken apart into before it is evaluated: variables, functions of one
argument, application, data, lists, dicts with fixed keys, recursive bindings and
builtin functions.  Names are plain texts here, because a key of a dict may be bound as
a name although no program could write it as one.

Dicts and recursive bindings keep their entries in ascending order of keys;
`Term.ofEntries` and `Term.ofBindings` put them so.
-/

namespace LazyConfig

/-- Data of a type other than text. -/
inductive Literal where
  /-- A text. -/
  | text (s : String)
  /-- A whole number. -/
  | integer (n : Int)
  /-- A truth value. -/
  | boolean (b : Bool)
  deriving DecidableEq, Repr

/-- What a function does with its argument. -/
inductive Binder where
  /-- It binds the whole argument to a name. -/
  | name (x : String)
  /-- It binds each name to the entry that a dict has under it.  The dict must have these
  keys, and no others unless there is an ellipsis. -/
  | keys (names : List String) (ellipsis : Bool)
  deriving DecidableEq, Repr

/-- The binder for the keys in a list, in ascending order and each once. -/
def Binder.ofKeys (names : List String) (ellipsis : Bool) : Binder :=
  .keys (distinctTexts names) ellipsis

/-- A core term. -/
inductive Term where
  /-- A variable. -/
  | var (name : String)
  /-- A function. -/
  | lam (binder : Binder) (body : Term)
  /-- A function applied to an argument. -/
  | app (function argument : Term)
  /-- A text. -/
  | text (s : String)
  /-- Data of a named type that has no values. -/
  | data (type : String) (literal : Literal)
  /-- A list of items in order. -/
  | list (items : List Term)
  /-- A dict. -/
  | dict (entries : List (String × Term))
  /-- Bindings that see each other, and the body that sees them. -/
  | letrec (bindings : List (String × Term)) (body : Term)
  /-- A builtin function by its name. -/
  | builtin (name : String)

namespace Term

instance : Inhabited Term := ⟨.list []⟩

/-- A dict of entries in any order. -/
def ofEntries (entries : List (String × Term)) : Term := .dict (sortBy Prod.fst entries)

/-- Recursive bindings in any order. -/
def ofBindings (bindings : List (String × Term)) (body : Term) : Term :=
  .letrec (sortBy Prod.fst bindings) body

/-- A builtin function. -/
def function (b : Builtin) : Term := .builtin b.name

/-- A function applied to arguments one after the other. -/
def applyAll (f : Term) (arguments : List Term) : Term := arguments.foldl .app f

/-- The list of the texts, in ascending order and each once. -/
def keySet (names : List String) : Term := .list ((distinctTexts names).map .text)

end Term

/-! ## Display -/

/-- Data as a listing shows it. -/
def Literal.display : Literal → String
  | .text s => Text.quote s
  | .integer n => toString n
  | .boolean true => "True"
  | .boolean false => "False"

/-- A binder as a listing shows it. -/
def Binder.display : Binder → String
  | .name x => x
  | .keys names ellipsis =>
      "\x7b" ++ String.intercalate ", " (names ++ if ellipsis then ["..."] else []) ++ "\x7d"

mutual

/-- A term on one line, for inspection.  Names and keys stand as they are. -/
def Term.display : Term → String
  | .var x => x
  | .lam binder body => "(\\" ++ binder.display ++ " -> " ++ body.display ++ ")"
  | .app f a => "(" ++ f.display ++ " " ++ a.display ++ ")"
  | .text s => Text.dumpQuote s
  | .data type literal => "<" ++ type ++ " " ++ literal.display ++ ">"
  | .list items => "[" ++ String.intercalate ", " (displayItems items) ++ "]"
  | .dict entries => "\x7b" ++ String.intercalate ", " (displayEntries ": " entries) ++ "\x7d"
  | .letrec bindings body =>
      "(letrec \x7b" ++ String.intercalate "; " (displayEntries " = " bindings) ++ "\x7d in "
        ++ body.display ++ ")"
  | .builtin name => "<" ++ name ++ ">"

/-- The items of a list, one text each. -/
def displayItems : List Term → List String
  | [] => []
  | t :: rest => t.display :: displayItems rest

/-- Keys and their terms with a mark between them, one text each. -/
def displayEntries (mark : String) : List (String × Term) → List String
  | [] => []
  | (key, t) :: rest => (key ++ mark ++ t.display) :: displayEntries mark rest

end

end LazyConfig
