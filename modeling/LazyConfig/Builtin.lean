set_option autoImplicit false

/-!
# Builtin functions

The six functions that core terms may name.  The surface language has no words for
them: they appear where a lookup, a string with antiquotes or a pattern is taken
apart into core terms.
-/

namespace LazyConfig

/-- A function that the evaluator interprets by name. -/
inductive Builtin where
  /-- Gives its argument back. -/
  | identity
  /-- Applies its first argument to what its second makes of its third. -/
  | compose
  /-- Two texts in a row. -/
  | append
  /-- The entry of a dict under a key. -/
  | lookup
  /-- All entries of two dicts; the first dict's entry stays where both have one. -/
  | mergeLeft
  /-- Its second argument, provided that this dict has no key outside a list. -/
  | disallowExtra
  deriving DecidableEq, Repr

namespace Builtin

/-- All builtin functions. -/
def all : List Builtin := [.identity, .compose, .append, .lookup, .mergeLeft, .disallowExtra]

/-- The name that core terms use. -/
def name : Builtin → String
  | .identity => "id"
  | .compose => "comp"
  | .append => "string'append"
  | .lookup => "dict'lookup"
  | .mergeLeft => "dict'merge'preferLeft"
  | .disallowExtra => "dict'disallowExtraKeys"

/-- The number of arguments. -/
def arity : Builtin → Nat
  | .identity => 1
  | .compose => 3
  | .append => 2
  | .lookup => 2
  | .mergeLeft => 2
  | .disallowExtra => 2

/-- The builtin function of a name. -/
def ofName? (text : String) : Option Builtin := all.find? fun b => b.name == text

theorem mem_all (b : Builtin) : b ∈ all := by cases b <;> decide

theorem ofName?_name (b : Builtin) : ofName? b.name = some b := by cases b <;> decide

theorem arity_pos (b : Builtin) : 0 < b.arity := by cases b <;> decide

end Builtin

end LazyConfig
