import LazyConfig.Expr.Basic
import LazyConfig.Term
set_option autoImplicit false

/-!
# Expressions: core terms

`Expr.toTerm` takes a program apart into a core term.

* A string becomes a chain of `append`, a lookup becomes `lookup`, and a list is taken
  apart item by item.
* A dict needs keys that are known before evaluation.  A plain dict becomes a dict, a
  recursive one becomes recursive bindings around the dict of all its names.
* In a `let` a name that is inherited without a source is left to the scope around it.
* A function with a pattern becomes three functions composed: one refuses keys outside
  the pattern, one adds the defaults, and one binds the names.

No dict and no `let` may bind a name twice.  The first offence met in the order of the
program is the one reported.  When a trace is wanted, what is done with recursive dicts
and patterns is noted on the way, also on the way to a refusal.
-/

namespace LazyConfig

/-! ## Refusals and notes -/

/-- What an expression is, for a message. -/
def Expr.kindLabel : Expr → String
  | .var _ => "Var"
  | .str _ => "Str"
  | .list _ => "ListExpr"
  | .dict _ _ => "DictExpr"
  | .dot _ _ => "Dot"
  | .lambda _ _ => "Lambda"
  | .apply _ _ => "Apply"
  | .letIn _ _ => "Let"

/-- What binds names. -/
inductive Scope where
  /-- A dict. -/
  | dict
  /-- A `let`. -/
  | letIn
  deriving DecidableEq, Repr

/-- The scope in words. -/
def Scope.words : Scope → String
  | .dict => "dict"
  | .letIn => "let"

/-- Why a program has no core term. -/
inductive LoweringError where
  /-- A key of a dict is a string with antiquotes. -/
  | antiquotedKey
  /-- A key of a dict is no string; the label says what it is. -/
  | computedKey (label : String)
  /-- A name is bound twice in one scope. -/
  | repeatedName (name : String) (scope : Scope)
  deriving DecidableEq, Repr

/-- The refusal in words. -/
def LoweringError.message : LoweringError → String
  | .antiquotedKey => "cannot lower dict key: string with antiquotation"
  | .computedKey label => "cannot lower dict key: " ++ label ++ " expression"
  | .repeatedName name scope =>
      Text.quote name ++ " is bound more than once in " ++ scope.words

/-- What a trace notes. -/
inductive LoweringNote where
  /-- A recursive dict with all its names. -/
  | recursiveDict (names : List String)
  /-- A pattern with its names and the term that it became. -/
  | pattern (names : List String) (term : Term)

/-- The text of a note, which may have several lines. -/
def LoweringNote.text : LoweringNote → String
  | .recursiveDict names => "[LOWER] rec dict " ++ Text.quoteList (sortTexts names)
  | .pattern names term =>
      "[LOWER] dict pattern " ++ Text.quoteList names ++ " -> " ++ term.display

/-! ## Steps -/

/-- A step that may be refused and may leave notes; the flag says whether it should. -/
def Lowering (α : Type) : Type := Bool → Except LoweringError α × List LoweringNote

namespace Lowering

variable {α β : Type}

/-- The step that does nothing. -/
protected def pure (a : α) : Lowering α := fun _ => (.ok a, [])

/-- One step behind the other. -/
protected def bind (p : Lowering α) (k : α → Lowering β) : Lowering β := fun tracing =>
  match p tracing with
  | (.ok a, notes) =>
      let (outcome, later) := k a tracing
      (outcome, notes ++ later)
  | (.error e, notes) => (.error e, notes)

instance : Monad Lowering where
  pure := Lowering.pure
  bind := Lowering.bind

/-- Refuses. -/
def refuse (e : LoweringError) : Lowering α := fun _ => (.error e, [])

/-- Leaves a note if a trace is wanted. -/
def note (n : LoweringNote) : Lowering Unit := fun tracing =>
  (.ok (), if tracing then [n] else [])

@[simp] theorem pure_apply (a : α) (tracing : Bool) :
    (pure a : Lowering α) tracing = (.ok a, []) := rfl

theorem bind_apply (p : Lowering α) (k : α → Lowering β) (tracing : Bool) :
    (p >>= k) tracing =
      match p tracing with
      | (.ok a, notes) => ((k a tracing).1, notes ++ (k a tracing).2)
      | (.error e, notes) => (.error e, notes) := rfl

theorem bind_of_ok {p : Lowering α} {tracing : Bool} {a : α} {notes : List LoweringNote}
    (h : p tracing = (.ok a, notes)) (k : α → Lowering β) :
    (p >>= k) tracing = ((k a tracing).1, notes ++ (k a tracing).2) := by
  rw [bind_apply, h]

theorem bind_of_error {p : Lowering α} {tracing : Bool} {e : LoweringError}
    {notes : List LoweringNote} (h : p tracing = (.error e, notes)) (k : α → Lowering β) :
    (p >>= k) tracing = (.error e, notes) := by
  rw [bind_apply, h]

end Lowering

/-! ## Names of a scope -/

/-- The text of a key that is known before evaluation. -/
def staticKey : Expr → Lowering String
  | .str t =>
      match Template.static? (Template.normalize t) with
      | some text => pure text
      | none => .refuse .antiquotedKey
  | e => .refuse (.computedKey e.kindLabel)

/-- The names of a scope with one more, unless it is among them. -/
def claim (scope : Scope) (claimed : List String) (name : String) : Lowering (List String) :=
  if claimed.contains name then .refuse (.repeatedName name scope) else pure (name :: claimed)

/-- The names of a scope with more names, one after the other. -/
def claimAll (scope : Scope) : List String → List String → Lowering (List String)
  | claimed, [] => pure claimed
  | claimed, name :: rest => do
      let claimed ← claim scope claimed name
      claimAll scope claimed rest

/-- What the bindings of a scope amount to. -/
structure Bound where
  /-- The names that get a value here, with the values. -/
  own : List (String × Term)
  /-- The names that keep the value they have in the scope around. -/
  outer : List String

/-! ## Terms for parts of a program -/

/-- The entry of a dict under a key. -/
def lookupTerm (subject key : Term) : Term :=
  .app (.app (.function .lookup) subject) key

/-- Names looked up in one source. -/
def lookupNames (source : Term) (names : List String) : List (String × Term) :=
  names.map fun name => (name, lookupTerm source (.text name))

/-- Terms appended to each other from the right. -/
def appendTerms : List Term → Term
  | [] => .text ""
  | [t] => t
  | t :: next :: rest => .app (.app (.function .append) t) (appendTerms (next :: rest))

/-- The name that stands for the argument while defaults are added to it. -/
def argumentName : String := "'arg"

/-- The function of a pattern: defaults are added to an argument that has no keys outside
the pattern, or may have them, and its names are bound in the body. -/
def patternTerm (names : List String) (ellipsis : Bool) (defaults : List (String × Term))
    (body : Term) : Term :=
  let check :=
    if ellipsis then Term.function .identity
    else .app (.function .disallowExtra) (.keySet names)
  let complete := Term.lam (.name argumentName)
    (.app (.app (.function .mergeLeft) (.var argumentName)) (.ofEntries defaults))
  let destructure := Term.lam (.ofKeys names ellipsis) body
  let compose (f g : Term) : Term := .app (.app (.function .compose) f) g
  compose (compose destructure complete) check

/-- The term of a pattern, with a note of it. -/
def notedPattern (fields : List (Field Expr)) (ellipsis : Bool)
    (defaults : List (String × Term)) (body : Term) : Lowering Term := do
  let names := fields.map fun field => field.name.text
  let term := patternTerm names ellipsis defaults body
  Lowering.note (.pattern names term)
  return term

/-- The term of a plain dict. -/
def plainDict (bound : Bound) : Term :=
  .ofEntries (bound.own ++ bound.outer.map fun name => (name, .var name))

/-- The term of a recursive dict, with a note of it. -/
def recursiveDict (bound : Bound) : Lowering Term := do
  let names := bound.own.map Prod.fst ++ bound.outer
  Lowering.note (.recursiveDict names)
  return .ofBindings bound.own (.ofEntries (names.map fun name => (name, .var name)))

/-! ## Programs -/

mutual

/-- The core term of a program, or why it has none. -/
def Expr.toTerm : Expr → Lowering Term
  | .var x => pure (.var x.text)
  | .str t => do return appendTerms (← pieceTerms t)
  | .list items => do return .list (← itemTerms items)
  | .dict false bindings => do return plainDict (← entryTerms [] bindings)
  | .dict true bindings => do recursiveDict (← entryTerms [] bindings)
  | .dot subject key => do
      let s ← subject.toTerm
      let k ← key.toTerm
      return lookupTerm s k
  | .lambda (.name x) body => do return .lam (.name x.text) (← body.toTerm)
  | .lambda (.pattern ⟨fields, ellipsis⟩) body => do
      let b ← body.toTerm
      let defaults ← defaultTerms fields
      notedPattern fields ellipsis defaults b
  | .lambda (.both x ⟨fields, ellipsis⟩) body => do
      let b ← body.toTerm
      let defaults ← defaultTerms fields
      let f ← notedPattern fields ellipsis defaults b
      return .lam (.name x.text) (.app f (.var x.text))
  | .apply f a => do
      let g ← f.toTerm
      let b ← a.toTerm
      return .app g b
  | .letIn bindings body => do
      let bound ← definitionTerms [] bindings
      let b ← body.toTerm
      return .ofBindings bound.own b

/-- The terms of the pieces of a template. -/
def pieceTerms : List (Piece Expr) → Lowering (List Term)
  | [] => pure []
  | .literal s :: rest => do return .text s :: (← pieceTerms rest)
  | .antiquote e :: rest => do
      let t ← e.toTerm
      return t :: (← pieceTerms rest)

/-- The terms of the items of a list. -/
def itemTerms : List Expr → Lowering (List Term)
  | [] => pure []
  | e :: rest => do
      let t ← e.toTerm
      return t :: (← itemTerms rest)

/-- What the bindings of a dict amount to, given the names claimed in front of them. -/
def entryTerms (claimed : List String) : List (Binding Expr Expr) → Lowering Bound
  | [] => pure ⟨[], []⟩
  | .equation key value :: rest => do
      let name ← staticKey key
      let claimed ← claim .dict claimed name
      let t ← value.toTerm
      let later ← entryTerms claimed rest
      return ⟨(name, t) :: later.own, later.outer⟩
  | .inherit none names :: rest => do
      let claimed ← claimAll .dict claimed names
      let later ← entryTerms claimed rest
      return ⟨later.own, names ++ later.outer⟩
  | .inherit (some e) names :: rest => do
      let source ← e.toTerm
      let claimed ← claimAll .dict claimed names
      let later ← entryTerms claimed rest
      return ⟨lookupNames source names ++ later.own, later.outer⟩

/-- What the bindings of a `let` amount to, given the names claimed in front of them. -/
def definitionTerms (claimed : List String) : List (Binding String Expr) → Lowering Bound
  | [] => pure ⟨[], []⟩
  | .equation name value :: rest => do
      let claimed ← claim .letIn claimed name
      let t ← value.toTerm
      let later ← definitionTerms claimed rest
      return ⟨(name, t) :: later.own, later.outer⟩
  | .inherit none names :: rest => do
      let claimed ← claimAll .letIn claimed names
      let later ← definitionTerms claimed rest
      return ⟨later.own, names ++ later.outer⟩
  | .inherit (some e) names :: rest => do
      let source ← e.toTerm
      let claimed ← claimAll .letIn claimed names
      let later ← definitionTerms claimed rest
      return ⟨lookupNames source names ++ later.own, later.outer⟩

/-- The defaults of a pattern with the names of their fields. -/
def defaultTerms : List (Field Expr) → Lowering (List (String × Term))
  | [] => pure []
  | ⟨_, none⟩ :: rest => defaultTerms rest
  | ⟨x, some e⟩ :: rest => do
      let t ← e.toTerm
      return (x.text, t) :: (← defaultTerms rest)

end

/-- The core term of a program, or why it has none, without a trace. -/
def Expr.lower (e : Expr) : Except LoweringError Term := (e.toTerm false).1

end LazyConfig
