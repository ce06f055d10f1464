import LazyConfig.Expr.Basic
import LazyConfig.Text.Quote
set_option autoImplicit false

/-!
# Expressions: outlines

An outline writes the structure of a tree on one line, for inspection.  It is not a
program.  Each node is written as its kind followed by its parts; a part that is an
expression stands in parentheses, lists of parts stand in square brackets, and every
text is in quotes, so that an outline shows all of the tree, also how the literals of
a string are cut.
-/

namespace LazyConfig

open Text (dumpQuote)

/-- Parts in square brackets, separated by commas. -/
def outlineList (parts : List String) : String := "[" ++ String.intercalate ", " parts ++ "]"

/-- The names that an `inherit` lists. -/
def outlineNames (names : List String) : String := outlineList (names.map dumpQuote)

mutual

/-- The structure of an expression on one line. -/
def Expr.outline : Expr → String
  | .var x => "var " ++ dumpQuote x.text
  | .str t => "str " ++ outlineList (outlinePieces t)
  | .list items => "list " ++ outlineList (outlineItems items)
  | .dict false bindings => "dict " ++ outlineList (outlineEntries bindings)
  | .dict true bindings => "rec'dict " ++ outlineList (outlineEntries bindings)
  | .dot subject key => "dot (" ++ subject.outline ++ ") (" ++ key.outline ++ ")"
  | .lambda (.name x) body =>
      "lambda (param " ++ dumpQuote x.text ++ ") (" ++ body.outline ++ ")"
  | .lambda (.pattern ⟨fields, ellipsis⟩) body =>
      "lambda (pattern " ++ outlineList (outlineFields fields)
        ++ (if ellipsis then " <> ellipsis" else "") ++ ") (" ++ body.outline ++ ")"
  | .lambda (.both x ⟨fields, ellipsis⟩) body =>
      "lambda (param " ++ dumpQuote x.text ++ " <> pattern "
        ++ outlineList (outlineFields fields)
        ++ (if ellipsis then " <> ellipsis" else "") ++ ") (" ++ body.outline ++ ")"
  | .apply f a => "apply (" ++ f.outline ++ ") (" ++ a.outline ++ ")"
  | .letIn bindings body =>
      "let'in " ++ outlineList (outlineDefinitions bindings) ++ " (" ++ body.outline ++ ")"

/-- The pieces of a template, one text each. -/
def outlinePieces : List (Piece Expr) → List String
  | [] => []
  | .literal s :: rest => dumpQuote s :: outlinePieces rest
  | .antiquote e :: rest => ("antiquote (" ++ e.outline ++ ")") :: outlinePieces rest

/-- The items of a list, one text each. -/
def outlineItems : List Expr → List String
  | [] => []
  | e :: rest => e.outline :: outlineItems rest

/-- The bindings of a dict, one text each. -/
def outlineEntries : List (Binding Expr Expr) → List String
  | [] => []
  | .equation k v :: rest =>
      ("binding (" ++ k.outline ++ ") (" ++ v.outline ++ ")") :: outlineEntries rest
  | .inherit none names :: rest => ("inherit " ++ outlineNames names) :: outlineEntries rest
  | .inherit (some e) names :: rest =>
      ("inherit'from (" ++ e.outline ++ ") " ++ outlineNames names) :: outlineEntries rest

/-- The bindings of a `let`, one text each. -/
def outlineDefinitions : List (Binding String Expr) → List String
  | [] => []
  | .equation k v :: rest =>
      ("binding (str " ++ dumpQuote k ++ ") (" ++ v.outline ++ ")") :: outlineDefinitions rest
  | .inherit none names :: rest => ("inherit " ++ outlineNames names) :: outlineDefinitions rest
  | .inherit (some e) names :: rest =>
      ("inherit'from (" ++ e.outline ++ ") " ++ outlineNames names) :: outlineDefinitions rest

/-- The fields of a pattern, one text each. -/
def outlineFields : List (Field Expr) → List String
  | [] => []
  | ⟨x, none⟩ :: rest => ("param " ++ dumpQuote x.text) :: outlineFields rest
  | ⟨x, some e⟩ :: rest =>
      ("param " ++ dumpQuote x.text ++ " & def (" ++ e.outline ++ ")") :: outlineFields rest

end

/-! ## The helpers list their parts one by one -/

theorem outlineItems_eq_map (items : List Expr) :
    outlineItems items = items.map Expr.outline := by
  induction items with
  | nil => rfl
  | cons e rest ih => simp [outlineItems, ih]

end LazyConfig
