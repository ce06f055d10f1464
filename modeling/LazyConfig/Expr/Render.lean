import LazyConfig.Expr.Basic
set_option autoImplicit false

/-!
# Expressions: rendering

`Expr.render` writes a tree as the text of a program on one line, so that reading the
text gives the tree back.

* Where an expression stands decides whether it needs parentheses.  `Place` names the
  five places, and `Expr.needsParens` is the whole rule.
* A string is written in double quotation marks, with escapes for what would end it
  or start an antiquote, and for line feeds, carriage returns and tabs.
* A name of a binding is written bare if it is a name and in quotes otherwise.
-/

namespace LazyConfig

/-! ## Places and parentheses -/

/-- Where an expression stands. -/
inductive Place where
  /-- Where every expression may stand as it is. -/
  | normal
  /-- As an item of a list. -/
  | listItem
  /-- In front of a dot. -/
  | dotLeft
  /-- As the function of an application. -/
  | applyLeft
  /-- As the argument of an application. -/
  | applyRight
  deriving DecidableEq, Repr

/-- All places. -/
def Place.all : List Place := [.normal, .listItem, .dotLeft, .applyLeft, .applyRight]

/-- Whether an expression must stand in parentheses at a place.  A function extends as far
right as it can, so an application that ends in one may not be applied further bare. -/
def Expr.needsParens : Expr → Place → Bool
  | .lambda _ _, .listItem => true
  | .lambda _ _, .dotLeft => true
  | .lambda _ _, .applyLeft => true
  | .letIn _ _, .listItem => true
  | .letIn _ _, .dotLeft => true
  | .letIn _ _, .applyLeft => true
  | .letIn _ _, .applyRight => true
  | .apply _ _, .listItem => true
  | .apply _ _, .dotLeft => true
  | .apply _ _, .applyRight => true
  | .apply _ (.lambda _ _), .applyLeft => true
  | _, _ => false

theorem Expr.needsParens_normal (e : Expr) : e.needsParens .normal = false := by
  unfold Expr.needsParens
  split <;> simp_all

/-- A text in parentheses if the expression needs them at the place. -/
def enclose (e : Expr) (place : Place) (text : String) : String :=
  if e.needsParens place then "(" ++ text ++ ")" else text

/-! ## Strings -/

/-- The characters of a literal with escapes for double quotation marks around it. -/
def escapeChars : List Char → List Char
  | [] => []
  | '$' :: '\x7b' :: rest => '\\' :: '$' :: '\x7b' :: escapeChars rest
  | c :: rest =>
      (if c = '\\' then ['\\', '\\']
       else if c = '"' then ['\\', '"']
       else if c = '\n' then ['\\', 'n']
       else if c = '\r' then ['\\', 'r']
       else if c = '\t' then ['\\', 't']
       else [c]) ++ escapeChars rest

/-- A literal with escapes for double quotation marks around it. -/
def escape (text : String) : String := String.ofList (escapeChars text.toList)

/-- A text in double quotation marks. -/
def renderQuoted (text : String) : String := "\"" ++ escape text ++ "\""

/-- A text bare if it is a name, in double quotation marks otherwise. -/
def renderName (text : String) : String :=
  if isBareName text then text else renderQuoted text

/-- The names that an `inherit` lists, each with a space in front. -/
def renderNames (names : List String) : String :=
  String.join (names.map fun name => " " ++ renderName name)

/-! ## Parts of an expression, around the texts of the parts within them -/

/-- An expression as a key, given its text: a string without antiquotes as a name or in
quotes, any other string as it is, and any other expression as an antiquote. -/
def asKey : Expr → String → String
  | .str [], _ => renderName ""
  | .str [.literal s], _ => renderName s
  | .str _, text => text
  | _, text => "$\x7b" ++ text ++ "\x7d"

/-- An `inherit` without the mark that ends it, given the text of its source. -/
def inheritText (source : Option String) (names : List String) : String :=
  match source with
  | none => "inherit" ++ renderNames names
  | some text => "inherit (" ++ text ++ ")" ++ renderNames names

/-- A pattern, given the texts of its fields. -/
def patternText (fields : List String) (ellipsis : Bool) : String :=
  match fields ++ (if ellipsis then ["..."] else []) with
  | [] => "\x7b \x7d"
  | parts => "\x7b " ++ String.intercalate ", " parts ++ " \x7d"

/-! ## Expressions -/

mutual

/-- An expression as the text of a program, where it may stand without parentheses. -/
def Expr.renderBare : Expr → String
  | .var x => x.text
  | .str t => "\"" ++ renderPieces t ++ "\""
  | .list items => "[ " ++ renderItems items ++ "]"
  | .dict false bindings => "\x7b " ++ renderEntries bindings ++ "\x7d"
  | .dict true bindings => "rec \x7b " ++ renderEntries bindings ++ "\x7d"
  | .dot subject key =>
      enclose subject .dotLeft subject.renderBare ++ "." ++ asKey key key.renderBare
  | .lambda (.name x) body => x.text ++ ": " ++ body.renderBare
  | .lambda (.pattern ⟨fields, ellipsis⟩) body =>
      patternText (renderFields fields) ellipsis ++ ": " ++ body.renderBare
  | .lambda (.both x ⟨fields, ellipsis⟩) body =>
      x.text ++ "@" ++ patternText (renderFields fields) ellipsis ++ ": " ++ body.renderBare
  | .apply f a =>
      enclose f .applyLeft f.renderBare ++ " " ++ enclose a .applyRight a.renderBare
  | .letIn bindings body => "let " ++ renderDefinitions bindings ++ "in " ++ body.renderBare

/-- The pieces of a template between the quotation marks. -/
def renderPieces : List (Piece Expr) → String
  | [] => ""
  | .literal s :: rest => escape s ++ renderPieces rest
  | .antiquote e :: rest => "$\x7b" ++ e.renderBare ++ "\x7d" ++ renderPieces rest

/-- The items of a list, each followed by a space. -/
def renderItems : List Expr → String
  | [] => ""
  | e :: rest => enclose e .listItem e.renderBare ++ " " ++ renderItems rest

/-- The bindings of a dict, each followed by a semicolon and a space. -/
def renderEntries : List (Binding Expr Expr) → String
  | [] => ""
  | .equation k v :: rest =>
      asKey k k.renderBare ++ " = " ++ v.renderBare ++ "; " ++ renderEntries rest
  | .inherit none names :: rest => inheritText none names ++ "; " ++ renderEntries rest
  | .inherit (some e) names :: rest =>
      inheritText (some e.renderBare) names ++ "; " ++ renderEntries rest

/-- The bindings of a `let`, each followed by a semicolon and a space. -/
def renderDefinitions : List (Binding String Expr) → String
  | [] => ""
  | .equation k v :: rest =>
      renderName k ++ " = " ++ v.renderBare ++ "; " ++ renderDefinitions rest
  | .inherit none names :: rest => inheritText none names ++ "; " ++ renderDefinitions rest
  | .inherit (some e) names :: rest =>
      inheritText (some e.renderBare) names ++ "; " ++ renderDefinitions rest

/-- The fields of a pattern, one text each. -/
def renderFields : List (Field Expr) → List String
  | [] => []
  | ⟨x, none⟩ :: rest => x.text :: renderFields rest
  | ⟨x, some e⟩ :: rest => (x.text ++ " ? " ++ e.renderBare) :: renderFields rest

end

/-- An expression as the text of a program, at a place. -/
def Expr.render (e : Expr) (place : Place) : String := enclose e place e.renderBare

/-- An expression as a key, behind a dot or in front of an equals sign. -/
def Expr.renderKey (e : Expr) : String := asKey e e.renderBare

/-- A template in double quotation marks. -/
def renderTemplate (t : Template Expr) : String := "\"" ++ renderPieces t ++ "\""

/-- A template as a key: bare if it is the text of a name. -/
def renderTemplateKey (t : Template Expr) : String :=
  match t.static? with
  | some text => renderName text
  | none => renderTemplate t

/-- An `inherit` without the mark that ends it. -/
def renderInherit (source : Option Expr) (names : List String) : String :=
  inheritText (source.map Expr.renderBare) names

/-- What stands in front of the colon of a function. -/
def Param.render : Param Expr → String
  | .name x => x.text
  | .pattern p => patternText (renderFields p.fields) p.ellipsis
  | .both x p => x.text ++ "@" ++ patternText (renderFields p.fields) p.ellipsis

/-! ## Equations -/

@[simp] theorem Expr.render_normal (e : Expr) : e.render .normal = e.renderBare := by
  simp [Expr.render, enclose, Expr.needsParens_normal]

theorem Expr.renderBare_lambda (param : Param Expr) (body : Expr) :
    (Expr.lambda param body).renderBare = param.render ++ ": " ++ body.renderBare := by
  cases param <;> rfl

theorem Expr.renderKey_str (t : Template Expr) :
    (Expr.str t).renderKey = renderTemplateKey t := by
  unfold Expr.renderKey asKey renderTemplateKey Template.static?
  split <;> simp_all [Expr.renderBare, renderTemplate]

end LazyConfig
