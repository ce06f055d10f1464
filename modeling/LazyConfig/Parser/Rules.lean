import LazyConfig.Parser.Strings
set_option autoImplicit false

/-!
# Parsers: the rules of the grammar

Each rule of the grammar is a parser over `Rules`, the two rules that refer back to
themselves.  A rule uses them only behind at least one character that it has passed
over, so a text of `n` characters never nests them deeper than `n`, and `Rules.ofDepth`
ties the knot by recursion on that depth.

Alternatives are tried in order.  A function comes before everything else, because a
pattern and a dict start alike, and it extends as far right as it can: as an argument
it is the last one.
-/

namespace LazyConfig.Parser

/-- The rules that others refer back to. -/
structure Rules where
  /-- An expression. -/
  expression : Parser Expr
  /-- An expression that may stand as an argument, with its keys. -/
  dotted : Parser Expr

/-! ## Keys, names and `inherit` -/

/-- A key, behind a dot or in front of an equals sign. -/
def key (r : Rules) : Parser Expr := do
  if ← peekString then
    return .str (← string r.expression)
  else if ← peekDelimiter "$\x7b" then
    advance 2
    let e ← r.expression
    delimiter "\x7d"
    return e
  else
    return .text (← identifier).text

/-- A name that may be in quotes, but not have antiquotes. -/
def staticName (r : Rules) : Parser String := do
  if ← peekString then
    let start ← cursor
    match (← string r.expression).static? with
    | some text => return text
    | none => failAt .antiquotedName start.offset
  else
    return (← identifier).text

/-- The source of an `inherit` in parentheses, if there is one. -/
def inheritSource (r : Rules) : Parser (Option Expr) := do
  if ← peekDelimiter "(" then
    advance 1
    let e ← r.expression
    delimiter ")"
    return some e
  else
    return none

/-- One more name of an `inherit`, or the semicolon behind the last. -/
def inheritRound (r : Rules) (names : List String) :
    Parser (Round (List String) (List String)) := do
  if ← peekDelimiter ";" then return .done names.reverse
  else return .again ((← staticName r) :: names)

/-- Names taken over from the scope or from a source. -/
def inheritance (r : Rules) : Parser (Option Expr × List String) := do
  keyword "inherit"
  let source ← inheritSource r
  let names ← repeated (inheritRound r) []
  return (source, names)

/-! ## Parameters and functions -/

/-- The default of a field, if there is one. -/
def fieldDefault (r : Rules) : Parser (Option Expr) := do
  if ← peekDelimiter "?" then
    advance 1
    return some (← r.expression)
  else
    return none

/-- One more field of a pattern, or the ellipsis that ends the fields. -/
def fieldRound (r : Rules) (fields : List (Field Expr)) :
    Parser (Round (List (Field Expr)) (List (Field Expr) × Bool)) := do
  if ← peekDelimiter "..." then
    advance 3
    return .done (fields.reverse, true)
  else
    let name ← identifier
    let default ← fieldDefault r
    let fields := ⟨name, default⟩ :: fields
    if ← peekDelimiter "," then
      advance 1
      return .again fields
    else
      return .done (fields.reverse, false)

/-- The fields of a pattern and whether an ellipsis follows them. -/
def fieldList (r : Rules) : Parser (List (Field Expr) × Bool) := do
  if ← peekDelimiter "\x7d" then return ([], false)
  else repeated (fieldRound r) []

/-- A pattern.  A name that it would bind twice is a failure where the pattern starts. -/
def pattern (r : Rules) : Parser (Pattern Expr) := do
  let start ← cursor
  delimiter "\x7b"
  let (fields, ellipsis) ← fieldList r
  delimiter "\x7d"
  match Pattern.ofFields fields ellipsis with
  | .ok p => return p
  | .error e => failAt (.repeatedField e) start.offset

/-- A parameter. -/
def param (r : Rules) : Parser (Param Expr) := do
  if ← peekDelimiter "\x7b" then
    return .pattern (← pattern r)
  else
    let x ← identifier
    if ← peekDelimiter "@" then
      advance 1
      return .both x (← pattern r)
    else
      return .name x

/-- A function. -/
def lambda (r : Rules) : Parser Expr := do
  let p ← param r
  delimiter ":"
  return .lambda p (← r.expression)

/-! ## Lists and dicts -/

/-- One more item of a list, or the bracket behind the last. -/
def listRound (r : Rules) (items : List Expr) : Parser (Round (List Expr) (List Expr)) := do
  if ← peekDelimiter "]" then return .done items.reverse
  else return .again ((← r.dotted) :: items)

/-- A list. -/
def list (r : Rules) : Parser Expr := do
  delimiter "["
  let items ← repeated (listRound r) []
  delimiter "]"
  return .list items

/-- A binding of a dict, up to the semicolon that ends it. -/
def entry (r : Rules) : Parser (Binding Expr Expr) := do
  if ← peekKeyword "inherit" then
    let (source, names) ← inheritance r
    return .inherit source names
  else
    let k ← key r
    delimiter "="
    return .equation k (← r.expression)

/-- One more binding of a dict, or the brace behind the last. -/
def entryRound (r : Rules) (bindings : List (Binding Expr Expr)) :
    Parser (Round (List (Binding Expr Expr)) (List (Binding Expr Expr))) := do
  if ← peekDelimiter "\x7d" then return .done bindings.reverse
  else
    let b ← entry r
    delimiter ";"
    return .again (b :: bindings)

/-- A dict, behind the keyword that makes it recursive. -/
def dict (r : Rules) (recursive : Bool) : Parser Expr := do
  delimiter "\x7b"
  let bindings ← repeated (entryRound r) []
  delimiter "\x7d"
  return .dict recursive bindings

/-! ## Operands -/

/-- An expression that is complete by itself. -/
def primary (r : Rules) : Parser Expr := do
  if ← peekString then
    return .str (← string r.expression)
  else if ← peekDelimiter "[" then
    list r
  else if ← peekDelimiter "(" then
    advance 1
    let e ← r.expression
    delimiter ")"
    return e
  else if ← peekKeyword "rec" then
    keyword "rec"
    dict r true
  else if ← peekDelimiter "\x7b" then
    dict r false
  else
    return .var (← identifier)

/-- One more key behind a dot.  A dot without a key behind it is left to what follows. -/
def dotRound (r : Rules) (subject : Expr) : Parser (Round Expr Expr) := do
  if ← peekDelimiter "." then
    let dot ← cursor
    advance 1
    match ← attempt .key (key r) with
    | some k => return .again (.dot subject k)
    | none =>
        seek dot
        return .done subject
  else
    return .done subject

/-- An operand with its keys. -/
def dotted (r : Rules) : Parser Expr := do
  repeated (dotRound r) (← primary r)

/-- One more argument.  A function is the last one, and so is the argument in front of
anything that is none. -/
def argumentRound (r : Rules) (f : Expr) : Parser (Round Expr Expr) := do
  match ← attempt .lambda (lambda r) with
  | some a => return .done (.apply f a)
  | none =>
    match ← attempt .dotted (dotted r) with
    | some a => return .again (.apply f a)
    | none => return .done f

/-- An operand applied to arguments. -/
def application (r : Rules) : Parser Expr := do
  repeated (argumentRound r) (← dotted r)

/-! ## Expressions -/

/-- A binding of a `let`, up to the semicolon that ends it. -/
def definition (r : Rules) : Parser (Binding String Expr) := do
  if ← peekKeyword "inherit" then
    let (source, names) ← inheritance r
    return .inherit source names
  else
    let name ← staticName r
    delimiter "="
    return .equation name (← r.expression)

/-- One more binding of a `let`, or the keyword behind the last. -/
def definitionRound (r : Rules) (bindings : List (Binding String Expr)) :
    Parser (Round (List (Binding String Expr)) (List (Binding String Expr))) := do
  if ← peekKeyword "in" then return .done bindings.reverse
  else
    let b ← definition r
    delimiter ";"
    return .again (b :: bindings)

/-- Bindings with their body. -/
def letIn (r : Rules) : Parser Expr := do
  keyword "let"
  let bindings ← repeated (definitionRound r) []
  keyword "in"
  return .letIn bindings (← r.expression)

/-- An expression. -/
def expression (r : Rules) : Parser Expr := do
  match ← attempt .lambda (lambda r) with
  | some e => return e
  | none => if ← peekKeyword "let" then letIn r else application r

/-- An expression that is all there is, besides blanks. -/
def program (r : Rules) : Parser Expr := do
  let e ← expression r
  skipBlank
  if ← ahead fun _ text => text.isEmpty then return e else fail .trailing

/-! ## Tying the knot -/

/-- The rules that may be nested to a depth. -/
def Rules.ofDepth : Nat → Rules
  | 0 => ⟨exhausted, exhausted⟩
  | depth + 1 =>
      ⟨fun s c => Parser.expression (Rules.ofDepth depth) s c,
       fun s c => Parser.dotted (Rules.ofDepth depth) s c⟩

end LazyConfig.Parser
