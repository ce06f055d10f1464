import LazyConfig.Parser.Lexeme
import LazyConfig.Template.Indent
set_option autoImplicit false

/-!
# Parsers: strings

The body of a string is read character by character.  `quotedUnit` and
`indentedUnit` say what stands at the start of the characters ahead: the end of the
string, text that stands for itself, or an antiquote.  They are the whole difference
between the two ways of writing strings; the loop around them is shared, and what it
gathers is cleaned, so no string that was read holds an empty literal or two literals
in a row.
-/

namespace LazyConfig.Parser

/-! ## Units of a string body -/

/-- What stands at the start of the rest of a string's body. -/
inductive StringUnit where
  /-- The mark that ends the string, of the given width. -/
  | close (width : Nat)
  /-- Characters of the string, written in the given width. -/
  | chars (cs : List Char) (width : Nat)
  /-- The start of an antiquote. -/
  | hole
  /-- The text ends here although the string does not. -/
  | broken
  deriving DecidableEq, Repr

/-- The character that a backslash and a character stand for. -/
def unescape (c : Char) : Char :=
  if c = 'n' then '\n' else if c = 'r' then '\r' else if c = 't' then '\t' else c

/-- The unit at the start of a body in double quotation marks.  A backslash takes the
meaning away from the character behind it, or from both characters that would start an
antiquote. -/
def quotedUnit : List Char → StringUnit
  | [] => .broken
  | '"' :: _ => .close 1
  | ['\\'] => .broken
  | '\\' :: '$' :: '\x7b' :: _ => .chars ['$', '\x7b'] 3
  | '\\' :: c :: _ => .chars [unescape c] 2
  | '$' :: '\x7b' :: _ => .hole
  | c :: _ => .chars [c] 1

/-- The unit at the start of a body between two apostrophes on each side.  There are no
escapes. -/
def indentedUnit : List Char → StringUnit
  | [] => .broken
  | '\'' :: '\'' :: _ => .close 2
  | '$' :: '\x7b' :: _ => .hole
  | c :: _ => .chars [c] 1

/-! ## Gathering a body -/

/-- What has been read of a body: whole pieces and the characters behind them, both with
the last one first. -/
structure Draft where
  /-- The pieces in front of the open literal. -/
  pieces : List (Piece Expr)
  /-- The characters of the open literal. -/
  buffer : List Char

namespace Draft

/-- Nothing has been read. -/
def empty : Draft := ⟨[], []⟩

/-- The draft with characters behind it. -/
def push (d : Draft) (cs : List Char) : Draft := ⟨d.pieces, cs.reverse ++ d.buffer⟩

/-- The pieces with the open literal closed. -/
def closed (d : Draft) : List (Piece Expr) :=
  .literal (String.ofList d.buffer.reverse) :: d.pieces

/-- The draft with an antiquote behind it. -/
def addHole (d : Draft) (e : Expr) : Draft := ⟨.antiquote e :: d.closed, []⟩

/-- The template that was read. -/
def finish (d : Draft) : Template Expr := d.closed.reverse

end Draft

/-- One round of reading a body. -/
def bodyRound (unit : List Char → StringUnit) (cause : Cause) (expression : Parser Expr)
    (d : Draft) : Parser (Round Draft (Template Expr)) := do
  match ← ahead fun _ text => unit text with
  | .broken => fail cause
  | .close width =>
      advance width
      pure (.done d.finish)
  | .chars cs width =>
      advance width
      pure (.again (d.push cs))
  | .hole =>
      advance 2
      let e ← expression
      delimiter "\x7d"
      pure (.again (d.addHole e))

/-- Reads a string in either way of writing it. -/
def string (expression : Parser Expr) : Parser (Template Expr) := do
  match ← aheadOpening with
  | some .quoted =>
      advance 1
      let t ← repeated (bodyRound quotedUnit .unterminated expression) Draft.empty
      pure t.clean
  | some .indented =>
      advance 2
      let t ← repeated (bodyRound indentedUnit .unterminatedIndented expression) Draft.empty
      pure t.stripIndentation.clean
  | none => fail .noString

end LazyConfig.Parser
