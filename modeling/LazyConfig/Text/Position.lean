set_option autoImplicit false

/-!
# Text: lines and columns

An offset counts characters from the start of a text.  For a reader it is turned
into a line and a column, both counted from one; only the line feed ends a line.
-/

namespace LazyConfig.Text

/-- A place in a text as a reader counts it. -/
structure Position where
  /-- The line, from one. -/
  line : Nat
  /-- The column, from one, in characters. -/
  column : Nat
  deriving DecidableEq, Repr

namespace Position

/-- The first place of every text. -/
def start : Position := ⟨1, 1⟩

/-- The place behind a character. -/
def next (p : Position) (c : Char) : Position :=
  if c = '\n' then ⟨p.line + 1, 1⟩ else ⟨p.line, p.column + 1⟩

/-- The place that an offset into a text stands for. -/
def ofOffset (text : List Char) (offset : Nat) : Position :=
  (text.take offset).foldl next start

/-- The words that close a message about a place. -/
def describe (p : Position) : String :=
  " at line " ++ toString p.line ++ ", column " ++ toString p.column

end Position

end LazyConfig.Text
