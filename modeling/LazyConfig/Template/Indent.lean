import LazyConfig.Template
import LazyConfig.Text.Lines
set_option autoImplicit false

/-!
# Templates: indentation

The body of an indented string is a template whose lines share an indentation that
belongs to the program and not to the text.  `stripIndentation` takes it away.

A template is cut into lines at the line feeds of its literals.  A blank first line
and then a blank last line are dropped, unless that would leave no line.  Of what
remains every line loses as many leading spaces as the nonblank line with the fewest
has, or all of its own if it has fewer.  Only spaces count as indentation, and only
those of a literal at the start of the line; a line is blank if it has no antiquote
and no character besides spaces and tabs.
-/

namespace LazyConfig.Template

variable {ε : Type}

/-! ## Lines of a template -/

/-- The characters of one line of a literal as a template; no characters, no piece. -/
def ofChunk (chunk : List Char) : Template ε :=
  if chunk.isEmpty then [] else [.literal (String.ofList chunk)]

/-- Lines with something put in front of the first of them. -/
def prependToFirst (front : Template ε) : List (Template ε) → List (Template ε)
  | [] => [front]
  | line :: others => (front ++ line) :: others

/-- The lines of a literal followed by lines: the last line of the literal is the start of
the first line behind it. -/
def attachChunks : List (List Char) → List (Template ε) → List (Template ε)
  | [], following => following
  | [chunk], following => prependToFirst (ofChunk chunk) following
  | chunk :: next :: rest, following => ofChunk chunk :: attachChunks (next :: rest) following

/-- The lines of a template, cut at the line feeds of its literals. -/
def lines : Template ε → List (Template ε)
  | [] => [[]]
  | .literal text :: rest => attachChunks (Text.lines text.toList) (lines rest)
  | .antiquote hole :: rest => prependToFirst [.antiquote hole] (lines rest)

/-- Lines in order with a literal line feed between neighbours. -/
def joinLines : List (Template ε) → Template ε
  | [] => []
  | [line] => line
  | line :: next :: rest => line ++ .literal "\n" :: joinLines (next :: rest)

/-! ## Indentation of a line -/

/-- Whether a character counts as blank at the end of an indented string. -/
def isBlankChar (c : Char) : Bool := c == ' ' || c == '\t'

/-- Whether a line has no antiquote and no character besides spaces and tabs. -/
def isBlankLine (line : Template ε) : Bool :=
  line.all fun
    | .literal text => text.toList.all isBlankChar
    | .antiquote _ => false

/-- The number of spaces that a line starts with. -/
def indentation : Template ε → Nat
  | .literal text :: _ => (text.toList.takeWhile (· == ' ')).length
  | _ => 0

/-- The line without its first `n` characters, where `n` is at most its indentation. -/
def dropIndentation (n : Nat) : Template ε → Template ε
  | .literal text :: rest => .literal (String.ofList (text.toList.drop n)) :: rest
  | line => line

/-! ## Stripping -/

/-- The lines without a blank first line, if other lines follow it. -/
def dropBlankFirst : List (Template ε) → List (Template ε)
  | first :: next :: rest => if isBlankLine first then next :: rest else first :: next :: rest
  | ls => ls

/-- The lines without a blank last line, if other lines precede it. -/
def dropBlankLast : List (Template ε) → List (Template ε)
  | [] => []
  | [line] => [line]
  | [line, last] => if isBlankLine last then [line] else [line, last]
  | line :: next :: third :: rest => line :: dropBlankLast (next :: third :: rest)

/-- The least indentation of the nonblank lines, zero if there are none. -/
def commonIndentation (ls : List (Template ε)) : Nat :=
  ((ls.filter fun line => !isBlankLine line).map indentation).min?.getD 0

/-- Lines that have each lost the given indentation, or all they have if that is less. -/
def outdent (n : Nat) (ls : List (Template ε)) : List (Template ε) :=
  ls.map fun line => dropIndentation (min n (indentation line)) line

/-- The template without the indentation that its lines share. -/
def stripIndentation (t : Template ε) : Template ε :=
  let ls := dropBlankLast (dropBlankFirst (lines t))
  joinLines (outdent (commonIndentation ls) ls)

/-- Every template has a line. -/
theorem lines_ne_nil (t : Template ε) : lines t ≠ [] := by
  induction t with
  | nil => simp [lines]
  | cons piece rest ih =>
    cases piece with
    | antiquote hole =>
      unfold lines
      cases h : lines rest <;> simp [prependToFirst]
    | literal text =>
      unfold lines
      have hpos := Text.lines_ne_nil text.toList
      cases hc : Text.lines text.toList with
      | nil => exact absurd hc hpos
      | cons chunk more =>
        cases more with
        | nil => cases h : lines rest <;> simp [attachChunks, prependToFirst]
        | cons next more => simp [attachChunks]

end LazyConfig.Template
