set_option autoImplicit false

/-!
# Text: lines

`lines` cuts a text at its line feeds.  A text always has at least one line, and
what follows the last line feed is a line too, so the cut loses nothing but the
line feeds.  `unifyLineEnds` is the rule for files, where three marks end a line.
-/

namespace LazyConfig.Text

/-- The lines of a text, without the line feeds between them. -/
def lines : List Char → List (List Char)
  | [] => [[]]
  | c :: rest =>
      if c = '\n' then [] :: lines rest
      else match lines rest with
        | [] => [[c]]
        | line :: others => (c :: line) :: others

theorem lines_ne_nil (text : List Char) : lines text ≠ [] := by
  cases text with
  | nil => simp [lines]
  | cons c rest =>
    unfold lines
    split
    · simp
    · split <;> simp

/-- The lines of a text as texts. -/
def splitLines (text : String) : List String :=
  (lines text.toList).map String.ofList

/-- A file's text with every line end, be it a carriage return, a line feed or both,
written as a line feed. -/
def unifyLineEnds : List Char → List Char
  | [] => []
  | '\r' :: '\n' :: rest => '\n' :: unifyLineEnds rest
  | c :: rest => (if c = '\r' then '\n' else c) :: unifyLineEnds rest

end LazyConfig.Text
