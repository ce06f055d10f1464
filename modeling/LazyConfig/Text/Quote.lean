import LazyConfig.Text.Printable
set_option autoImplicit false

/-!
# Text: two ways of quoting for display

Messages and traces show a text in quotes so that every character can be told
apart; the structural outlines use a second, narrower form.  Neither is the quoting
of the configuration language itself, which belongs to the rendering of trees.

* `quote` chooses its quotation mark and escapes whatever is not printable.
* `dumpQuote` always uses the double quotation mark and escapes, besides that mark
  and the backslash, only the characters below the space.
-/

namespace LazyConfig.Text

/-- The hexadecimal digits of a number, lowercase, filled up to the width with zeros. -/
def hexDigits : Nat → Nat → List Char
  | 0, _ => []
  | width + 1, n => hexDigits width (n / 16) ++ [Nat.digitChar (n % 16)]

theorem length_hexDigits (width n : Nat) : (hexDigits width n).length = width := by
  induction width generalizing n with
  | zero => rfl
  | succ width ih => simp [hexDigits, ih]

/-! ## Quoting in messages and traces -/

/-- The quotation mark for a text: the apostrophe, unless the text holds one and no
double quotation mark. -/
def quoteMark (text : List Char) : Char :=
  if text.contains '\'' && !text.contains '"' then '"' else '\''

/-- How one character is written between two of the given quotation marks.  What is not
printable is written by its code point, with the shortest of three widths that fits. -/
def quoteChar (mark c : Char) : List Char :=
  if c == mark || c == '\\' then ['\\', c]
  else if c == '\n' then ['\\', 'n']
  else if c == '\r' then ['\\', 'r']
  else if c == '\t' then ['\\', 't']
  else if isPrintable c then [c]
  else if c.toNat < 0x100 then '\\' :: 'x' :: hexDigits 2 c.toNat
  else if c.toNat < 0x10000 then '\\' :: 'u' :: hexDigits 4 c.toNat
  else '\\' :: 'U' :: hexDigits 8 c.toNat

/-- A text in quotes, as messages and traces show it. -/
def quote (text : String) : String :=
  let mark := quoteMark text.toList
  String.ofList (mark :: text.toList.flatMap (quoteChar mark) ++ [mark])

/-- A list of texts in square brackets, each of them in quotes. -/
def quoteList (texts : List String) : String :=
  "[" ++ String.intercalate ", " (texts.map quote) ++ "]"

/-! ## Quoting in structural outlines -/

/-- How one character is written inside a text of an outline. -/
def dumpChar (c : Char) : List Char :=
  if c == '"' || c == '\\' then ['\\', c]
  else if c == '\n' then ['\\', 'n']
  else if c == '\r' then ['\\', 'r']
  else if c == '\t' then ['\\', 't']
  else if c == '\x08' then ['\\', 'b']
  else if c == '\x0c' then ['\\', 'f']
  else if c.toNat < 0x20 then '\\' :: 'u' :: hexDigits 4 c.toNat
  else [c]

/-- A text in double quotation marks, as structural outlines show it. -/
def dumpQuote (text : String) : String :=
  String.ofList ('"' :: text.toList.flatMap dumpChar ++ ['"'])

theorem toList_dumpQuote (text : String) :
    (dumpQuote text).toList = '"' :: text.toList.flatMap dumpChar ++ ['"'] := by
  simp [dumpQuote]

end LazyConfig.Text
