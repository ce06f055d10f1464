import LazyConfig.Parser.Basic
set_option autoImplicit false

/-!
# Parsers: lexemes

The parsers below the grammar.  Each passes over the blank in front first, and the
tests do so even if their answer is no: where an expression ends, the parser stands
behind the blank that follows it.
-/

namespace LazyConfig.Parser

/-- Passes over the blank ahead. -/
def skipBlank : Parser Unit := fun _ c =>
  (.ok () (c.advance (blankLength false c.rest)), [])

/-! ## Delimiters -/

/-- Whether a delimiter is ahead.  The longest delimiter ahead decides, so the dot is not
ahead where the ellipsis is. -/
def peekDelimiter (d : String) : Parser Bool := do
  skipBlank
  let found ← ahead Lexicon.delimiterAt?
  pure (found == some d)

/-- Passes over a delimiter, which must be ahead. -/
def delimiter (d : String) : Parser Unit := do
  if ← peekDelimiter d then advance d.length else fail (.missing d)

/-! ## Words -/

/-- The word ahead, which is empty if there is none. -/
def aheadWord : Parser String := ahead fun _ text => String.ofList (wordPart text)

/-- Whether a keyword is ahead. -/
def peekKeyword (k : String) : Parser Bool := do
  skipBlank
  let word ← aheadWord
  ahead fun lexicon _ => word == k && lexicon.keywords.contains word

/-- Passes over a keyword, which must be ahead. -/
def keyword (k : String) : Parser Unit := do
  if ← peekKeyword k then advance k.length else fail (.missing k)

/-- Whether a word may be used as a name: the lexicon does not count it among the keywords,
and neither does the language. -/
def usableName? (lexicon : Lexicon) (word : String) : Option Name :=
  if lexicon.keywords.contains word then none else Name.ofText? word

/-- Reads a name. -/
def identifier : Parser Name := do
  skipBlank
  let word ← aheadWord
  if word = "" then fail .noIdentifier
  else
    match ← ahead fun lexicon _ => usableName? lexicon word with
    | none => fail (.keyword word)
    | some name =>
        advance word.length
        pure name

/-! ## Strings -/

/-- The two ways a string is opened. -/
inductive Opening where
  /-- With a double quotation mark. -/
  | quoted
  /-- With two apostrophes; the indentation does not count. -/
  | indented
  deriving DecidableEq, Repr

/-- How a string at the start of a text is opened, if there is one. -/
def opening? : List Char → Option Opening
  | '"' :: _ => some .quoted
  | '\'' :: '\'' :: _ => some .indented
  | _ => none

/-- How the string ahead is opened, if there is one. -/
def aheadOpening : Parser (Option Opening) := do
  skipBlank
  ahead fun _ text => opening? text

/-- Whether a string is ahead. -/
def peekString : Parser Bool := do
  let found ← aheadOpening
  pure found.isSome

end LazyConfig.Parser
