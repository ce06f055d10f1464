import LazyConfig.Name
import LazyConfig.Table
set_option autoImplicit false

/-!
# Tokens

What a text is made of below the grammar: blanks, words and delimiters.

* A *blank* is a run of spaces, tabs, line ends and comments; a comment starts at a
  number sign and ends in front of the next line feed.
* A *word* is a run of name characters.  It is a keyword if the lexicon says so and
  an identifier otherwise.
* A *delimiter* is one of the texts that the lexicon lists.  The longest that
  matches is taken, so `...` wins over `.`, whatever order they were listed in.

`tokenize` cuts a whole text.  It is for display: the bodies of strings are not
tokens, and a reader of programs takes single lexemes where the grammar asks for
them.
-/

namespace LazyConfig

/-! ## The lexicon -/

/-- The words that are keywords and the delimiters, longer ones first. -/
structure Lexicon where
  /-- The words that are keywords. -/
  keywords : List String
  /-- The delimiters. -/
  delimiters : List String
  /-- No delimiter is shorter than one behind it. -/
  longest_first : delimiters.Pairwise fun a b => b.length ≤ a.length
  /-- Every delimiter has a character. -/
  nonempty : ∀ d ∈ delimiters, d ≠ ""

namespace Lexicon

/-- The lexicon of the given keywords and delimiters, each counted once.  A delimiter
without characters would match everywhere and is left out. -/
def ofLists (keywords delimiters : List String) : Lexicon where
  keywords := keywords
  delimiters := sortLongestFirst ((distinctTexts delimiters).filter (· ≠ ""))
  longest_first := sortLongestFirst_pairwise _
  nonempty := by
    intro d hd
    simpa using (List.mem_filter.mp (mem_sortLongestFirst.mp hd)).2

/-- The delimiters of the language. -/
def standardDelimiters : List String :=
  ["(", ")", "\x7b", "\x7d", "[", "]", "$\x7b", "=", ";", ":", ",", "?", "@", ".", "..."]

/-- The lexicon of the language. -/
def standard : Lexicon := ofLists LazyConfig.keywords standardDelimiters

end Lexicon

/-! ## Lexemes at the start of a text -/

/-- The characters that are blank by themselves. -/
def isSpace (c : Char) : Bool := c == ' ' || c == '\t' || c == '\r' || c == '\n'

/-- The number of characters of the blank at the start of a text; inside a comment all
characters up to the line feed belong to it. -/
def blankLength : Bool → List Char → Nat
  | _, [] => 0
  | true, c :: rest => blankLength (c != '\n') rest + 1
  | false, c :: rest =>
      if isSpace c then blankLength false rest + 1
      else if c = '#' then blankLength true rest + 1
      else 0

theorem blankLength_le (inComment : Bool) (text : List Char) :
    blankLength inComment text ≤ text.length := by
  induction text generalizing inComment with
  | nil => simp [blankLength]
  | cons c rest ih =>
    cases inComment with
    | true => have := ih (c != '\n'); simp [blankLength]; omega
    | false =>
      have h1 := ih false
      have h2 := ih true
      unfold blankLength
      split
      · simp; omega
      · split <;> simp; omega

/-- The word at the start of a text, which may be empty. -/
def wordPart (text : List Char) : List Char := text.takeWhile isNameChar

namespace Lexicon

/-- The delimiters that a text starts with, longer ones first. -/
def delimitersAt (lexicon : Lexicon) (text : List Char) : List String :=
  lexicon.delimiters.filter fun d => d.toList.isPrefixOf text

/-- The longest delimiter that a text starts with. -/
def delimiterAt? (lexicon : Lexicon) (text : List Char) : Option String :=
  lexicon.delimiters.find? fun d => d.toList.isPrefixOf text

theorem delimiterAt?_eq_head? (lexicon : Lexicon) (text : List Char) :
    lexicon.delimiterAt? text = (lexicon.delimitersAt text).head? := by
  simp [delimiterAt?, delimitersAt]

end Lexicon

/-! ## Tokens -/

/-- The kinds of tokens. -/
inductive TokenKind where
  /-- A word that is no keyword. -/
  | identifier
  /-- A word that is a keyword. -/
  | keyword
  /-- Spaces, line ends and comments. -/
  | blank
  /-- A delimiter, or a single character that nothing else matches. -/
  | delimiter
  deriving DecidableEq, Repr

/-- The label of a kind in a listing of tokens. -/
def TokenKind.label : TokenKind → String
  | .identifier => "Ident"
  | .keyword => "Keyword"
  | .blank => "WS"
  | .delimiter => "Delim"

/-- A piece of text with its kind. -/
structure Token where
  /-- The kind. -/
  kind : TokenKind
  /-- The characters. -/
  lexeme : String
  deriving DecidableEq, Repr

namespace Token

/-- The token with its label, as a listing shows it. -/
def display (t : Token) : String := t.kind.label ++ "(" ++ t.lexeme ++ ")"

/-- The blank at the start of a text, if there is one. -/
def blankAt? (text : List Char) : Option Token :=
  match blankLength false text with
  | 0 => none
  | n => some ⟨.blank, String.ofList (text.take n)⟩

/-- The kind of a word. -/
def wordKind (lexicon : Lexicon) (word : String) : TokenKind :=
  if lexicon.keywords.contains word then .keyword else .identifier

/-- The word at the start of a text, if there is one. -/
def wordAt? (lexicon : Lexicon) (text : List Char) : Option Token :=
  match wordPart text with
  | [] => none
  | word => some ⟨wordKind lexicon (String.ofList word), String.ofList word⟩

/-- The delimiters that a text starts with, longer ones first. -/
def delimitersAt (lexicon : Lexicon) (text : List Char) : List Token :=
  (lexicon.delimitersAt text).map fun d => ⟨.delimiter, d⟩

/-- The token that starts with a character, of a text that goes on as given: a blank, a
word, the longest delimiter, or the character alone. -/
def first (lexicon : Lexicon) (c : Char) (rest : List Char) : Token :=
  ((blankAt? (c :: rest)).or
    ((wordAt? lexicon (c :: rest)).or
      (delimitersAt lexicon (c :: rest)).head?)).getD ⟨.delimiter, String.singleton c⟩

/-- The tokens of a text behind the given number of characters, which belong to a token
that was taken already. -/
def tokensAfter (lexicon : Lexicon) : Nat → List Char → List Token
  | _, [] => []
  | skipped + 1, _ :: rest => tokensAfter lexicon skipped rest
  | 0, c :: rest =>
      let token := first lexicon c rest
      token :: tokensAfter lexicon (token.lexeme.length - 1) rest

end Token

/-- The tokens of a text. -/
def tokenize (lexicon : Lexicon) (text : String) : List Token :=
  Token.tokensAfter lexicon 0 text.toList

/-- The lexemes of tokens in order, with a single space for each blank. -/
def showTokens (tokens : List Token) : String :=
  String.join (tokens.map fun t => if t.kind = .blank then " " else t.lexeme)

/-- The tokens with their labels, without the blanks. -/
def listTokens (tokens : List Token) : String :=
  String.intercalate " " ((tokens.filter fun t => t.kind ≠ .blank).map Token.display)

end LazyConfig
