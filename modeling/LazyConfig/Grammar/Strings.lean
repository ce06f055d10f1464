import LazyConfig.Template
import Mathlib.Data.List.Forall2
set_option autoImplicit false

/-!
# The grammar: strings

What the characters of a string stand for, said without a reader.  A text with holes is given
here by what it reads as: its characters one by one, and its holes.

An indented string loses its layout.  The first line is dropped if it is blank, and a last line
of spaces and tabs is dropped.  Of the lines between, all lose as many spaces as stand in front
of the nonblank line with the fewest; a blank line that has fewer loses all of them.

A reader keeps one line that is to be dropped: the last one, if no line is left in front of it.
`AsRead` is the layout with that line.
-/

namespace LazyConfig.Grammar

/-! ## Escapes -/

/-- A character behind a backslash, and the one that both stand for. -/
inductive Escape : Char → Char → Prop where
  | lineFeed : Escape 'n' '\n'
  | carriageReturn : Escape 'r' '\r'
  | tab : Escape 't' '\t'
  | other {c : Char} (h : c ∉ ['n', 'r', 't']) : Escape c c

/-! ## Normal forms -/

variable {ε : Type}

/-- The template that reads as given, with no literal that is empty and no two in a row. -/
structure Normal (t : Template ε) (l : List (Char ⊕ ε)) : Prop where
  /-- It has the characters and the holes. -/
  reads : t.symbols = l
  /-- No literal is empty. -/
  nonempty : .literal "" ∉ t
  /-- No two literals are neighbours. -/
  merged : ∀ a b, ¬ [.literal a, .literal b] <:+: t

/-! ## Lines -/

/-- The lines of a text, which are at least one and have a line feed between any two. -/
structure Lines (ls : List (List (Char ⊕ ε))) (text : List (Char ⊕ ε)) : Prop where
  /-- There is a line. -/
  nonempty : ls ≠ []
  /-- No line goes on behind a line feed. -/
  ended : ∀ line ∈ ls, .inl '\n' ∉ line
  /-- The text is the lines in order. -/
  joined : [.inl '\n'].intercalate ls = text

/-- Whether there are only spaces and tabs. -/
def BlankLine (line : List (Char ⊕ ε)) : Prop := ∀ x ∈ line, x = .inl ' ' ∨ x = .inl '\t'

/-- Lines and what is left of them without a blank first one. -/
inductive DropsFirst : List (List (Char ⊕ ε)) → List (List (Char ⊕ ε)) → Prop where
  | blank {line : List (Char ⊕ ε)} {ls : List (List (Char ⊕ ε))} (h : BlankLine line) :
      DropsFirst (line :: ls) ls
  | solid {line : List (Char ⊕ ε)} {ls : List (List (Char ⊕ ε))} (h : ¬ BlankLine line) :
      DropsFirst (line :: ls) (line :: ls)

/-- Lines and what is left of them without a blank last one. -/
inductive DropsLast : List (List (Char ⊕ ε)) → List (List (Char ⊕ ε)) → Prop where
  | none : DropsLast [] []
  | blank {line : List (Char ⊕ ε)} {ls : List (List (Char ⊕ ε))} (h : BlankLine line) :
      DropsLast (ls ++ [line]) ls
  | solid {line : List (Char ⊕ ε)} {ls : List (List (Char ⊕ ε))} (h : ¬ BlankLine line) :
      DropsLast (ls ++ [line]) (ls ++ [line])

/-! ## Indentation -/

/-- A line has so many spaces in front, and no more. -/
inductive Indented : Nat → List (Char ⊕ ε) → Prop where
  | mk (n : Nat) {rest : List (Char ⊕ ε)} (h : rest.head? ≠ some (.inl ' ')) :
      Indented n (List.replicate n (.inl ' ') ++ rest)

/-- The fewest spaces in front of a nonblank line, or none if there is no such line. -/
inductive LeastIndentation : List (List (Char ⊕ ε)) → Nat → Prop where
  | blank {ls : List (List (Char ⊕ ε))} (h : ∀ line ∈ ls, BlankLine line) : LeastIndentation ls 0
  | solid {ls : List (List (Char ⊕ ε))} {line : List (Char ⊕ ε)} {n : Nat} (hmem : line ∈ ls)
      (hline : ¬ BlankLine line) (h : Indented n line)
      (hle : ∀ other ∈ ls, ¬ BlankLine other → ∀ m, Indented m other → n ≤ m) :
      LeastIndentation ls n

/-- A line and what is left of it without so many spaces, or without all that it has. -/
inductive Outdented (n : Nat) : List (Char ⊕ ε) → List (Char ⊕ ε) → Prop where
  | deep (rest : List (Char ⊕ ε)) : Outdented n (List.replicate n (.inl ' ') ++ rest) rest
  | shallow {m : Nat} {rest : List (Char ⊕ ε)} (hm : m < n) (h : rest.head? ≠ some (.inl ' ')) :
      Outdented n (List.replicate m (.inl ' ') ++ rest) rest

/-- A text and what is left of it without the layout of an indented string. -/
inductive Stripped : List (Char ⊕ ε) → List (Char ⊕ ε) → Prop where
  | mk {text : List (Char ⊕ ε)} {all below kept out : List (List (Char ⊕ ε))} {n : Nat}
      (lines : Lines all text) (first : DropsFirst all below) (last : DropsLast below kept)
      (least : LeastIndentation kept n) (outdented : List.Forall₂ (Outdented n) kept out) :
      Stripped text ([.inl '\n'].intercalate out)

/-! ## The line that a reader keeps -/

/-- A blank line that is not empty and either all of the text or behind a blank first line. -/
inductive LoneBlank : List (Char ⊕ ε) → List (Char ⊕ ε) → Prop where
  | first {line : List (Char ⊕ ε)} (h : BlankLine line) (hne : line ≠ []) : LoneBlank line line
  | second {above line : List (Char ⊕ ε)} (habove : BlankLine above) (h : BlankLine line)
      (hne : line ≠ []) : LoneBlank (above ++ .inl '\n' :: line) line

/-- A text and what is left of it without layout, save for the blank line that a reader keeps. -/
inductive AsRead : List (Char ⊕ ε) → List (Char ⊕ ε) → Prop where
  | kept {text line : List (Char ⊕ ε)} (h : LoneBlank text line) : AsRead text line
  | stripped {text l : List (Char ⊕ ε)} (hlone : ∀ line, ¬ LoneBlank text line)
      (h : Stripped text l) : AsRead text l

/-- A text and what is left of it without layout, where no reader keeps a line of it. -/
structure Faultless (text l : List (Char ⊕ ε)) : Prop where
  /-- No line is kept. -/
  lone : ∀ line, ¬ LoneBlank text line
  /-- The layout is left out. -/
  stripped : Stripped text l

end LazyConfig.Grammar
