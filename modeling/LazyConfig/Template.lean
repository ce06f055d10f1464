set_option autoImplicit false

/-!
# Templates

A template is a text with holes: literal pieces and antiquotes in order, where an
antiquote holds whatever stands in the hole.  How literal text is cut into pieces
carries no meaning, but it can be observed, so a template keeps its cuts until it is
normalised.

* `normalize` merges neighbouring literals and drops nothing.
* `clean` drops the empty literals first; its results are the canonical templates.
* `static?` is the text of a template without holes, provided it is not cut.
-/

namespace LazyConfig

/-- One piece of a template. -/
inductive Piece (ε : Type) where
  /-- Text that stands for itself. -/
  | literal (text : String)
  /-- A hole and what stands in it. -/
  | antiquote (hole : ε)
  deriving DecidableEq, Repr

/-- A text with holes. -/
abbrev Template (ε : Type) := List (Piece ε)

namespace Piece

variable {ε : Type}

/-- Whether the piece is a literal without characters. -/
def isEmptyLiteral : Piece ε → Bool
  | .literal text => text.isEmpty
  | .antiquote _ => false

/-- What the piece reads as: its characters one by one, or its hole. -/
def symbols : Piece ε → List (Char ⊕ ε)
  | .literal text => text.toList.map Sum.inl
  | .antiquote hole => [Sum.inr hole]

end Piece

namespace Template

variable {ε : Type}

/-- A template of one literal. -/
def ofText (text : String) : Template ε := [.literal text]

/-- What the template reads as, whatever its cuts: characters and holes in order. -/
def symbols (t : Template ε) : List (Char ⊕ ε) := t.flatMap Piece.symbols

/-- A piece put in front of a template; a literal is joined to a literal behind it. -/
def prepend : Piece ε → Template ε → Template ε
  | .literal a, .literal b :: rest => .literal (a ++ b) :: rest
  | piece, rest => piece :: rest

/-- The template with neighbouring literals merged. -/
def normalize : Template ε → Template ε
  | [] => []
  | piece :: rest => prepend piece (normalize rest)

/-- The template with empty literals dropped and neighbouring literals merged. -/
def clean (t : Template ε) : Template ε :=
  normalize (t.filter fun piece => !piece.isEmptyLiteral)

/-- The text of a template that has no pieces or is one literal. -/
def static? : Template ε → Option String
  | [] => some ""
  | [.literal text] => some text
  | _ => none

/-! ## Canonical templates -/

/-- Whether no literal is empty and no two literals are neighbours. -/
def isClean : Template ε → Bool
  | [] => true
  | .antiquote _ :: rest => isClean rest
  | .literal _ :: .literal _ :: _ => false
  | .literal text :: rest => !text.isEmpty && isClean rest

/-! ## Reading through the operations -/

@[simp] theorem symbols_nil : symbols ([] : Template ε) = [] := rfl

@[simp] theorem symbols_cons (piece : Piece ε) (rest : Template ε) :
    symbols (piece :: rest) = piece.symbols ++ symbols rest := rfl

theorem symbols_append (s t : Template ε) : symbols (s ++ t) = symbols s ++ symbols t := by
  simp [symbols]

theorem symbols_prepend (piece : Piece ε) (rest : Template ε) :
    symbols (prepend piece rest) = piece.symbols ++ symbols rest := by
  unfold prepend
  split <;> simp [Piece.symbols]

/-- Merging keeps what a template reads as. -/
theorem symbols_normalize (t : Template ε) : symbols (normalize t) = symbols t := by
  induction t with
  | nil => rfl
  | cons piece rest ih => simp [normalize, symbols_prepend, ih]

end Template

end LazyConfig
