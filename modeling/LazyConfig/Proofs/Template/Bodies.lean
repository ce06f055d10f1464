import LazyConfig.Expr.Canonical
import LazyConfig.Parser.Strings
import LazyConfig.Proofs.Template.Canonical
set_option autoImplicit false

/-!
# Templates: bodies of strings

A reader gathers the body of a string in a draft: characters go to an open literal, and an
antiquote closes it.  So between two antiquotes there is always one literal, which may be
empty, and no two literals are neighbours however the body was taken piece by piece.
-/

namespace LazyConfig

namespace Template

variable {ε : Type}

/-! ## One literal between antiquotes -/

/-- The template of an open literal and pieces behind it, with a literal in front of each
antiquote and at the end. -/
def padded (buffer : List Char) : Template ε → Template ε
  | [] => [.literal (String.ofList buffer)]
  | .literal a :: rest => padded (buffer ++ a.toList) rest
  | .antiquote e :: rest => .literal (String.ofList buffer) :: .antiquote e :: padded [] rest

theorem symbols_padded (buffer : List Char) (t : Template ε) :
    symbols (padded buffer t) = buffer.map Sum.inl ++ symbols t := by
  induction t generalizing buffer with
  | nil => simp [padded, Piece.symbols]
  | cons piece rest ih => cases piece <;> simp [padded, ih, Piece.symbols]

/-- Between two antiquotes there is always one literal. -/
theorem isMerged_padded (buffer : List Char) (t : Template ε) :
    isMerged (padded buffer t) = true := by
  induction t generalizing buffer with
  | nil => rfl
  | cons piece rest ih =>
    cases piece with
    | literal a => exact ih _
    | antiquote e => exact isMerged_literal_iff.mpr ⟨ih [], by simp⟩

/-! ## Antiquotes -/

variable {e : ε}

theorem antiquote_mem_iff {t : Template ε} : .antiquote e ∈ t ↔ Sum.inr e ∈ symbols t := by
  induction t with
  | nil => simp
  | cons piece rest ih => cases piece <;> simp [Piece.symbols, ih]

theorem antiquote_mem_clean {t : Template ε} : .antiquote e ∈ clean t ↔ .antiquote e ∈ t := by
  rw [antiquote_mem_iff, symbols_clean, antiquote_mem_iff]

end Template

/-! ## Drafts -/

namespace Parser.Draft

/-- The draft with a piece of a body behind it. -/
def add (d : Draft) : Piece Expr → Draft
  | .literal text => d.push text.toList
  | .antiquote e => d.addHole e

/-- The draft of a body. -/
def gather (body : Template Expr) : Draft := body.foldl add empty

theorem gather_append_singleton (front : Template Expr) (piece : Piece Expr) :
    gather (front ++ [piece]) = (gather front).add piece := by
  simp [gather]

theorem finish_foldl_add (d : Draft) (body : Template Expr) :
    (body.foldl add d).finish = d.pieces.reverse ++ Template.padded d.buffer.reverse body := by
  induction body generalizing d with
  | nil => simp [finish, closed, Template.padded]
  | cons piece rest ih =>
    cases piece with
    | literal text => simp [ih, add, push, Template.padded]
    | antiquote e => simp [ih, add, addHole, closed, Template.padded]

theorem finish_gather (body : Template Expr) : (gather body).finish = Template.padded [] body :=
  finish_foldl_add empty body

end Parser.Draft

/-! ## Canonical antiquotes -/

theorem canonicalPieces_iff {t : Template Expr} :
    canonicalPieces t = true ↔ ∀ e, .antiquote e ∈ t → e.isCanonical = true := by
  induction t with
  | nil => simp [canonicalPieces]
  | cons piece rest ih => cases piece <;> simp [canonicalPieces, ih]

end LazyConfig
