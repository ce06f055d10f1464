import LazyConfig.Proofs.Parentheses.Derivations
import LazyConfig.Proofs.Parsing.RoundTrip
set_option autoImplicit false

/-!
# Parentheses: necessity

The parentheses around a part cannot be left out of a rendered program.  A text without them
has one parenthesis less than the rendering, and no text with less than the rendering of a tree
is read as the tree.
-/

namespace LazyConfig

/-- An expression with a gap at a place that may ask for parentheses. -/
inductive Gap where
  /-- A list without one item. -/
  | item (before behind : List Expr)
  /-- An attribute of something. -/
  | subject (key : Expr)
  /-- An application without the function. -/
  | function (a : Expr)
  /-- An application without the argument. -/
  | argument (f : Expr)

theorem renderItems_append (es ds : List Expr) :
    renderItems (es ++ ds) = renderItems es ++ renderItems ds := by
  induction es with
  | nil => exact String.empty_append.symm
  | cons e es ih => simp only [List.cons_append, renderItems, ih, String.append_assoc]

namespace Gap

/-- The place that the gap is. -/
def place : Gap → Place
  | .item _ _ => .listItem
  | .subject _ => .dotLeft
  | .function _ => .applyLeft
  | .argument _ => .applyRight

/-- The expression with another in the gap. -/
def fill (e : Expr) : Gap → Expr
  | .item before behind => .list (before ++ e :: behind)
  | .subject key => .dot e key
  | .function a => .apply e a
  | .argument f => .apply f e

/-- The text of the expression with another text in the gap. -/
def text (inner : String) : Gap → String
  | .item before behind =>
      "[ " ++ (renderItems before ++ (inner ++ " " ++ renderItems behind)) ++ "]"
  | .subject key => inner ++ "." ++ key.renderKey
  | .function a => inner ++ " " ++ a.render .applyRight
  | .argument f => f.render .applyLeft ++ " " ++ inner

/-- A filled gap is rendered around the text of what fills it. -/
theorem renderBare_fill (g : Gap) (e : Expr) :
    (g.fill e).renderBare = g.text (e.render g.place) := by
  cases g with
  | item before behind =>
    rw [fill, Expr.renderBare, renderItems_append]
    rfl
  | subject key => rfl
  | function a => rfl
  | argument f => rfl

theorem parens_text_add (g : Gap) (inner : String) :
    parens (g.text inner) = parens (g.text "") + parens inner := by
  have hnone : parens "" = 0 := rfl
  cases g <;> simp only [text, parens_append, hnone] <;> omega

end Gap

theorem Expr.render_of_needsParens {e : Expr} {place : Place} (h : e.needsParens place = true) :
    e.render place = "(" ++ e.renderBare ++ ")" := if_pos h

/-- Where an item, the left side of a dot, a function or an argument needs parentheses, it is
rendered in parentheses, and with them the whole is read back.  Without them the text is not
read as that expression any more, whatever stands around the part. -/
theorem parentheses_needed (g : Gap) (e : Expr) (h : e.needsParens g.place = true) :
    (g.fill e).render .normal = g.text ("(" ++ e.renderBare ++ ")") ∧
      ((g.fill e).isCanonical = true →
        readProgram Lexicon.standard (g.text ("(" ++ e.renderBare ++ ")")) =
          .accepted (g.fill e)) ∧
      ∀ lexicon, readProgram lexicon (g.text e.renderBare) ≠ .accepted (g.fill e) := by
  have hrender : (g.fill e).render .normal = g.text ("(" ++ e.renderBare ++ ")") := by
    rw [Expr.render_normal, g.renderBare_fill, Expr.render_of_needsParens h]
  refine ⟨hrender, fun hcanonical => ?_, fun lexicon hread => ?_⟩
  · rw [← hrender]
    exact readTraced_render (g.fill e) hcanonical .normal false
  · have hle : parens (g.fill e).renderBare ≤ parens (g.text e.renderBare) :=
      parens_le_of_readProgram hread
    rw [g.renderBare_fill, g.parens_text_add, g.parens_text_add e.renderBare, parens_render, h]
      at hle
    exact Nat.not_succ_le_self _ hle

/-- A function between two items of a list. -/
theorem parentheses_needed_lambda :
    let x : Name := ⟨"x", by decide⟩
    let e : Expr := .lambda (.name x) (.var x)
    let g : Gap := .item [.var x] [.str []]
    e.needsParens g.place = true ∧ (g.fill e).isCanonical = true ∧
      g.text ("(" ++ e.renderBare ++ ")") = "[ x (x: x) \"\" ]" ∧
      readProgram Lexicon.standard "[ x (x: x) \"\" ]" = .accepted (g.fill e) ∧
      g.text e.renderBare = "[ x x: x \"\" ]" ∧
      ∀ lexicon, readProgram lexicon "[ x x: x \"\" ]" ≠ .accepted (g.fill e) := by
  intro x e g
  have hcanonical : (g.fill e).isCanonical = true := by decide +kernel
  have hwith : g.text ("(" ++ e.renderBare ++ ")") = "[ x (x: x) \"\" ]" := by decide +kernel
  have hwithout : g.text e.renderBare = "[ x x: x \"\" ]" := by decide +kernel
  obtain ⟨-, hread, hrefused⟩ := parentheses_needed g e rfl
  exact ⟨rfl, hcanonical, hwith, hwith ▸ hread hcanonical, hwithout, hwithout ▸ hrefused⟩

end LazyConfig
