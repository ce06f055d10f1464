import LazyConfig.Proofs.Parsing.Bindings
import LazyConfig.Proofs.Template.Solids
import LazyConfig.Proofs.Template.Bodies
import LazyConfig.Proofs.Template.Cuts
set_option autoImplicit false

/-!
# Parentheses: renderings

How many parentheses open in a rendered program.  A construct has as many as its parts
together, where a part in parentheses has one more.  Escapes and the cuts of templates do not
count, and names have none.
-/

namespace LazyConfig

/-- How many parentheses open in a text. -/
def parens (text : String) : Nat := text.toList.count '('

theorem parens_append (a b : String) : parens (a ++ b) = parens a + parens b := by
  rw [parens, String.toList_append, List.count_append]
  rfl

theorem parens_eq_zero {text : String} (h : '(' ∉ text.toList) : parens text = 0 :=
  List.count_eq_zero.mpr h

/-! ## Names and strings -/

theorem parens_name (x : Name) : parens x.text = 0 := by
  refine parens_eq_zero fun hmem => ?_
  exact absurd (((NameFault.of?_eq_none_iff x.text).mp x.bare).2.1 '(' hmem) (by decide)

theorem count_escapeChars (cs : List Char) : (escapeChars cs).count '(' = cs.count '(' := by
  fun_induction escapeChars cs with
  | case1 => rfl
  | case2 rest ih => simp [ih]
  | case3 c rest hhole ih =>
    rw [List.count_append, List.count_cons, ih, Nat.add_comm]
    congr 1
    -- What is written for the character has a parenthesis exactly if the character is one.
    repeat' split
    all_goals simp_all

theorem parens_escape (text : String) : parens (escape text) = parens text := by
  rw [parens, escape, String.toList_ofList, count_escapeChars]
  rfl

theorem parens_renderQuoted (text : String) : parens (renderQuoted text) = parens text := by
  simp (disch := decide) only [renderQuoted, parens_append, parens_eq_zero, parens_escape,
    Nat.zero_add, Nat.add_zero]

theorem parens_renderName (text : String) : parens (renderName text) = parens text := by
  unfold renderName
  split
  · rfl
  · exact parens_renderQuoted text

theorem parens_renderNames_cons (x : String) (names : List String) :
    parens (renderNames (x :: names)) = parens x + parens (renderNames names) := by
  simp (disch := decide) only [renderNames, List.map_cons, String.join_cons, parens_append,
    parens_eq_zero, parens_renderName, Nat.zero_add]

/-! ## Expressions -/

/-- One parenthesis more where there are any. -/
theorem parens_render (e : Expr) (place : Place) :
    parens (e.render place) = parens e.renderBare + if e.needsParens place then 1 else 0 := by
  unfold Expr.render enclose
  split
  · rw [parens_append, parens_append, Nat.add_comm (parens "(")]
    rfl
  · rfl

theorem parens_render_of_bare {e : Expr} {place : Place} (h : e.needsParens place = false) :
    parens (e.render place) = parens e.renderBare := by
  rw [parens_render, h]
  rfl

theorem parens_renderBare_le (e : Expr) (place : Place) :
    parens e.renderBare ≤ parens (e.render place) := by
  rw [parens_render]
  exact Nat.le_add_right _ _

theorem parens_render_le (e : Expr) (place : Place) :
    parens (e.render place) ≤ parens e.renderBare + 1 := by
  rw [parens_render]
  split <;> omega

theorem parens_renderKey (k : Expr) : parens k.renderKey = parens k.renderBare := by
  have hhole (text : String) : parens ("$\x7b" ++ text ++ "\x7d") = parens text := by
    simp (disch := decide) only [parens_append, parens_eq_zero, Nat.zero_add, Nat.add_zero]
  cases k with
  | str t =>
    unfold Expr.renderKey asKey
    split
    · next heq =>
      obtain rfl := Expr.str.inj heq
      rfl
    · next s heq =>
      obtain rfl := Expr.str.inj heq
      simp (disch := decide) only [parens_renderName, Expr.renderBare, renderPieces,
        parens_append, parens_eq_zero, parens_escape, Nat.zero_add, Nat.add_zero]
    · rfl
    · next hstr => exact absurd rfl (hstr t)
  | _ => exact hhole _

theorem parens_dot (subject key : Expr) :
    parens (Expr.dot subject key).renderBare =
      parens (subject.render .dotLeft) + parens key.renderBare := by
  have h : (Expr.dot subject key).renderBare =
      subject.render .dotLeft ++ "." ++ key.renderKey := rfl
  simp (disch := decide) only [h, parens_append, parens_eq_zero, parens_renderKey, Nat.add_zero]

theorem parens_apply (f a : Expr) :
    parens (Expr.apply f a).renderBare =
      parens (f.render .applyLeft) + parens (a.render .applyRight) := by
  have h : (Expr.apply f a).renderBare =
      f.render .applyLeft ++ " " ++ a.render .applyRight := rfl
  simp (disch := decide) only [h, parens_append, parens_eq_zero, Nat.add_zero]

theorem parens_lambda (p : Param Expr) (body : Expr) :
    parens (Expr.lambda p body).renderBare = parens p.render + parens body.renderBare := by
  simp (disch := decide) only [Expr.renderBare_lambda, parens_append, parens_eq_zero, Nat.add_zero]

theorem parens_letIn (bs : List (Binding String Expr)) (body : Expr) :
    parens (Expr.letIn bs body).renderBare =
      parens (renderDefinitions bs) + parens body.renderBare := by
  simp (disch := decide) only [Expr.renderBare, parens_append, parens_eq_zero, Nat.zero_add,
    Nat.add_zero]

theorem parens_list (es : List Expr) :
    parens (Expr.list es).renderBare = parens (renderItems es) := by
  simp (disch := decide) only [Expr.renderBare, parens_append, parens_eq_zero, Nat.zero_add,
    Nat.add_zero]

theorem parens_renderItems_cons (e : Expr) (es : List Expr) :
    parens (renderItems (e :: es)) = parens (e.render .listItem) + parens (renderItems es) := by
  have h : renderItems (e :: es) = e.render .listItem ++ " " ++ renderItems es := rfl
  simp (disch := decide) only [h, parens_append, parens_eq_zero, Nat.add_zero]

theorem parens_dict (recursive : Bool) (bs : List (Binding Expr Expr)) :
    parens (Expr.dict recursive bs).renderBare = parens (renderEntries bs) := by
  cases recursive <;>
    simp (disch := decide) only [Expr.renderBare, parens_append, parens_eq_zero, Nat.zero_add,
      Nat.add_zero]

/-! ## Bindings and parameters -/

theorem parens_renderEntries_cons (b : Binding Expr Expr) (bs : List (Binding Expr Expr)) :
    parens (renderEntries (b :: bs)) = parens b.entryText + parens (renderEntries bs) := by
  simp (disch := decide) only [renderEntries_cons, parens_append, parens_eq_zero, Nat.add_zero]

theorem parens_renderDefinitions_cons (b : Binding String Expr) (bs : List (Binding String Expr)) :
    parens (renderDefinitions (b :: bs)) =
      parens b.definitionText + parens (renderDefinitions bs) := by
  simp (disch := decide) only [renderDefinitions_cons, parens_append, parens_eq_zero, Nat.add_zero]

theorem parens_entryText_equation (k e : Expr) :
    parens (Binding.equation k e).entryText = parens k.renderBare + parens e.renderBare := by
  simp (disch := decide) only [Binding.entryText, parens_append, parens_eq_zero, parens_renderKey,
    Nat.add_zero]

theorem parens_definitionText_equation (x : String) (e : Expr) :
    parens (Binding.equation x e).definitionText = parens x + parens e.renderBare := by
  simp (disch := decide) only [Binding.definitionText, parens_append, parens_eq_zero,
    parens_renderName, Nat.add_zero]

theorem parens_renderInherit_none (names : List String) :
    parens (renderInherit none names) = parens (renderNames names) := by
  simp (disch := decide) only [renderInherit, inheritText, Option.map_none, parens_append,
    parens_eq_zero, Nat.zero_add]

/-- The source of an `inherit` is always in parentheses. -/
theorem parens_renderInherit_some (e : Expr) (names : List String) :
    parens (renderInherit (some e) names) =
      1 + parens e.renderBare + parens (renderNames names) := by
  have hopen : parens "inherit (" = 1 := rfl
  simp (disch := decide) only [renderInherit, inheritText, Option.map_some, parens_append, hopen,
    parens_eq_zero, Nat.add_zero]

theorem parens_intercalate_comma (parts : List String) :
    parens (String.intercalate ", " parts) = parens (String.join parts) := by
  induction parts with
  | nil => rfl
  | cons first others ih =>
    cases others with
    | nil => simp [String.intercalate_singleton]
    | cons second others =>
      have hjoin : String.join (first :: second :: others) =
          first ++ String.join (second :: others) := String.join_cons
      rw [String.intercalate_cons_cons, parens_append, parens_append, ih, hjoin, parens_append]
      rfl

theorem parens_patternText (fields : List String) (ellipsis : Bool) :
    parens (patternText fields ellipsis) = parens (String.join fields) := by
  have hfields : parens (String.join (fields ++ if ellipsis then ["..."] else [])) =
      parens (String.join fields) := by
    cases ellipsis with
    | false => simp
    | true => rw [String.join_append, parens_append]; rfl
  rw [← hfields]
  unfold patternText
  split
  · next h => rw [h]; rfl
  · simp (disch := decide) only [parens_append, parens_eq_zero, parens_intercalate_comma,
      Nat.zero_add, Nat.add_zero]

/-- How many parentheses open in the fields of a pattern. -/
def fieldParens (fields : List (Field Expr)) : Nat := parens (String.join (renderFields fields))

theorem fieldParens_nil : fieldParens [] = 0 := rfl

theorem fieldParens_plain (x : Name) (fields : List (Field Expr)) :
    fieldParens (⟨x, none⟩ :: fields) = fieldParens fields := by
  rw [fieldParens, renderFields, String.join_cons, parens_append, parens_name, Nat.zero_add]
  rfl

theorem fieldParens_default (x : Name) (e : Expr) (fields : List (Field Expr)) :
    fieldParens (⟨x, some e⟩ :: fields) = parens e.renderBare + fieldParens fields := by
  simp (disch := decide) only [fieldParens, renderFields, String.join_cons, parens_append,
    parens_name, parens_eq_zero, Nat.zero_add]

theorem fieldParens_cons (field : Field Expr) (fields : List (Field Expr)) :
    fieldParens (field :: fields) = fieldParens [field] + fieldParens fields := by
  obtain ⟨x, _ | e⟩ := field
  · rw [fieldParens_plain, fieldParens_plain, fieldParens_nil, Nat.zero_add]
  · rw [fieldParens_default, fieldParens_default, fieldParens_nil, Nat.add_zero]

theorem parens_both (x : Name) (p : Pattern Expr) :
    parens (Param.both x p).render = fieldParens p.fields := by
  simp (disch := decide) only [Param.render, parens_append, parens_name, parens_eq_zero,
    parens_patternText, fieldParens, Nat.zero_add]

/-! ## Templates -/

/-- What a symbol of a template is rendered as, but for escapes. -/
def symbolChars : Char ⊕ Expr → List Char
  | .inl c => [c]
  | .inr e => e.renderBare.toList

theorem flatMap_symbolChars_inl (cs : List Char) :
    (cs.map (Sum.inl : Char → Char ⊕ Expr)).flatMap symbolChars = cs := by
  rw [List.flatMap_map]
  exact List.flatMap_singleton' cs

theorem parens_renderPieces_literal (text : String) (t : Template Expr) :
    parens (renderPieces (.literal text :: t)) = parens text + parens (renderPieces t) := by
  rw [renderPieces, parens_append, parens_escape]

theorem parens_renderPieces_antiquote (e : Expr) (t : Template Expr) :
    parens (renderPieces (.antiquote e :: t)) = parens e.renderBare + parens (renderPieces t) := by
  simp (disch := decide) only [renderPieces, parens_append, parens_eq_zero, Nat.zero_add,
    Nat.add_zero]

theorem parens_renderPieces (t : Template Expr) :
    parens (renderPieces t) = (t.symbols.flatMap symbolChars).count '(' := by
  induction t with
  | nil => rfl
  | cons piece rest ih =>
    rw [Template.symbols_cons, List.flatMap_append, List.count_append, ← ih]
    cases piece with
    | literal text =>
      rw [parens_renderPieces_literal, Piece.symbols, flatMap_symbolChars_inl]
      rfl
    | antiquote e =>
      rw [parens_renderPieces_antiquote, Piece.symbols, List.flatMap_singleton]
      rfl

/-- Blanks and line feeds are no parentheses. -/
theorem count_flatMap_solids (t : Template Expr) :
    (t.solids.flatMap symbolChars).count '(' = (t.symbols.flatMap symbolChars).count '(' := by
  unfold Template.solids
  induction t.symbols with
  | nil => rfl
  | cons x rest ih =>
    rw [List.flatMap_cons, List.count_append, ← ih, List.filter_cons]
    split
    · rw [List.flatMap_cons, List.count_append]
    · next h =>
      have hx : (symbolChars x).count '(' = 0 := by
        cases x with
        | inl c =>
          refine List.count_eq_zero.mpr fun hmem => h ?_
          rw [← List.mem_singleton.mp hmem]
          rfl
        | inr e => exact absurd rfl h
      rw [hx, Nat.zero_add]

/-- Templates with the same solid symbols have as many. -/
theorem parens_renderPieces_of_solids {t u : Template Expr}
    (h : Template.solids t = Template.solids u) :
    parens (renderPieces t) = parens (renderPieces u) := by
  rw [parens_renderPieces, parens_renderPieces, ← count_flatMap_solids, h, count_flatMap_solids]

theorem parens_str (t : Template Expr) :
    parens (Expr.str t).renderBare = parens (renderPieces t) := by
  simp (disch := decide) only [Expr.renderBare, parens_append, parens_eq_zero, Nat.zero_add,
    Nat.add_zero]

/-- A template without holes has as many as its text. -/
theorem parens_of_symbols {t : Template Expr} {x : String}
    (h : t.symbols = x.toList.map Sum.inl) : parens x = parens (renderPieces t) := by
  have hliteral : parens (renderPieces [.literal x]) = parens x := parens_renderPieces_literal x []
  rw [← hliteral]
  exact parens_renderPieces_of_solids (by simp [Template.solids, h, Piece.symbols])

end LazyConfig
