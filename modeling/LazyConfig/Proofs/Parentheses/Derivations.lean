import LazyConfig.Proofs.Grammar.Sound
import LazyConfig.Proofs.Parentheses.Renderings
set_option autoImplicit false

/-!
# Parentheses: derivations

No program is shorter of parentheses than the rendering of its tree.  A tree that needs
parentheses at a place is derived there from a text that has them, so in whatever is derived at
least as many open as in the rendering of what it is derived to be, by induction on derivations
with one case for each alternative of each rule.
-/

namespace LazyConfig.Grammar

variable {lexicon : Lexicon}

/-- At least so many parentheses open in front of what is left of a text. -/
def Opens (n : Nat) (t u : List Char) : Prop := n + u.count '(' ≤ t.count '('

namespace Opens

variable {m n : Nat} {t u v : List Char}

theorem trans (h : Opens m t u) (h' : Opens n u v) : Opens (m + n) t v := by
  unfold Opens at *
  omega

theorem mono (h : Opens m t u) (hle : n ≤ m) : Opens n t u :=
  Nat.le_trans (Nat.add_le_add_right hle _) h

theorem congr (h : Opens m t u) (heq : n = m) : Opens n t u := h.mono (Nat.le_of_eq heq)

theorem refl (t : List Char) : Opens 0 t t := Nat.le_of_eq (Nat.zero_add _)

theorem append (l u : List Char) : Opens (l.count '(') (l ++ u) u :=
  Nat.le_of_eq List.count_append.symm

theorem of_suffix (h : u <:+ t) : Opens 0 t u := by
  obtain ⟨l, rfl⟩ := h
  exact (append l u).mono (Nat.zero_le _)

end Opens

/-! ## Lexemes -/

section

variable {t u : List Char}

theorem Blank.opens (h : Blank t u) : Opens 0 t u := by
  rw [h.eq_afterBlank]
  exact .of_suffix (List.drop_suffix _ t)

theorem WordAt.opens {word : List Char} (h : WordAt word t u) : Opens 0 t u :=
  .of_suffix ⟨word, h.text.symm⟩

theorem DelimiterAt.opens {d : String} (h : DelimiterAt lexicon d t u) : Opens (parens d) t u := by
  rw [h.text]
  exact .append d.toList u

theorem Delimiter.opens {d : String} (h : Delimiter lexicon d t u) : Opens (parens d) t u := by
  obtain ⟨v, hd, hblank⟩ := h
  exact hd.opens.trans hblank.opens

theorem Keyword.opens {k : String} (h : Keyword lexicon k t u) : Opens 0 t u := by
  obtain ⟨-, v, hword, hblank⟩ := h
  exact hword.opens.trans hblank.opens

theorem Identifier.opens {x : Name} (h : Identifier lexicon x t u) : Opens 0 t u := by
  obtain ⟨-, v, hword, hblank⟩ := h
  exact hword.opens.trans hblank.opens

theorem OpeningMark.opens {o : Parser.Opening} (h : OpeningMark o t u) : Opens 0 t u := by
  cases h with
  | quoted => exact .of_suffix (List.suffix_cons _ _)
  | indented => exact .of_suffix ⟨['\'', '\''], rfl⟩

theorem ClosingMark.opens {o : Parser.Opening} (h : ClosingMark o t u) : Opens 0 t u := by
  cases h with
  | quoted => exact .of_suffix (List.suffix_cons _ _)
  | indented => exact .of_suffix ⟨['\'', '\''], rfl⟩

/-- A backslash makes a parenthesis of nothing else. -/
theorem Escape.eq_paren {c : Char} (h : Escape c '(') : c = '(' := by
  cases h with
  | other => rfl

theorem Written.opens {o : Parser.Opening} {cs : List Char} (h : Written o cs t u) :
    Opens (cs.count '(') t u := by
  cases h with
  | escapedHole => exact .append ['\\', '$', '\x7b'] _
  | @escaped c d _ hescape _ =>
    refine (Opens.append ['\\', c] _).mono ?_
    by_cases hd : d = '('
    · subst hd
      rw [hescape.eq_paren]
      decide
    · rw [List.count_eq_zero.mpr (by simpa using Ne.symm hd)]
      exact Nat.zero_le _
  | @quoted c _ _ _ _ => exact .append [c] _
  | @indented c _ _ _ => exact .append [c] _

end

/-! ## Rules -/

theorem Lambda.bare {a : Expr} {t u : List Char} (h : Lambda lexicon AsRead a t u) :
    a.needsParens .applyRight = false := by
  cases h
  rfl

/-- An application that may not be applied bare ends in a function, and that is bare only
where nothing follows. -/
theorem needsParens_of_apply {f a : Expr} (h : (Expr.apply f a).needsParens .applyLeft = true) :
    a.needsParens .applyRight = false ∧ a.needsParens .dotLeft = true := by
  cases a with
  | lambda p body => exact ⟨rfl, rfl⟩
  | _ => exact nomatch h

mutual

theorem Expression.opens {e : Expr} {t u : List Char} :
    Expression lexicon AsRead e t u → Opens (parens e.renderBare) t u
  | .lambda h => h.opens
  | .letIn h => h.opens
  | .application h => h.opens

theorem Lambda.opens {e : Expr} {t u : List Char} :
    Lambda lexicon AsRead e t u → Opens (parens e.renderBare) t u
  | .mk param colon body =>
    (param.opens.trans (colon.opens.trans body.opens)).mono (by rw [parens_lambda]; omega)

theorem Parameter.opens {p : Param Expr} {t u : List Char} :
    Parameter lexicon AsRead p t u → Opens (parens p.render) t u
  | @Parameter.name _ _ x _ _ name => name.opens.congr (parens_name x)
  | @Parameter.pattern _ _ p _ _ pattern => pattern.opens.congr (parens_patternText _ p.ellipsis)
  | .both name mark pattern =>
    (name.opens.trans (mark.opens.trans pattern.opens)).mono (by rw [parens_both]; omega)

theorem DictPattern.opens {p : Pattern Expr} {t u : List Char} :
    DictPattern lexicon AsRead p t u → Opens (fieldParens p.fields) t u
  | .empty opens closes => (opens.opens.trans closes.opens).mono (Nat.zero_le _)
  | .fields opens list closes _ =>
    (opens.opens.trans (list.opens.trans closes.opens)).mono (by dsimp only; omega)

theorem Fields.opens {fields : List (Field Expr)} {ellipsis : Bool} {t u : List Char} :
    Fields lexicon AsRead fields ellipsis t u → Opens (fieldParens fields) t u
  | .ellipsis h => h.opens.mono (Nat.zero_le _)
  | .last item => item.opens
  | @Fields.more _ _ field fields _ _ _ _ _ item comma others =>
    (item.opens.trans (comma.opens.trans others.opens)).mono
      (by rw [fieldParens_cons field fields]; omega)

theorem Item.opens {field : Field Expr} {t u : List Char} :
    Item lexicon AsRead field t u → Opens (fieldParens [field]) t u
  | @Item.plain _ _ x _ _ name => name.opens.congr (fieldParens_plain x [])
  | @Item.default _ _ x e _ _ _ _ name mark default =>
    (name.opens.trans (mark.opens.trans default.opens)).mono
      (by rw [fieldParens_default x e [], fieldParens_nil]; omega)

theorem LetIn.opens {e : Expr} {t u : List Char} :
    LetIn lexicon AsRead e t u → Opens (parens e.renderBare) t u
  | .mk keyword bindings mark body =>
    (keyword.opens.trans (bindings.opens.trans (mark.opens.trans body.opens))).mono
      (by rw [parens_letIn]; omega)

theorem LetBindings.opens {bs : List (Binding String Expr)} {t u : List Char} :
    LetBindings lexicon AsRead bs t u → Opens (parens (renderDefinitions bs)) t u
  | .nil t => .refl t
  | .cons first semicolon others =>
    (first.opens.trans (semicolon.opens.trans others.opens)).mono
      (by rw [parens_renderDefinitions_cons]; omega)

theorem LetBinding.opens {b : Binding String Expr} {t u : List Char} :
    LetBinding lexicon AsRead b t u → Opens (parens b.definitionText) t u
  | .inherit h => h.opens
  | .equation name mark value =>
    (name.opens.trans (mark.opens.trans value.opens)).mono
      (by rw [parens_definitionText_equation]; omega)

theorem Application.opens {e : Expr} {t u : List Char} :
    Application lexicon AsRead e t u → Opens (parens e.renderBare) t u
  | .operands h => h.opens.mono (parens_renderBare_le _ _)
  | .lastLambda function argument =>
    (function.opens.trans argument.opens).congr
      (by rw [parens_apply, parens_render_of_bare argument.bare])

/-- What is applied has the parentheses that a function needs. -/
theorem Operands.opens {e : Expr} {t u : List Char} :
    Operands lexicon AsRead e t u → Opens (parens (e.render .applyLeft)) t u
  | .first h => h.opens .applyLeft
  | @Operands.next _ _ f a _ _ _ function argument => by
    cases h : (Expr.apply f a).needsParens .applyLeft with
    | false =>
      rw [parens_render_of_bare h, parens_apply]
      exact function.opens.trans (argument.opens .applyRight)
    | true =>
      obtain ⟨hright, hleft⟩ := needsParens_of_apply h
      refine (function.opens.trans (argument.opens .dotLeft)).mono ?_
      rw [parens_render, parens_apply, parens_render_of_bare hright, parens_render a, h, hleft]
      exact Nat.le_of_eq (Nat.add_assoc _ _ _)

/-- What stands as it is everywhere has the parentheses that it needs anywhere. -/
theorem Dotted.opens {e : Expr} {t u : List Char} (place : Place) :
    Dotted lexicon AsRead e t u → Opens (parens (e.render place)) t u
  | .primary h => h.opens place
  | @Dotted.key _ _ e k _ _ _ _ subject dot key =>
    ((subject.opens .dotLeft).trans (dot.opens.trans key.opens)).mono (by
      have hbare : (Expr.dot e k).needsParens place = false := by cases place <;> rfl
      rw [parens_render_of_bare hbare, parens_dot]
      omega)

theorem Primary.opens {e : Expr} {t u : List Char} (place : Place) :
    Primary lexicon AsRead e t u → Opens (parens (e.render place)) t u
  | .string h => h.opens.congr (by
      rw [parens_render_of_bare (by cases place <;> rfl), parens_str])
  | .list opens items closes =>
    (opens.opens.trans (items.opens.trans closes.opens)).mono (by
      rw [parens_render_of_bare (by cases place <;> rfl), parens_list]
      omega)
  | .dict h => h.opens.congr (by rw [parens_render_of_bare (by cases place <;> rfl), parens_dict])
  | .recursiveDict keyword h =>
    (keyword.opens.trans h.opens).mono (by
      rw [parens_render_of_bare (by cases place <;> rfl), parens_dict]
      omega)
  | @Primary.var _ _ x _ _ name => name.opens.congr (by
      rw [parens_render_of_bare (by cases place <;> rfl)]
      exact parens_name x)
  | @Primary.parens _ _ e _ _ _ _ opens inner closes =>
    (opens.opens.trans (inner.opens.trans closes.opens)).mono (by
      have hopen : parens "(" = 1 := rfl
      have hle := parens_render_le e place
      omega)

theorem Items.opens {es : List Expr} {t u : List Char} :
    Items lexicon AsRead es t u → Opens (parens (renderItems es)) t u
  | .nil t => .refl t
  | .cons first others =>
    ((first.opens .listItem).trans others.opens).congr (parens_renderItems_cons _ _)

theorem Dict.opens {bs : List (Binding Expr Expr)} {t u : List Char} :
    Dict lexicon AsRead bs t u → Opens (parens (renderEntries bs)) t u
  | .mk opens bindings closes =>
    (opens.opens.trans (bindings.opens.trans closes.opens)).mono (by omega)

theorem DictBindings.opens {bs : List (Binding Expr Expr)} {t u : List Char} :
    DictBindings lexicon AsRead bs t u → Opens (parens (renderEntries bs)) t u
  | .nil t => .refl t
  | .cons first semicolon others =>
    (first.opens.trans (semicolon.opens.trans others.opens)).mono
      (by rw [parens_renderEntries_cons]; omega)

theorem DictBinding.opens {b : Binding Expr Expr} {t u : List Char} :
    DictBinding lexicon AsRead b t u → Opens (parens b.entryText) t u
  | .inherit h => h.opens
  | .equation key mark value =>
    (key.opens.trans (mark.opens.trans value.opens)).mono
      (by rw [parens_entryText_equation]; omega)

theorem Key.opens {k : Expr} {t u : List Char} :
    Key lexicon AsRead k t u → Opens (parens k.renderBare) t u
  | @Key.name _ _ x _ _ name => name.opens.congr (by
      rw [Expr.text, parens_str, parens_renderPieces_literal, parens_name]
      rfl)
  | .string h => h.opens.congr (parens_str _)
  | .hole opens inner closes =>
    (opens.opens.trans (inner.opens.trans closes.opens)).mono (by omega)

theorem Inheritance.opens {source : Option Expr} {names : List String} {t u : List Char} :
    Inheritance lexicon AsRead source names t u → Opens (parens (renderInherit source names)) t u
  | .scope keyword list =>
    (keyword.opens.trans list.opens).mono (by rw [parens_renderInherit_none]; omega)
  | .source keyword opens inner closes list =>
    (keyword.opens.trans (opens.opens.trans (inner.opens.trans (closes.opens.trans
      list.opens)))).mono (by
        have hopen : parens "(" = 1 := rfl
        rw [parens_renderInherit_some]
        omega)

theorem Names.opens {names : List String} {t u : List Char} :
    Names lexicon AsRead names t u → Opens (parens (renderNames names)) t u
  | .nil t => .refl t
  | .cons first others => (first.opens.trans others.opens).congr (parens_renderNames_cons _ _)

theorem StaticName.opens {x : String} {t u : List Char} :
    StaticName lexicon AsRead x t u → Opens (parens x) t u
  | .name name => name.opens.congr (parens_name _)
  | .string h static => h.opens.congr (parens_of_symbols static)

theorem StringLiteral.opens {s : Template Expr} {t u : List Char} :
    StringLiteral lexicon AsRead s t u → Opens (parens (renderPieces s)) t u
  | .mk opens inner blank content normal =>
    (opens.opens.trans (inner.opens.trans blank.opens)).mono (by
      have hsolids := content.filter_isSolid
      rw [← normal.reads] at hsolids
      rw [parens_renderPieces_of_solids hsolids]
      omega)

theorem StringBody.opens {o : Parser.Opening} {body : Template Expr} {t u : List Char} :
    StringBody lexicon AsRead o body t u → Opens (parens (renderPieces body)) t u
  | .close h => h.opens
  | .chars first others =>
    (first.opens.trans others.opens).congr (by
      rw [parens_renderPieces_literal, parens, String.toList_ofList])
  | @StringBody.hole _ _ _ _ _ t _ _ _ _ blank inner closes others =>
    ((Opens.of_suffix (t := '$' :: '\x7b' :: t) ⟨['$', '\x7b'], rfl⟩).trans (blank.opens.trans
      (inner.opens.trans (closes.opens.trans others.opens)))).mono (by
        rw [parens_renderPieces_antiquote]
        omega)

end

/-- In a program at least as many parentheses open as in the rendering of its tree. -/
theorem Program.parens_le {e : Expr} {text : List Char} (h : Program lexicon AsRead e text) :
    parens e.renderBare ≤ text.count '(' := by
  obtain ⟨t, hblank, he⟩ := h
  have hopens : Opens (0 + parens e.renderBare) text [] := hblank.opens.trans he.opens
  simpa [Opens] using hopens

end LazyConfig.Grammar

namespace LazyConfig

/-- What is read has at least as many parentheses as it is rendered with. -/
theorem parens_le_of_readProgram {lexicon : Lexicon} {text : String} {e : Expr}
    (h : readProgram lexicon text = .accepted e) : parens e.renderBare ≤ parens text :=
  (program_of_readProgram h).parens_le

end LazyConfig
