import LazyConfig.Proofs.Grammar.Complete
import LazyConfig.Proofs.Parsing.RoundTrip
import LazyConfig.Proofs.Template.Cuts
set_option autoImplicit false

/-!
# The grammar: cuts that are read

The rendering of a template is read back as the template, with its literals merged, unless a
mark is cut.  At such a cut the rendering has the unescaped mark of an antiquote, and so
whatever is read has a hole where the template has a dollar sign.

That is shown on derivations.  A body that reads like a template is derived from the rendering
of the template in one way only: each unit of the text is what the template has there.
-/

namespace LazyConfig

open LazyConfig.Parser Template

namespace Grammar

variable {lexicon : Lexicon} {t u v w : List Char}

/-! ## What a literal is derived as -/

/-- The symbols of a body whose text starts with a written character start with it. -/
theorem StringBody.symbols_of_chars {body : Template Expr} {cs : List Char} {n : Nat}
    {m : List (Char ⊕ Expr)} (h : StringBody lexicon AsRead .quoted body t u)
    (hunit : quotedUnit t = .chars cs n) (hsymbols : symbols body = cs.map Sum.inl ++ m) :
    ∃ others, StringBody lexicon AsRead .quoted others (t.drop n) u ∧ symbols others = m := by
  obtain ⟨others, rfl, hothers⟩ := h.of_chars hunit
  refine ⟨others, hothers, ?_⟩
  simpa [Piece.symbols] using hsymbols

/-- The text of a literal is derived as its characters.  If its last character is a dollar
sign, no brace follows. -/
theorem StringBody.of_escapeChars {body : Template Expr} {l : List Char}
    {m : List (Char ⊕ Expr)} (h : StringBody lexicon AsRead .quoted body (escapeChars l ++ t) u)
    (hsymbols : symbols body = l.map Sum.inl ++ m) :
    ¬ (l.getLast? = some '$' ∧ t.head? = some '\x7b') ∧
      ∃ others, StringBody lexicon AsRead .quoted others t u ∧ symbols others = m := by
  fun_induction escapeChars l generalizing body with
  | case1 => exact ⟨by simp, body, h, hsymbols⟩
  | case2 rest ih =>
    have hunit : quotedUnit ('\\' :: '$' :: '\x7b' :: (escapeChars rest ++ t)) =
        .chars ['$', '\x7b'] 3 := rfl
    obtain ⟨others, hothers, hrest⟩ := h.symbols_of_chars hunit hsymbols
    obtain ⟨hlast, hbody⟩ := ih hothers hrest
    refine ⟨?_, hbody⟩
    rintro ⟨hdollar, hbrace⟩
    cases rest with
    | nil => simp at hdollar
    | cons x rest => exact hlast ⟨by simpa using hdollar, hbrace⟩
  | case3 c rest hmark ih =>
    have htext : StringBody lexicon AsRead .quoted body
        (escapeChar c ++ (escapeChars rest ++ t)) u := by
      rw [← List.append_assoc]
      exact h
    have hhole : c = '$' → (escapeChars rest ++ t).head? ≠ some '\x7b' := by
      rintro rfl hbrace
      obtain ⟨tail, htail⟩ := List.head?_eq_some_iff.mp hbrace
      rw [htail] at htext
      -- The unit is the start of an antiquote, but the symbol is a character.
      obtain ⟨e, others, _, _, _, rfl, -⟩ := htext.of_hole
      simp [Piece.symbols] at hsymbols
    obtain ⟨others, hothers, hrest⟩ := htext.symbols_of_chars (quotedUnit_escapeChar hhole) hsymbols
    rw [List.drop_left] at hothers
    obtain ⟨hlast, hbody⟩ := ih hothers hrest
    refine ⟨?_, hbody⟩
    rintro ⟨hdollar, hbrace⟩
    cases rest with
    | nil => exact hhole (by simpa using hdollar) hbrace
    | cons x rest => exact hlast ⟨by simpa using hdollar, hbrace⟩

/-! ## Expressions end where they are rendered to end -/

/-- A rendered expression that is derived in front of a delimiter ends where its rendering does. -/
theorem Expression.rest_eq {e : Expr} {d : String} (he : e.isCanonical = true) (ht : Closes t)
    (h : Expression Lexicon.standard AsRead e (e.chars .normal ++ t) u)
    (hclose : Delimiter Lexicon.standard d u v) (hd : (Start.delimiter d).isEnd = true) :
    u = afterBlank t := by
  let r := Rules.ofDepth ((e.chars .normal ++ t).length + 1)
  have hback : r.ReadBelow false _ := readBelow_ofDepth _
  have hcomplete : r.CompleteBelow false _ := completeBelow_ofDepth _
  have hstart := (e.startsOperand_chars .normal).append t
  have hlength : (e.chars .normal).length < (e.chars .normal ++ t).length + 1 := by
    rw [List.length_append]
    omega
  -- The reader stops where the rendering ends, and it stops where the derivation ends.
  have hread := hback.expression e he hlength t ht _ _ (hstart.skip 0)
  have hfind := finds_expression hcomplete (Nat.lt_succ_self _) h hclose hd _
    (congrArg Cursor.rest (hstart.skip 0)) 0
  rw [hread] at hfind
  rw [← hfind.2]
  exact afterBlank_afterBlank t

/-- The text of an antiquote is derived as the antiquote and what is behind it. -/
theorem StringBody.of_antiquote {e : Expr} {body : Template Expr} {m : List (Char ⊕ Expr)}
    (he : e.isCanonical = true)
    (h : StringBody Lexicon.standard AsRead .quoted body
      ('$' :: '\x7b' :: (e.chars .normal ++ '\x7d' :: t)) u)
    (hsymbols : symbols body = Sum.inr e :: m) :
    ∃ others, StringBody Lexicon.standard AsRead .quoted others t u ∧ symbols others = m := by
  obtain ⟨e', others, v, w, z, rfl, hblank, hinner, hclose, hothers⟩ := h.of_hole
  simp only [symbols_cons, Piece.symbols, List.singleton_append, List.cons.injEq,
    Sum.inr.injEq] at hsymbols
  obtain ⟨rfl, hrest⟩ := hsymbols
  have hstart := (e'.startsOperand_chars .normal).append ('\x7d' :: t)
  obtain rfl : v = e'.chars .normal ++ '\x7d' :: t :=
    hblank.eq_afterBlank.trans (congrArg Cursor.rest (hstart.skip 0))
  have hend := hinner.rest_eq he (closes_cons (by decide) t) ⟨z, hclose, blank_iff.mpr rfl⟩
    (by decide)
  obtain rfl : t = z := by
    have htext := hclose.text
    rw [hend, afterBlank_of_solid (by simp [isSpace])] at htext
    simpa using htext
  exact ⟨others, hothers, hrest⟩

/-! ## Rendered templates -/

/-- A template that reads as something with a brace in front is rendered with one in front. -/
theorem head?_renderPieces_of_startsBrace {ps : Template Expr}
    (h : startsBrace (symbols ps) = true) (rest : List Char) :
    ((renderPieces ps).toList ++ rest).head? = some '\x7b' := by
  induction ps with
  | nil => simp [startsBrace] at h
  | cons piece ps ih =>
    cases piece with
    | antiquote e => simp [startsBrace, Piece.symbols] at h
    | literal a =>
      cases ha : a.toList with
      | nil =>
        have hps : startsBrace (symbols ps) = true := by simpa [Piece.symbols, ha] using h
        simpa [renderPieces, toList_escape, ha, escapeChars] using ih hps
      | cons c l =>
        obtain rfl : c = '\x7b' := by simpa [startsBrace, Piece.symbols, ha] using h
        simp [renderPieces, toList_escape, ha, escapeChars]

/-- If a body that reads like a template is derived from its rendering, no mark of the template
is cut. -/
theorem StringBody.cutMarks_eq_zero {ps body : Template Expr} {rest : List Char}
    (hcanonical : canonicalPieces ps = true)
    (h : StringBody Lexicon.standard AsRead .quoted body ((renderPieces ps).toList ++ rest) u)
    (hsymbols : symbols body = symbols ps) : cutMarks ps = 0 := by
  induction ps generalizing body with
  | nil => rfl
  | cons piece ps ih =>
    cases piece with
    | literal a =>
      have htext : StringBody Lexicon.standard AsRead .quoted body
          (escapeChars a.toList ++ ((renderPieces ps).toList ++ rest)) u := by
        simpa [renderPieces, toList_escape] using h
      obtain ⟨huncut, others, hothers, hrest⟩ := htext.of_escapeChars hsymbols
      have hcut : ¬ (a.toList.getLast? = some '$' ∧ startsBrace (symbols ps) = true) :=
        fun hmark => huncut ⟨hmark.1, head?_renderPieces_of_startsBrace hmark.2 rest⟩
      rw [cutMarks, if_neg hcut, Nat.zero_add]
      exact ih hcanonical hothers hrest
    | antiquote e =>
      have he : e.isCanonical = true ∧ canonicalPieces ps = true := by
        simpa [canonicalPieces] using hcanonical
      have htext : StringBody Lexicon.standard AsRead .quoted body ('$' :: '\x7b' ::
          (e.chars .normal ++ '\x7d' :: ((renderPieces ps).toList ++ rest))) u := by
        simpa [renderPieces, Expr.chars] using h
      obtain ⟨others, hothers, hrest⟩ := htext.of_antiquote he.1 hsymbols
      exact ih he.2 hothers hrest

/-! ## Programs that are strings -/

/-- An expression that is a string and starts with a quotation mark is a literal, not one in
parentheses. -/
theorem Expression.stringLiteral {s : Template Expr}
    (h : Expression lexicon AsRead (.str s) ('"' :: t) u) :
    StringLiteral lexicon AsRead s ('"' :: t) u := by
  cases h with
  | lambda h => cases h
  | letIn h => cases h
  | application h =>
    cases h with
    | operands h =>
      cases h with
      | first h =>
        cases h with
        | primary h =>
          cases h with
          | string h => exact h
          | parens opens inner closes =>
            obtain ⟨_, hmark, -⟩ := opens
            have htext := hmark.text
            simp at htext

/-- A literal in double quotation marks reads as its body. -/
theorem StringLiteral.exists_body {s : Template Expr}
    (h : StringLiteral lexicon AsRead s ('"' :: t) u) :
    ∃ body v, symbols body = symbols s ∧ StringBody lexicon AsRead .quoted body t v := by
  cases h with
  | mk opens inner blank content normal =>
    cases opens with
    | quoted =>
      cases content with
      | quoted => exact ⟨_, _, normal.reads.symm, inner⟩

end Grammar

/-! ## Reading renderings -/

open Grammar

theorem canonicalPieces_clean (t : Template Expr) :
    canonicalPieces t.clean = canonicalPieces t := by
  rw [Bool.eq_iff_iff, canonicalPieces_iff, canonicalPieces_iff]
  simp [antiquote_mem_clean]

/-- A rendering that is read as the cleaned template has no cut mark. -/
theorem cutMarks_eq_zero_of_readProgram {t : Template Expr}
    (h : readProgram Lexicon.standard (renderTemplate t) = .accepted (.str t.clean)) :
    cutMarks t = 0 ∧ canonicalPieces t = true := by
  obtain ⟨v, hblank, he⟩ := program_of_readProgram h
  have htext : (renderTemplate t).toList = '"' :: ((renderPieces t).toList ++ ['"']) := by
    simp [renderTemplate]
  rw [htext] at hblank
  obtain rfl := hblank.eq_afterBlank.trans (afterBlank_of_solid (by simp [isSpace]))
  have hcanonical : canonicalPieces t = true := by
    have hclean := he.isCanonical
    rw [Expr.isCanonical, canonicalPieces_clean, Bool.and_eq_true] at hclean
    exact hclean.2
  obtain ⟨body, w, hbody, hinner⟩ := he.stringLiteral.exists_body
  have hsymbols : symbols body = symbols t := hbody.trans (symbols_clean t)
  exact ⟨hinner.cutMarks_eq_zero hcanonical hsymbols, hcanonical⟩

/-- Without a cut mark the rendering is that of the cleaned template, and so it is read back. -/
theorem readProgram_renderTemplate {t : Template Expr} (huncut : cutMarks t = 0)
    (hcanonical : canonicalPieces t = true) :
    readProgram Lexicon.standard (renderTemplate t) = .accepted (.str t.clean) := by
  have hclean : cutMarks t.clean = 0 :=
    cutMarks_eq_zero_of_isMerged (isMerged_of_isClean (isClean_clean t))
  have hrender : renderTemplate t = Expr.render (.str t.clean) .normal :=
    renderTemplate_congr huncut hclean (symbols_clean t).symm
  rw [hrender]
  refine readTraced_render _ ?_ .normal false
  rw [Expr.isCanonical, canonicalPieces_clean, hcanonical, isClean_clean, Bool.and_self]

/-- A template is rendered like its normal form, and its rendering is read as the template with
its empty literals dropped and its neighbouring literals merged, exactly if no mark is cut and
the antiquotes themselves are canonical. -/
theorem read_renderTemplate_iff (t : Template Expr) :
    (renderTemplate t = renderTemplate t.normalize ↔ cutMarks t = 0) ∧
      (readProgram Lexicon.standard (renderTemplate t) = .accepted (.str t.clean) ↔
        cutMarks t = 0 ∧ canonicalPieces t = true) :=
  ⟨renderTemplate_normalize_iff t, cutMarks_eq_zero_of_readProgram,
    fun h => readProgram_renderTemplate h.1 h.2⟩

/-- Two literals that are cut in a mark: their rendering is not that of the merged literal, and
it is read as an antiquote. -/
theorem read_renderTemplate_cut :
    let t : Template Expr := [.literal "$", .literal "\x7bx\x7d"]
    renderTemplate t ≠ renderTemplate t.normalize ∧
      readProgram Lexicon.standard (renderTemplate t) =
        .accepted (.str [.antiquote (.var ⟨"x", by decide⟩)]) ∧
      Expr.str t.clean ≠ .str [.antiquote (.var ⟨"x", by decide⟩)] := by
  decide +kernel

end LazyConfig
