import LazyConfig.Proofs.Grammar.Derivations
set_option autoImplicit false

/-!
# The grammar: other layouts

A text that is derived when the layout of indented strings is left out in one way is derived
when it is left out in another way, and nothing but the strings differs.  What the strings come
to decides no alternative: a derivation asks of the tree only that no pattern names a field
twice, and no string can be a field.

Where the two derivations give the same tree, all strings come to the same, and so the text is
derived with what both ways have in common.  That is shown for any two ways at once, by
induction on derivations with one case for each alternative of each rule.
-/

namespace LazyConfig.Grammar

/-! ## Two ways to leave out layout -/

/-- A way to leave out layout, another one, and what the two have in common.  To each outcome of
the one there is an outcome of the other, whatever stands in the holes, and an outcome without
holes has one without holes.  Where two such outcomes are the same, so were the texts, and what
the ways have in common leads there too. -/
structure Exchange where
  /-- The one way. -/
  source : Stripping
  /-- The other way. -/
  target : Stripping
  /-- What both have in common. -/
  common : Stripping
  /-- To each outcome of the one there is an outcome of the other. -/
  exchange : ∀ (p : List (Char ⊕ (Expr × Expr))) (l : List (Char ⊕ Expr)),
    source (fill Prod.fst p) l → ∃ m, target (fill Prod.snd p) m ∧
      ((∀ e, .inr e ∉ l) → ∀ e, .inr e ∉ m) ∧
      (l = m → fill Prod.fst p = fill Prod.snd p ∧ common (fill Prod.fst p) l)

variable {lexicon : Lexicon} (x : Exchange)

theorem Content.exchange {o : Parser.Opening} {p : List (Char ⊕ (Expr × Expr))}
    {l : List (Char ⊕ Expr)} (h : Content x.source o (fill Prod.fst p) l) :
    ∃ m, Content x.target o (fill Prod.snd p) m ∧ ((∀ e, .inr e ∉ l) → ∀ e, .inr e ∉ m) ∧
      (l = m → fill Prod.fst p = fill Prod.snd p ∧ Content x.common o (fill Prod.fst p) l) := by
  cases h with
  | quoted => exact ⟨_, .quoted _, inr_notMem_fill Prod.snd, fun h => ⟨h, .quoted _⟩⟩
  | indented h =>
    obtain ⟨m, hm, hnone, hsame⟩ := x.exchange p l h
    exact ⟨m, .indented hm, hnone, fun h => ⟨(hsame h).1, .indented (hsame h).2⟩⟩

/-- A text without holes is all characters. -/
theorem exists_chars {l : List (Char ⊕ Expr)} (h : ∀ e, .inr e ∉ l) :
    ∃ text : String, l = text.toList.map .inl := by
  induction l with
  | nil => exact ⟨"", rfl⟩
  | cons x l ih =>
    obtain ⟨text, rfl⟩ := ih fun e he => h e (List.mem_cons_of_mem _ he)
    cases x with
    | inl c => exact ⟨String.ofList (c :: text.toList), by simp⟩
    | inr e => exact absurd List.mem_cons_self (h e)

/-! ## Derivations -/

mutual

theorem Expression.exchange {e : Expr} {t u : List Char} :
    Expression lexicon x.source e t u → ∃ e', Expression lexicon x.target e' t u ∧
      (e = e' → Expression lexicon x.common e t u)
  | .lambda h => by
    obtain ⟨e', he, hsame⟩ := h.exchange
    exact ⟨e', .lambda he, fun h => .lambda (hsame h)⟩
  | .letIn h => by
    obtain ⟨e', he, hsame⟩ := h.exchange
    exact ⟨e', .letIn he, fun h => .letIn (hsame h)⟩
  | .application h => by
    obtain ⟨e', he, hsame⟩ := h.exchange
    exact ⟨e', .application he, fun h => .application (hsame h)⟩

theorem Lambda.exchange {e : Expr} {t u : List Char} :
    Lambda lexicon x.source e t u → ∃ e', Lambda lexicon x.target e' t u ∧
      (e = e' → Lambda lexicon x.common e t u)
  | .mk param colon body => by
    obtain ⟨p', hp, hparam⟩ := param.exchange
    obtain ⟨e', he, hbody⟩ := body.exchange
    refine ⟨_, .mk hp colon he, fun h => ?_⟩
    cases h
    exact .mk (hparam rfl) colon (hbody rfl)

theorem Parameter.exchange {p : Param Expr} {t u : List Char} :
    Parameter lexicon x.source p t u → ∃ p', Parameter lexicon x.target p' t u ∧
      (p = p' → Parameter lexicon x.common p t u)
  | .name name => ⟨_, .name name, fun _ => .name name⟩
  | .pattern pattern => by
    obtain ⟨p', hp, hpattern⟩ := pattern.exchange
    refine ⟨_, .pattern hp, fun h => ?_⟩
    cases h
    exact .pattern (hpattern rfl)
  | .both name mark pattern => by
    obtain ⟨p', hp, hpattern⟩ := pattern.exchange
    refine ⟨_, .both name mark hp, fun h => ?_⟩
    cases h
    exact .both name mark (hpattern rfl)

theorem DictPattern.exchange {p : Pattern Expr} {t u : List Char} :
    DictPattern lexicon x.source p t u → ∃ p', DictPattern lexicon x.target p' t u ∧
      (p = p' → DictPattern lexicon x.common p t u)
  | .empty opens closes => ⟨_, .empty opens closes, fun _ => .empty opens closes⟩
  | @DictPattern.fields _ _ _ ellipsis _ _ _ _ opens list closes distinct => by
    obtain ⟨fields', hfields, hnames, hlist⟩ := list.exchange
    have hdistinct : Pattern.Distinct ⟨fields', ellipsis⟩ := by
      unfold Pattern.Distinct Pattern.names at distinct ⊢
      rwa [hnames]
    refine ⟨_, .fields opens hfields closes hdistinct, fun h => ?_⟩
    cases h
    exact .fields opens (hlist rfl) closes distinct

/-- The fields keep their names. -/
theorem Fields.exchange {fields : List (Field Expr)} {ellipsis : Bool} {t u : List Char} :
    Fields lexicon x.source fields ellipsis t u →
      ∃ fields', Fields lexicon x.target fields' ellipsis t u ∧
        (fields'.map fun field => field.name.text) = (fields.map fun field => field.name.text) ∧
        (fields = fields' → Fields lexicon x.common fields ellipsis t u)
  | .ellipsis h => ⟨_, .ellipsis h, rfl, fun _ => .ellipsis h⟩
  | .last item => by
    obtain ⟨field', hfield, hname, hitem⟩ := item.exchange
    refine ⟨_, .last hfield, by simp [hname], fun h => ?_⟩
    cases h
    exact .last (hitem rfl)
  | .more item comma others => by
    obtain ⟨field', hfield, hname, hitem⟩ := item.exchange
    obtain ⟨fields', hfields, hnames, hothers⟩ := others.exchange
    refine ⟨_, .more hfield comma hfields, by simp [hname, hnames], fun h => ?_⟩
    cases h
    exact .more (hitem rfl) comma (hothers rfl)

theorem Item.exchange {field : Field Expr} {t u : List Char} :
    Item lexicon x.source field t u → ∃ field', Item lexicon x.target field' t u ∧
      field'.name = field.name ∧ (field = field' → Item lexicon x.common field t u)
  | .plain name => ⟨_, .plain name, rfl, fun _ => .plain name⟩
  | .default name mark default => by
    obtain ⟨e', he, hdefault⟩ := default.exchange
    refine ⟨_, .default name mark he, rfl, fun h => ?_⟩
    cases h
    exact .default name mark (hdefault rfl)

theorem LetIn.exchange {e : Expr} {t u : List Char} :
    LetIn lexicon x.source e t u → ∃ e', LetIn lexicon x.target e' t u ∧
      (e = e' → LetIn lexicon x.common e t u)
  | .mk keyword bindings mark body => by
    obtain ⟨bs', hbs, hbindings⟩ := bindings.exchange
    obtain ⟨e', he, hbody⟩ := body.exchange
    refine ⟨_, .mk keyword hbs mark he, fun h => ?_⟩
    cases h
    exact .mk keyword (hbindings rfl) mark (hbody rfl)

theorem LetBindings.exchange {bs : List (Binding String Expr)} {t u : List Char} :
    LetBindings lexicon x.source bs t u → ∃ bs', LetBindings lexicon x.target bs' t u ∧
      (bs = bs' → LetBindings lexicon x.common bs t u)
  | .nil _ => ⟨_, .nil _, fun _ => .nil _⟩
  | .cons first semicolon others => by
    obtain ⟨b', hb, hfirst⟩ := first.exchange
    obtain ⟨bs', hbs, hothers⟩ := others.exchange
    refine ⟨_, .cons hb semicolon hbs, fun h => ?_⟩
    cases h
    exact .cons (hfirst rfl) semicolon (hothers rfl)

theorem LetBinding.exchange {b : Binding String Expr} {t u : List Char} :
    LetBinding lexicon x.source b t u → ∃ b', LetBinding lexicon x.target b' t u ∧
      (b = b' → LetBinding lexicon x.common b t u)
  | .inherit h => by
    obtain ⟨source', names', h', hsame⟩ := h.exchange
    refine ⟨_, .inherit h', fun h => ?_⟩
    cases h
    exact .inherit (hsame rfl rfl)
  | .equation name mark value => by
    obtain ⟨y, hy, hname⟩ := name.exchange
    obtain ⟨e', he, hvalue⟩ := value.exchange
    refine ⟨_, .equation hy mark he, fun h => ?_⟩
    cases h
    exact .equation (hname rfl) mark (hvalue rfl)

theorem Application.exchange {e : Expr} {t u : List Char} :
    Application lexicon x.source e t u → ∃ e', Application lexicon x.target e' t u ∧
      (e = e' → Application lexicon x.common e t u)
  | .operands h => by
    obtain ⟨e', he, hsame⟩ := h.exchange
    exact ⟨e', .operands he, fun h => .operands (hsame h)⟩
  | .lastLambda function argument => by
    obtain ⟨f', hf, hfunction⟩ := function.exchange
    obtain ⟨a', ha, hargument⟩ := argument.exchange
    refine ⟨_, .lastLambda hf ha, fun h => ?_⟩
    cases h
    exact .lastLambda (hfunction rfl) (hargument rfl)

theorem Operands.exchange {e : Expr} {t u : List Char} :
    Operands lexicon x.source e t u → ∃ e', Operands lexicon x.target e' t u ∧
      (e = e' → Operands lexicon x.common e t u)
  | .first h => by
    obtain ⟨e', he, hsame⟩ := h.exchange
    exact ⟨e', .first he, fun h => .first (hsame h)⟩
  | .next function argument => by
    obtain ⟨f', hf, hfunction⟩ := function.exchange
    obtain ⟨a', ha, hargument⟩ := argument.exchange
    refine ⟨_, .next hf ha, fun h => ?_⟩
    cases h
    exact .next (hfunction rfl) (hargument rfl)

theorem Dotted.exchange {e : Expr} {t u : List Char} :
    Dotted lexicon x.source e t u → ∃ e', Dotted lexicon x.target e' t u ∧
      (e = e' → Dotted lexicon x.common e t u)
  | .primary h => by
    obtain ⟨e', he, hsame⟩ := h.exchange
    exact ⟨e', .primary he, fun h => .primary (hsame h)⟩
  | .key subject dot key => by
    obtain ⟨e', he, hsubject⟩ := subject.exchange
    obtain ⟨k', hk, hkey⟩ := key.exchange
    refine ⟨_, .key he dot hk, fun h => ?_⟩
    cases h
    exact .key (hsubject rfl) dot (hkey rfl)

theorem Primary.exchange {e : Expr} {t u : List Char} :
    Primary lexicon x.source e t u → ∃ e', Primary lexicon x.target e' t u ∧
      (e = e' → Primary lexicon x.common e t u)
  | .string h => by
    obtain ⟨s', hs, -, hsame⟩ := h.exchange
    refine ⟨_, .string hs, fun h => ?_⟩
    cases h
    exact .string (hsame rfl)
  | .list opens items closes => by
    obtain ⟨es', hes, hitems⟩ := items.exchange
    refine ⟨_, .list opens hes closes, fun h => ?_⟩
    cases h
    exact .list opens (hitems rfl) closes
  | .dict h => by
    obtain ⟨bs', hbs, hsame⟩ := h.exchange
    refine ⟨_, .dict hbs, fun h => ?_⟩
    cases h
    exact .dict (hsame rfl)
  | .recursiveDict keyword h => by
    obtain ⟨bs', hbs, hsame⟩ := h.exchange
    refine ⟨_, .recursiveDict keyword hbs, fun h => ?_⟩
    cases h
    exact .recursiveDict keyword (hsame rfl)
  | .var name => ⟨_, .var name, fun _ => .var name⟩
  | .parens opens inner closes => by
    obtain ⟨e', he, hsame⟩ := inner.exchange
    exact ⟨e', .parens opens he closes, fun h => .parens opens (hsame h) closes⟩

theorem Items.exchange {es : List Expr} {t u : List Char} :
    Items lexicon x.source es t u → ∃ es', Items lexicon x.target es' t u ∧
      (es = es' → Items lexicon x.common es t u)
  | .nil _ => ⟨_, .nil _, fun _ => .nil _⟩
  | .cons first others => by
    obtain ⟨e', he, hfirst⟩ := first.exchange
    obtain ⟨es', hes, hothers⟩ := others.exchange
    refine ⟨_, .cons he hes, fun h => ?_⟩
    cases h
    exact .cons (hfirst rfl) (hothers rfl)

theorem Dict.exchange {bs : List (Binding Expr Expr)} {t u : List Char} :
    Dict lexicon x.source bs t u → ∃ bs', Dict lexicon x.target bs' t u ∧
      (bs = bs' → Dict lexicon x.common bs t u)
  | .mk opens bindings closes => by
    obtain ⟨bs', hbs, hbindings⟩ := bindings.exchange
    exact ⟨bs', .mk opens hbs closes, fun h => .mk opens (hbindings h) closes⟩

theorem DictBindings.exchange {bs : List (Binding Expr Expr)} {t u : List Char} :
    DictBindings lexicon x.source bs t u → ∃ bs', DictBindings lexicon x.target bs' t u ∧
      (bs = bs' → DictBindings lexicon x.common bs t u)
  | .nil _ => ⟨_, .nil _, fun _ => .nil _⟩
  | .cons first semicolon others => by
    obtain ⟨b', hb, hfirst⟩ := first.exchange
    obtain ⟨bs', hbs, hothers⟩ := others.exchange
    refine ⟨_, .cons hb semicolon hbs, fun h => ?_⟩
    cases h
    exact .cons (hfirst rfl) semicolon (hothers rfl)

theorem DictBinding.exchange {b : Binding Expr Expr} {t u : List Char} :
    DictBinding lexicon x.source b t u → ∃ b', DictBinding lexicon x.target b' t u ∧
      (b = b' → DictBinding lexicon x.common b t u)
  | .inherit h => by
    obtain ⟨source', names', h', hsame⟩ := h.exchange
    refine ⟨_, .inherit h', fun h => ?_⟩
    cases h
    exact .inherit (hsame rfl rfl)
  | .equation key mark value => by
    obtain ⟨k', hk, hkey⟩ := key.exchange
    obtain ⟨e', he, hvalue⟩ := value.exchange
    refine ⟨_, .equation hk mark he, fun h => ?_⟩
    cases h
    exact .equation (hkey rfl) mark (hvalue rfl)

theorem Key.exchange {k : Expr} {t u : List Char} :
    Key lexicon x.source k t u → ∃ k', Key lexicon x.target k' t u ∧
      (k = k' → Key lexicon x.common k t u)
  | .name name => ⟨_, .name name, fun _ => .name name⟩
  | .string h => by
    obtain ⟨s', hs, -, hsame⟩ := h.exchange
    refine ⟨_, .string hs, fun h => ?_⟩
    cases h
    exact .string (hsame rfl)
  | .hole opens inner closes => by
    obtain ⟨e', he, hsame⟩ := inner.exchange
    exact ⟨e', .hole opens he closes, fun h => .hole opens (hsame h) closes⟩

theorem Inheritance.exchange {source : Option Expr} {names : List String} {t u : List Char} :
    Inheritance lexicon x.source source names t u →
      ∃ source' names', Inheritance lexicon x.target source' names' t u ∧
        (source = source' → names = names' → Inheritance lexicon x.common source names t u)
  | .scope keyword list => by
    obtain ⟨names', hnames, hlist⟩ := list.exchange
    exact ⟨_, names', .scope keyword hnames, fun _ h => .scope keyword (hlist h)⟩
  | .source keyword opens inner closes list => by
    obtain ⟨e', he, hinner⟩ := inner.exchange
    obtain ⟨names', hnames, hlist⟩ := list.exchange
    refine ⟨_, names', .source keyword opens he closes hnames, fun hsource h => ?_⟩
    cases hsource
    exact .source keyword opens (hinner rfl) closes (hlist h)

theorem Names.exchange {names : List String} {t u : List Char} :
    Names lexicon x.source names t u → ∃ names', Names lexicon x.target names' t u ∧
      (names = names' → Names lexicon x.common names t u)
  | .nil _ => ⟨_, .nil _, fun _ => .nil _⟩
  | .cons first others => by
    obtain ⟨y, hy, hfirst⟩ := first.exchange
    obtain ⟨names', hnames, hothers⟩ := others.exchange
    refine ⟨_, .cons hy hnames, fun h => ?_⟩
    cases h
    exact .cons (hfirst rfl) (hothers rfl)

theorem StaticName.exchange {y : String} {t u : List Char} :
    StaticName lexicon x.source y t u → ∃ y', StaticName lexicon x.target y' t u ∧
      (y = y' → StaticName lexicon x.common y t u)
  | .name name => ⟨_, .name name, fun _ => .name name⟩
  | @StaticName.string _ _ s _ _ _ h static => by
    have hs := h.isClean
    obtain ⟨s', hs', hnone, hsame⟩ := h.exchange
    obtain ⟨y', hy'⟩ := exists_chars (hnone (by simp [static]))
    refine ⟨y', .string hs' hy', fun hy => .string (hsame ?_) static⟩
    exact Template.eq_of_symbols_eq hs hs'.isClean (by rw [static, hy', hy])

theorem StringLiteral.exchange {s : Template Expr} {t u : List Char} :
    StringLiteral lexicon x.source s t u → ∃ s', StringLiteral lexicon x.target s' t u ∧
      ((∀ e, .inr e ∉ s.symbols) → ∀ e, .inr e ∉ s'.symbols) ∧
      (s = s' → StringLiteral lexicon x.common s t u)
  | .mk opens inner blank content normal => by
    obtain ⟨body', p, hbody, hfst, hsnd, hinner⟩ := inner.exchange
    rw [← hfst] at content
    obtain ⟨m, hm, hnone, hsame⟩ := content.exchange x
    obtain ⟨s', hs'⟩ := exists_normal m
    rw [hsnd] at hm
    rw [hfst, hsnd] at hsame
    refine ⟨s', .mk opens hbody blank hm hs', ?_, fun h => ?_⟩
    · rwa [normal.reads, hs'.reads]
    · have hcontent := hsame (by rw [← normal.reads, h, hs'.reads])
      exact .mk opens (hinner hcontent.1) blank hcontent.2 normal

/-- The bodies have the same characters, and holes at the same places. -/
theorem StringBody.exchange {o : Parser.Opening} {body : Template Expr} {t u : List Char} :
    StringBody lexicon x.source o body t u → ∃ body' p,
      StringBody lexicon x.target o body' t u ∧ fill Prod.fst p = body.symbols ∧
        fill Prod.snd p = body'.symbols ∧
        (body.symbols = body'.symbols → StringBody lexicon x.common o body t u)
  | .close h => ⟨_, [], .close h, rfl, rfl, fun _ => .close h⟩
  | @StringBody.chars _ _ _ cs _ _ _ _ first others => by
    obtain ⟨body', p, hbody, hfst, hsnd, hothers⟩ := others.exchange
    refine ⟨_, cs.map .inl ++ p, .chars first hbody, ?_, ?_, fun h => ?_⟩
    · simp [fill_append, fill_chars, hfst, Piece.symbols]
    · simp [fill_append, fill_chars, hsnd, Piece.symbols]
    · exact .chars first (hothers (by simpa using h))
  | @StringBody.hole _ _ _ e _ _ _ _ _ _ blank inner closes others => by
    obtain ⟨e', he, hinner⟩ := inner.exchange
    obtain ⟨body', p, hbody, hfst, hsnd, hothers⟩ := others.exchange
    refine ⟨_, .inr (e, e') :: p, .hole blank he closes hbody, ?_, ?_, fun h => ?_⟩
    · rw [Template.symbols_cons, ← hfst]
      rfl
    · rw [Template.symbols_cons, ← hsnd]
      rfl
    · simp only [Template.symbols_cons, Piece.symbols, List.singleton_append, List.cons.injEq,
        Sum.inr.injEq] at h
      exact .hole blank (hinner h.1) closes (hothers h.2)

end

theorem Program.exchange {e : Expr} {text : List Char} (h : Program lexicon x.source e text) :
    ∃ e', Program lexicon x.target e' text ∧ (e = e' → Program lexicon x.common e text) := by
  obtain ⟨t, hblank, he⟩ := h
  obtain ⟨e', he', hsame⟩ := he.exchange x
  exact ⟨e', ⟨t, hblank, he'⟩, fun h => ⟨t, hblank, hsame h⟩⟩

end LazyConfig.Grammar
