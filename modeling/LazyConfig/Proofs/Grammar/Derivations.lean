import LazyConfig.Proofs.Grammar.Lexemes
import LazyConfig.Proofs.Grammar.Stripping
set_option autoImplicit false

/-!
# The grammar: derivations

Two facts about everything that is derived, each by induction on derivations with one case
for each alternative of each rule: what is left is shorter than the text, unless the rule may
derive nothing from nothing, and every expression is canonical.
-/

namespace LazyConfig.Grammar

variable {lexicon : Lexicon} {strip : Stripping}

/-! ## Lengths -/

theorem OpeningMark.length_lt {o : Parser.Opening} {t u : List Char} (h : OpeningMark o t u) :
    u.length < t.length := by
  cases h with
  | quoted => exact Nat.lt_succ_self _
  | indented => exact Nat.lt_trans (Nat.lt_succ_self _) (Nat.lt_succ_self _)

theorem ClosingMark.length_lt {o : Parser.Opening} {t u : List Char} (h : ClosingMark o t u) :
    u.length < t.length := by
  cases h with
  | quoted => exact Nat.lt_succ_self _
  | indented => exact Nat.lt_trans (Nat.lt_succ_self _) (Nat.lt_succ_self _)

mutual

theorem Expression.length_lt {e : Expr} {t u : List Char} :
    Expression lexicon strip e t u → u.length < t.length
  | .lambda h => h.length_lt
  | .letIn h => h.length_lt
  | .application h => h.length_lt

theorem Lambda.length_lt {e : Expr} {t u : List Char} :
    Lambda lexicon strip e t u → u.length < t.length
  | .mk param colon body =>
    Nat.lt_trans body.length_lt (Nat.lt_trans colon.length_lt param.length_lt)

theorem Parameter.length_lt {p : Param Expr} {t u : List Char} :
    Parameter lexicon strip p t u → u.length < t.length
  | .name name => name.length_lt
  | .pattern pattern => pattern.length_lt
  | .both name mark pattern =>
    Nat.lt_trans pattern.length_lt (Nat.lt_trans mark.length_lt name.length_lt)

theorem DictPattern.length_lt {p : Pattern Expr} {t u : List Char} :
    DictPattern lexicon strip p t u → u.length < t.length
  | .empty opens closes => Nat.lt_trans closes.length_lt opens.length_lt
  | .fields opens list closes _ =>
    Nat.lt_trans closes.length_lt (Nat.lt_trans list.length_lt opens.length_lt)

theorem Fields.length_lt {fields : List (Field Expr)} {ellipsis : Bool} {t u : List Char} :
    Fields lexicon strip fields ellipsis t u → u.length < t.length
  | .ellipsis h => h.length_lt
  | .last item => item.length_lt
  | .more item comma others =>
    Nat.lt_trans others.length_lt (Nat.lt_trans comma.length_lt item.length_lt)

theorem Item.length_lt {field : Field Expr} {t u : List Char} :
    Item lexicon strip field t u → u.length < t.length
  | .plain name => name.length_lt
  | .default name mark default =>
    Nat.lt_trans default.length_lt (Nat.lt_trans mark.length_lt name.length_lt)

theorem LetIn.length_lt {e : Expr} {t u : List Char} :
    LetIn lexicon strip e t u → u.length < t.length
  | .mk keyword bindings mark body =>
    Nat.lt_trans body.length_lt (Nat.lt_trans mark.length_lt
      (Nat.lt_of_le_of_lt bindings.length_le keyword.length_lt))

theorem LetBindings.length_le {bs : List (Binding String Expr)} {t u : List Char} :
    LetBindings lexicon strip bs t u → u.length ≤ t.length
  | .nil _ => Nat.le_refl _
  | .cons first semicolon others =>
    Nat.le_trans others.length_le (Nat.le_of_lt (Nat.lt_trans semicolon.length_lt first.length_lt))

theorem LetBinding.length_lt {b : Binding String Expr} {t u : List Char} :
    LetBinding lexicon strip b t u → u.length < t.length
  | .inherit h => h.length_lt
  | .equation name mark value =>
    Nat.lt_trans value.length_lt (Nat.lt_trans mark.length_lt name.length_lt)

theorem Application.length_lt {e : Expr} {t u : List Char} :
    Application lexicon strip e t u → u.length < t.length
  | .operands h => h.length_lt
  | .lastLambda function argument => Nat.lt_trans argument.length_lt function.length_lt

theorem Operands.length_lt {e : Expr} {t u : List Char} :
    Operands lexicon strip e t u → u.length < t.length
  | .first h => h.length_lt
  | .next function argument => Nat.lt_trans argument.length_lt function.length_lt

theorem Dotted.length_lt {e : Expr} {t u : List Char} :
    Dotted lexicon strip e t u → u.length < t.length
  | .primary h => h.length_lt
  | .key subject dot key =>
    Nat.lt_trans key.length_lt (Nat.lt_trans dot.length_lt subject.length_lt)

theorem Primary.length_lt {e : Expr} {t u : List Char} :
    Primary lexicon strip e t u → u.length < t.length
  | .string h => h.length_lt
  | .list opens items closes =>
    Nat.lt_trans closes.length_lt (Nat.lt_of_le_of_lt items.length_le opens.length_lt)
  | .dict h => h.length_lt
  | .recursiveDict keyword h => Nat.lt_trans h.length_lt keyword.length_lt
  | .var name => name.length_lt
  | .parens opens inner closes =>
    Nat.lt_trans closes.length_lt (Nat.lt_trans inner.length_lt opens.length_lt)

theorem Items.length_le {es : List Expr} {t u : List Char} :
    Items lexicon strip es t u → u.length ≤ t.length
  | .nil _ => Nat.le_refl _
  | .cons first others => Nat.le_trans others.length_le (Nat.le_of_lt first.length_lt)

theorem Dict.length_lt {bs : List (Binding Expr Expr)} {t u : List Char} :
    Dict lexicon strip bs t u → u.length < t.length
  | .mk opens bindings closes =>
    Nat.lt_trans closes.length_lt (Nat.lt_of_le_of_lt bindings.length_le opens.length_lt)

theorem DictBindings.length_le {bs : List (Binding Expr Expr)} {t u : List Char} :
    DictBindings lexicon strip bs t u → u.length ≤ t.length
  | .nil _ => Nat.le_refl _
  | .cons first semicolon others =>
    Nat.le_trans others.length_le (Nat.le_of_lt (Nat.lt_trans semicolon.length_lt first.length_lt))

theorem DictBinding.length_lt {b : Binding Expr Expr} {t u : List Char} :
    DictBinding lexicon strip b t u → u.length < t.length
  | .inherit h => h.length_lt
  | .equation key mark value =>
    Nat.lt_trans value.length_lt (Nat.lt_trans mark.length_lt key.length_lt)

theorem Key.length_lt {e : Expr} {t u : List Char} : Key lexicon strip e t u → u.length < t.length
  | .name name => name.length_lt
  | .string h => h.length_lt
  | .hole opens inner closes =>
    Nat.lt_trans closes.length_lt (Nat.lt_trans inner.length_lt opens.length_lt)

theorem Inheritance.length_lt {source : Option Expr} {names : List String} {t u : List Char} :
    Inheritance lexicon strip source names t u → u.length < t.length
  | .scope keyword list => Nat.lt_of_le_of_lt list.length_le keyword.length_lt
  | .source keyword opens inner closes list =>
    Nat.lt_of_le_of_lt list.length_le (Nat.lt_trans closes.length_lt
      (Nat.lt_trans inner.length_lt (Nat.lt_trans opens.length_lt keyword.length_lt)))

theorem Names.length_le {names : List String} {t u : List Char} :
    Names lexicon strip names t u → u.length ≤ t.length
  | .nil _ => Nat.le_refl _
  | .cons first others => Nat.le_trans others.length_le (Nat.le_of_lt first.length_lt)

theorem StaticName.length_lt {x : String} {t u : List Char} :
    StaticName lexicon strip x t u → u.length < t.length
  | .name name => name.length_lt
  | .string h _ => h.length_lt

theorem StringLiteral.length_lt {s : Template Expr} {t u : List Char} :
    StringLiteral lexicon strip s t u → u.length < t.length
  | .mk opens inner blank _ _ =>
    Nat.lt_of_le_of_lt blank.length_le (Nat.lt_trans inner.length_lt opens.length_lt)

theorem StringBody.length_lt {o : Parser.Opening} {body : Template Expr} {t u : List Char} :
    StringBody lexicon strip o body t u → u.length < t.length
  | .close h => h.length_lt
  | .chars first others => Nat.lt_trans others.length_lt first.length_lt
  | .hole blank inner closes others => by
    have hblank := blank.length_le
    have hinner := inner.length_lt
    have hcloses := closes.length_lt
    have hothers := others.length_lt
    simp only [List.length_cons]
    omega

end

/-! ## What a body starts with -/

/-- A body that starts with written characters starts with their literal. -/
theorem StringBody.of_chars {o : Parser.Opening} {body : Template Expr} {cs : List Char}
    {n : Nat} {t u : List Char} (h : StringBody lexicon strip o body t u)
    (hunit : unitOf o t = .chars cs n) :
    ∃ others, body = .literal (String.ofList cs) :: others ∧
      StringBody lexicon strip o others (t.drop n) u := by
  cases h with
  | close hmark =>
    obtain ⟨width, hclose, -⟩ := hmark.unitOf_eq
    rw [hclose] at hunit
    cases hunit
  | chars first others =>
    obtain ⟨width, hchars, hdrop⟩ := first.unitOf_eq
    rw [hchars] at hunit
    cases hunit
    exact ⟨_, rfl, by rwa [hdrop]⟩
  | hole blank inner closes others =>
    rw [unitOf_hole] at hunit
    cases hunit

/-- A body that starts with the mark of an antiquote starts with an antiquote. -/
theorem StringBody.of_hole {o : Parser.Opening} {body : Template Expr} {t u : List Char}
    (h : StringBody lexicon strip o body ('$' :: '\x7b' :: t) u) :
    ∃ e others v w z, body = .antiquote e :: others ∧ Blank t v ∧ Expression lexicon strip e v w ∧
      DelimiterAt lexicon "\x7d" w z ∧ StringBody lexicon strip o others z u := by
  have hunit := unitOf_hole o t
  cases h with
  | close hmark =>
    obtain ⟨width, hclose, -⟩ := hmark.unitOf_eq
    rw [hclose] at hunit
    cases hunit
  | chars first others =>
    obtain ⟨width, hchars, -⟩ := first.unitOf_eq
    rw [hchars] at hunit
    cases hunit
  | hole blank inner closes others => exact ⟨_, _, _, _, _, rfl, blank, inner, closes, others⟩

/-! ## Canonical trees -/

theorem StringLiteral.isClean {s : Template Expr} {t u : List Char}
    (h : StringLiteral lexicon strip s t u) : Template.isClean s = true := by
  cases h with
  | mk _ _ _ _ normal => exact (normal_iff.mp normal).1

theorem isCanonical_text (x : Name) : (Expr.text x.text).isCanonical = true := by
  have hne : x.text ≠ "" := ((NameFault.of?_eq_none_iff x.text).mp x.bare).1
  simp [Expr.text, Expr.isCanonical, Template.isClean, canonicalPieces, hne]

/-- A reader keeps everything solid in a string. -/
theorem Content.filter_isSolid {o : Parser.Opening} {l m : List (Char ⊕ Expr)}
    (h : Content AsRead o l m) : m.filter Template.isSolid = l.filter Template.isSolid := by
  cases h with
  | quoted => rfl
  | indented h => exact h.filter_isSolid

/-- The template of a body of canonical antiquotes is canonical. -/
theorem isCanonical_of_content {o : Parser.Opening} {body s : Template Expr}
    {l : List (Char ⊕ Expr)} (hcontent : Content AsRead o body.symbols l) (hs : Normal s l)
    (hbody : canonicalPieces body = true) : (Expr.str s).isCanonical = true := by
  obtain ⟨hclean, rfl⟩ := normal_iff.mp hs
  rw [canonicalPieces_iff] at hbody
  rw [Expr.isCanonical, Bool.and_eq_true, canonicalPieces_iff]
  refine ⟨hclean, fun e he => hbody e ?_⟩
  rw [Template.antiquote_mem_iff] at he ⊢
  exact inr_mem_of_filter_isSolid hcontent.filter_isSolid he

mutual

theorem Expression.isCanonical {e : Expr} {t u : List Char} :
    Expression lexicon AsRead e t u → e.isCanonical = true
  | .lambda h => h.isCanonical
  | .letIn h => h.isCanonical
  | .application h => h.isCanonical

theorem Lambda.isCanonical {e : Expr} {t u : List Char} :
    Lambda lexicon AsRead e t u → e.isCanonical = true
  | .mk param _ body => by
    rw [Expr.isCanonical_lambda, param.isCanonical, body.isCanonical, Bool.and_self]

theorem Parameter.isCanonical {p : Param Expr} {t u : List Char} :
    Parameter lexicon AsRead p t u → p.isCanonical = true
  | .name _ => rfl
  | .pattern pattern => pattern.isCanonical
  | .both _ _ pattern => pattern.isCanonical

theorem DictPattern.isCanonical {p : Pattern Expr} {t u : List Char} :
    DictPattern lexicon AsRead p t u → (Param.pattern p).isCanonical = true
  | .empty _ _ => rfl
  | .fields _ list _ distinct => by simp [Param.isCanonical, distinct, list.isCanonical]

theorem Fields.isCanonical {fields : List (Field Expr)} {ellipsis : Bool} {t u : List Char} :
    Fields lexicon AsRead fields ellipsis t u → canonicalFields fields = true
  | .ellipsis _ => rfl
  | .last item => item.isCanonical rfl
  | .more item _ others => item.isCanonical others.isCanonical

theorem Item.isCanonical {field : Field Expr} {fields : List (Field Expr)} {t u : List Char} :
    Item lexicon AsRead field t u → canonicalFields fields = true →
      canonicalFields (field :: fields) = true
  | .plain _, h => h
  | .default _ _ default, h => by simp [canonicalFields, default.isCanonical, h]

theorem LetIn.isCanonical {e : Expr} {t u : List Char} :
    LetIn lexicon AsRead e t u → e.isCanonical = true
  | .mk _ bindings _ body => by simp [Expr.isCanonical, bindings.isCanonical, body.isCanonical]

theorem LetBindings.isCanonical {bs : List (Binding String Expr)} {t u : List Char} :
    LetBindings lexicon AsRead bs t u → canonicalDefinitions bs = true
  | .nil _ => rfl
  | .cons first _ others => first.isCanonical others.isCanonical

theorem LetBinding.isCanonical {b : Binding String Expr} {bs : List (Binding String Expr)}
    {t u : List Char} :
    LetBinding lexicon AsRead b t u → canonicalDefinitions bs = true →
      canonicalDefinitions (b :: bs) = true
  | @LetBinding.inherit _ _ none _ _ _ _, hbs => hbs
  | @LetBinding.inherit _ _ (some e) _ _ _ h, hbs => by
    simp [canonicalDefinitions, h.isCanonical e rfl, hbs]
  | .equation _ _ value, hbs => by simp [canonicalDefinitions, value.isCanonical, hbs]

theorem Application.isCanonical {e : Expr} {t u : List Char} :
    Application lexicon AsRead e t u → e.isCanonical = true
  | .operands h => h.isCanonical
  | .lastLambda function argument => by
    simp [Expr.isCanonical, function.isCanonical, argument.isCanonical]

theorem Operands.isCanonical {e : Expr} {t u : List Char} :
    Operands lexicon AsRead e t u → e.isCanonical = true
  | .first h => h.isCanonical
  | .next function argument => by
    simp [Expr.isCanonical, function.isCanonical, argument.isCanonical]

theorem Dotted.isCanonical {e : Expr} {t u : List Char} :
    Dotted lexicon AsRead e t u → e.isCanonical = true
  | .primary h => h.isCanonical
  | .key subject _ key => by simp [Expr.isCanonical, subject.isCanonical, key.isCanonical]

theorem Primary.isCanonical {e : Expr} {t u : List Char} :
    Primary lexicon AsRead e t u → e.isCanonical = true
  | .string h => h.isCanonical
  | .list _ items _ => items.isCanonical
  | .dict h => h.isCanonical
  | .recursiveDict _ h => h.isCanonical
  | .var _ => rfl
  | .parens _ inner _ => inner.isCanonical

theorem Items.isCanonical {es : List Expr} {t u : List Char} :
    Items lexicon AsRead es t u → canonicalItems es = true
  | .nil _ => rfl
  | .cons first others => by simp [canonicalItems, first.isCanonical, others.isCanonical]

theorem Dict.isCanonical {bs : List (Binding Expr Expr)} {t u : List Char} :
    Dict lexicon AsRead bs t u → canonicalEntries bs = true
  | .mk _ bindings _ => bindings.isCanonical

theorem DictBindings.isCanonical {bs : List (Binding Expr Expr)} {t u : List Char} :
    DictBindings lexicon AsRead bs t u → canonicalEntries bs = true
  | .nil _ => rfl
  | .cons first _ others => first.isCanonical others.isCanonical

theorem DictBinding.isCanonical {b : Binding Expr Expr} {bs : List (Binding Expr Expr)}
    {t u : List Char} :
    DictBinding lexicon AsRead b t u → canonicalEntries bs = true →
      canonicalEntries (b :: bs) = true
  | @DictBinding.inherit _ _ none _ _ _ _, hbs => hbs
  | @DictBinding.inherit _ _ (some e) _ _ _ h, hbs => by
    simp [canonicalEntries, h.isCanonical e rfl, hbs]
  | .equation key _ value, hbs => by
    simp [canonicalEntries, key.isCanonical, value.isCanonical, hbs]

theorem Key.isCanonical {e : Expr} {t u : List Char} :
    Key lexicon AsRead e t u → e.isCanonical = true
  | @Key.name _ _ x _ _ _ => isCanonical_text x
  | .string h => h.isCanonical
  | .hole _ inner _ => inner.isCanonical

theorem Inheritance.isCanonical {source : Option Expr} {names : List String} {t u : List Char} :
    Inheritance lexicon AsRead source names t u → ∀ e, source = some e → e.isCanonical = true
  | .scope _ _, _, h => nomatch h
  | .source _ _ inner _ _, _, rfl => inner.isCanonical

theorem StringLiteral.isCanonical {s : Template Expr} {t u : List Char} :
    StringLiteral lexicon AsRead s t u → (Expr.str s).isCanonical = true
  | .mk _ inner _ content normal => isCanonical_of_content content normal inner.isCanonical

theorem StringBody.isCanonical {o : Parser.Opening} {body : Template Expr} {t u : List Char} :
    StringBody lexicon AsRead o body t u → canonicalPieces body = true
  | .close _ => rfl
  | .chars _ others => others.isCanonical
  | .hole _ inner _ others => by simp [canonicalPieces, inner.isCanonical, others.isCanonical]

end

end LazyConfig.Grammar
