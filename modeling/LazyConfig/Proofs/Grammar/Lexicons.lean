import LazyConfig.Proofs.Grammar.Complete
set_option autoImplicit false

/-!
# The grammar: other lexicons

A text may be read with any keywords and delimiters.  What is read then is read by the
language too, and as the same tree: a lexicon can only refuse.

The rules name the lexemes that they ask for, and those are lexemes of the language.  A name
is a bare one whatever the keywords are.  A delimiter that is the longest of its lexicon need
not be the longest of the language, but there is only one place where the two differ: a dot
may be the start of an ellipsis.  Two more dots follow it then, and no key starts with a dot.
-/

namespace LazyConfig.Grammar

variable {lexicon : Lexicon} {strip : Stripping} {t u v : List Char}

/-! ## Lexemes -/

/-- Of the delimiters of the language only the dot is the start of a longer one. -/
theorem standardDelimiters_overlap :
    ∀ d ∈ Lexicon.standardDelimiters, ∀ d' ∈ Lexicon.standardDelimiters,
      d.toList <+: d'.toList → d'.length ≤ d.length ∨ (d = "." ∧ d' = "...") := by
  decide

theorem mem_delimiters_standard {d : String} :
    d ∈ Lexicon.standard.delimiters ↔ d ∈ Lexicon.standardDelimiters := by
  rw [Lexicon.delimiters_standard]
  constructor <;> (revert d; decide)

/-- A delimiter of the language that another lexicon finds is found by the language, unless it
is the dot of an ellipsis. -/
theorem DelimiterAt.standard {d : String} (h : DelimiterAt lexicon d t u)
    (hd : d ∈ Lexicon.standardDelimiters) (hdot : d = "." → ¬ "...".toList <+: t) :
    DelimiterAt Lexicon.standard d t u where
  listed := mem_delimiters_standard.mpr hd
  text := h.text
  longest := by
    intro d' hd' hstarts
    have hmem := mem_delimiters_standard.mp hd'
    rcases List.prefix_or_prefix_of_prefix h.starts hstarts with hshorter | hlonger
    · rcases standardDelimiters_overlap d hd d' hmem hshorter with hle | ⟨rfl, rfl⟩
      · exact hle
      · exact absurd hstarts (hdot rfl)
    · rw [← String.length_toList, ← String.length_toList]
      exact hlonger.length_le

/-- The delimiters that start no longer one. -/
def undividedDelimiters : List String := Lexicon.standardDelimiters.filter (· ≠ ".")

/-- Every delimiter but the dot is found by the language. -/
theorem DelimiterAt.standard_undivided {d : String} (h : DelimiterAt lexicon d t u)
    (hd : d ∈ undividedDelimiters := by decide) : DelimiterAt Lexicon.standard d t u := by
  obtain ⟨hmem, hdot⟩ := List.mem_filter.mp hd
  exact h.standard hmem fun heq => absurd heq (of_decide_eq_true hdot)

theorem Delimiter.standard {d : String} (h : Delimiter lexicon d t u)
    (hd : d ∈ undividedDelimiters := by decide) : Delimiter Lexicon.standard d t u := by
  obtain ⟨z, hat, hblank⟩ := h
  exact ⟨z, hat.standard_undivided hd, hblank⟩

/-- No key starts with a dot. -/
theorem Key.head?_ne_dot {k : Expr} (h : Key lexicon strip k t u) : t.head? ≠ some '.' := by
  cases h with
  | name name =>
    obtain ⟨-, z, hword, -⟩ := name
    obtain ⟨c, cs, hc⟩ := List.exists_cons_of_ne_nil hword.nonempty
    have hchar : isNameChar c = true := hword.chars c (hc ▸ List.mem_cons_self)
    rw [hword.text, hc]
    exact fun hhead => ne_of_isNameChar hchar (by decide) (Option.some.inj hhead)
  | string h =>
    obtain ⟨opens, -, -, -, -⟩ := h
    cases opens <;> simp
  | hole opens _ _ =>
    obtain ⟨z, hat, -⟩ := opens
    rw [hat.text]
    simp

/-- The dot in front of a key is found by the language: it is not the first of three, because
no key starts with a dot. -/
theorem Delimiter.standard_dot {k : Expr} (h : Delimiter lexicon "." t u)
    (hkey : Key lexicon strip k u v) : Delimiter Lexicon.standard "." t u := by
  obtain ⟨z, hat, hblank⟩ := h
  refine ⟨z, hat.standard (by decide) fun _ hellipsis => ?_, hblank⟩
  obtain ⟨w, hw⟩ := hellipsis
  rw [hat.text] at hw
  obtain rfl : '.' :: '.' :: w = z := (List.cons.inj hw).2
  have hsolid : ∀ x ∈ ('.' :: '.' :: w).head?, isSpace x = false ∧ x ≠ '#' := by
    simp [isSpace]
  rw [hblank.eq_afterBlank, afterBlank_of_solid hsolid] at hkey
  exact hkey.head?_ne_dot rfl

theorem Keyword.standard {k : String} (h : Keyword lexicon k t u)
    (hk : k ∈ keywords := by decide) : Keyword Lexicon.standard k t u := ⟨hk, h.2⟩

/-- Names are bare, so no keyword of the language is among them. -/
theorem Identifier.standard {x : Name} (h : Identifier lexicon x t u) :
    Identifier Lexicon.standard x t u := ⟨x.text_notMem_keywords, h.2⟩

/-! ## Rules -/

mutual

theorem Expression.standard {e : Expr} {t u : List Char} :
    Expression lexicon strip e t u → Expression Lexicon.standard strip e t u
  | .lambda h => .lambda h.standard
  | .letIn h => .letIn h.standard
  | .application h => .application h.standard

theorem Lambda.standard {e : Expr} {t u : List Char} :
    Lambda lexicon strip e t u → Lambda Lexicon.standard strip e t u
  | .mk param colon body => .mk param.standard colon.standard body.standard

theorem Parameter.standard {p : Param Expr} {t u : List Char} :
    Parameter lexicon strip p t u → Parameter Lexicon.standard strip p t u
  | .name name => .name name.standard
  | .pattern pattern => .pattern pattern.standard
  | .both name mark pattern => .both name.standard mark.standard pattern.standard

theorem DictPattern.standard {p : Pattern Expr} {t u : List Char} :
    DictPattern lexicon strip p t u → DictPattern Lexicon.standard strip p t u
  | .empty opens closes => .empty opens.standard closes.standard
  | .fields opens list closes distinct =>
    .fields opens.standard list.standard closes.standard distinct

theorem Fields.standard {fields : List (Field Expr)} {ellipsis : Bool} {t u : List Char} :
    Fields lexicon strip fields ellipsis t u → Fields Lexicon.standard strip fields ellipsis t u
  | .ellipsis h => .ellipsis h.standard
  | .last item => .last item.standard
  | .more item comma others => .more item.standard comma.standard others.standard

theorem Item.standard {field : Field Expr} {t u : List Char} :
    Item lexicon strip field t u → Item Lexicon.standard strip field t u
  | .plain name => .plain name.standard
  | .default name mark default => .default name.standard mark.standard default.standard

theorem LetIn.standard {e : Expr} {t u : List Char} :
    LetIn lexicon strip e t u → LetIn Lexicon.standard strip e t u
  | .mk keyword bindings mark body =>
    .mk keyword.standard bindings.standard mark.standard body.standard

theorem LetBindings.standard {bs : List (Binding String Expr)} {t u : List Char} :
    LetBindings lexicon strip bs t u → LetBindings Lexicon.standard strip bs t u
  | .nil _ => .nil _
  | .cons first semicolon others => .cons first.standard semicolon.standard others.standard

theorem LetBinding.standard {b : Binding String Expr} {t u : List Char} :
    LetBinding lexicon strip b t u → LetBinding Lexicon.standard strip b t u
  | .inherit h => .inherit h.standard
  | .equation name mark value => .equation name.standard mark.standard value.standard

theorem Application.standard {e : Expr} {t u : List Char} :
    Application lexicon strip e t u → Application Lexicon.standard strip e t u
  | .operands h => .operands h.standard
  | .lastLambda function argument => .lastLambda function.standard argument.standard

theorem Operands.standard {e : Expr} {t u : List Char} :
    Operands lexicon strip e t u → Operands Lexicon.standard strip e t u
  | .first h => .first h.standard
  | .next function argument => .next function.standard argument.standard

theorem Dotted.standard {e : Expr} {t u : List Char} :
    Dotted lexicon strip e t u → Dotted Lexicon.standard strip e t u
  | .primary h => .primary h.standard
  | .key subject dot key => .key subject.standard (dot.standard_dot key) key.standard

theorem Primary.standard {e : Expr} {t u : List Char} :
    Primary lexicon strip e t u → Primary Lexicon.standard strip e t u
  | .string h => .string h.standard
  | .list opens items closes => .list opens.standard items.standard closes.standard
  | .dict h => .dict h.standard
  | .recursiveDict keyword h => .recursiveDict keyword.standard h.standard
  | .var name => .var name.standard
  | .parens opens inner closes => .parens opens.standard inner.standard closes.standard

theorem Items.standard {es : List Expr} {t u : List Char} :
    Items lexicon strip es t u → Items Lexicon.standard strip es t u
  | .nil _ => .nil _
  | .cons first others => .cons first.standard others.standard

theorem Dict.standard {bs : List (Binding Expr Expr)} {t u : List Char} :
    Dict lexicon strip bs t u → Dict Lexicon.standard strip bs t u
  | .mk opens bindings closes => .mk opens.standard bindings.standard closes.standard

theorem DictBindings.standard {bs : List (Binding Expr Expr)} {t u : List Char} :
    DictBindings lexicon strip bs t u → DictBindings Lexicon.standard strip bs t u
  | .nil _ => .nil _
  | .cons first semicolon others => .cons first.standard semicolon.standard others.standard

theorem DictBinding.standard {b : Binding Expr Expr} {t u : List Char} :
    DictBinding lexicon strip b t u → DictBinding Lexicon.standard strip b t u
  | .inherit h => .inherit h.standard
  | .equation key mark value => .equation key.standard mark.standard value.standard

theorem Key.standard {k : Expr} {t u : List Char} :
    Key lexicon strip k t u → Key Lexicon.standard strip k t u
  | .name name => .name name.standard
  | .string h => .string h.standard
  | .hole opens inner closes => .hole opens.standard inner.standard closes.standard

theorem Inheritance.standard {source : Option Expr} {names : List String} {t u : List Char} :
    Inheritance lexicon strip source names t u → Inheritance Lexicon.standard strip source names t u
  | .scope keyword list => .scope keyword.standard list.standard
  | .source keyword opens inner closes list =>
    .source keyword.standard opens.standard inner.standard closes.standard list.standard

theorem Names.standard {names : List String} {t u : List Char} :
    Names lexicon strip names t u → Names Lexicon.standard strip names t u
  | .nil _ => .nil _
  | .cons first others => .cons first.standard others.standard

theorem StaticName.standard {x : String} {t u : List Char} :
    StaticName lexicon strip x t u → StaticName Lexicon.standard strip x t u
  | .name name => .name name.standard
  | .string h static => .string h.standard static

theorem StringLiteral.standard {s : Template Expr} {t u : List Char} :
    StringLiteral lexicon strip s t u → StringLiteral Lexicon.standard strip s t u
  | .mk opens inner blank content normal =>
    .mk opens inner.standard blank content normal

theorem StringBody.standard {o : Parser.Opening} {body : Template Expr} {t u : List Char} :
    StringBody lexicon strip o body t u → StringBody Lexicon.standard strip o body t u
  | .close h => .close h
  | .chars first others => .chars first others.standard
  | .hole blank inner closes others =>
    .hole blank inner.standard closes.standard_undivided others.standard

end

theorem Program.standard {e : Expr} {text : List Char} (h : Program lexicon strip e text) :
    Program Lexicon.standard strip e text := by
  obtain ⟨t, hblank, he⟩ := h
  exact ⟨t, hblank, he.standard⟩

end LazyConfig.Grammar

namespace LazyConfig

open Grammar

/-- What any lexicon reads from a text, the language reads from it.  The lexicon may lack
keywords and delimiters of the language and have other ones, longer ones too. -/
theorem readProgram_standard_of_accepted (lexicon : Lexicon) (text : String) (e : Expr)
    (h : readProgram lexicon text = .accepted e) :
    readProgram Lexicon.standard text = .accepted e :=
  readProgram_of_program (program_of_readProgram h).standard

/-- A lexicon without `rec`, `inherit`, brackets and the ellipsis, but with a keyword and with
longer delimiters of its own. -/
theorem readProgram_standard_of_accepted_shorter :
    let lexicon := Lexicon.ofLists ["let", "in", "then"]
      ["\x7b", "\x7d", "=", "==", ";", ".", "..", "=>", ":"]
    let text := "let f = x: x.y; in f \x7by = \"\";\x7d # end"
    let x : Name := ⟨"x", by decide⟩
    let f : Name := ⟨"f", by decide⟩
    let e : Expr := .letIn [.equation "f" (.lambda (.name x) (.dot (.var x) (.text "y")))]
      (.apply (.var f) (.dict false [.equation (.text "y") (.str [])]))
    readProgram lexicon text = .accepted e ∧ readProgram Lexicon.standard text = .accepted e := by
  intro lexicon text x f e
  have h : readProgram lexicon text = .accepted e := by decide +kernel
  exact ⟨h, readProgram_standard_of_accepted lexicon text e h⟩

end LazyConfig
