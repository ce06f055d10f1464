import LazyConfig.Proofs.Grammar.Derivations
set_option autoImplicit false

/-!
# The grammar: what a text starts with

Under the lexicon of the language the first lexeme of a text is determined: it starts with
a string, a delimiter or a word, and with only one of them.  Each rule can start with a few
lexemes only, which is how alternatives are told apart.

There is one place where this is not enough: a parameter and an operand may both start with
a name or with a brace.  But a text that starts with both goes on with a colon or an at sign
behind the operand, where no argument and no end of an expression can stand.
-/

namespace LazyConfig.Grammar

/-! ## The first lexeme -/

/-- What a text starts with. -/
inductive Start where
  /-- A string. -/
  | string
  /-- A delimiter. -/
  | delimiter (d : String)
  /-- A word. -/
  | word (x : String)
  /-- Nothing of the kind. -/
  | other
  deriving DecidableEq

/-- What a text of the language starts with. -/
def startOf (t : List Char) : Start :=
  if (Parser.opening? t).isSome then .string
  else match Lexicon.standard.delimiterAt? t with
    | some d => .delimiter d
    | none => if wordPart t = [] then .other else .word (String.ofList (wordPart t))

variable {strip : Stripping} {t u v w : List Char}

theorem OpeningMark.startOf_eq {o : Parser.Opening} (h : OpeningMark o t u) :
    startOf t = .string := by
  cases h <;> rfl

theorem Delimiter.startOf_eq {d : String} (h : Delimiter Lexicon.standard d t u) :
    startOf t = .delimiter d := by
  have hfound := h.delimiterAt?_eq.1
  obtain ⟨v, hd, -⟩ := h
  have hnone : (Parser.opening? t).isSome = false := by
    have hlisted := hd.listed
    rw [Lexicon.delimiters_standard] at hlisted
    rw [hd.text]
    simp only [List.mem_cons, List.not_mem_nil, or_false] at hlisted
    rcases hlisted with rfl | rfl | rfl | rfl | rfl | rfl | rfl | rfl | rfl | rfl | rfl | rfl |
      rfl | rfl | rfl <;> rfl
  rw [startOf, hnone, hfound]
  rfl

theorem WordAt.startOf_eq {x : List Char} (h : WordAt x t u) :
    startOf t = .word (String.ofList x) := by
  have hword := h.wordPart_eq
  obtain ⟨y, x', rfl⟩ := List.exists_cons_of_ne_nil h.nonempty
  have hy : isNameChar y = true := h.chars y List.mem_cons_self
  have htext : t = y :: (x' ++ u) := h.text
  have hstring : (Parser.opening? t).isSome = false := by
    have hquote : y ≠ '"' := ne_of_isNameChar hy (by decide)
    have hmark : y ≠ '\'' := ne_of_isNameChar hy (by decide)
    rw [htext]
    unfold Parser.opening?
    split <;> simp_all
  have hdelimiter : Lexicon.standard.delimiterAt? t = none := by
    cases hd : Lexicon.standard.delimiterAt? t with
    | none => rfl
    | some d =>
      have hat := delimiterAt_of_delimiterAt? hd
      have hlisted := hat.listed
      rw [Lexicon.delimiters_standard] at hlisted
      have hhead := Lexicon.head?_of_delimiterAt? hd (Lexicon.standard.nonempty d hat.listed)
      rw [htext] at hhead
      simp only [List.mem_cons, List.not_mem_nil, or_false] at hlisted
      rcases hlisted with rfl | rfl | rfl | rfl | rfl | rfl | rfl | rfl | rfl | rfl | rfl | rfl |
        rfl | rfl | rfl <;> cases hhead <;> revert hy <;> decide
  rw [startOf, hstring, hdelimiter, hword]
  rfl

theorem Keyword.startOf_eq {k : String} (h : Keyword Lexicon.standard k t u) :
    startOf t = .word k := by
  obtain ⟨-, v, hword, -⟩ := h
  rw [hword.startOf_eq, String.ofList_toList]

theorem Identifier.startOf_eq {x : Name} (h : Identifier Lexicon.standard x t u) :
    startOf t = .word x.text := by
  obtain ⟨-, v, hword, -⟩ := h
  rw [hword.startOf_eq, String.ofList_toList]

theorem Identifier.startOf_ne_word {x : Name} {k : String}
    (h : Identifier Lexicon.standard x t u) (hk : k ∈ keywords) : startOf t ≠ .word k := by
  intro hstart
  obtain rfl : x.text = k := Start.word.inj (h.startOf_eq.symm.trans hstart)
  exact x.text_notMem_keywords hk

/-! ## First lexemes of rules -/

namespace Start

/-- A name or the brace of a pattern. -/
def isParam : Start → Bool
  | .word x => !keywords.contains x
  | .delimiter d => d == "\x7b"
  | _ => false

/-- Where an operand may start. -/
def isOperand : Start → Bool
  | .string => true
  | .word x => x == "rec" || !keywords.contains x
  | .delimiter d => d == "[" || d == "(" || d == "\x7b"
  | .other => false

/-- Where a name may start that may be in quotes. -/
def isStaticName : Start → Bool
  | .string => true
  | .word x => !keywords.contains x
  | _ => false

/-- Where a key may start. -/
def isKey : Start → Bool
  | .delimiter d => d == "$\x7b"
  | start => start.isStaticName

/-- Where an expression may end. -/
def isEnd : Start → Bool
  | .delimiter d => d == ")" || d == "\x7d" || d == ";" || d == ","
  | .other => true
  | _ => false

/-- What ends an expression starts neither a function nor an operand. -/
theorem nothing_of_isEnd {start : Start} (h : start.isEnd = true) :
    start.isParam = false ∧ start.isOperand = false := by
  cases start with
  | delimiter d =>
    simp only [isEnd, Bool.or_eq_true, beq_iff_eq] at h
    rcases h with ((rfl | rfl) | rfl) | rfl <;> decide
  | other => exact ⟨rfl, rfl⟩
  | string => exact absurd h (by decide)
  | word x => exact absurd h (by simp [isEnd])

end Start

theorem Name.contains_keywords (x : Name) : keywords.contains x.text = false := by
  simpa using x.text_notMem_keywords

theorem Identifier.isParam_startOf {x : Name} (h : Identifier Lexicon.standard x t u) :
    (startOf t).isParam = true := by
  rw [h.startOf_eq, Start.isParam, Name.contains_keywords]
  rfl

theorem Identifier.isStaticName_startOf {x : Name} (h : Identifier Lexicon.standard x t u) :
    (startOf t).isStaticName = true := by
  rw [h.startOf_eq, Start.isStaticName, Name.contains_keywords]
  rfl

theorem StringLiteral.startOf_eq {s : Template Expr}
    (h : StringLiteral Lexicon.standard strip s t u) : startOf t = .string := by
  cases h with
  | mk opens _ _ => exact opens.startOf_eq

theorem StaticName.isStaticName_startOf {x : String} (h : StaticName Lexicon.standard strip x t u) :
    (startOf t).isStaticName = true := by
  cases h with
  | name name => exact name.isStaticName_startOf
  | string h _ =>
    rw [h.startOf_eq]
    rfl

theorem Key.isKey_startOf {k : Expr} (h : Key Lexicon.standard strip k t u) :
    (startOf t).isKey = true := by
  cases h with
  | name name =>
    have hname := name.isStaticName_startOf
    rw [name.startOf_eq] at hname ⊢
    exact hname
  | string h =>
    rw [h.startOf_eq]
    rfl
  | hole opens _ _ =>
    rw [opens.startOf_eq]
    rfl

theorem DictPattern.exists_opens {lexicon : Lexicon} {p : Pattern Expr}
    (h : DictPattern lexicon strip p t u) : ∃ v, Delimiter lexicon "\x7b" t v := by
  cases h with
  | empty opens _ => exact ⟨_, opens⟩
  | fields opens _ _ _ => exact ⟨_, opens⟩

theorem DictPattern.startOf_eq {p : Pattern Expr} (h : DictPattern Lexicon.standard strip p t u) :
    startOf t = .delimiter "\x7b" := by
  obtain ⟨v, opens⟩ := h.exists_opens
  exact opens.startOf_eq

theorem Parameter.isParam_startOf {p : Param Expr} (h : Parameter Lexicon.standard strip p t u) :
    (startOf t).isParam = true := by
  cases h with
  | name name => exact name.isParam_startOf
  | pattern pattern =>
    rw [pattern.startOf_eq]
    rfl
  | both name _ _ => exact name.isParam_startOf

theorem Lambda.isParam_startOf {e : Expr} (h : Lambda Lexicon.standard strip e t u) :
    (startOf t).isParam = true := by
  cases h with
  | mk param _ _ => exact param.isParam_startOf

theorem Dict.startOf_eq {bs : List (Binding Expr Expr)} (h : Dict Lexicon.standard strip bs t u) :
    startOf t = .delimiter "\x7b" := by
  cases h with
  | mk opens _ _ => exact opens.startOf_eq

theorem Primary.isOperand_startOf {e : Expr} (h : Primary Lexicon.standard strip e t u) :
    (startOf t).isOperand = true := by
  cases h with
  | string h =>
    rw [h.startOf_eq]
    rfl
  | list opens _ _ =>
    rw [opens.startOf_eq]
    rfl
  | dict h =>
    rw [h.startOf_eq]
    rfl
  | recursiveDict keyword _ =>
    rw [keyword.startOf_eq]
    rfl
  | @var x _ _ name =>
    rw [name.startOf_eq, Start.isOperand, Name.contains_keywords]
    simp
  | parens opens _ _ =>
    rw [opens.startOf_eq]
    rfl

theorem Dotted.isOperand_startOf {e : Expr} {t u : List Char} :
    Dotted Lexicon.standard strip e t u → (startOf t).isOperand = true
  | .primary h => h.isOperand_startOf
  | .key subject _ _ => subject.isOperand_startOf

theorem Inheritance.exists_keyword {lexicon : Lexicon} {source : Option Expr}
    {names : List String} (h : Inheritance lexicon strip source names t u) :
    ∃ v, Keyword lexicon "inherit" t v := by
  cases h with
  | scope keyword _ => exact ⟨_, keyword⟩
  | source keyword _ _ _ _ => exact ⟨_, keyword⟩

theorem Inheritance.startOf_eq {source : Option Expr} {names : List String}
    (h : Inheritance Lexicon.standard strip source names t u) : startOf t = .word "inherit" := by
  obtain ⟨v, keyword⟩ := h.exists_keyword
  exact keyword.startOf_eq

theorem DictBinding.startOf_cases {b : Binding Expr Expr}
    (h : DictBinding Lexicon.standard strip b t u) :
    startOf t = .word "inherit" ∨ (startOf t).isKey = true := by
  cases h with
  | inherit h => exact Or.inl h.startOf_eq
  | equation key _ _ => exact Or.inr key.isKey_startOf

theorem LetBinding.startOf_cases {b : Binding String Expr}
    (h : LetBinding Lexicon.standard strip b t u) :
    startOf t = .word "inherit" ∨ (startOf t).isStaticName = true := by
  cases h with
  | inherit h => exact Or.inl h.startOf_eq
  | equation name _ _ => exact Or.inr name.isStaticName_startOf

/-- Names start like names, and behind the last one comes the mark that ends them. -/
theorem Names.startOf_cases {names : List String} {d : String}
    (h : Names Lexicon.standard strip names t u) (hclose : Delimiter Lexicon.standard d u v) :
    startOf t = .delimiter d ∨ (startOf t).isStaticName = true := by
  cases h with
  | nil => exact Or.inl hclose.startOf_eq
  | cons first _ => exact Or.inr first.isStaticName_startOf

theorem Items.startOf_cases {es : List Expr} {d : String} (h : Items Lexicon.standard strip es t u)
    (hclose : Delimiter Lexicon.standard d u v) :
    startOf t = .delimiter d ∨ (startOf t).isOperand = true := by
  cases h with
  | nil => exact Or.inl hclose.startOf_eq
  | cons first _ => exact Or.inr first.isOperand_startOf

/-! ## What rules do not start with -/

theorem Lambda.not_isEnd {e : Expr} (h : Lambda Lexicon.standard strip e t u)
    (hend : (startOf t).isEnd = true) : False := by
  have hstart := h.isParam_startOf
  rw [(Start.nothing_of_isEnd hend).1] at hstart
  exact absurd hstart (by decide)

theorem Dotted.not_isEnd {e : Expr} (h : Dotted Lexicon.standard strip e t u)
    (hend : (startOf t).isEnd = true) : False := by
  have hstart := h.isOperand_startOf
  rw [(Start.nothing_of_isEnd hend).2] at hstart
  exact absurd hstart (by decide)

theorem Dotted.startOf_ne {e : Expr} (h : Dotted Lexicon.standard strip e t u) :
    startOf t ≠ .delimiter "]" := by
  intro hstart
  have hoperand := h.isOperand_startOf
  rw [hstart] at hoperand
  exact absurd hoperand (by decide)

theorem Item.startOf_ne {field : Field Expr} {d : String}
    (h : Item Lexicon.standard strip field t u) : startOf t ≠ .delimiter d := by
  cases h with
  | plain name =>
    rw [name.startOf_eq]
    exact nofun
  | default name _ _ =>
    rw [name.startOf_eq]
    exact nofun

/-- No dot stands behind an item of a list. -/
theorem Items.startOf_ne {es : List Expr} (h : Items Lexicon.standard strip es t u)
    (hclose : Delimiter Lexicon.standard "]" u v) : startOf t ≠ .delimiter "." := by
  intro hstart
  have hcases := h.startOf_cases hclose
  rw [hstart] at hcases
  exact absurd hcases (by decide)

theorem Key.startOf_ne_word {k : Expr} {x : String} (h : Key Lexicon.standard strip k t u)
    (hx : x ∈ keywords) : startOf t ≠ .word x := by
  intro hstart
  have hkey := h.isKey_startOf
  rw [hstart] at hkey
  simp [Start.isKey, Start.isStaticName, hx] at hkey

theorem StaticName.startOf_ne_delimiter {x d : String}
    (h : StaticName Lexicon.standard strip x t u) : startOf t ≠ .delimiter d := by
  intro hstart
  have hname := h.isStaticName_startOf
  rw [hstart] at hname
  exact Bool.false_ne_true hname

theorem StaticName.startOf_ne_word {x k : String} (h : StaticName Lexicon.standard strip x t u)
    (hk : k ∈ keywords) : startOf t ≠ .word k := by
  intro hstart
  have hname := h.isStaticName_startOf
  rw [hstart] at hname
  simp [Start.isStaticName, hk] at hname

/-- Names in front of a semicolon do not start like a source in parentheses. -/
theorem Names.startOf_ne {names : List String} (h : Names Lexicon.standard strip names t u)
    (hclose : Delimiter Lexicon.standard ";" u v) : startOf t ≠ .delimiter "(" := by
  intro hstart
  have hnames := h.startOf_cases hclose
  rw [hstart] at hnames
  exact absurd hnames (by decide)

theorem DictBinding.startOf_ne {b : Binding Expr Expr} {d : String}
    (h : DictBinding Lexicon.standard strip b t u) (hd : d ≠ "$\x7b") :
    startOf t ≠ .delimiter d := by
  intro hstart
  have hbinding := h.startOf_cases
  rw [hstart] at hbinding
  simp [Start.isKey, hd] at hbinding

theorem LetBinding.startOf_ne {b : Binding String Expr}
    (h : LetBinding Lexicon.standard strip b t u) : startOf t ≠ .word "in" := by
  intro hstart
  have hbinding := h.startOf_cases
  rw [hstart] at hbinding
  exact absurd hbinding (by decide)

theorem LetIn.startOf_eq {e : Expr} (h : LetIn Lexicon.standard strip e t u) :
    startOf t = .word "let" := by
  cases h with
  | mk keyword _ _ _ => exact keyword.startOf_eq

theorem LetIn.not_lambda {e e' : Expr} (h : LetIn Lexicon.standard strip e t u)
    (h' : Lambda Lexicon.standard strip e' t v) : False := by
  have hstart := h'.isParam_startOf
  rw [h.startOf_eq] at hstart
  exact absurd hstart (by decide)

theorem Dotted.startOf_ne_let {e : Expr} (h : Dotted Lexicon.standard strip e t u) :
    startOf t ≠ .word "let" := by
  intro hstart
  have hoperand := h.isOperand_startOf
  rw [hstart] at hoperand
  exact absurd hoperand (by decide)

/-! ## Parameters and operands that start alike -/

theorem Delimiter.unique {d : String} (h : Delimiter Lexicon.standard d t u)
    (h' : Delimiter Lexicon.standard d t v) : u = v := by
  rw [← h.delimiterAt?_eq.2, h'.delimiterAt?_eq.2]

theorem Keyword.unique {k : String} (h : Keyword Lexicon.standard k t u)
    (h' : Keyword Lexicon.standard k t v) : u = v := by
  obtain ⟨-, z, hword, hblank⟩ := h
  obtain ⟨-, z', hword', hblank'⟩ := h'
  obtain rfl : z = z' := hword.drop_eq.symm.trans hword'.drop_eq
  exact hblank.eq_afterBlank.trans hblank'.eq_afterBlank.symm

theorem Identifier.unique {x y : Name} (h : Identifier Lexicon.standard x t u)
    (h' : Identifier Lexicon.standard y t v) : x = y ∧ u = v := by
  obtain ⟨-, z, hword, hblank⟩ := h
  obtain ⟨-, z', hword', hblank'⟩ := h'
  have htext : x.text.toList = y.text.toList := hword.wordPart_eq.symm.trans hword'.wordPart_eq
  obtain rfl : x = y := Name.ext_text (String.toList_injective htext)
  obtain rfl : z = z' := hword.drop_eq.symm.trans hword'.drop_eq
  exact ⟨rfl, hblank.eq_afterBlank.trans hblank'.eq_afterBlank.symm⟩

/-- The fields of a pattern start with an ellipsis, or with a name and a mark that no key has
behind it. -/
theorem Fields.startOf_cases {fields : List (Field Expr)} {ellipsis : Bool}
    (h : Fields Lexicon.standard strip fields ellipsis t u)
    (hclose : Delimiter Lexicon.standard "\x7d" u v) :
    startOf t = .delimiter "..." ∨ ∃ x z, Identifier Lexicon.standard x t z ∧
      ∃ d ∈ ["?", ",", "\x7d"], startOf z = .delimiter d := by
  have hitem : ∀ {field : Field Expr} {z d}, Item Lexicon.standard strip field t z →
      startOf z = .delimiter d → d ∈ ["?", ",", "\x7d"] →
      ∃ x z, Identifier Lexicon.standard x t z ∧
        ∃ d ∈ ["?", ",", "\x7d"], startOf z = .delimiter d := by
    intro field z d h hz hd
    cases h with
    | plain name => exact ⟨_, _, name, d, hd, hz⟩
    | default name mark _ => exact ⟨_, _, name, "?", by decide, mark.startOf_eq⟩
  cases h with
  | ellipsis h => exact Or.inl h.startOf_eq
  | last item => exact Or.inr (hitem item hclose.startOf_eq (by decide))
  | more item comma _ => exact Or.inr (hitem item comma.startOf_eq (by decide))

/-- Fields in front of a brace do not start with one. -/
theorem Fields.startOf_ne {fields : List (Field Expr)} {ellipsis : Bool}
    (h : Fields Lexicon.standard strip fields ellipsis t u)
    (hclose : Delimiter Lexicon.standard "\x7d" u v) : startOf t ≠ .delimiter "\x7d" := by
  intro hstart
  obtain hdots | ⟨x, _, hx, -⟩ := h.startOf_cases hclose
  · exact absurd (hstart.symm.trans hdots) (by decide)
  · exact nomatch hstart.symm.trans hx.startOf_eq

/-- A dict that starts like a pattern is empty, and so is the pattern. -/
theorem Dict.eq_of_dictPattern {bs : List (Binding Expr Expr)} {p : Pattern Expr}
    (h : Dict Lexicon.standard strip bs t u) (hp : DictPattern Lexicon.standard strip p t v) :
    u = v := by
  cases h with
  | mk opens bindings closes =>
    cases hp with
    | empty opens' closes' =>
      obtain rfl := opens.unique opens'
      cases bindings with
      | nil => exact closes.unique closes'
      | cons first _ _ => exact absurd closes'.startOf_eq (first.startOf_ne (by decide))
    | fields opens' list closes' _ =>
      obtain rfl := opens.unique opens'
      cases bindings with
      | nil => exact absurd closes.startOf_eq (list.startOf_ne closes')
      | cons first _ _ =>
        obtain h | ⟨x, z, hx, d, hd, hz⟩ := list.startOf_cases closes'
        · exact absurd h (first.startOf_ne (by decide))
        · cases first with
          | inherit h => exact absurd h.startOf_eq (hx.startOf_ne_word (by decide))
          | equation key mark _ =>
            cases key with
            | name name =>
              obtain ⟨rfl, rfl⟩ := hx.unique name
              rw [mark.startOf_eq, Start.delimiter.injEq] at hz
              exact absurd (hz ▸ hd) (by decide)
            | string h => exact absurd (hx.startOf_eq.symm.trans h.startOf_eq) (by simp)
            | hole opens _ _ => exact absurd (hx.startOf_eq.symm.trans opens.startOf_eq) (by simp)

/-- An operand that starts with a name is the variable. -/
theorem Primary.eq_of_identifier {e : Expr} {x : Name} (h : Primary Lexicon.standard strip e t u)
    (hx : Identifier Lexicon.standard x t v) : u = v := by
  have hstart := hx.startOf_eq
  cases h with
  | string h => exact absurd (h.startOf_eq.symm.trans hstart) (by simp)
  | list opens _ _ => exact absurd (opens.startOf_eq.symm.trans hstart) (by simp)
  | dict h => exact absurd (h.startOf_eq.symm.trans hstart) (by simp)
  | recursiveDict keyword _ => exact absurd keyword.startOf_eq (hx.startOf_ne_word (by decide))
  | var name => exact (name.unique hx).2
  | parens opens _ _ => exact absurd (opens.startOf_eq.symm.trans hstart) (by simp)

/-- An operand that starts with the brace of a pattern is a dict. -/
theorem Primary.eq_of_dictPattern {e : Expr} {p : Pattern Expr}
    (h : Primary Lexicon.standard strip e t u) (hp : DictPattern Lexicon.standard strip p t v) :
    u = v := by
  have hstart := hp.startOf_eq
  cases h with
  | string h => exact absurd (h.startOf_eq.symm.trans hstart) (by simp)
  | list opens _ _ => exact absurd (opens.startOf_eq.symm.trans hstart) (by decide)
  | dict h => exact h.eq_of_dictPattern hp
  | recursiveDict keyword _ => exact absurd (keyword.startOf_eq.symm.trans hstart) (by simp)
  | var name => exact absurd (name.startOf_eq.symm.trans hstart) (by simp)
  | parens opens _ _ => exact absurd (opens.startOf_eq.symm.trans hstart) (by decide)

/-- What stands behind an operand in front of which a function can be read. -/
theorem Primary.startOf_of_lambda {e a : Expr} (h : Primary Lexicon.standard strip e t u)
    (ha : Lambda Lexicon.standard strip a t v) :
    startOf u = .delimiter ":" ∨ startOf u = .delimiter "@" := by
  cases ha with
  | mk param colon _ =>
    cases param with
    | name name =>
      obtain rfl := h.eq_of_identifier name
      exact Or.inl colon.startOf_eq
    | pattern pattern =>
      obtain rfl := h.eq_of_dictPattern pattern
      exact Or.inl colon.startOf_eq
    | both name mark _ =>
      obtain rfl := h.eq_of_identifier name
      exact Or.inr mark.startOf_eq

/-- Keys do not come into it, because a dot is neither of the two marks. -/
theorem Dotted.startOf_of_lambda {e a : Expr} {t u v : List Char} :
    Dotted Lexicon.standard strip e t u → Lambda Lexicon.standard strip a t v →
      startOf u = .delimiter ":" ∨ startOf u = .delimiter "@"
  | .primary h, ha => h.startOf_of_lambda ha
  | .key subject dot _, ha => by
    have hbehind := subject.startOf_of_lambda ha
    rw [dot.startOf_eq] at hbehind
    exact absurd hbehind (by decide)

/-! ## To the left

Applications and keys are derived from the left, and read from there too: what has been read
is what the derivation starts with, and the rest of the derivation is ahead. -/

/-- Keys behind an operand, up to the operand with all of them. -/
inductive Keys (lexicon : Lexicon) (strip : Stripping) :
    Expr → List Char → Expr → List Char → Prop where
  | nil (e : Expr) (t : List Char) : Keys lexicon strip e t e t
  | cons {e k e' : Expr} {t u v w : List Char} (dot : Delimiter lexicon "." t u)
      (key : Key lexicon strip k u v) (others : Keys lexicon strip (.dot e k) v e' w) :
      Keys lexicon strip e t e' w

/-- Arguments behind a function, up to the application to all of them. -/
inductive Arguments (lexicon : Lexicon) (strip : Stripping) :
    Expr → List Char → Expr → List Char → Prop where
  | nil (e : Expr) (t : List Char) : Arguments lexicon strip e t e t
  | lastLambda {f a : Expr} {t u : List Char} (argument : Lambda lexicon strip a t u) :
      Arguments lexicon strip f t (.apply f a) u
  | cons {f a e : Expr} {t u v : List Char} (argument : Dotted lexicon strip a t u)
      (others : Arguments lexicon strip (.apply f a) u e v) : Arguments lexicon strip f t e v

variable {lexicon : Lexicon}

theorem Keys.snoc {e e' k : Expr} {t u v w : List Char} (h : Keys lexicon strip e t e' u)
    (dot : Delimiter lexicon "." u v) (key : Key lexicon strip k v w) :
    Keys lexicon strip e t (.dot e' k) w := by
  induction h with
  | nil e t => exact .cons dot key (.nil _ _)
  | cons dot' key' _ ih => exact .cons dot' key' (ih dot)

theorem Dotted.exists_keys : ∀ {e : Expr} {t u : List Char}, Dotted lexicon strip e t u →
    ∃ e' v, Primary lexicon strip e' t v ∧ Keys lexicon strip e' v e u
  | e, _, u, .primary h => ⟨e, u, h, .nil e u⟩
  | _, _, _, .key subject dot last => by
    obtain ⟨e', v, hprimary, hkeys⟩ := subject.exists_keys
    exact ⟨e', v, hprimary, hkeys.snoc dot last⟩

theorem Operands.exists_arguments {f e : Expr} {t u v : List Char} : Operands lexicon strip f t u →
    Arguments lexicon strip f u e v →
    ∃ e' w, Dotted lexicon strip e' t w ∧ Arguments lexicon strip e' w e v
  | .first h, hrest => ⟨f, u, h, hrest⟩
  | .next function argument, hrest => function.exists_arguments (.cons argument hrest)

theorem Application.exists_arguments {e : Expr} {t u : List Char}
    (h : Application lexicon strip e t u) :
    ∃ e' v, Dotted lexicon strip e' t v ∧ Arguments lexicon strip e' v e u := by
  cases h with
  | operands h => exact h.exists_arguments (.nil e u)
  | lastLambda function argument => exact function.exists_arguments (.lastLambda argument)

/-- Behind a function stands an argument, or what is behind the last one. -/
theorem Arguments.startOf_cases {f e : Expr} {t u : List Char}
    (h : Arguments Lexicon.standard strip f t e u) (hend : (startOf u).isEnd = true) :
    (startOf t).isEnd = true ∨ (startOf t).isParam = true ∨ (startOf t).isOperand = true := by
  cases h with
  | nil => exact Or.inl hend
  | lastLambda argument => exact Or.inr (Or.inl argument.isParam_startOf)
  | cons argument _ => exact Or.inr (Or.inr argument.isOperand_startOf)

/-- Neither a dot nor what goes on behind a parameter stands behind a function. -/
theorem Arguments.startOf_ne {f e : Expr} {t u : List Char} {d : String}
    (h : Arguments Lexicon.standard strip f t e u) (hend : (startOf u).isEnd = true)
    (hd : d ∈ [".", ":", "@"]) : startOf t ≠ .delimiter d := by
  intro hstart
  have hcases := h.startOf_cases hend
  rw [hstart] at hcases
  simp only [List.mem_cons, List.not_mem_nil, or_false] at hd
  rcases hd with rfl | rfl | rfl <;> exact absurd hcases (by decide)

/-- Where an operand and its arguments start, no function does. -/
theorem Arguments.not_lambda {f a e e' : Expr} (h : Arguments Lexicon.standard strip f u e v)
    (hend : (startOf v).isEnd = true) (hoperand : Dotted Lexicon.standard strip a t u)
    (hlambda : Lambda Lexicon.standard strip e' t w) : False := by
  obtain hstart | hstart := hoperand.startOf_of_lambda hlambda
  · exact h.startOf_ne hend (by decide) hstart
  · exact h.startOf_ne hend (by decide) hstart

end LazyConfig.Grammar
