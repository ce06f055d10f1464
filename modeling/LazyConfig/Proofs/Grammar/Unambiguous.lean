import LazyConfig.Proofs.Grammar.Starts
set_option autoImplicit false

/-!
# The grammar: one derivation

From one text at most one tree is derived, whatever is made of the layout of indented strings,
as long as it is one thing.  That is a statement about the grammar alone, not about a reader.

Two derivations from one text are compared rule by rule.  The first lexeme tells which
alternative is derived, or it cannot be the same for both; an application and a function that
start alike are told apart by what stands behind the first operand.  What is left of the text
must be compared too, so each rule is compared in front of what may follow it.  The comparison
goes by the length of the text, because the lists of a rule are compared from the left while
applications and keys are derived to the left.
-/

namespace LazyConfig.Grammar

variable {strip : Stripping} {n : Nat} {t u v w z : List Char}

/-- From fewer characters than a bound one tree is derived, and one rest is left. -/
structure UniqueBelow (strip : Stripping) (n : Nat) : Prop where
  /-- The layout of an indented string is left out in one way. -/
  functional : Relator.RightUnique strip
  /-- Expressions. -/
  expression : ∀ {e e' : Expr} {t u v : List Char}, t.length < n →
    Expression Lexicon.standard strip e t u → Expression Lexicon.standard strip e' t v →
    (startOf u).isEnd = true → (startOf v).isEnd = true → e = e' ∧ u = v
  /-- Operands with their keys. -/
  dotted : ∀ {e e' : Expr} {t u v : List Char}, t.length < n →
    Dotted Lexicon.standard strip e t u → Dotted Lexicon.standard strip e' t v →
    startOf u ≠ .delimiter "." → startOf v ≠ .delimiter "." → e = e' ∧ u = v

theorem Blank.unique (h : Blank t u) (h' : Blank t v) : u = v :=
  h.eq_afterBlank.trans h'.eq_afterBlank.symm

theorem OpeningMark.unique {o o' : Parser.Opening} (h : OpeningMark o t u)
    (h' : OpeningMark o' t v) : o = o' ∧ u = v := by
  cases h <;> cases h' <;> exact ⟨rfl, rfl⟩

theorem Content.unique {o : Parser.Opening} {l m m' : List (Char ⊕ Expr)}
    (hstrip : Relator.RightUnique strip) (h : Content strip o l m) (h' : Content strip o l m') :
    m = m' := by
  cases h with
  | quoted =>
    cases h' with
    | quoted => rfl
  | indented h =>
    cases h' with
    | indented h' => exact hstrip h h'

/-- Nothing is applied where an expression ends. -/
theorem Arguments.eq_of_isEnd {f e : Expr} (h : Arguments Lexicon.standard strip f t e u)
    (hend : (startOf t).isEnd = true) : f = e ∧ t = u := by
  cases h with
  | nil => exact ⟨rfl, rfl⟩
  | lastLambda argument => exact (argument.not_isEnd hend).elim
  | cons argument _ => exact (argument.not_isEnd hend).elim

theorem Application.not_lambda {e e' : Expr} (h : Application Lexicon.standard strip e t u)
    (hend : (startOf u).isEnd = true) (h' : Lambda Lexicon.standard strip e' t v) : False := by
  obtain ⟨f, z, hf, harguments⟩ := h.exists_arguments
  exact harguments.not_lambda hend hf h'

theorem Application.not_letIn {e e' : Expr} (h : Application Lexicon.standard strip e t u)
    (h' : LetIn Lexicon.standard strip e' t v) : False := by
  obtain ⟨f, z, hf, -⟩ := h.exists_arguments
  exact hf.startOf_ne_let h'.startOf_eq

section

variable (hr : UniqueBelow strip n)

include hr

/-- Two expressions in front of delimiters that end one. -/
theorem unique_expression {e e' : Expr} {d d' : String} (ht : t.length < n)
    (h : Expression Lexicon.standard strip e t u) (h' : Expression Lexicon.standard strip e' t v)
    (hu : Delimiter Lexicon.standard d u w) (hv : Delimiter Lexicon.standard d' v z)
    (hd : (Start.delimiter d).isEnd = true := by decide)
    (hd' : (Start.delimiter d').isEnd = true := by decide) : e = e' ∧ u = v :=
  hr.expression ht h h' (by rwa [hu.startOf_eq]) (by rwa [hv.startOf_eq])

/-! ## Strings -/

theorem unique_body {o : Parser.Opening} {body body' : Template Expr} {t u v : List Char}
    (ht : t.length ≤ n) :
    StringBody Lexicon.standard strip o body t u → StringBody Lexicon.standard strip o body' t v →
      body = body' ∧ u = v
  | .close hmark, h' => by
    obtain ⟨width, hunit, hdrop⟩ := hmark.unitOf_eq
    cases h' with
    | close hmark' =>
      obtain ⟨width', hunit', hdrop'⟩ := hmark'.unitOf_eq
      obtain rfl := Parser.StringUnit.close.inj (hunit.symm.trans hunit')
      exact ⟨rfl, hdrop.symm.trans hdrop'⟩
    | chars first _ =>
      obtain ⟨_, hunit', -⟩ := first.unitOf_eq
      exact nomatch hunit.symm.trans hunit'
    | hole => exact nomatch hunit.symm.trans (unitOf_hole o _)
  | .chars first others, h' => by
    obtain ⟨width, hunit, rfl⟩ := first.unitOf_eq
    obtain ⟨others', rfl, hothers'⟩ := h'.of_chars hunit
    have hlength := first.length_lt
    obtain ⟨rfl, rfl⟩ := unique_body (by omega) others hothers'
    exact ⟨rfl, rfl⟩
  | .hole blank inner closes others, h' => by
    obtain ⟨e', others', _, _, _, rfl, blank', inner', closes', hothers'⟩ := h'.of_hole
    obtain rfl := blank.unique blank'
    have hblank := blank.length_le
    have hinner := inner.length_lt
    have hcloses := closes.length_lt
    simp only [List.length_cons] at ht
    obtain ⟨rfl, rfl⟩ := unique_expression hr (by omega) inner inner'
      ⟨_, closes, blank_iff.mpr rfl⟩ ⟨_, closes', blank_iff.mpr rfl⟩
    obtain ⟨-, rfl⟩ := closes.unique closes'
    obtain ⟨rfl, rfl⟩ := unique_body (by omega) others hothers'
    exact ⟨rfl, rfl⟩

theorem unique_string {s s' : Template Expr} (ht : t.length ≤ n)
    (h : StringLiteral Lexicon.standard strip s t u)
    (h' : StringLiteral Lexicon.standard strip s' t v) : s = s' ∧ u = v := by
  cases h with
  | mk opens inner blank content normal =>
    cases h' with
    | mk opens' inner' blank' content' normal' =>
      have hopens := opens.length_lt
      obtain ⟨rfl, rfl⟩ := opens.unique opens'
      obtain ⟨rfl, rfl⟩ := unique_body hr (by omega) inner inner'
      obtain rfl := content.unique hr.functional content'
      exact ⟨normal.unique normal', blank.unique blank'⟩

/-! ## Keys, names and `inherit` -/

theorem unique_key {k k' : Expr} (ht : t.length ≤ n) (h : Key Lexicon.standard strip k t u)
    (h' : Key Lexicon.standard strip k' t v) : k = k' ∧ u = v := by
  cases h with
  | name name =>
    cases h' with
    | name name' =>
      obtain ⟨rfl, rfl⟩ := name.unique name'
      exact ⟨rfl, rfl⟩
    | string h' => exact nomatch name.startOf_eq.symm.trans h'.startOf_eq
    | hole opens' _ _ => exact nomatch name.startOf_eq.symm.trans opens'.startOf_eq
  | string h =>
    cases h' with
    | name name' => exact nomatch h.startOf_eq.symm.trans name'.startOf_eq
    | string h' =>
      obtain ⟨rfl, rfl⟩ := unique_string hr ht h h'
      exact ⟨rfl, rfl⟩
    | hole opens' _ _ => exact nomatch h.startOf_eq.symm.trans opens'.startOf_eq
  | hole opens inner closes =>
    cases h' with
    | name name' => exact nomatch opens.startOf_eq.symm.trans name'.startOf_eq
    | string h' => exact nomatch opens.startOf_eq.symm.trans h'.startOf_eq
    | hole opens' inner' closes' =>
      have hopens := opens.length_lt
      obtain rfl := opens.unique opens'
      obtain ⟨rfl, rfl⟩ := unique_expression hr (by omega) inner inner' closes closes'
      exact ⟨rfl, closes.unique closes'⟩

theorem unique_staticName {x y : String} (ht : t.length ≤ n)
    (h : StaticName Lexicon.standard strip x t u)
    (h' : StaticName Lexicon.standard strip y t v) : x = y ∧ u = v := by
  cases h with
  | name name =>
    cases h' with
    | name name' =>
      obtain ⟨rfl, rfl⟩ := name.unique name'
      exact ⟨rfl, rfl⟩
    | string h' _ => exact nomatch name.startOf_eq.symm.trans h'.startOf_eq
  | string h static =>
    cases h' with
    | name name' => exact nomatch h.startOf_eq.symm.trans name'.startOf_eq
    | string h' static' =>
      obtain ⟨rfl, rfl⟩ := unique_string hr ht h h'
      have hchars := (List.map_inj_right fun _ _ => Sum.inl.inj).mp (static.symm.trans static')
      exact ⟨String.toList_injective hchars, rfl⟩

theorem unique_names {names names' : List String} {t u v : List Char} (ht : t.length ≤ n)
    (hu : Delimiter Lexicon.standard ";" u w) (hv : Delimiter Lexicon.standard ";" v z) :
    Names Lexicon.standard strip names t u → Names Lexicon.standard strip names' t v →
      names = names' ∧ u = v
  | .nil _, h' => by
    cases h' with
    | nil => exact ⟨rfl, rfl⟩
    | cons first _ => exact absurd hu.startOf_eq first.startOf_ne_delimiter
  | .cons first others, h' => by
    cases h' with
    | nil => exact absurd hv.startOf_eq first.startOf_ne_delimiter
    | cons first' others' =>
      have hfirst := first.length_lt
      obtain ⟨rfl, rfl⟩ := unique_staticName hr ht first first'
      obtain ⟨rfl, rfl⟩ := unique_names (by omega) hu hv others others'
      exact ⟨rfl, rfl⟩

theorem unique_inheritance {source source' : Option Expr} {names names' : List String}
    (ht : t.length ≤ n) (h : Inheritance Lexicon.standard strip source names t u)
    (h' : Inheritance Lexicon.standard strip source' names' t v)
    (hu : Delimiter Lexicon.standard ";" u w) (hv : Delimiter Lexicon.standard ";" v z) :
    (source = source' ∧ names = names') ∧ u = v := by
  cases h with
  | scope keyword list =>
    have hkeyword := keyword.length_lt
    cases h' with
    | scope keyword' list' =>
      obtain rfl := keyword.unique keyword'
      obtain ⟨rfl, rfl⟩ := unique_names hr (by omega) hu hv list list'
      exact ⟨⟨rfl, rfl⟩, rfl⟩
    | source keyword' opens' _ _ _ =>
      obtain rfl := keyword.unique keyword'
      exact absurd opens'.startOf_eq (list.startOf_ne hu)
  | source keyword opens inner closes list =>
    have hkeyword := keyword.length_lt
    cases h' with
    | scope keyword' list' =>
      obtain rfl := keyword.unique keyword'
      exact absurd opens.startOf_eq (list'.startOf_ne hv)
    | source keyword' opens' inner' closes' list' =>
      have hopens := opens.length_lt
      have hinner := inner.length_lt
      have hcloses := closes.length_lt
      obtain rfl := keyword.unique keyword'
      obtain rfl := opens.unique opens'
      obtain ⟨rfl, rfl⟩ := unique_expression hr (by omega) inner inner' closes closes'
      obtain rfl := closes.unique closes'
      obtain ⟨rfl, rfl⟩ := unique_names hr (by omega) hu hv list list'
      exact ⟨⟨rfl, rfl⟩, rfl⟩

/-! ## Parameters and functions -/

theorem unique_item {field field' : Field Expr} (ht : t.length ≤ n)
    (h : Item Lexicon.standard strip field t u) (h' : Item Lexicon.standard strip field' t v)
    (hu : (startOf u).isEnd = true) (hv : (startOf v).isEnd = true) : field = field' ∧ u = v := by
  cases h with
  | plain name =>
    cases h' with
    | plain name' =>
      obtain ⟨rfl, rfl⟩ := name.unique name'
      exact ⟨rfl, rfl⟩
    | default name' mark' _ =>
      obtain ⟨rfl, rfl⟩ := name.unique name'
      rw [mark'.startOf_eq] at hu
      exact absurd hu (by decide)
  | default name mark default =>
    cases h' with
    | plain name' =>
      obtain ⟨rfl, rfl⟩ := name.unique name'
      rw [mark.startOf_eq] at hv
      exact absurd hv (by decide)
    | default name' mark' default' =>
      have hname := name.length_lt
      have hmark := mark.length_lt
      obtain ⟨rfl, rfl⟩ := name.unique name'
      obtain rfl := mark.unique mark'
      obtain ⟨rfl, rfl⟩ := hr.expression (by omega) default default' hu hv
      exact ⟨rfl, rfl⟩

theorem unique_fields {fields fields' : List (Field Expr)} {ellipsis ellipsis' : Bool}
    {t u v : List Char} (ht : t.length ≤ n) (hu : Delimiter Lexicon.standard "\x7d" u w)
    (hv : Delimiter Lexicon.standard "\x7d" v z) :
    Fields Lexicon.standard strip fields ellipsis t u →
    Fields Lexicon.standard strip fields' ellipsis' t v →
      (fields = fields' ∧ ellipsis = ellipsis') ∧ u = v
  | .ellipsis mark, h' => by
    cases h' with
    | ellipsis mark' => exact ⟨⟨rfl, rfl⟩, mark.unique mark'⟩
    | last item' => exact absurd mark.startOf_eq item'.startOf_ne
    | more item' _ _ => exact absurd mark.startOf_eq item'.startOf_ne
  | .last item, h' => by
    have hend : (startOf u).isEnd = true := by rw [hu.startOf_eq]; decide
    cases h' with
    | ellipsis mark' => exact absurd mark'.startOf_eq item.startOf_ne
    | last item' =>
      obtain ⟨rfl, rfl⟩ := unique_item hr ht item item' hend (by rw [hv.startOf_eq]; decide)
      exact ⟨⟨rfl, rfl⟩, rfl⟩
    | more item' comma' _ =>
      obtain ⟨-, rfl⟩ := unique_item hr ht item item' hend (by rw [comma'.startOf_eq]; decide)
      exact absurd (hu.startOf_eq.symm.trans comma'.startOf_eq) (by decide)
  | .more item comma others, h' => by
    have hend := comma.startOf_eq
    cases h' with
    | ellipsis mark' => exact absurd mark'.startOf_eq item.startOf_ne
    | last item' =>
      obtain ⟨-, rfl⟩ := unique_item hr ht item item' (by rw [hend]; decide)
        (by rw [hv.startOf_eq]; decide)
      exact absurd (hv.startOf_eq.symm.trans comma.startOf_eq) (by decide)
    | more item' comma' others' =>
      have hitem := item.length_lt
      have hcomma := comma.length_lt
      obtain ⟨rfl, rfl⟩ := unique_item hr ht item item' (by rw [hend]; decide)
        (by rw [comma'.startOf_eq]; decide)
      obtain rfl := comma.unique comma'
      obtain ⟨⟨rfl, rfl⟩, rfl⟩ := unique_fields (by omega) hu hv others others'
      exact ⟨⟨rfl, rfl⟩, rfl⟩

theorem unique_pattern {p p' : Pattern Expr} (ht : t.length ≤ n)
    (h : DictPattern Lexicon.standard strip p t u)
    (h' : DictPattern Lexicon.standard strip p' t v) : p = p' ∧ u = v := by
  cases h with
  | empty opens closes =>
    cases h' with
    | empty opens' closes' =>
      obtain rfl := opens.unique opens'
      exact ⟨rfl, closes.unique closes'⟩
    | fields opens' list' closes' _ =>
      obtain rfl := opens.unique opens'
      exact absurd closes.startOf_eq (list'.startOf_ne closes')
  | fields opens list closes _ =>
    cases h' with
    | empty opens' closes' =>
      obtain rfl := opens.unique opens'
      exact absurd closes'.startOf_eq (list.startOf_ne closes)
    | fields opens' list' closes' _ =>
      have hopens := opens.length_lt
      obtain rfl := opens.unique opens'
      obtain ⟨⟨rfl, rfl⟩, rfl⟩ := unique_fields hr (by omega) closes closes' list list'
      exact ⟨rfl, closes.unique closes'⟩

theorem unique_param {p p' : Param Expr} (ht : t.length ≤ n)
    (h : Parameter Lexicon.standard strip p t u) (h' : Parameter Lexicon.standard strip p' t v)
    (hu : Delimiter Lexicon.standard ":" u w) (hv : Delimiter Lexicon.standard ":" v z) :
    p = p' ∧ u = v := by
  cases h with
  | name name =>
    cases h' with
    | name name' =>
      obtain ⟨rfl, rfl⟩ := name.unique name'
      exact ⟨rfl, rfl⟩
    | pattern pattern' => exact nomatch name.startOf_eq.symm.trans pattern'.startOf_eq
    | both name' mark' _ =>
      obtain ⟨rfl, rfl⟩ := name.unique name'
      exact absurd (hu.startOf_eq.symm.trans mark'.startOf_eq) (by decide)
  | pattern pattern =>
    cases h' with
    | name name' => exact nomatch pattern.startOf_eq.symm.trans name'.startOf_eq
    | pattern pattern' =>
      obtain ⟨rfl, rfl⟩ := unique_pattern hr ht pattern pattern'
      exact ⟨rfl, rfl⟩
    | both name' _ _ => exact nomatch pattern.startOf_eq.symm.trans name'.startOf_eq
  | both name mark pattern =>
    cases h' with
    | name name' =>
      obtain ⟨rfl, rfl⟩ := name.unique name'
      exact absurd (hv.startOf_eq.symm.trans mark.startOf_eq) (by decide)
    | pattern pattern' => exact nomatch name.startOf_eq.symm.trans pattern'.startOf_eq
    | both name' mark' pattern' =>
      have hname := name.length_lt
      have hmark := mark.length_lt
      obtain ⟨rfl, rfl⟩ := name.unique name'
      obtain rfl := mark.unique mark'
      obtain ⟨rfl, rfl⟩ := unique_pattern hr (by omega) pattern pattern'
      exact ⟨rfl, rfl⟩

theorem unique_lambda {e e' : Expr} (ht : t.length ≤ n)
    (h : Lambda Lexicon.standard strip e t u) (h' : Lambda Lexicon.standard strip e' t v)
    (hu : (startOf u).isEnd = true) (hv : (startOf v).isEnd = true) : e = e' ∧ u = v := by
  cases h with
  | mk param colon body =>
    cases h' with
    | mk param' colon' body' =>
      have hparam := param.length_lt
      have hcolon := colon.length_lt
      obtain ⟨rfl, rfl⟩ := unique_param hr ht param param' colon colon'
      obtain rfl := colon.unique colon'
      obtain ⟨rfl, rfl⟩ := hr.expression (by omega) body body' hu hv
      exact ⟨rfl, rfl⟩

/-! ## Lists and dicts -/

theorem unique_items {es es' : List Expr} {t u v : List Char} (ht : t.length < n)
    (hu : Delimiter Lexicon.standard "]" u w) (hv : Delimiter Lexicon.standard "]" v z) :
    Items Lexicon.standard strip es t u → Items Lexicon.standard strip es' t v →
      es = es' ∧ u = v
  | .nil _, h' => by
    cases h' with
    | nil => exact ⟨rfl, rfl⟩
    | cons first _ => exact absurd hu.startOf_eq first.startOf_ne
  | .cons first others, h' => by
    cases h' with
    | nil => exact absurd hv.startOf_eq first.startOf_ne
    | cons first' others' =>
      have hfirst := first.length_lt
      obtain ⟨rfl, rfl⟩ := hr.dotted ht first first' (others.startOf_ne hu) (others'.startOf_ne hv)
      obtain ⟨rfl, rfl⟩ := unique_items (by omega) hu hv others others'
      exact ⟨rfl, rfl⟩

theorem unique_entry {b b' : Binding Expr Expr} (ht : t.length ≤ n)
    (h : DictBinding Lexicon.standard strip b t u)
    (h' : DictBinding Lexicon.standard strip b' t v)
    (hu : Delimiter Lexicon.standard ";" u w) (hv : Delimiter Lexicon.standard ";" v z) :
    b = b' ∧ u = v := by
  cases h with
  | inherit h =>
    cases h' with
    | inherit h' =>
      obtain ⟨⟨rfl, rfl⟩, rfl⟩ := unique_inheritance hr ht h h' hu hv
      exact ⟨rfl, rfl⟩
    | equation key' _ _ => exact absurd h.startOf_eq (key'.startOf_ne_word (by decide))
  | equation key mark value =>
    cases h' with
    | inherit h' => exact absurd h'.startOf_eq (key.startOf_ne_word (by decide))
    | equation key' mark' value' =>
      have hkey := key.length_lt
      have hmark := mark.length_lt
      obtain ⟨rfl, rfl⟩ := unique_key hr ht key key'
      obtain rfl := mark.unique mark'
      obtain ⟨rfl, rfl⟩ := unique_expression hr (by omega) value value' hu hv
      exact ⟨rfl, rfl⟩

theorem unique_entries {bs bs' : List (Binding Expr Expr)} {t u v : List Char}
    (ht : t.length ≤ n) (hu : Delimiter Lexicon.standard "\x7d" u w)
    (hv : Delimiter Lexicon.standard "\x7d" v z) :
    DictBindings Lexicon.standard strip bs t u → DictBindings Lexicon.standard strip bs' t v →
      bs = bs' ∧ u = v
  | .nil _, h' => by
    cases h' with
    | nil => exact ⟨rfl, rfl⟩
    | cons first _ _ => exact absurd hu.startOf_eq (first.startOf_ne (by decide))
  | .cons first semicolon others, h' => by
    cases h' with
    | nil => exact absurd hv.startOf_eq (first.startOf_ne (by decide))
    | cons first' semicolon' others' =>
      have hfirst := first.length_lt
      have hsemicolon := semicolon.length_lt
      obtain ⟨rfl, rfl⟩ := unique_entry hr ht first first' semicolon semicolon'
      obtain rfl := semicolon.unique semicolon'
      obtain ⟨rfl, rfl⟩ := unique_entries (by omega) hu hv others others'
      exact ⟨rfl, rfl⟩

theorem unique_dict {bs bs' : List (Binding Expr Expr)} (ht : t.length ≤ n)
    (h : Dict Lexicon.standard strip bs t u) (h' : Dict Lexicon.standard strip bs' t v) :
    bs = bs' ∧ u = v := by
  cases h with
  | mk opens bindings closes =>
    cases h' with
    | mk opens' bindings' closes' =>
      have hopens := opens.length_lt
      obtain rfl := opens.unique opens'
      obtain ⟨rfl, rfl⟩ := unique_entries hr (by omega) closes closes' bindings bindings'
      exact ⟨rfl, closes.unique closes'⟩

/-! ## Operands -/

theorem unique_primary {e e' : Expr} (ht : t.length ≤ n)
    (h : Primary Lexicon.standard strip e t u) (h' : Primary Lexicon.standard strip e' t v) :
    e = e' ∧ u = v := by
  cases h with
  | string h =>
    have hstart := h.startOf_eq
    cases h' with
    | string h' =>
      obtain ⟨rfl, rfl⟩ := unique_string hr ht h h'
      exact ⟨rfl, rfl⟩
    | list opens' _ _ | parens opens' _ _ => exact nomatch hstart.symm.trans opens'.startOf_eq
    | dict h' => exact nomatch hstart.symm.trans h'.startOf_eq
    | recursiveDict keyword' _ => exact nomatch hstart.symm.trans keyword'.startOf_eq
    | var name' => exact nomatch hstart.symm.trans name'.startOf_eq
  | list opens items closes =>
    have hstart := opens.startOf_eq
    cases h' with
    | list opens' items' closes' =>
      have hopens := opens.length_lt
      obtain rfl := opens.unique opens'
      obtain ⟨rfl, rfl⟩ := unique_items hr (by omega) closes closes' items items'
      exact ⟨rfl, closes.unique closes'⟩
    | string h' => exact nomatch hstart.symm.trans h'.startOf_eq
    | dict h' => exact absurd (hstart.symm.trans h'.startOf_eq) (by decide)
    | recursiveDict keyword' _ => exact nomatch hstart.symm.trans keyword'.startOf_eq
    | var name' => exact nomatch hstart.symm.trans name'.startOf_eq
    | parens opens' _ _ => exact absurd (hstart.symm.trans opens'.startOf_eq) (by decide)
  | dict h =>
    have hstart := h.startOf_eq
    cases h' with
    | dict h' =>
      obtain ⟨rfl, rfl⟩ := unique_dict hr ht h h'
      exact ⟨rfl, rfl⟩
    | string h' => exact nomatch hstart.symm.trans h'.startOf_eq
    | list opens' _ _ | parens opens' _ _ =>
      exact absurd (hstart.symm.trans opens'.startOf_eq) (by decide)
    | recursiveDict keyword' _ => exact nomatch hstart.symm.trans keyword'.startOf_eq
    | var name' => exact nomatch hstart.symm.trans name'.startOf_eq
  | recursiveDict keyword h =>
    have hstart := keyword.startOf_eq
    cases h' with
    | recursiveDict keyword' h' =>
      have hkeyword := keyword.length_lt
      obtain rfl := keyword.unique keyword'
      obtain ⟨rfl, rfl⟩ := unique_dict hr (by omega) h h'
      exact ⟨rfl, rfl⟩
    | string h' | dict h' => exact nomatch hstart.symm.trans h'.startOf_eq
    | list opens' _ _ | parens opens' _ _ => exact nomatch hstart.symm.trans opens'.startOf_eq
    | var name' => exact absurd hstart (name'.startOf_ne_word (by decide))
  | var name =>
    have hstart := name.startOf_eq
    cases h' with
    | var name' =>
      obtain ⟨rfl, rfl⟩ := name.unique name'
      exact ⟨rfl, rfl⟩
    | string h' | dict h' => exact nomatch hstart.symm.trans h'.startOf_eq
    | list opens' _ _ | parens opens' _ _ => exact nomatch hstart.symm.trans opens'.startOf_eq
    | recursiveDict keyword' _ =>
      exact absurd keyword'.startOf_eq (name.startOf_ne_word (by decide))
  | parens opens inner closes =>
    have hstart := opens.startOf_eq
    cases h' with
    | parens opens' inner' closes' =>
      have hopens := opens.length_lt
      obtain rfl := opens.unique opens'
      obtain ⟨rfl, rfl⟩ := unique_expression hr (by omega) inner inner' closes closes'
      exact ⟨rfl, closes.unique closes'⟩
    | string h' => exact nomatch hstart.symm.trans h'.startOf_eq
    | list opens' _ _ => exact absurd (hstart.symm.trans opens'.startOf_eq) (by decide)
    | dict h' => exact absurd (hstart.symm.trans h'.startOf_eq) (by decide)
    | recursiveDict keyword' _ => exact nomatch hstart.symm.trans keyword'.startOf_eq
    | var name' => exact nomatch hstart.symm.trans name'.startOf_eq

theorem unique_keys {f e e' : Expr} {t u v : List Char} (ht : t.length ≤ n)
    (hu : startOf u ≠ .delimiter ".") (hv : startOf v ≠ .delimiter ".")
    (h : Keys Lexicon.standard strip f t e u) (h' : Keys Lexicon.standard strip f t e' v) :
    e = e' ∧ u = v := by
  induction h with
  | nil =>
    cases h' with
    | nil => exact ⟨rfl, rfl⟩
    | cons dot' _ _ => exact absurd dot'.startOf_eq hu
  | cons dot key _ ih =>
    cases h' with
    | nil => exact absurd dot.startOf_eq hv
    | cons dot' key' others' =>
      have hdot := dot.length_lt
      have hkey := key.length_lt
      obtain rfl := dot.unique dot'
      obtain ⟨rfl, rfl⟩ := unique_key hr (by omega) key key'
      exact ih (by omega) hu others'

theorem unique_dotted {e e' : Expr} (ht : t.length ≤ n)
    (h : Dotted Lexicon.standard strip e t u) (h' : Dotted Lexicon.standard strip e' t v)
    (hu : startOf u ≠ .delimiter ".") (hv : startOf v ≠ .delimiter ".") : e = e' ∧ u = v := by
  obtain ⟨f, w, hprimary, hkeys⟩ := h.exists_keys
  obtain ⟨f', w', hprimary', hkeys'⟩ := h'.exists_keys
  have hlength := hprimary.length_lt
  obtain ⟨rfl, rfl⟩ := unique_primary hr ht hprimary hprimary'
  exact unique_keys hr (by omega) hu hv hkeys hkeys'

/-! ## Applications -/

theorem unique_arguments {f e e' : Expr} {t u v : List Char} (ht : t.length ≤ n)
    (hu : (startOf u).isEnd = true) (hv : (startOf v).isEnd = true)
    (h : Arguments Lexicon.standard strip f t e u)
    (h' : Arguments Lexicon.standard strip f t e' v) : e = e' ∧ u = v := by
  induction h with
  | nil => exact h'.eq_of_isEnd hu
  | lastLambda argument =>
    cases h' with
    | nil => exact (argument.not_isEnd hv).elim
    | lastLambda argument' =>
      obtain ⟨rfl, rfl⟩ := unique_lambda hr ht argument argument' hu hv
      exact ⟨rfl, rfl⟩
    | cons argument' others' => exact (others'.not_lambda hv argument' argument).elim
  | cons argument others ih =>
    cases h' with
    | nil => exact (argument.not_isEnd hv).elim
    | lastLambda argument' => exact (others.not_lambda hu argument argument').elim
    | cons argument' others' =>
      have hargument := argument.length_lt
      obtain ⟨rfl, rfl⟩ := unique_dotted hr ht argument argument'
        (others.startOf_ne hu (by decide)) (others'.startOf_ne hv (by decide))
      exact ih (by omega) hu others'

theorem unique_application {e e' : Expr} (ht : t.length ≤ n)
    (h : Application Lexicon.standard strip e t u)
    (h' : Application Lexicon.standard strip e' t v) (hu : (startOf u).isEnd = true)
    (hv : (startOf v).isEnd = true) : e = e' ∧ u = v := by
  obtain ⟨f, w, hf, harguments⟩ := h.exists_arguments
  obtain ⟨f', w', hf', harguments'⟩ := h'.exists_arguments
  have hlength := hf.length_lt
  obtain ⟨rfl, rfl⟩ := unique_dotted hr ht hf hf' (harguments.startOf_ne hu (by decide))
    (harguments'.startOf_ne hv (by decide))
  exact unique_arguments hr (by omega) hu hv harguments harguments'

/-! ## Expressions -/

theorem unique_definition {b b' : Binding String Expr} (ht : t.length ≤ n)
    (h : LetBinding Lexicon.standard strip b t u)
    (h' : LetBinding Lexicon.standard strip b' t v)
    (hu : Delimiter Lexicon.standard ";" u w) (hv : Delimiter Lexicon.standard ";" v z) :
    b = b' ∧ u = v := by
  cases h with
  | inherit h =>
    cases h' with
    | inherit h' =>
      obtain ⟨⟨rfl, rfl⟩, rfl⟩ := unique_inheritance hr ht h h' hu hv
      exact ⟨rfl, rfl⟩
    | equation name' _ _ => exact absurd h.startOf_eq (name'.startOf_ne_word (by decide))
  | equation name mark value =>
    cases h' with
    | inherit h' => exact absurd h'.startOf_eq (name.startOf_ne_word (by decide))
    | equation name' mark' value' =>
      have hname := name.length_lt
      have hmark := mark.length_lt
      obtain ⟨rfl, rfl⟩ := unique_staticName hr ht name name'
      obtain rfl := mark.unique mark'
      obtain ⟨rfl, rfl⟩ := unique_expression hr (by omega) value value' hu hv
      exact ⟨rfl, rfl⟩

theorem unique_definitions {bs bs' : List (Binding String Expr)} {t u v : List Char}
    (ht : t.length ≤ n) (hu : Keyword Lexicon.standard "in" u w)
    (hv : Keyword Lexicon.standard "in" v z) :
    LetBindings Lexicon.standard strip bs t u → LetBindings Lexicon.standard strip bs' t v →
      bs = bs' ∧ u = v
  | .nil _, h' => by
    cases h' with
    | nil => exact ⟨rfl, rfl⟩
    | cons first _ _ => exact absurd hu.startOf_eq first.startOf_ne
  | .cons first semicolon others, h' => by
    cases h' with
    | nil => exact absurd hv.startOf_eq first.startOf_ne
    | cons first' semicolon' others' =>
      have hfirst := first.length_lt
      have hsemicolon := semicolon.length_lt
      obtain ⟨rfl, rfl⟩ := unique_definition hr ht first first' semicolon semicolon'
      obtain rfl := semicolon.unique semicolon'
      obtain ⟨rfl, rfl⟩ := unique_definitions (by omega) hu hv others others'
      exact ⟨rfl, rfl⟩

theorem unique_letIn {e e' : Expr} (ht : t.length ≤ n)
    (h : LetIn Lexicon.standard strip e t u) (h' : LetIn Lexicon.standard strip e' t v)
    (hu : (startOf u).isEnd = true) (hv : (startOf v).isEnd = true) : e = e' ∧ u = v := by
  cases h with
  | mk keyword bindings mark body =>
    cases h' with
    | mk keyword' bindings' mark' body' =>
      have hkeyword := keyword.length_lt
      have hbindings := bindings.length_le
      have hmark := mark.length_lt
      obtain rfl := keyword.unique keyword'
      obtain ⟨rfl, rfl⟩ := unique_definitions hr (by omega) mark mark' bindings bindings'
      obtain rfl := mark.unique mark'
      obtain ⟨rfl, rfl⟩ := hr.expression (by omega) body body' hu hv
      exact ⟨rfl, rfl⟩

theorem unique_wholeExpression {e e' : Expr} (ht : t.length ≤ n)
    (h : Expression Lexicon.standard strip e t u)
    (h' : Expression Lexicon.standard strip e' t v) (hu : (startOf u).isEnd = true)
    (hv : (startOf v).isEnd = true) : e = e' ∧ u = v := by
  cases h with
  | lambda h =>
    cases h' with
    | lambda h' => exact unique_lambda hr ht h h' hu hv
    | letIn h' => exact (h'.not_lambda h).elim
    | application h' => exact (h'.not_lambda hv h).elim
  | letIn h =>
    cases h' with
    | lambda h' => exact (h.not_lambda h').elim
    | letIn h' => exact unique_letIn hr ht h h' hu hv
    | application h' => exact (h'.not_letIn h).elim
  | application h =>
    cases h' with
    | lambda h' => exact (h.not_lambda hu h').elim
    | letIn h' => exact (h.not_letIn h').elim
    | application h' => exact unique_application hr ht h h' hu hv

end

/-! ## Whole texts -/

theorem uniqueBelow (hstrip : Relator.RightUnique strip) (n : Nat) : UniqueBelow strip n := by
  induction n with
  | zero =>
    exact ⟨hstrip, fun h => absurd h (Nat.not_lt_zero _), fun h => absurd h (Nat.not_lt_zero _)⟩
  | succ n ih =>
    exact ⟨hstrip, fun ht h h' hu hv => unique_wholeExpression ih (Nat.le_of_lt_succ ht) h h' hu hv,
      fun ht h h' hu hv => unique_dotted ih (Nat.le_of_lt_succ ht) h h' hu hv⟩

/-- The grammar is unambiguous. -/
theorem Program.unique (hstrip : Relator.RightUnique strip) {e e' : Expr}
    (h : Program Lexicon.standard strip e t) (h' : Program Lexicon.standard strip e' t) :
    e = e' := by
  obtain ⟨u, hblank, he⟩ := h
  obtain ⟨u', hblank', he'⟩ := h'
  obtain rfl := hblank.unique hblank'
  exact (unique_wholeExpression (uniqueBelow hstrip _) (Nat.le_refl _) he he' rfl rfl).1

end LazyConfig.Grammar
