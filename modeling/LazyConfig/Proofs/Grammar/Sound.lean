import LazyConfig.Parser
import LazyConfig.Proofs.Grammar.Derivations
import LazyConfig.Proofs.Grammar.Ensures
set_option autoImplicit false

/-!
# The grammar: what a reader reads is derived

Whatever the keywords and delimiters are: a value that a rule reads is derived from the
characters it has read, and a rule that may nest as deep as there are characters ahead comes
to an end.

A loop has the invariant that whatever is derived from the text ahead makes, together with
what was gathered, a derivation from the place where the loop began.
-/

namespace LazyConfig.Parser

open Grammar

variable {α : Type} {s : Settings} {r : Rules} {n : Nat} {w : List Char}

/-- What the parser reads at the start of the text is derived by a rule. -/
def Sound (p : Parser α) (s : Settings) (rule : α → List Char → List Char → Prop)
    (w : List Char) : Prop :=
  Passes True p s w fun a u => rule a w u

/-- The rules are sound wherever fewer characters than a bound are ahead. -/
structure Rules.SoundBelow (r : Rules) (s : Settings) (n : Nat) : Prop where
  /-- Expressions. -/
  expression : ∀ w, w.length < n → Sound r.expression s (Expression s.lexicon AsRead) w
  /-- Operands with their keys. -/
  dotted : ∀ w, w.length < n → Sound r.dotted s (Dotted s.lexicon AsRead) w

theorem sound_delimiter (d : String) (w : List Char) :
    Sound (delimiter d) s (fun _ => Delimiter s.lexicon d) w :=
  (passes_delimiter d).refuse fun _ => trivial

theorem sound_identifier (w : List Char) : Sound identifier s (Identifier s.lexicon) w :=
  passes_identifier.refuse fun _ => trivial

theorem sound_keyword {k : String} (hk : k ≠ "") (w : List Char) :
    Sound (keyword k) s (fun _ => Keyword s.lexicon k) w :=
  (passes_keyword hk).refuse fun _ => trivial

/-- What a round of a loop that gathers a list must do: it reads one more member or ends with
what was gathered. -/
def Gathers (rule : List α → List Char → List Char → Prop) (xs : List α) (v : List Char) :
    Round (List α) (List α) → List Char → Prop
  | .again ys, u => u.length < v.length ∧ ∃ x, ys = x :: xs ∧
      ∀ zs z, rule zs u z → rule (x :: zs) v z
  | .done ys, u => ys = xs.reverse ∧ rule [] v u

/-- A loop whose rounds gather a list reads a list. -/
theorem sound_gather {rule : List α → List Char → List Char → Prop}
    {body : List α → Parser (Round (List α) (List α))}
    (hbody : ∀ xs v, v.length ≤ w.length → Passes True (body xs) s v (Gathers rule xs v)) :
    Sound (repeated body []) s rule w := by
  refine Passes.repeated (I := fun xs v => v.length ≤ w.length ∧
    ∀ zs z, rule zs v z → rule (xs.reverse ++ zs) w z) (fun xs v hI => ?_)
    ⟨Nat.le_refl _, fun zs z h => by simpa using h⟩
  obtain ⟨hv, hfront⟩ := hI
  refine (hbody xs v hv).imp fun round u hround => ?_
  cases round with
  | again ys =>
    obtain ⟨hshorter, x, rfl, hx⟩ := hround
    refine ⟨⟨by omega, fun zs z h => ?_⟩, hshorter⟩
    rw [List.reverse_cons, List.append_assoc]
    exact hfront _ z (hx zs z h)
  | done ys =>
    obtain ⟨rfl, hend⟩ := hround
    have hall := hfront [] u hend
    rwa [List.append_nil] at hall

section

variable (hr : r.SoundBelow s n)

include hr

/-! ## Strings -/

/-- The rounds of a body, from where it starts. -/
theorem sound_body (o : Opening) (cause : Cause) (t : List Char) (ht : t.length ≤ n) :
    Ensures True (repeated (bodyRound (unitOf o) cause r.expression) Draft.empty) s t
      fun X u => ∃ body, X = (Draft.gather body).finish ∧
        StringBody s.lexicon AsRead o body t u := by
  refine Ensures.repeated (I := fun d v => v.length ≤ n ∧ ∃ front, d = Draft.gather front ∧
    ∀ body u, StringBody s.lexicon AsRead o body v u →
      StringBody s.lexicon AsRead o (front ++ body) t u)
    List.length (fun _ => Nat.le_refl _) (fun d v hI => ?_) ⟨ht, [], rfl, fun body u h => h⟩
  obtain ⟨hv, front, rfl, hfront⟩ := hI
  refine Ensures.bind (Ensures.ahead _) ?_
  rintro _ _ ⟨rfl, rfl⟩
  have hunit := unitStands_unitOf o v
  cases hu : unitOf o v with
  | broken => exact Ensures.fail _ trivial
  | close width =>
    rw [hu] at hunit
    refine Ensures.bind (Ensures.advance width) ?_
    rintro _ _ rfl
    exact Ensures.pure ⟨front, rfl, by simpa using hfront [] _ (.close hunit)⟩
  | chars cs width =>
    rw [hu] at hunit
    refine Ensures.bind (Ensures.advance width) ?_
    rintro _ _ rfl
    have hshorter : (v.drop width).length < v.length := Written.length_lt hunit
    refine Ensures.pure ⟨⟨by omega, front ++ [.literal (String.ofList cs)], ?_, ?_⟩, hshorter⟩
    · rw [Draft.gather_append_singleton, Draft.add, String.toList_ofList]
    · intro body u hbody
      rw [List.append_assoc]
      exact hfront _ u (.chars hunit hbody)
  | hole =>
    rw [hu] at hunit
    obtain ⟨w, rfl⟩ := hunit
    refine Ensures.bind (Ensures.advance 2) ?_
    rintro _ _ rfl
    have hw := length_afterBlank_le w
    simp only [List.length_cons] at hv
    refine Ensures.bind (hr.expression (afterBlank w) (by omega) w rfl) fun e u he => ?_
    refine Ensures.bind ((ensures_delimiter "\x7d" u).refuse fun _ => trivial) fun _ u' hclose => ?_
    have hexpr := he.length_lt
    have hend := hclose.length_lt
    refine Ensures.pure ⟨⟨by omega, front ++ [.antiquote e], ?_, ?_⟩, ?_⟩
    · rw [Draft.gather_append_singleton, Draft.add]
    · intro body u hbody
      rw [List.append_assoc]
      exact hfront _ u (.hole (blank_iff.mpr rfl) he hclose hbody)
    · simp only [List.length_cons]
      omega

theorem sound_string (hw : w.length ≤ n) :
    Sound (string r.expression) s (StringLiteral s.lexicon AsRead) w := by
  rintro t rfl
  have hopening : Ensures True aheadOpening s t fun o u =>
      opening? (afterBlank t) = o ∧ afterBlank t = u :=
    fun _ => ⟨rfl, rfl⟩
  refine Ensures.bind hopening ?_
  rintro _ _ ⟨rfl, rfl⟩
  cases ho : opening? (afterBlank t) with
  | none => exact Ensures.fail _ trivial
  | some o =>
    obtain ⟨v, hmark⟩ := openingMark_of_opening? ho
    have hv := hmark.length_lt
    cases o with
    | quoted =>
      refine Ensures.bind (Ensures.advance 1) ?_
      rintro _ _ rfl
      rw [hmark.drop_quoted]
      refine Ensures.bind (sound_body hr .quoted _ v (by omega)) ?_
      rintro _ u ⟨body, rfl, hbody⟩
      rw [Draft.finish_gather]
      exact Ensures.pure (.mk hmark hbody (blank_iff.mpr rfl) (.quoted _)
        (normal_clean_padded body))
    | indented =>
      refine Ensures.bind (Ensures.advance 2) ?_
      rintro _ _ rfl
      rw [hmark.drop_indented]
      refine Ensures.bind (sound_body hr .indented _ v (by omega)) ?_
      rintro _ u ⟨body, rfl, hbody⟩
      rw [Draft.finish_gather]
      exact Ensures.pure (.mk hmark hbody (blank_iff.mpr rfl) (.indented (asRead_padded body))
        (normal_clean _))

/-! ## Keys, names and `inherit` -/

theorem sound_key (hw : w.length ≤ n) : Sound (key r) s (Key s.lexicon AsRead) w := by
  refine Passes.ifString (fun _ => ?_) fun _ =>
    Passes.overDelimiter (by decide) (fun u hopen => ?_) fun _ => ?_
  · exact Passes.bind (sound_string hr hw) fun x u hx => Passes.pure (.string hx)
  · have hlength := hopen.length_lt
    refine Passes.bind (hr.expression u (by omega)) fun e v he => ?_
    exact Passes.bind (sound_delimiter _ v) fun _ _ hclose => Passes.pure (.hole hopen he hclose)
  · exact Passes.bind (sound_identifier w) fun x u hx => Passes.pure (.name hx)

theorem sound_staticName (hw : w.length ≤ n) :
    Sound (staticName r) s (StaticName s.lexicon AsRead) w := by
  refine Passes.ifString (fun _ => ?_) fun _ => ?_
  · refine Passes.bind Passes.cursor ?_
    rintro start _ rfl
    refine Passes.bind (sound_string hr hw) fun x u hx => ?_
    split
    · next text hstatic =>
      exact Passes.pure (.string hx ((Template.static?_eq_some_iff hx.isClean).mp hstatic))
    · exact Passes.failAt _ _ trivial
  · exact Passes.bind (sound_identifier w) fun x u hx => Passes.pure (.name hx)

theorem sound_names (hw : w.length ≤ n) :
    Sound (repeated (inheritRound r) []) s (Names s.lexicon AsRead) w := by
  refine sound_gather fun names v hv => ?_
  refine Passes.ifDelimiter (fun _ => Passes.pure ⟨rfl, .nil v⟩) fun _ => ?_
  refine Passes.bind (sound_staticName hr (by omega)) fun x u hx => Passes.pure ?_
  exact ⟨hx.length_lt, x, rfl, fun zs z h => .cons hx h⟩

end

/-- The source of an `inherit` in parentheses, if there is one. -/
def SourceAt (lexicon : Lexicon) (strip : Stripping) : Option Expr → List Char → List Char → Prop
  | none, w, u => w = u
  | some e, w, u => ∃ v v', Delimiter lexicon "(" w v ∧ Expression lexicon strip e v v' ∧
      Delimiter lexicon ")" v' u

theorem SourceAt.length_le {lexicon : Lexicon} {strip : Stripping} {source : Option Expr}
    {w u : List Char} (h : SourceAt lexicon strip source w u) : u.length ≤ w.length := by
  cases source with
  | none => exact Nat.le_of_eq (congrArg List.length h.symm)
  | some e =>
    obtain ⟨v, v', hopen, he, hclose⟩ := h
    exact Nat.le_of_lt (Nat.lt_trans hclose.length_lt (Nat.lt_trans he.length_lt hopen.length_lt))

theorem inheritance_of_sourceAt {lexicon : Lexicon} {strip : Stripping} {source : Option Expr}
    {names : List String} {t u v z : List Char} (hkeyword : Keyword lexicon "inherit" t u)
    (hsource : SourceAt lexicon strip source u v) (hnames : Names lexicon strip names v z) :
    Inheritance lexicon strip source names t z := by
  cases source with
  | none =>
    obtain rfl : u = v := hsource
    exact .scope hkeyword hnames
  | some e =>
    obtain ⟨x, y, hopen, he, hclose⟩ := hsource
    exact .source hkeyword hopen he hclose hnames

section

variable (hr : r.SoundBelow s n)

include hr

theorem sound_inheritSource (hw : w.length ≤ n) :
    Sound (inheritSource r) s (SourceAt s.lexicon AsRead) w := by
  refine Passes.overDelimiter (by decide) (fun u hopen => ?_) fun _ => Passes.pure rfl
  have hlength := hopen.length_lt
  refine Passes.bind (hr.expression u (by omega)) fun e v he => ?_
  exact Passes.bind (sound_delimiter _ v) fun _ _ hclose => Passes.pure ⟨u, v, hopen, he, hclose⟩

theorem sound_inheritance (hw : w.length ≤ n) :
    Sound (inheritance r) s (fun x => Inheritance s.lexicon AsRead x.1 x.2) w := by
  refine Passes.bind (sound_keyword (by decide) w) fun _ u hkeyword => ?_
  have hlength := hkeyword.length_lt
  refine Passes.bind (sound_inheritSource hr (by omega)) fun source v hsource => ?_
  have hrest := hsource.length_le
  refine Passes.bind (sound_names hr (by omega)) fun names z hnames => Passes.pure ?_
  exact inheritance_of_sourceAt hkeyword hsource hnames

/-! ## Parameters and functions -/

theorem sound_item {x : Name} {t : List Char} (hx : Identifier s.lexicon x t w)
    (hw : w.length ≤ n) :
    Passes True (fieldDefault r) s w fun default u => Item s.lexicon AsRead ⟨x, default⟩ t u := by
  refine Passes.overDelimiter (by decide) (fun u hmark => ?_) fun _ => Passes.pure (.plain hx)
  have hlength := hmark.length_lt
  exact Passes.bind (hr.expression u (by omega)) fun e v he => Passes.pure (.default hx hmark he)

theorem sound_fields (hw : w.length ≤ n) :
    Sound (repeated (fieldRound r) []) s (fun x => Fields s.lexicon AsRead x.1 x.2) w := by
  refine Passes.repeated (I := fun fields v => v.length ≤ n ∧ ∀ zs ellipsis u,
    Fields s.lexicon AsRead zs ellipsis v u →
      Fields s.lexicon AsRead (fields.reverse ++ zs) ellipsis w u)
    (fun fields v hI => ?_) ⟨hw, fun zs ellipsis u h => by simpa using h⟩
  obtain ⟨hv, hfront⟩ := hI
  refine Passes.overDelimiter (by decide) (fun u hmark => Passes.pure ?_) fun _ => ?_
  · have hall := hfront [] true u (.ellipsis hmark)
    rwa [List.append_nil] at hall
  · refine Passes.bind (sound_identifier v) fun x u hx => ?_
    have hlength := hx.length_lt
    refine Passes.bind (sound_item hr hx (by omega)) fun default u' hitem => ?_
    have hshorter := hitem.length_lt
    refine Passes.overDelimiter (by decide) (fun z hcomma => Passes.pure ?_)
      fun _ => Passes.pure ?_
    · have hrest := hcomma.length_lt
      refine ⟨⟨by omega, fun zs ellipsis y h => ?_⟩, by omega⟩
      rw [List.reverse_cons, List.append_assoc]
      exact hfront _ ellipsis y (.more hitem hcomma h)
    · have hall := hfront [⟨x, default⟩] false u' (.last hitem)
      show Fields s.lexicon AsRead (List.reverse (_ :: fields)) false w u'
      rwa [List.reverse_cons]

theorem sound_pattern (hw : w.length ≤ n) :
    Sound (pattern r) s (DictPattern s.lexicon AsRead) w := by
  refine Passes.bind Passes.cursor ?_
  rintro start _ rfl
  refine Passes.bind (sound_delimiter _ w) fun _ u hopen => ?_
  have hlength := hopen.length_lt
  have hlist : Passes True (fieldList r) s u fun x v =>
      x = ([], false) ∧ u = v ∨ Fields s.lexicon AsRead x.1 x.2 u v := by
    refine Passes.ifDelimiter (fun _ => Passes.pure (Or.inl ⟨rfl, rfl⟩)) fun _ => ?_
    exact (sound_fields hr (by omega)).imp fun x v h => Or.inr h
  refine Passes.bind hlist ?_
  rintro ⟨fields, ellipsis⟩ v hfields
  refine Passes.bind (sound_delimiter _ v) fun _ z hclose => ?_
  have hmade : ∀ p, Pattern.ofFields fields ellipsis = .ok p → p = ⟨fields, ellipsis⟩ := by
    intro p hp
    unfold Pattern.ofFields at hp
    split at hp
    · injection hp with hp
      exact hp.symm
    · exact absurd hp (by simp)
  cases hp : Pattern.ofFields fields ellipsis with
  | error e => exact Passes.failAt _ _ trivial
  | ok p =>
    obtain rfl := hmade p hp
    refine Passes.pure ?_
    obtain ⟨hempty, rfl⟩ | hsome := hfields
    · cases hempty
      exact .empty hopen hclose
    · exact .fields hopen hsome hclose (Pattern.distinct_of_ofFields hp)

theorem sound_param (hw : w.length ≤ n) : Sound (param r) s (Parameter s.lexicon AsRead) w := by
  refine Passes.ifDelimiter (fun _ => ?_) fun _ => ?_
  · exact Passes.bind (sound_pattern hr hw) fun p u hp => Passes.pure (.pattern hp)
  · refine Passes.bind (sound_identifier w) fun x u hx => ?_
    have hlength := hx.length_lt
    refine Passes.overDelimiter (by decide) (fun v hmark => ?_) fun _ => Passes.pure (.name hx)
    have hrest := hmark.length_lt
    exact Passes.bind (sound_pattern hr (by omega)) fun p z hp => Passes.pure (.both hx hmark hp)

theorem sound_lambda (hw : w.length ≤ n) : Sound (lambda r) s (Lambda s.lexicon AsRead) w := by
  refine Passes.bind (sound_param hr hw) fun p u hp => ?_
  have hparam := hp.length_lt
  refine Passes.bind (sound_delimiter _ u) fun _ v hcolon => ?_
  have hrest := hcolon.length_lt
  exact Passes.bind (hr.expression v (by omega)) fun e z he => Passes.pure (.mk hp hcolon he)

/-! ## Lists and dicts -/

theorem sound_items (hw : w.length < n) :
    Sound (repeated (listRound r) []) s (Items s.lexicon AsRead) w := by
  refine sound_gather fun items v hv => ?_
  refine Passes.ifDelimiter (fun _ => Passes.pure ⟨rfl, .nil v⟩) fun _ => ?_
  refine Passes.bind (hr.dotted v (by omega)) fun e u he => Passes.pure ?_
  exact ⟨he.length_lt, e, rfl, fun zs z h => .cons he h⟩

theorem sound_entry (hw : w.length ≤ n) : Sound (entry r) s (DictBinding s.lexicon AsRead) w := by
  refine Passes.ifKeyword (by decide) (fun _ => ?_) fun _ => ?_
  · exact Passes.bind (sound_inheritance hr hw) fun x u hx => Passes.pure (.inherit hx)
  · refine Passes.bind (sound_key hr hw) fun k u hk => ?_
    have hlength := hk.length_lt
    refine Passes.bind (sound_delimiter _ u) fun _ v hmark => ?_
    have hrest := hmark.length_lt
    exact Passes.bind (hr.expression v (by omega)) fun e z he => Passes.pure (.equation hk hmark he)

theorem sound_entries (hw : w.length ≤ n) :
    Sound (repeated (entryRound r) []) s (DictBindings s.lexicon AsRead) w := by
  refine sound_gather fun bs v hv => ?_
  refine Passes.ifDelimiter (fun _ => Passes.pure ⟨rfl, .nil v⟩) fun _ => ?_
  refine Passes.bind (sound_entry hr (by omega)) fun b u hb => ?_
  refine Passes.bind (sound_delimiter _ u) fun _ z hmark => Passes.pure ?_
  exact ⟨Nat.lt_trans hmark.length_lt hb.length_lt, b, rfl, fun zs y h => .cons hb hmark h⟩

theorem sound_dict (recursive : Bool) (hw : w.length ≤ n) :
    Passes True (dict r recursive) s w fun e u => ∃ bs, e = .dict recursive bs ∧
      Dict s.lexicon AsRead bs w u := by
  refine Passes.bind (sound_delimiter _ w) fun _ u hopen => ?_
  have hlength := hopen.length_lt
  refine Passes.bind (sound_entries hr (by omega)) fun bs v hbs => ?_
  refine Passes.bind (sound_delimiter _ v) fun _ z hclose => Passes.pure ?_
  exact ⟨bs, rfl, .mk hopen hbs hclose⟩

/-! ## Operands -/

theorem sound_primary (hw : w.length ≤ n) : Sound (primary r) s (Primary s.lexicon AsRead) w := by
  refine Passes.ifString (fun _ => ?_) fun _ => Passes.ifDelimiter (fun _ => ?_) fun _ =>
    Passes.overDelimiter (by decide) (fun u hopen => ?_) fun _ =>
      Passes.ifKeyword (by decide) (fun _ => ?_) fun _ =>
        Passes.ifDelimiter (fun _ => ?_) fun _ => ?_
  · exact Passes.bind (sound_string hr hw) fun x u hx => Passes.pure (.string hx)
  · refine Passes.bind (sound_delimiter _ w) fun _ u hopen => ?_
    have hlength := hopen.length_lt
    refine Passes.bind (sound_items hr (by omega)) fun es v hes => ?_
    exact Passes.bind (sound_delimiter _ v) fun _ z hclose => Passes.pure (.list hopen hes hclose)
  · have hlength := hopen.length_lt
    refine Passes.bind (hr.expression u (by omega)) fun e v he => ?_
    exact Passes.bind (sound_delimiter _ v) fun _ z hclose => Passes.pure (.parens hopen he hclose)
  · refine Passes.bind (sound_keyword (by decide) w) fun _ u hkeyword => ?_
    have hlength := hkeyword.length_lt
    refine (sound_dict hr true (by omega)).imp ?_
    rintro _ v ⟨bs, rfl, hbs⟩
    exact .recursiveDict hkeyword hbs
  · refine (sound_dict hr false hw).imp ?_
    rintro _ v ⟨bs, rfl, hbs⟩
    exact .dict hbs
  · exact Passes.bind (sound_identifier w) fun x u hx => Passes.pure (.var hx)

/-- The keys behind an operand that has been read from a place. -/
theorem sound_keys {e : Expr} {t : List Char} (he : Dotted s.lexicon AsRead e t w)
    (hw : w.length ≤ n) :
    Passes True (repeated (dotRound r) e) s w fun e' u => Dotted s.lexicon AsRead e' t u := by
  refine Passes.repeated (I := fun e v => v.length ≤ n ∧ Dotted s.lexicon AsRead e t v)
    (fun e v hI => ?_) ⟨hw, he⟩
  obtain ⟨hv, he⟩ := hI
  refine Passes.test (b := fun v => s.lexicon.delimiterAt? v == some ".")
    (fun _ _ => ⟨rfl, rfl⟩) (fun hb hsolid => ?_) fun _ => Passes.pure he
  have hdot := delimiter_of_delimiterAt? (by simpa using hb : s.lexicon.delimiterAt? v = some ".")
  rw [show ".".length = 1 by decide] at hdot
  have hlength := hdot.length_lt
  refine Ensures.bind Ensures.cursor ?_
  rintro dot _ ⟨hstart, rfl⟩
  refine Ensures.bind (Ensures.advance 1) ?_
  rintro _ _ rfl
  have hkey := sound_key hr (by omega : (afterBlank (v.drop 1)).length ≤ n)
  refine Ensures.bind (hkey.attempt .key _ rfl) fun o u ho => ?_
  cases o with
  | none =>
    refine Ensures.bind (Ensures.seek (Q := fun _ u => u = v) hstart) ?_
    rintro _ u hu
    refine Ensures.pure ?_
    rw [hu, hsolid]
    exact he
  | some k =>
    refine Ensures.pure ⟨⟨?_, .key he hdot ho⟩, ?_⟩
    · have := Key.length_lt ho
      omega
    · exact Nat.lt_trans (Key.length_lt ho) hlength

theorem sound_dotted (hw : w.length ≤ n) : Sound (dotted r) s (Dotted s.lexicon AsRead) w := by
  refine Passes.bind (sound_primary hr hw) fun e u he => ?_
  have hlength := he.length_lt
  exact sound_keys hr (.primary he) (by omega)

theorem sound_arguments {f : Expr} {t : List Char} (hf : Operands s.lexicon AsRead f t w)
    (hw : w.length ≤ n) :
    Passes True (repeated (argumentRound r) f) s w fun e u =>
      Application s.lexicon AsRead e t u := by
  refine Passes.repeated (I := fun f v => v.length ≤ n ∧ Operands s.lexicon AsRead f t v)
    (fun f v hI => ?_) ⟨hw, hf⟩
  obtain ⟨hv, hf⟩ := hI
  refine Passes.bind ((sound_lambda hr hv).attempt .lambda) fun o u ho => ?_
  cases o with
  | some a => exact Passes.pure (.lastLambda hf ho)
  | none =>
    obtain ⟨-, rfl⟩ := ho
    refine Passes.bind ((sound_dotted hr hv).attempt .dotted) fun o u ho => ?_
    cases o with
    | some a =>
      have hlength := Dotted.length_lt ho
      exact Passes.pure ⟨⟨by omega, .next hf ho⟩, hlength⟩
    | none =>
      obtain ⟨-, rfl⟩ := ho
      exact Passes.pure (.operands hf)

theorem sound_application (hw : w.length ≤ n) :
    Sound (application r) s (Application s.lexicon AsRead) w := by
  refine Passes.bind (sound_dotted hr hw) fun f u hf => ?_
  have hlength := hf.length_lt
  exact sound_arguments hr (.first hf) (by omega)

/-! ## Expressions -/

theorem sound_definition (hw : w.length ≤ n) :
    Sound (definition r) s (LetBinding s.lexicon AsRead) w := by
  refine Passes.ifKeyword (by decide) (fun _ => ?_) fun _ => ?_
  · exact Passes.bind (sound_inheritance hr hw) fun x u hx => Passes.pure (.inherit hx)
  · refine Passes.bind (sound_staticName hr hw) fun x u hx => ?_
    have hlength := hx.length_lt
    refine Passes.bind (sound_delimiter _ u) fun _ v hmark => ?_
    have hrest := hmark.length_lt
    exact Passes.bind (hr.expression v (by omega)) fun e z he => Passes.pure (.equation hx hmark he)

theorem sound_definitions (hw : w.length ≤ n) :
    Sound (repeated (definitionRound r) []) s (LetBindings s.lexicon AsRead) w := by
  refine sound_gather fun bs v hv => ?_
  refine Passes.ifKeyword (by decide) (fun _ => Passes.pure ⟨rfl, .nil v⟩) fun _ => ?_
  refine Passes.bind (sound_definition hr (by omega)) fun b u hb => ?_
  refine Passes.bind (sound_delimiter _ u) fun _ z hmark => Passes.pure ?_
  exact ⟨Nat.lt_trans hmark.length_lt hb.length_lt, b, rfl, fun zs y h => .cons hb hmark h⟩

theorem sound_letIn (hw : w.length ≤ n) : Sound (letIn r) s (LetIn s.lexicon AsRead) w := by
  refine Passes.bind (sound_keyword (by decide) w) fun _ u hkeyword => ?_
  have hlength := hkeyword.length_lt
  refine Passes.bind (sound_definitions hr (by omega)) fun bs v hbs => ?_
  have hrest := hbs.length_le
  refine Passes.bind (sound_keyword (by decide) v) fun _ z hmark => ?_
  have hbody := hmark.length_lt
  exact Passes.bind (hr.expression z (by omega)) fun e y he =>
    Passes.pure (.mk hkeyword hbs hmark he)

theorem sound_expression (hw : w.length ≤ n) :
    Sound (expression r) s (Expression s.lexicon AsRead) w := by
  refine Passes.bind ((sound_lambda hr hw).attempt .lambda) fun o u ho => ?_
  cases o with
  | some e => exact Passes.pure (.lambda ho)
  | none =>
    obtain ⟨-, rfl⟩ := ho
    refine Passes.ifKeyword (by decide) (fun _ => ?_) fun _ => ?_
    · exact (sound_letIn hr hw).imp fun e u he => .letIn he
    · exact (sound_application hr hw).imp fun e u he => .application he

end

/-! ## Whole texts -/

theorem soundBelow_ofDepth (depth : Nat) : (Rules.ofDepth depth).SoundBelow s depth := by
  induction depth with
  | zero => exact ⟨fun _ h => absurd h (Nat.not_lt_zero _), fun _ h => absurd h (Nat.not_lt_zero _)⟩
  | succ depth ih =>
    exact ⟨fun w hw => sound_expression ih (Nat.le_of_lt_succ hw),
      fun w hw => sound_dotted ih (Nat.le_of_lt_succ hw)⟩

/-- A text that is read to its end is derived. -/
theorem sound_program (t : List Char) (ht : t.length ≤ n) (hr : r.SoundBelow s n) :
    Ensures True (program r) s t fun e _ => Program s.lexicon AsRead e t := by
  have hlength := length_afterBlank_le t
  refine Ensures.bind (sound_expression hr (by omega) t rfl) fun e u he => ?_
  refine Ensures.bind Ensures.skipBlank ?_
  rintro _ _ rfl
  refine Ensures.bind (Ensures.ahead _) ?_
  rintro _ _ ⟨rfl, rfl⟩
  split
  · next hend =>
    rw [List.isEmpty_iff] at hend
    rw [hend] at he
    exact Ensures.pure ⟨_, blank_iff.mpr rfl, he⟩
  · exact Ensures.fail _ trivial

end LazyConfig.Parser

namespace LazyConfig

open LazyConfig.Parser Grammar

/-- A text that is accepted is derived from the grammar. -/
theorem program_of_readProgram {lexicon : Lexicon} {text : String} {e : Expr}
    (h : readProgram lexicon text = .accepted e) : Program lexicon AsRead e text.toList := by
  have hrun := sound_program text.toList (Nat.le_succ _)
    (soundBelow_ofDepth (s := ⟨lexicon, false⟩) (text.toList.length + 1)) 0
  rcases hr : program (Rules.ofDepth (text.toList.length + 1)) ⟨lexicon, false⟩
    ⟨0, text.toList⟩ with ⟨reply, events⟩
  have hverdict : Verdict.ofReply reply events = .accepted e := by
    rw [← h, readProgram, readTraced, Parser.run, hr]
  rw [hr] at hrun
  cases reply with
  | ok e' c =>
    cases hverdict
    exact hrun
  | failed f => cases hverdict
  | exhausted => cases hverdict

end LazyConfig
