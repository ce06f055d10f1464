import LazyConfig.Proofs.Grammar.Lexemes
import LazyConfig.Proofs.Tables
set_option autoImplicit false

/-!
# Tokens: the partition of a text

What the tokens of a text are, said without the cutting.  `TokenAt` says of a token, a text and
what is left of it that the token is as long as it can be: a blank ends where no blank goes on, a
word where no character of a word follows, and no longer delimiter starts where one stands.
`Tokenized` says of a whole text that it is such tokens one behind the other.

The tokens of a text are determined by this, and they are what `tokenize` gives
(`tokenized_iff`).  Only which words are keywords and which texts are delimiters matters, not the
order in which the lexicon has them.
-/

namespace LazyConfig

open Grammar

variable {lexicon : Lexicon} {token : Token} {tokens : List Token} {t u v : List Char}

/-! ## Tokens where they stand -/

/-- Whether a character starts neither a blank nor a word. -/
def isMark (x : Char) : Bool := !startsBlank x && !isNameChar x

/-- The token at the start of a text, and what is left of the text behind it. -/
inductive TokenAt (lexicon : Lexicon) : Token → List Char → List Char → Prop where
  /-- A blank, up to where no blank goes on. -/
  | blank {lexeme : String} {t u : List Char} (text : t = lexeme.toList ++ u)
      (nonempty : lexeme ≠ "") (ends : Blank t u) : TokenAt lexicon ⟨.blank, lexeme⟩ t u
  /-- A word that the lexicon counts among the keywords. -/
  | keyword {word : String} {t u : List Char} (h : WordAt word.toList t u)
      (listed : word ∈ lexicon.keywords) : TokenAt lexicon ⟨.keyword, word⟩ t u
  /-- Any other word. -/
  | identifier {word : String} {t u : List Char} (h : WordAt word.toList t u)
      (unlisted : word ∉ lexicon.keywords) : TokenAt lexicon ⟨.identifier, word⟩ t u
  /-- The longest delimiter, where neither a blank nor a word starts. -/
  | delimiter {d : String} {t u : List Char} (start : ∀ x ∈ t.head?, isMark x = true)
      (h : DelimiterAt lexicon d t u) : TokenAt lexicon ⟨.delimiter, d⟩ t u
  /-- A single character, where nothing else starts. -/
  | single {x : Char} {u : List Char} (start : isMark x = true)
      (none : ∀ d ∈ lexicon.delimiters, ¬ d.toList <+: x :: u) :
      TokenAt lexicon ⟨.delimiter, String.singleton x⟩ (x :: u) u

/-- The text is the tokens one behind the other, each of them the one that stands there. -/
inductive Tokenized (lexicon : Lexicon) : List Token → List Char → Prop where
  | nil : Tokenized lexicon [] []
  | cons {token : Token} {tokens : List Token} {t u : List Char}
      (first : TokenAt lexicon token t u) (others : Tokenized lexicon tokens u) :
      Tokenized lexicon (token :: tokens) t

namespace TokenAt

theorem text (h : TokenAt lexicon token t u) : t = token.lexeme.toList ++ u := by
  cases h with
  | blank text _ _ => exact text
  | keyword h _ => exact h.text
  | identifier h _ => exact h.text
  | delimiter _ h => exact h.text
  | single _ _ => simp

theorem lexeme_ne (h : TokenAt lexicon token t u) : token.lexeme ≠ "" := by
  have hword : ∀ {w : String}, WordAt w.toList t u → w ≠ "" := by
    rintro w hw rfl
    exact hw.nonempty rfl
  cases h with
  | blank _ nonempty _ => exact nonempty
  | keyword h _ => exact hword h
  | identifier h _ => exact hword h
  | delimiter _ h => exact lexicon.nonempty _ h.listed
  | single _ _ => simp

theorem ne_nil (h : TokenAt lexicon token t u) : t ≠ [] := by
  rintro rfl
  have hnil : token.lexeme.toList = [] := (List.append_eq_nil_iff.mp h.text.symm).1
  exact h.lexeme_ne (String.toList_eq_nil_iff.mp hnil)

end TokenAt

/-! ## The first token of a text -/

theorem startsBlank_eq_false_iff {x : Char} :
    startsBlank x = false ↔ isSpace x = false ∧ x ≠ '#' := by
  simp [startsBlank]

theorem isMark_iff {x : Char} :
    isMark x = true ↔ startsBlank x = false ∧ isNameChar x = false := by
  simp [isMark]

namespace Token

variable {x : Char} {rest : List Char}

theorem blankAt?_of_not_startsBlank (h : startsBlank x = false) : blankAt? (x :: rest) = none := by
  have hx := startsBlank_eq_false_iff.mp h
  simp [blankAt?, blankLength, hx.1, hx.2]

theorem blankLength_ne_zero (h : startsBlank x = true) : blankLength false (x :: rest) ≠ 0 := by
  by_cases hspace : isSpace x = true
  · simp [blankLength, hspace]
  · obtain rfl : x = '#' := by simpa [startsBlank, hspace] using h
    simp [blankLength, hspace]

theorem first_of_startsBlank (h : startsBlank x = true) :
    first lexicon x rest =
      ⟨.blank, String.ofList ((x :: rest).take (blankLength false (x :: rest)))⟩ := by
  have hne : blankLength false (x :: rest) ≠ 0 := blankLength_ne_zero h
  obtain ⟨n, hn⟩ := Nat.exists_eq_succ_of_ne_zero hne
  simp [first, blankAt?, hn]

theorem first_of_isNameChar (h : isNameChar x = true) :
    first lexicon x rest =
      ⟨wordKind lexicon (String.ofList (wordPart (x :: rest))),
        String.ofList (wordPart (x :: rest))⟩ := by
  have hword : wordPart (x :: rest) = x :: wordPart rest := by simp [wordPart, h]
  simp [first, blankAt?_of_not_startsBlank (startsBlank_of_isNameChar h), wordAt?, hword]

theorem first_of_isMark (h : isMark x = true) :
    first lexicon x rest =
      ⟨.delimiter, (lexicon.delimiterAt? (x :: rest)).getD (String.singleton x)⟩ := by
  obtain ⟨hblank, hname⟩ := isMark_iff.mp h
  have hword : wordPart (x :: rest) = [] := by simp [wordPart, hname]
  rw [Lexicon.delimiterAt?_eq_head?]
  simp only [first, blankAt?_of_not_startsBlank hblank, wordAt?, hword, Option.none_or,
    delimitersAt, List.head?_map]
  cases (lexicon.delimitersAt (x :: rest)).head? <;> rfl

/-- The first token that is found stands at the start of the text. -/
theorem exists_tokenAt_first (lexicon : Lexicon) (x : Char) (rest : List Char) :
    ∃ u, TokenAt lexicon (first lexicon x rest) (x :: rest) u := by
  cases hblank : startsBlank x with
  | true =>
    rw [first_of_startsBlank hblank]
    refine ⟨afterBlank (x :: rest), .blank ?_ ?_ (blank_drop (x :: rest)).1⟩
    · rw [String.toList_ofList]
      exact (List.take_append_drop _ _).symm
    · have hne : blankLength false (x :: rest) ≠ 0 := blankLength_ne_zero hblank
      simpa using hne
  | false =>
    cases hname : isNameChar x with
    | true =>
      have hword : WordAt (String.ofList (wordPart (x :: rest))).toList (x :: rest)
          ((x :: rest).drop (wordPart (x :: rest)).length) := by
        rw [String.toList_ofList]
        exact wordAt_wordPart (by simp [wordPart, hname])
      rw [first_of_isNameChar hname]
      refine ⟨(x :: rest).drop (wordPart (x :: rest)).length, ?_⟩
      unfold wordKind
      split
      · next h => exact .keyword hword (by simpa using h)
      · next h => exact .identifier hword (by simpa using h)
    | false =>
      have hmark : isMark x = true := isMark_iff.mpr ⟨hblank, hname⟩
      rw [first_of_isMark hmark]
      cases hd : lexicon.delimiterAt? (x :: rest) with
      | some d => exact ⟨_, .delimiter (by simpa using hmark) (delimiterAt_of_delimiterAt? hd)⟩
      | none =>
        refine ⟨rest, .single hmark fun d hlisted hstarts => ?_⟩
        exact List.find?_eq_none.mp hd d hlisted (List.isPrefixOf_iff_prefix.mpr hstarts)

end Token

theorem Grammar.Blank.startsBlank_head {x : Char} {rest : List Char} (h : Blank (x :: rest) u)
    (hne : u ≠ x :: rest) : startsBlank x = true := by
  cases h with
  | stop _ => exact absurd rfl hne
  | space hx _ => simp [startsBlank, hx]
  | comment _ _ => rfl
  | lastComment _ => rfl

theorem Grammar.WordAt.isNameChar_head {w : List Char} {x : Char} {rest : List Char}
    (h : WordAt w (x :: rest) u) : isNameChar x = true := by
  obtain ⟨y, w, rfl⟩ := List.exists_cons_of_ne_nil h.nonempty
  obtain ⟨rfl, -⟩ := List.cons.inj h.text
  exact h.chars x (List.mem_cons_self ..)

/-- What stands at the start of a text is the first token that is found. -/
theorem TokenAt.eq_first {x : Char} {rest : List Char} (h : TokenAt lexicon token (x :: rest) u) :
    token = Token.first lexicon x rest := by
  cases h with
  | @blank lexeme _ _ text nonempty ends =>
    have hlength : (x :: rest).length = lexeme.toList.length + u.length := by
      rw [text, List.length_append]
    have hblank : startsBlank x = true := by
      refine ends.startsBlank_head ?_
      rintro rfl
      exact nonempty (by simpa using hlength)
    have htake : (x :: rest).take (blankLength false (x :: rest)) = lexeme.toList := by
      have hend := congrArg List.length ends.eq_afterBlank
      have hle := blankLength_le false (x :: rest)
      rw [afterBlank, List.length_drop] at hend
      rw [show blankLength false (x :: rest) = lexeme.toList.length by omega, text, List.take_left]
    rw [Token.first_of_startsBlank hblank, htake, String.ofList_toList]
  | keyword h listed =>
    rw [Token.first_of_isNameChar h.isNameChar_head, h.wordPart_eq, String.ofList_toList]
    simp [Token.wordKind, listed]
  | identifier h unlisted =>
    rw [Token.first_of_isNameChar h.isNameChar_head, h.wordPart_eq, String.ofList_toList]
    simp [Token.wordKind, unlisted]
  | delimiter start h =>
    rw [Token.first_of_isMark (start x rfl), h.delimiterAt?_eq, Option.getD_some]
  | single start none =>
    have hnone : lexicon.delimiterAt? (x :: u) = Option.none :=
      List.find?_eq_none.mpr fun d hd hstarts => none d hd (List.isPrefixOf_iff_prefix.mp hstarts)
    rw [Token.first_of_isMark start, hnone, Option.getD_none]

theorem TokenAt.unique {token' : Token} (h : TokenAt lexicon token t u)
    (h' : TokenAt lexicon token' t v) : token = token' ∧ u = v := by
  cases t with
  | nil => exact absurd rfl h.ne_nil
  | cons x rest =>
    obtain rfl : token = token' := h.eq_first.trans h'.eq_first.symm
    exact ⟨rfl, List.append_cancel_left (h.text.symm.trans h'.text)⟩

/-! ## All tokens of a text -/

/-- Tokens are taken one behind the other, and what belongs to one is passed over. -/
theorem tokenized_tokensAfter (lexicon : Lexicon) (n : Nat) (t : List Char) :
    Tokenized lexicon (Token.tokensAfter lexicon n t) (t.drop n) := by
  induction t generalizing n with
  | nil =>
    rw [List.drop_nil]
    exact .nil
  | cons x rest ih =>
    cases n with
    | succ n => exact ih n
    | zero =>
      obtain ⟨u, hfirst⟩ := Token.exists_tokenAt_first lexicon x rest
      have hu : rest.drop ((Token.first lexicon x rest).lexeme.length - 1) = u := by
        obtain ⟨y, l, hl⟩ := List.exists_cons_of_ne_nil
          (mt String.toList_eq_nil_iff.mp hfirst.lexeme_ne)
        have htext := hfirst.text
        rw [hl] at htext
        rw [← String.length_toList, hl, (List.cons.inj htext).2]
        simp
      exact .cons hfirst (hu ▸ ih _)

/-- A text is cut into tokens in one way only. -/
theorem Tokenized.unique {others : List Token} (h : Tokenized lexicon tokens t)
    (h' : Tokenized lexicon others t) : tokens = others := by
  induction h generalizing others with
  | nil =>
    cases h' with
    | nil => rfl
    | cons first _ => exact absurd rfl first.ne_nil
  | cons first _ ih =>
    cases h' with
    | nil => exact absurd rfl first.ne_nil
    | cons first' rest' =>
      obtain ⟨rfl, rfl⟩ := first.unique first'
      rw [ih rest']

/-- The tokens of a text are the ones that are given. -/
theorem tokenized_iff {text : String} :
    Tokenized lexicon tokens text.toList ↔ tokens = tokenize lexicon text := by
  have hcut : Tokenized lexicon (tokenize lexicon text) text.toList :=
    tokenized_tokensAfter lexicon 0 text.toList
  exact ⟨fun h => h.unique hcut, fun h => h ▸ hcut⟩

/-! ## Nothing is lost -/

theorem Tokenized.lexeme_ne (h : Tokenized lexicon tokens t) :
    ∀ token ∈ tokens, token.lexeme ≠ "" := by
  induction h with
  | nil => simp
  | cons first _ ih => simpa using ⟨first.lexeme_ne, ih⟩

/-- There are no more tokens than characters. -/
theorem Tokenized.length_le (h : Tokenized lexicon tokens t) : tokens.length ≤ t.length := by
  induction h with
  | nil => exact Nat.le_refl 0
  | cons first _ ih =>
    have hpos := List.length_pos_iff.mpr (mt String.toList_eq_nil_iff.mp first.lexeme_ne)
    rw [first.text, List.length_append, List.length_cons]
    omega

theorem Tokenized.text (h : Tokenized lexicon tokens t) :
    t = (String.join (tokens.map Token.lexeme)).toList := by
  induction h with
  | nil => rfl
  | cons first _ ih => rw [first.text, ih]; simp

/-! ## The order of a lexicon -/

theorem Lexicon.mem_delimiters_ofLists {keywords delimiters : List String} {d : String} :
    d ∈ (Lexicon.ofLists keywords delimiters).delimiters ↔ d ∈ delimiters ∧ d ≠ "" := by
  simp [ofLists, mem_sortLongestFirst, mem_distinctTexts]

/-- Lexicons with the same keywords and delimiters find the same token. -/
theorem TokenAt.congr {other : Lexicon} (hkeywords : ∀ k, k ∈ lexicon.keywords ↔ k ∈ other.keywords)
    (hdelimiters : ∀ d, d ∈ lexicon.delimiters ↔ d ∈ other.delimiters)
    (h : TokenAt lexicon token t u) : TokenAt other token t u := by
  cases h with
  | blank text nonempty ends => exact .blank text nonempty ends
  | keyword h listed => exact .keyword h ((hkeywords _).mp listed)
  | identifier h unlisted => exact .identifier h (mt (hkeywords _).mpr unlisted)
  | delimiter start h =>
    exact .delimiter start ⟨(hdelimiters _).mp h.listed, h.text,
      fun d hd => h.longest d ((hdelimiters d).mpr hd)⟩
  | single start none => exact .single start fun d hd => none d ((hdelimiters d).mpr hd)

theorem Tokenized.congr {other : Lexicon}
    (hkeywords : ∀ k, k ∈ lexicon.keywords ↔ k ∈ other.keywords)
    (hdelimiters : ∀ d, d ∈ lexicon.delimiters ↔ d ∈ other.delimiters)
    (h : Tokenized lexicon tokens t) : Tokenized other tokens t := by
  induction h with
  | nil => exact .nil
  | cons first _ ih => exact .cons (first.congr hkeywords hdelimiters) ih

end LazyConfig
