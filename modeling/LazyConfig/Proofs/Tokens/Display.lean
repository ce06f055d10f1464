import LazyConfig.Proofs.Tokens.Partition
set_option autoImplicit false

/-!
# Tokens: the display of a text

Tokens are shown with a single space for each blank.  What is shown is cut where the text was cut,
because a space is a blank that no token takes a part in, so nothing that was apart is joined: a
text that is shown once stays as it is.

The delimiters must not have spaces in them.  One that has a space could start where in the text
a longer blank or a comment follows.
-/

namespace LazyConfig

open Grammar

variable {lexicon : Lexicon} {token : Token} {tokens : List Token} {t u u' : List Char}

/-- The token as it is shown: a blank is a single space. -/
def Token.spaced (token : Token) : Token :=
  if token.kind = .blank then ⟨.blank, " "⟩ else token

theorem Token.spaced_of_blank (h : token.kind = .blank) : token.spaced = ⟨.blank, " "⟩ := if_pos h

theorem Token.spaced_of_ne (h : token.kind ≠ .blank) : token.spaced = token := if_neg h

theorem Token.spaced_spaced (token : Token) : token.spaced.spaced = token.spaced := by
  by_cases h : token.kind = .blank
  · rw [spaced_of_blank h, spaced_of_blank rfl]
  · rw [spaced_of_ne h, spaced_of_ne h]

/-- What is shown are the lexemes of the tokens that are shown. -/
theorem showTokens_eq (tokens : List Token) :
    showTokens tokens = String.join ((tokens.map Token.spaced).map Token.lexeme) := by
  rw [showTokens, List.map_map]
  congr 2
  funext token
  by_cases h : token.kind = .blank
  · simp [Token.spaced_of_blank h, h]
  · simp [Token.spaced_of_ne h, h]

/-! ## Texts that differ in their blanks -/

/-- How a text starts when it is shown: a blank starts with a space, and whatever has no space and
is at the start of what is shown is at the start of the text. -/
structure Shows (t t' : List Char) : Prop where
  /-- The first character. -/
  head : t'.head? = t.head?.map fun x => if startsBlank x then ' ' else x
  /-- What is at the start. -/
  starts : ∀ p : List Char, ' ' ∉ p → p <+: t' → p <+: t

/-- What has no space and starts with a text shown behind some characters. -/
theorem Shows.prefix_append {p l : List Char} (h : Shows u u') (hp : ' ' ∉ p)
    (hstarts : p <+: l ++ u') : p <+: l ++ u := by
  obtain hfront | ⟨q, rfl⟩ := List.prefix_or_prefix_of_prefix hstarts (List.prefix_append l u')
  · exact hfront.trans (List.prefix_append l u)
  · have hq : q <+: u' := (List.prefix_append_right_inj l).mp hstarts
    exact (List.prefix_append_right_inj l).mpr
      (h.starts q (fun hmem => hp (List.mem_append_right l hmem)) hq)

/-- A lexeme has a first character, which tells whether it is that of a blank. -/
theorem TokenAt.exists_cons (h : TokenAt lexicon token t u) :
    ∃ x l, token.lexeme.toList = x :: l ∧ (startsBlank x = true ↔ token.kind = .blank) := by
  obtain ⟨x, l, hl⟩ := List.exists_cons_of_ne_nil (mt String.toList_eq_nil_iff.mp h.lexeme_ne)
  have htext : t = x :: (l ++ u) := by rw [h.text, hl]; rfl
  have hname : ∀ {w : String}, WordAt w.toList t u → startsBlank x = false := fun hw =>
    startsBlank_of_isNameChar (htext ▸ hw).isNameChar_head
  refine ⟨x, l, hl, ?_⟩
  cases h with
  | blank text nonempty ends =>
    rw [htext] at ends
    have hne : u ≠ x :: (l ++ u) := fun hu => by
      have hlength := congrArg List.length hu
      simp at hlength
      omega
    simp [ends.startsBlank_head hne]
  | keyword h _ => simp [hname h]
  | identifier h _ => simp [hname h]
  | delimiter start _ => simp [(isMark_iff.mp (start x (by rw [htext]; rfl))).1]
  | single start _ =>
    obtain ⟨rfl, -⟩ := List.cons.inj htext
    simp [(isMark_iff.mp start).1]

theorem TokenAt.shows (h : TokenAt lexicon token t u) (hu : Shows u u') :
    Shows t (token.spaced.lexeme.toList ++ u') := by
  obtain ⟨x, l, hl, hblank⟩ := h.exists_cons
  rw [h.text, hl]
  by_cases hkind : token.kind = .blank
  · rw [Token.spaced_of_blank hkind]
    refine ⟨by simp [hblank.mpr hkind], fun p hp hstarts => ?_⟩
    cases p with
    | nil => exact List.nil_prefix
    | cons y p =>
      obtain ⟨rfl, -⟩ := List.cons_prefix_cons.mp hstarts
      exact absurd List.mem_cons_self hp
  · rw [Token.spaced_of_ne hkind, hl]
    refine ⟨by simp [mt hblank.mp hkind], fun p hp hstarts => hu.prefix_append hp hstarts⟩

theorem Tokenized.shows (h : Tokenized lexicon tokens t) :
    Shows t (showTokens tokens).toList := by
  induction h with
  | nil => exact ⟨rfl, fun p _ hstarts => hstarts⟩
  | cons first _ ih =>
    rw [showTokens_eq] at ih ⊢
    simpa using first.shows ih

/-! ## Cutting what is shown -/

/-- Where no word goes on in the text, none goes on in what is shown. -/
theorem Shows.not_isNameChar (h : Shows u u') (hends : ∀ x ∈ u.head?, isNameChar x = false) :
    ∀ x ∈ u'.head?, isNameChar x = false := by
  intro x hx
  rw [h.head] at hx
  obtain ⟨y, hy, rfl⟩ := Option.map_eq_some_iff.mp hx
  split
  · decide
  · exact hends y hy

/-- Where no blank goes on in the text, none goes on in what is shown. -/
theorem Shows.not_startsBlank (h : Shows u u') (hends : ∀ x ∈ u.head?, startsBlank x = false) :
    ∀ x ∈ u'.head?, startsBlank x = false := by
  intro x hx
  rw [h.head] at hx
  obtain ⟨y, hy, rfl⟩ := Option.map_eq_some_iff.mp hx
  simp [hends y hy]

theorem Grammar.Blank.ends (h : Blank t u) : ∀ x ∈ u.head?, startsBlank x = false := by
  induction h with
  | stop h => exact fun x hx => startsBlank_eq_false_iff.mpr (h x hx)
  | space _ _ ih => exact ih
  | comment _ _ ih => exact ih
  | lastComment _ => simp

/-- A token stands in front of what is shown as it stands in front of the text. -/
theorem TokenAt.spaced (hspace : ∀ d ∈ lexicon.delimiters, ' ' ∉ d.toList)
    (h : TokenAt lexicon token t u) (hu : Shows u u') :
    TokenAt lexicon token.spaced (token.spaced.lexeme.toList ++ u') u' := by
  have hword : ∀ {w : String}, WordAt w.toList t u → WordAt w.toList (w.toList ++ u') u' :=
    fun hw => ⟨rfl, hw.nonempty, hw.chars, hu.not_isNameChar hw.ends⟩
  cases h with
  | blank text nonempty ends =>
    have hstop : Blank u' u' := .stop fun x hx =>
      startsBlank_eq_false_iff.mp (hu.not_startsBlank ends.ends x hx)
    have hblank : Blank (" ".toList ++ u') u' := .space (x := ' ') rfl hstop
    rw [Token.spaced_of_blank rfl]
    exact .blank rfl (by decide) hblank
  | keyword h listed => exact .keyword (hword h) listed
  | identifier h unlisted => exact .identifier (hword h) unlisted
  | @delimiter d _ _ start h =>
    have hmark : ∀ x ∈ (d.toList ++ u').head?, isMark x = true := by
      obtain ⟨x, l, hl⟩ := List.exists_cons_of_ne_nil
        (mt String.toList_eq_nil_iff.mp (lexicon.nonempty d h.listed))
      have hx : isMark x = true := start x (by rw [h.text, hl]; rfl)
      simpa [hl] using hx
    refine .delimiter hmark ⟨h.listed, rfl, fun d' hd' hstarts => ?_⟩
    refine h.longest d' hd' ?_
    rw [h.text]
    exact hu.prefix_append (hspace d' hd') hstarts
  | @single x _ start none =>
    have hnone : ∀ d ∈ lexicon.delimiters, ¬ d.toList <+: x :: u' := fun d hd hstarts =>
      none d hd (hu.prefix_append (l := [x]) (hspace d hd) hstarts)
    have hkind : (Token.mk .delimiter (String.singleton x)).kind ≠ .blank := by simp
    rw [Token.spaced_of_ne hkind, String.toList_singleton]
    exact .single start hnone

theorem Tokenized.spaced (hspace : ∀ d ∈ lexicon.delimiters, ' ' ∉ d.toList)
    (h : Tokenized lexicon tokens t) :
    Tokenized lexicon (tokens.map Token.spaced) (showTokens tokens).toList := by
  induction h with
  | nil => exact .nil
  | cons first others ih =>
    have hfirst := first.spaced hspace others.shows
    rw [showTokens_eq] at ih hfirst ⊢
    simpa using Tokenized.cons hfirst ih

/-- Where no delimiter has a space, a text that is shown is cut as the text itself. -/
theorem tokenize_showTokens (hspace : ∀ d ∈ lexicon.delimiters, ' ' ∉ d.toList) (text : String) :
    tokenize lexicon (showTokens (tokenize lexicon text)) =
      (tokenize lexicon text).map Token.spaced :=
  (tokenized_iff.mp ((tokenized_iff.mpr rfl).spaced hspace)).symm

theorem showTokens_map_spaced (tokens : List Token) :
    showTokens (tokens.map Token.spaced) = showTokens tokens := by
  have hspaced : tokens.map (Token.spaced ∘ Token.spaced) = tokens.map Token.spaced :=
    List.map_congr_left fun token _ => token.spaced_spaced
  rw [showTokens_eq, showTokens_eq, List.map_map (l := tokens), hspaced]

theorem Lexicon.space_notMem_of_mem_standard :
    ∀ d ∈ Lexicon.standard.delimiters, ' ' ∉ d.toList := by
  rw [Lexicon.delimiters_standard]
  decide

/-- The tokens of a text are the only ones that stand there one behind the other, each of them as
long as it can be.  None is empty, so there are no more of them than characters, and together they
are the text.  The lexicon has the keywords and the delimiters that it was made of, and in which
order they were given does not matter.  What is shown of a text of the language is cut into the
same tokens, with a space for each blank, so it is shown as it is. -/
theorem tokens_partition {keywords delimiters : List String} (hne : ∀ d ∈ delimiters, d ≠ "")
    (text : String) :
    let lexicon := Lexicon.ofLists keywords delimiters
    let tokens := tokenize lexicon text
    let standard := tokenize Lexicon.standard text
    (lexicon.keywords = keywords ∧ ∀ d, d ∈ lexicon.delimiters ↔ d ∈ delimiters) ∧
      (∀ others, Tokenized lexicon others text.toList ↔ others = tokens) ∧
      ((∀ token ∈ tokens, token.lexeme ≠ "") ∧ tokens.length ≤ text.length ∧
        String.join (tokens.map Token.lexeme) = text) ∧
      (∀ keywords' delimiters', (∀ k, k ∈ keywords' ↔ k ∈ keywords) →
        (∀ d, d ∈ delimiters' ↔ d ∈ delimiters) →
          tokenize (.ofLists keywords' delimiters') text = tokens) ∧
      tokenize Lexicon.standard (showTokens standard) = standard.map Token.spaced ∧
      showTokens (tokenize Lexicon.standard (showTokens standard)) = showTokens standard := by
  intro lexicon tokens standard
  have hcut : Tokenized lexicon tokens text.toList := tokenized_iff.mpr rfl
  have hmem : ∀ d, d ∈ lexicon.delimiters ↔ d ∈ delimiters := fun d =>
    Lexicon.mem_delimiters_ofLists.trans (and_iff_left_of_imp (hne d))
  have hshown : tokenize Lexicon.standard (showTokens standard) = standard.map Token.spaced :=
    tokenize_showTokens Lexicon.space_notMem_of_mem_standard text
  refine ⟨⟨rfl, hmem⟩, fun others => tokenized_iff,
    ⟨hcut.lexeme_ne, hcut.length_le, ?_⟩, ?_, hshown, ?_⟩
  · exact (String.toList_injective hcut.text).symm
  · intro keywords' delimiters' hkeywords hdelimiters
    refine (tokenized_iff.mp (hcut.congr (fun k => (hkeywords k).symm) fun d => ?_)).symm
    rw [hmem, ← hdelimiters, Lexicon.mem_delimiters_ofLists]
    exact (and_iff_left_of_imp fun hd => hne d ((hdelimiters d).mp hd)).symm
  · rw [hshown, showTokens_map_spaced]

/-- Delimiters that overlap, a keyword and a word that starts with it, a comment, and a brace that
is no delimiter here. -/
theorem tokens_partition_overlapping :
    let delimiters := [".", "$", "..."]
    let text := "if iff....#c\n $x\x7b"
    let tokens : List Token := [⟨.keyword, "if"⟩, ⟨.blank, " "⟩, ⟨.identifier, "iff"⟩,
      ⟨.delimiter, "..."⟩, ⟨.delimiter, "."⟩, ⟨.blank, "#c\n "⟩, ⟨.delimiter, "$"⟩,
      ⟨.identifier, "x"⟩, ⟨.delimiter, "\x7b"⟩]
    (∀ d ∈ delimiters, d ≠ "") ∧
      (∀ others, Tokenized (.ofLists ["if"] delimiters) others text.toList ↔ others = tokens) ∧
      tokenize (.ofLists ["if"] delimiters.reverse) text = tokens := by
  intro delimiters text tokens
  have hne : ∀ d ∈ delimiters, d ≠ "" := by decide
  have htokens : tokenize (.ofLists ["if"] delimiters) text = tokens := by decide +kernel
  obtain ⟨-, hcut, -, horder, -⟩ := @tokens_partition ["if"] delimiters hne text
  rw [htokens] at hcut horder
  exact ⟨hne, hcut, horder _ _ (fun _ => Iff.rfl) fun _ => List.mem_reverse⟩

end LazyConfig
