import LazyConfig.Proofs.Parsing.Yields
set_option autoImplicit false

/-!
# Parsing: lexemes of the language

What the tests and the readers below the grammar do under the lexicon of the language.
All of them pass over the blank ahead first, so each statement asks only what stands
behind the blank: the hypothesis is always an equation for `c.skip`.
-/

namespace LazyConfig

/-! ## Blanks -/

/-- The cursor behind the blank ahead. -/
def Cursor.skip (c : Cursor) : Cursor := c.advance (blankLength false c.rest)

/-- Whether a blank may start with the character. -/
def startsBlank (x : Char) : Bool := isSpace x || x == '#'

namespace Cursor

@[simp] theorem advance_zero (c : Cursor) : c.advance 0 = c := rfl

theorem advance_append (o : Nat) (w t : List Char) :
    Cursor.advance ⟨o, w ++ t⟩ w.length = ⟨o + w.length, t⟩ := by
  simp [Cursor.advance]

@[simp] theorem skip_nil (o : Nat) : Cursor.skip ⟨o, []⟩ = ⟨o, []⟩ := rfl

@[simp] theorem skip_space (o : Nat) (t : List Char) :
    Cursor.skip ⟨o, ' ' :: t⟩ = Cursor.skip ⟨o + 1, t⟩ := by
  simp [skip, advance, blankLength, isSpace, Nat.add_comm, Nat.add_left_comm]

/-- No blank is left behind a blank. -/
theorem blankLength_drop (inComment : Bool) (t : List Char) :
    blankLength false (t.drop (blankLength inComment t)) = 0 := by
  induction t generalizing inComment with
  | nil => simp [blankLength]
  | cons x t ih =>
    cases inComment with
    | true => simpa [blankLength] using ih (x != '\n')
    | false =>
      by_cases hspace : isSpace x = true
      · simpa [blankLength, hspace] using ih false
      · by_cases hcomment : x = '#'
        · subst hcomment
          simpa [blankLength, hspace] using ih true
        · simp [blankLength, hspace, hcomment]

theorem skip_skip (c : Cursor) : c.skip.skip = c.skip := by
  have h : blankLength false c.skip.rest = 0 := blankLength_drop false c.rest
  rw [skip, h, advance_zero]

/-- A cursor behind a blank stands where it stands. -/
theorem skip_of_skip_eq {c d : Cursor} (h : c.skip = d) : d.skip = d := h ▸ skip_skip c

theorem length_rest_skip_le (c : Cursor) : c.skip.rest.length ≤ c.rest.length := by
  simp [skip, advance]

theorem skip_cons {o : Nat} {x : Char} {t : List Char} (h : startsBlank x = false) :
    Cursor.skip ⟨o, x :: t⟩ = ⟨o, x :: t⟩ := by
  have hx : isSpace x = false ∧ x ≠ '#' := by simpa [startsBlank] using h
  simp [skip, advance, blankLength, hx.1, hx.2]

end Cursor

/-- The first character behind the blank at the start of a text. -/
def nextSolid (rest : List Char) : Option Char := (rest.drop (blankLength false rest)).head?

theorem Cursor.skip_eq (o : Nat) (rest : List Char) :
    Cursor.skip ⟨o, rest⟩ =
      ⟨o + blankLength false rest, rest.drop (blankLength false rest)⟩ := rfl

@[simp] theorem nextSolid_space (t : List Char) : nextSolid (' ' :: t) = nextSolid t := by
  simp [nextSolid, blankLength, isSpace]

theorem nextSolid_cons {x : Char} (h : startsBlank x = false) (t : List Char) :
    nextSolid (x :: t) = some x := by
  have hx : isSpace x = false ∧ x ≠ '#' := by simpa [startsBlank] using h
  simp [nextSolid, blankLength, hx.1, hx.2]

/-! ## Characters of names -/

theorem ne_of_isNameChar {x y : Char} (hx : isNameChar x = true) (hy : isNameChar y = false) :
    x ≠ y := by
  rintro rfl
  simp [hx] at hy

/-- No blank starts with a character of a name. -/
theorem startsBlank_of_isNameChar {x : Char} (h : isNameChar x = true) :
    startsBlank x = false := by
  have hspace : x ≠ ' ' := ne_of_isNameChar h (by decide)
  have htab : x ≠ '\t' := ne_of_isNameChar h (by decide)
  have hreturn : x ≠ '\r' := ne_of_isNameChar h (by decide)
  have hline : x ≠ '\n' := ne_of_isNameChar h (by decide)
  have hcomment : x ≠ '#' := ne_of_isNameChar h (by decide)
  simp [startsBlank, isSpace, hspace, htab, hreturn, hline, hcomment]

theorem Name.isNameChar_of_mem (x : Name) {y : Char} (h : y ∈ x.text.toList) :
    isNameChar y = true :=
  ((NameFault.of?_eq_none_iff x.text).mp x.bare).2.1 y h

theorem Name.text_notMem_keywords (x : Name) : x.text ∉ keywords :=
  ((NameFault.of?_eq_none_iff x.text).mp x.bare).2.2

/-- A name has a first character. -/
theorem Name.exists_cons (x : Name) :
    ∃ y t, x.text.toList = y :: t ∧ isNameChar y = true := by
  have hne : x.text ≠ "" := ((NameFault.of?_eq_none_iff x.text).mp x.bare).1
  cases ht : x.text.toList with
  | nil => exact absurd (String.toList_eq_nil_iff.mp ht) hne
  | cons y t => exact ⟨y, t, rfl, x.isNameChar_of_mem (by simp [ht])⟩

/-- The text does not go on with a character of a name. -/
def NameEnds (rest : List Char) : Prop := ∀ y ∈ rest.head?, isNameChar y = false

theorem nameEnds_nil : NameEnds [] := by simp [NameEnds]

theorem nameEnds_cons {y : Char} (h : isNameChar y = false) (rest : List Char) :
    NameEnds (y :: rest) := by
  simpa [NameEnds] using h

theorem wordPart_append {w rest : List Char} (hw : ∀ y ∈ w, isNameChar y = true)
    (hr : NameEnds rest) : wordPart (w ++ rest) = w := by
  unfold wordPart
  rw [List.takeWhile_append_of_pos hw]
  cases rest with
  | nil => simp
  | cons y t =>
    have hy : isNameChar y = false := hr y rfl
    simp [hy]

theorem wordPart_eq_nil {t : List Char} (h : NameEnds t) : wordPart t = [] :=
  wordPart_append (w := []) (by simp) h

/-! ## Delimiters of the language -/

/-- The settings under which programs of the language are read. -/
def Settings.standard (tracing : Bool) : Settings := ⟨Lexicon.standard, tracing⟩

namespace Lexicon

theorem delimiters_standard : Lexicon.standard.delimiters =
    ["...", "$\x7b", "(", ")", ",", ".", ":", ";", "=", "?", "@", "[", "]", "\x7b", "\x7d"] := by
  decide +kernel

/-- The delimiters of one character that no longer one starts with. -/
def lone : List Char := ['(', ')', ',', ':', ';', '=', '?', '@', '[', ']', '\x7b', '\x7d']

theorem delimiterAt?_lone {x : Char} (h : x ∈ lone) (t : List Char) :
    Lexicon.standard.delimiterAt? (x :: t) = some (String.singleton x) := by
  simp only [lone, List.mem_cons, List.not_mem_nil, or_false] at h
  rcases h with rfl | rfl | rfl | rfl | rfl | rfl | rfl | rfl | rfl | rfl | rfl | rfl <;>
    simp [delimiterAt?, delimiters_standard, List.isPrefixOf]

theorem delimiterAt?_hole (t : List Char) :
    Lexicon.standard.delimiterAt? ('$' :: '\x7b' :: t) = some "$\x7b" := by
  simp [delimiterAt?, delimiters_standard, List.isPrefixOf]

theorem delimiterAt?_ellipsis (t : List Char) :
    Lexicon.standard.delimiterAt? ('.' :: '.' :: '.' :: t) = some "..." := by
  simp [delimiterAt?, delimiters_standard, List.isPrefixOf]

/-- A dot is a dot unless another one follows. -/
theorem delimiterAt?_dot {t : List Char} (h : t.head? ≠ some '.') :
    Lexicon.standard.delimiterAt? ('.' :: t) = some "." := by
  cases t with
  | nil => decide +kernel
  | cons y t =>
    have hy : ('.' == y) = false := beq_false_of_ne fun he => h (by rw [← he]; rfl)
    simp [delimiterAt?, delimiters_standard, List.isPrefixOf, hy]

/-- A delimiter that is found stands there. -/
theorem head?_of_delimiterAt? {lexicon : Lexicon} {t : List Char} {d : String}
    (h : lexicon.delimiterAt? t = some d) (hd : d ≠ "") : t.head? = d.toList.head? := by
  have hp : d.toList <+: t := by simpa using List.find?_some h
  obtain ⟨rest, rfl⟩ := hp
  cases hl : d.toList with
  | nil => exact absurd (String.toList_eq_nil_iff.mp hl) hd
  | cons y u => rfl

end Lexicon

namespace Parser

variable {tr : Bool} {s : Settings} {c : Cursor} {o : Nat} {t rest : List Char}

/-! ## Tests and readers of delimiters -/

theorem yields_skipBlank (c : Cursor) : Yields skipBlank s c () c.skip := rfl

theorem yields_peekDelimiter (d : String) (c : Cursor) :
    Yields (peekDelimiter d) s c (s.lexicon.delimiterAt? c.skip.rest == some d) c.skip := rfl

theorem peekDelimiter_of_delimiterAt? {d : String} (hc : c.skip = ⟨o, t⟩)
    (h : Lexicon.standard.delimiterAt? t = some d) :
    Yields (peekDelimiter d) (Settings.standard tr) c true ⟨o, t⟩ := by
  have hy := yields_peekDelimiter (s := Settings.standard tr) d c
  have hfound : (Settings.standard tr).lexicon.delimiterAt? t = some d := h
  rwa [hc, hfound, beq_self_eq_true] at hy

/-- A delimiter is not ahead of a text that starts with another character. -/
theorem peekDelimiter_of_head?_ne {d : String} (x : Char) (hc : c.skip = ⟨o, t⟩)
    (hd : d.toList.head? = some x) (h : t.head? ≠ some x) :
    Yields (peekDelimiter d) s c false ⟨o, t⟩ := by
  have hy := yields_peekDelimiter (s := s) d c
  have hne : s.lexicon.delimiterAt? t ≠ some d := by
    intro hfound
    have hempty : d ≠ "" := by rintro rfl; simp at hd
    exact h ((Lexicon.head?_of_delimiterAt? hfound hempty).trans hd)
  rwa [hc, beq_false_of_ne hne] at hy

theorem peekDelimiter_of_nextSolid_ne {d : String} (x : Char) (o : Nat)
    (hd : d.toList.head? = some x) (h : nextSolid t ≠ some x) :
    Yields (peekDelimiter d) s ⟨o, t⟩ false (Cursor.skip ⟨o, t⟩) :=
  peekDelimiter_of_head?_ne x rfl hd h

theorem peekDelimiter_lone {d : String} {x : Char} (hc : c.skip = ⟨o, x :: t⟩)
    (hd : d = String.singleton x) (hx : x ∈ Lexicon.lone) :
    Yields (peekDelimiter d) (Settings.standard tr) c true ⟨o, x :: t⟩ :=
  peekDelimiter_of_delimiterAt? hc (hd ▸ Lexicon.delimiterAt?_lone hx t)

theorem yields_delimiter {d : String} {x : Char} (hc : c.skip = ⟨o, x :: t⟩)
    (hd : d = String.singleton x) (hx : x ∈ Lexicon.lone) :
    Yields (delimiter d) (Settings.standard tr) c () ⟨o + 1, t⟩ := by
  have hlength : d.length = 1 := by subst hd; simp
  refine Yields.bind (peekDelimiter_lone hc hd hx) ?_
  show Yields (Parser.advance d.length) _ _ _ _
  rw [hlength]
  exact yields_advance 1 _

theorem refuses_delimiter {d : String} (x : Char) (o : Nat)
    (hd : d.toList.head? = some x) (h : nextSolid t ≠ some x) :
    Refuses (delimiter d) s ⟨o, t⟩ :=
  Yields.bind_refuses (peekDelimiter_of_nextSolid_ne x o hd h) (Refuses.fail _ _)

/-! ## Tests and readers of words -/

theorem yields_peekKeyword (k : String) (c : Cursor) :
    Yields (peekKeyword k) s c
      (String.ofList (wordPart c.skip.rest) == k
        && s.lexicon.keywords.contains (String.ofList (wordPart c.skip.rest))) c.skip := rfl

theorem peekKeyword_of_wordPart {k : String} (hc : c.skip = ⟨o, t⟩)
    (h : wordPart t = k.toList) (hk : k ∈ keywords) :
    Yields (peekKeyword k) (Settings.standard tr) c true ⟨o, t⟩ := by
  have hy := yields_peekKeyword (s := Settings.standard tr) k c
  have hmem : (Settings.standard tr).lexicon.keywords.contains k = true := by
    simpa [Settings.standard, Lexicon.standard, Lexicon.ofLists] using hk
  rwa [hc, h, String.ofList_toList, hmem, beq_self_eq_true] at hy

/-- No keyword is ahead where another word is. -/
theorem peekKeyword_of_wordPart_ne {k : String} (hc : c.skip = ⟨o, t⟩)
    (h : wordPart t ≠ k.toList) : Yields (peekKeyword k) s c false ⟨o, t⟩ := by
  have hy := yields_peekKeyword (s := s) k c
  have hne : (String.ofList (wordPart t) == k) = false := by
    refine beq_false_of_ne ?_
    rintro rfl
    simp at h
  rwa [hc, hne] at hy

theorem peekKeyword_of_nameEnds {k : String} (hc : c.skip = ⟨o, t⟩) (h : NameEnds t)
    (hk : k ≠ "") : Yields (peekKeyword k) s c false ⟨o, t⟩ := by
  refine peekKeyword_of_wordPart_ne hc ?_
  rw [wordPart_eq_nil h]
  exact fun hnil => hk (String.toList_eq_nil_iff.mp hnil.symm)

theorem peekKeyword_name {k : String} {x : Name} (hc : c.skip = ⟨o, x.text.toList ++ rest⟩)
    (hr : NameEnds rest) (hk : k ∈ keywords) :
    Yields (peekKeyword k) s c false ⟨o, x.text.toList ++ rest⟩ := by
  refine peekKeyword_of_wordPart_ne hc ?_
  rw [wordPart_append (fun y hy => x.isNameChar_of_mem hy) hr]
  intro heq
  exact x.text_notMem_keywords (String.toList_injective heq ▸ hk)

/-- The word of a keyword is read as far as it goes. -/
theorem wordPart_keyword {k : String} (hk : k ∈ keywords) (hr : NameEnds rest) :
    wordPart (k.toList ++ rest) = k.toList := by
  refine wordPart_append (List.all_eq_true.mp ?_) hr
  simp only [keywords, List.mem_cons, List.not_mem_nil, or_false] at hk
  rcases hk with rfl | rfl | rfl | rfl <;> decide +kernel

theorem yields_keyword {k : String} (hc : c.skip = ⟨o, k.toList ++ rest⟩) (hr : NameEnds rest)
    (hk : k ∈ keywords) :
    Yields (keyword k) (Settings.standard tr) c () ⟨o + k.toList.length, rest⟩ := by
  refine Yields.bind (peekKeyword_of_wordPart hc (wordPart_keyword hk hr) hk) ?_
  show Yields (Parser.advance k.length) _ _ _ _
  rw [← String.length_toList, ← Cursor.advance_append]
  exact yields_advance _ _

theorem usableName?_text (x : Name) : usableName? Lexicon.standard x.text = some x := by
  have hk : Lexicon.standard.keywords.contains x.text = false := by
    simpa [Lexicon.standard, Lexicon.ofLists] using x.text_notMem_keywords
  unfold usableName?
  rw [if_neg (by rw [hk]; exact Bool.false_ne_true)]
  exact x.ofText?_text

/-- A name is read as far as it goes. -/
theorem yields_identifier {x : Name} (hc : c.skip = ⟨o, x.text.toList ++ rest⟩)
    (hr : NameEnds rest) :
    Yields identifier (Settings.standard tr) c x ⟨o + x.text.toList.length, rest⟩ := by
  have hword : String.ofList (wordPart (x.text.toList ++ rest)) = x.text := by
    rw [wordPart_append (fun y hy => x.isNameChar_of_mem hy) hr, String.ofList_toList]
  have hne : x.text ≠ "" := ((NameFault.of?_eq_none_iff x.text).mp x.bare).1
  refine Yields.bind (yields_skipBlank c) ?_
  rw [hc]
  refine Yields.bind (yields_ahead _ _) ?_
  rw [hword, if_neg hne]
  have hname : Yields (ahead fun lexicon _ => usableName? lexicon x.text) (Settings.standard tr)
      ⟨o, x.text.toList ++ rest⟩ (some x) ⟨o, x.text.toList ++ rest⟩ := by
    rw [← usableName?_text x]
    exact yields_ahead _ _
  refine Yields.bind hname ?_
  rw [← Cursor.advance_append, String.length_toList]
  exact Yields.bind (yields_advance _ _) (Yields.pure _ _)

theorem refuses_identifier_of_nameEnds (hc : c.skip = ⟨o, t⟩) (h : NameEnds t) :
    Refuses identifier s c := by
  refine Yields.bind_refuses (yields_skipBlank c) ?_
  rw [hc]
  refine Yields.bind_refuses (yields_ahead _ _) ?_
  rw [wordPart_eq_nil h]
  exact Refuses.fail _ _

/-- A keyword is no name. -/
theorem refuses_identifier_keyword {k : String} (hc : c.skip = ⟨o, k.toList ++ rest⟩)
    (hr : NameEnds rest) (hk : k ∈ keywords) :
    Refuses identifier (Settings.standard tr) c := by
  have hword : String.ofList (wordPart (k.toList ++ rest)) = k := by
    rw [wordPart_keyword hk hr, String.ofList_toList]
  have hne : k ≠ "" := by rintro rfl; revert hk; decide
  have hnone : usableName? Lexicon.standard k = none := by
    have hmem : Lexicon.standard.keywords.contains k = true := by
      simpa [Lexicon.standard, Lexicon.ofLists] using hk
    unfold usableName?
    rw [if_pos hmem]
  refine Yields.bind_refuses (yields_skipBlank c) ?_
  rw [hc]
  refine Yields.bind_refuses (yields_ahead _ _) ?_
  rw [hword, if_neg hne]
  have hname : Yields (ahead fun lexicon _ => usableName? lexicon k) (Settings.standard tr)
      ⟨o, k.toList ++ rest⟩ none ⟨o, k.toList ++ rest⟩ := by
    rw [← hnone]
    exact yields_ahead _ _
  exact Yields.bind_refuses hname (Refuses.fail _ _)

/-! ## Tests for strings -/

theorem yields_peekString (c : Cursor) :
    Yields peekString s c (opening? c.skip.rest).isSome c.skip := rfl

theorem peekString_of_cons {x : Char} (hc : c.skip = ⟨o, x :: t⟩) (hquote : x ≠ '"')
    (happ : x ≠ '\'') : Yields peekString s c false ⟨o, x :: t⟩ := by
  have hy := yields_peekString (s := s) c
  have hnone : opening? (x :: t) = none := by
    unfold opening?
    split <;> simp_all
  rwa [hc, hnone] at hy

theorem peekString_nil (hc : c.skip = ⟨o, []⟩) : Yields peekString s c false ⟨o, []⟩ := by
  have hy := yields_peekString (s := s) c
  rwa [hc] at hy

theorem peekString_quoted (hc : c.skip = ⟨o, '"' :: t⟩) :
    Yields peekString s c true ⟨o, '"' :: t⟩ := by
  have hy := yields_peekString (s := s) c
  rwa [hc] at hy

end Parser

end LazyConfig
