import LazyConfig.Grammar
import LazyConfig.Proofs.Parsing.Lexemes
set_option autoImplicit false

/-!
# The grammar: lexemes

The lexemes of the grammar are said by what may not follow them, and a reader finds them by
functions.  Here the two are matched: each lexeme is what its function gives, so what is left
behind it is determined, and it is shorter than the text.
-/

namespace LazyConfig

/-- What is left of a text behind the blank at its start. -/
def afterBlank (t : List Char) : List Char := t.drop (blankLength false t)

theorem afterBlank_afterBlank (t : List Char) : afterBlank (afterBlank t) = afterBlank t := by
  have h : blankLength false (afterBlank t) = 0 := Cursor.blankLength_drop false t
  rw [afterBlank, h, List.drop_zero]

theorem length_afterBlank_le (t : List Char) : (afterBlank t).length ≤ t.length := by
  simp [afterBlank]

namespace Grammar

variable {lexicon : Lexicon} {t u v : List Char}

/-! ## Blanks -/

theorem afterBlank_of_solid (h : ∀ x ∈ t.head?, isSpace x = false ∧ x ≠ '#') :
    afterBlank t = t := by
  cases t with
  | nil => rfl
  | cons x t =>
    have hx := h x rfl
    simp [afterBlank, blankLength, hx.1, hx.2]

/-- What is left behind a comment is what is left behind its line. -/
theorem drop_blankLength_comment {line : List Char} (h : '\n' ∉ line) :
    line.drop (blankLength true line) = [] ∧
      ∀ t, (line ++ '\n' :: t).drop (blankLength true (line ++ '\n' :: t)) = afterBlank t := by
  induction line with
  | nil => exact ⟨rfl, fun t => by simp [blankLength, afterBlank]⟩
  | cons x line ih =>
    rw [List.mem_cons, not_or] at h
    have hne : (x != '\n') = true := bne_iff_ne.mpr (Ne.symm h.1)
    obtain ⟨hend, hline⟩ := ih h.2
    exact ⟨by simpa [blankLength, hne] using hend,
      fun t => by simpa [blankLength, hne] using hline t⟩

theorem Blank.eq_afterBlank (h : Blank t u) : u = afterBlank t := by
  induction h with
  | stop h => exact (afterBlank_of_solid h).symm
  | space hx _ ih => rw [ih]; simp [afterBlank, blankLength, hx]
  | @comment line t u hline _ ih =>
    rw [ih, ← (drop_blankLength_comment hline).2 t]
    simp [afterBlank, blankLength, isSpace]
  | @lastComment line hline =>
    have hend := (drop_blankLength_comment hline).1
    simpa [afterBlank, blankLength, isSpace] using hend.symm

/-- The two ways to be in front of a text, in a comment whose line has begun and outside, are
dealt with together. -/
theorem blank_drop (t : List Char) :
    Blank t (afterBlank t) ∧ ∀ line, '\n' ∉ line →
      Blank ('#' :: (line ++ t)) (t.drop (blankLength true t)) := by
  induction t with
  | nil =>
    refine ⟨.stop (by simp), fun line hline => ?_⟩
    rw [List.append_nil]
    exact .lastComment hline
  | cons x t ih =>
    constructor
    · by_cases hspace : isSpace x = true
      · have hdrop : afterBlank (x :: t) = afterBlank t := by
          simp [afterBlank, blankLength, hspace]
        rw [hdrop]
        exact .space hspace ih.1
      · by_cases hcomment : x = '#'
        · subst hcomment
          have hdrop : afterBlank ('#' :: t) = t.drop (blankLength true t) := by
            simp [afterBlank, blankLength, isSpace]
          rw [hdrop]
          exact ih.2 [] (by simp)
        · have hsolid : ∀ y ∈ (x :: t).head?, isSpace y = false ∧ y ≠ '#' := by
            simpa using ⟨Bool.eq_false_iff.mpr hspace, hcomment⟩
          rw [afterBlank_of_solid hsolid]
          exact .stop hsolid
    · intro line hline
      by_cases hend : x = '\n'
      · subst hend
        exact .comment hline ih.1
      · have hlonger : '\n' ∉ line ++ [x] := by
          simpa [eq_comm] using ⟨hline, hend⟩
        have hne : (x != '\n') = true := by simpa using hend
        simpa [blankLength, hne] using ih.2 (line ++ [x]) hlonger

theorem blank_iff : Blank t u ↔ u = afterBlank t :=
  ⟨Blank.eq_afterBlank, fun h => h ▸ (blank_drop t).1⟩

theorem Blank.length_le (h : Blank t u) : u.length ≤ t.length := by
  rw [h.eq_afterBlank]
  exact length_afterBlank_le t

/-! ## Words -/

theorem WordAt.wordPart_eq {w : List Char} (h : WordAt w t u) : wordPart t = w := by
  rw [h.text]
  exact wordPart_append h.chars h.ends

theorem WordAt.drop_eq {w : List Char} (h : WordAt w t u) : t.drop w.length = u := by
  rw [h.text, List.drop_left]

theorem WordAt.length_lt {w : List Char} (h : WordAt w t u) : u.length < t.length := by
  have hpos : 0 < w.length := List.length_pos_iff.mpr h.nonempty
  rw [h.text, List.length_append]
  omega

theorem wordAt_wordPart (h : wordPart t ≠ []) :
    WordAt (wordPart t) t (t.drop (wordPart t).length) := by
  have hsplit : wordPart t ++ t.dropWhile isNameChar = t := List.takeWhile_append_dropWhile
  have hdrop : t.drop (wordPart t).length = t.dropWhile isNameChar :=
    calc t.drop (wordPart t).length
        = (wordPart t ++ t.dropWhile isNameChar).drop (wordPart t).length := by rw [hsplit]
      _ = t.dropWhile isNameChar := List.drop_left
  rw [hdrop]
  refine ⟨hsplit.symm, h, fun x hx => ?_, fun x hx => ?_⟩
  · exact List.all_eq_true.mp List.all_takeWhile x hx
  · have hhead := List.head?_dropWhile_not isNameChar t
    rw [Option.mem_def.mp hx] at hhead
    simpa using hhead

/-! ## Delimiters -/

theorem DelimiterAt.drop_eq {d : String} (h : DelimiterAt lexicon d t u) :
    t.drop d.length = u := by
  rw [h.text, ← String.length_toList, List.drop_left]

theorem DelimiterAt.length_lt {d : String} (h : DelimiterAt lexicon d t u) :
    u.length < t.length := by
  have hne : d.toList ≠ [] := fun hnil =>
    lexicon.nonempty d h.listed (String.toList_eq_nil_iff.mp hnil)
  have hpos : 0 < d.toList.length := List.length_pos_iff.mpr hne
  rw [h.text, List.length_append]
  omega

theorem DelimiterAt.starts {d : String} (h : DelimiterAt lexicon d t u) : d.toList <+: t :=
  ⟨u, h.text.symm⟩

/-- The delimiter that is found is the longest, because longer ones are tried first. -/
theorem delimiterAt_of_delimiterAt? {d : String} (h : lexicon.delimiterAt? t = some d) :
    DelimiterAt lexicon d t (t.drop d.length) := by
  have hstarts : d.toList <+: t := by simpa using List.find?_some h
  refine ⟨List.mem_of_find?_eq_some h, ?_, fun d' hd' hprefix => ?_⟩
  · rw [← String.length_toList]
    exact (List.prefix_iff_eq_append.mp hstarts).symm
  · obtain ⟨-, before, behind, hsplit, hbefore⟩ := List.find?_eq_some_iff_append.mp h
    have hsorted := lexicon.longest_first
    rw [hsplit] at hd' hsorted
    rcases List.mem_append.mp hd' with hmem | hmem
    · have hnot := hbefore d' hmem
      rw [List.isPrefixOf_iff_prefix.mpr hprefix] at hnot
      exact absurd hnot (by decide)
    · rcases List.mem_cons.mp hmem with rfl | hmem
      · exact Nat.le_refl _
      · exact List.rel_of_pairwise_cons (List.pairwise_append.mp hsorted).2.1 hmem

/-- Only one delimiter is the longest. -/
theorem DelimiterAt.unique {d d' : String} (h : DelimiterAt lexicon d t u)
    (h' : DelimiterAt lexicon d' t v) : d = d' ∧ u = v := by
  have hlength : d.toList.length = d'.toList.length := by
    rw [String.length_toList, String.length_toList]
    exact Nat.le_antisymm (h'.longest d h.listed h.starts) (h.longest d' h'.listed h'.starts)
  have happend : d.toList ++ u = d'.toList ++ v := h.text.symm.trans h'.text
  obtain ⟨hd, huv⟩ := List.append_inj happend hlength
  exact ⟨String.toList_injective hd, huv⟩

theorem DelimiterAt.delimiterAt?_eq {d : String} (h : DelimiterAt lexicon d t u) :
    lexicon.delimiterAt? t = some d := by
  have hsome : (lexicon.delimiterAt? t).isSome = true := by
    rw [Lexicon.delimiterAt?, List.find?_isSome]
    exact ⟨d, h.listed, by simpa using h.starts⟩
  obtain ⟨d', hd'⟩ := Option.isSome_iff_exists.mp hsome
  rw [hd', (delimiterAt_of_delimiterAt? hd').unique h |>.1]

/-! ## Lexemes with the blank behind them -/

theorem Delimiter.length_lt {d : String} (h : Delimiter lexicon d t u) : u.length < t.length := by
  obtain ⟨v, hd, hblank⟩ := h
  exact Nat.lt_of_le_of_lt hblank.length_le hd.length_lt

theorem Keyword.length_lt {k : String} (h : Keyword lexicon k t u) : u.length < t.length := by
  obtain ⟨-, v, hword, hblank⟩ := h
  exact Nat.lt_of_le_of_lt hblank.length_le hword.length_lt

theorem Identifier.length_lt {x : Name} (h : Identifier lexicon x t u) :
    u.length < t.length := by
  obtain ⟨-, v, hword, hblank⟩ := h
  exact Nat.lt_of_le_of_lt hblank.length_le hword.length_lt

theorem delimiter_of_delimiterAt? {d : String} (h : lexicon.delimiterAt? t = some d) :
    Delimiter lexicon d t (afterBlank (t.drop d.length)) :=
  ⟨_, delimiterAt_of_delimiterAt? h, blank_iff.mpr rfl⟩

theorem Delimiter.delimiterAt?_eq {d : String} (h : Delimiter lexicon d t u) :
    lexicon.delimiterAt? t = some d ∧ afterBlank (t.drop d.length) = u := by
  obtain ⟨v, hd, hblank⟩ := h
  exact ⟨hd.delimiterAt?_eq, by rw [hd.drop_eq, hblank.eq_afterBlank]⟩

/-! ## Characters of strings -/

theorem OpeningMark.drop_quoted (h : OpeningMark .quoted t u) : t.drop 1 = u := by
  cases h
  rfl

theorem OpeningMark.drop_indented (h : OpeningMark .indented t u) : t.drop 2 = u := by
  cases h
  rfl

/-- A reader decodes an escape as the character that it stands for. -/
theorem escape_iff {c d : Char} : Escape c d ↔ Parser.unescape c = d := by
  constructor
  · intro h
    cases h with
    | lineFeed => rfl
    | carriageReturn => rfl
    | tab => rfl
    | other h =>
      simp only [List.mem_cons, List.not_mem_nil, or_false, not_or] at h
      simp [Parser.unescape, h]
  · rintro rfl
    unfold Parser.unescape
    split
    · next h => exact h ▸ .lineFeed
    · next hfeed =>
      split
      · next h => exact h ▸ .carriageReturn
      · next hreturn =>
        split
        · next h => exact h ▸ .tab
        · next htab => exact .other (by simp [hfeed, hreturn, htab])

/-- What stands at the start of the rest of a body. -/
def unitOf : Parser.Opening → List Char → Parser.StringUnit
  | .quoted => Parser.quotedUnit
  | .indented => Parser.indentedUnit

theorem ClosingMark.unitOf_eq {o : Parser.Opening} (h : ClosingMark o t u) :
    ∃ n, unitOf o t = .close n ∧ t.drop n = u := by
  cases h with
  | quoted => exact ⟨1, rfl, rfl⟩
  | indented => exact ⟨2, rfl, rfl⟩

theorem Written.unitOf_eq {o : Parser.Opening} {cs : List Char} (h : Written o cs t u) :
    ∃ n, unitOf o t = .chars cs n ∧ t.drop n = u := by
  cases h with
  | escapedHole => exact ⟨3, rfl, rfl⟩
  | @escaped c _ _ hescape hhole =>
    obtain rfl := escape_iff.mp hescape
    refine ⟨2, ?_, rfl⟩
    rw [unitOf]
    unfold Parser.quotedUnit
    split
    case h_7 hback _ heq =>
      obtain ⟨rfl, rfl⟩ := List.cons.inj heq
      exact (hback c u rfl rfl).elim
    all_goals simp_all
  | quoted hmark hescape hhole =>
    refine ⟨1, ?_, rfl⟩
    show Parser.quotedUnit _ = _
    unfold Parser.quotedUnit
    split <;> simp_all
  | indented hmark hhole =>
    refine ⟨1, ?_, rfl⟩
    show Parser.indentedUnit _ = _
    unfold Parser.indentedUnit
    split <;> simp_all

theorem unitOf_hole (o : Parser.Opening) (t : List Char) :
    unitOf o ('$' :: '\x7b' :: t) = .hole := by
  cases o <;> rfl

theorem Written.length_lt {o : Parser.Opening} {cs : List Char} (h : Written o cs t u) :
    u.length < t.length := by
  cases h
  all_goals
    simp only [List.length_cons]
    omega

theorem head?_ne_of_forall {x : Char} (h : ∀ tail, t = x :: tail → False) :
    t.head? ≠ some x := by
  intro hhead
  obtain ⟨tail, ht⟩ := List.head?_eq_some_iff.mp hhead
  exact h tail ht

/-- The unit says what the start of the text is. -/
def UnitStands (o : Parser.Opening) (t : List Char) : Parser.StringUnit → Prop
  | .close n => ClosingMark o t (t.drop n)
  | .chars cs n => Written o cs t (t.drop n)
  | .hole => ∃ u, t = '$' :: '\x7b' :: u
  | .broken => True

theorem unitStands_unitOf (o : Parser.Opening) (t : List Char) :
    UnitStands o t (unitOf o t) := by
  cases o with
  | quoted =>
    show UnitStands .quoted t (Parser.quotedUnit t)
    unfold Parser.quotedUnit
    split
    case h_1 => trivial
    case h_2 => exact .quoted _
    case h_3 => trivial
    case h_4 => exact .escapedHole _
    case h_5 hhole =>
      exact .escaped (escape_iff.mpr rfl) fun hc =>
        head?_ne_of_forall fun rest h => hhole rest hc h
    case h_6 => exact ⟨_, rfl⟩
    case h_7 rest hmark hone _ hback hhole =>
      refine .quoted hmark ?_ fun hc => head?_ne_of_forall fun tail h => hhole tail hc h
      intro hc
      cases rest with
      | nil => exact hone hc rfl
      | cons x tail => exact hback x tail hc rfl
  | indented =>
    show UnitStands .indented t (Parser.indentedUnit t)
    unfold Parser.indentedUnit
    split
    case h_1 => trivial
    case h_2 => exact .indented _
    case h_3 => exact ⟨_, rfl⟩
    case h_4 hmark hhole =>
      exact .indented (fun hc => head?_ne_of_forall fun tail h => hmark tail hc h)
        fun hc => head?_ne_of_forall fun tail h => hhole tail hc h

end Grammar

end LazyConfig
