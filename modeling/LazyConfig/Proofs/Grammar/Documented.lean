import LazyConfig.Proofs.Grammar.Complete
import LazyConfig.Proofs.Grammar.Exchange
import LazyConfig.Proofs.Grammar.Unambiguous
set_option autoImplicit false

/-!
# The grammar: what is documented and what is read

The documented grammar leaves out the layout of indented strings altogether.  A reader keeps a
blank line if that is all that an indented string has, besides a blank line above it.

So a reader accepts the texts that the grammar derives, and no others, and the grammar derives
one tree from each.  It is the tree that is read exactly if no string of the derivation has a
line that a reader keeps.
-/

namespace LazyConfig

namespace Grammar

variable {ε δ : Type} {lexicon : Lexicon} {strip : Stripping} {text : List Char}

/-! ## Layout with and without a line that is kept -/

theorem LoneBlank.blankLine {l line : List (Char ⊕ ε)} (h : LoneBlank l line) : BlankLine line := by
  cases h with
  | first h _ => exact h
  | second _ h _ => exact h

/-- Where a line is kept there are only blanks and line feeds. -/
theorem LoneBlank.eq_or {l line : List (Char ⊕ ε)} (h : LoneBlank l line) {x : Char ⊕ ε}
    (hx : x ∈ l) : x = .inl ' ' ∨ x = .inl '\t' ∨ x = .inl '\n' := by
  cases h with
  | first h _ => exact (h x hx).imp_right Or.inl
  | second habove h _ =>
    obtain hx | hx := List.mem_append.mp hx
    · exact (habove x hx).imp_right Or.inl
    · obtain rfl | hx := List.mem_cons.mp hx
      · exact Or.inr (Or.inr rfl)
      · exact (h x hx).imp_right Or.inl

/-- Where a line is kept nothing stands in a hole. -/
theorem LoneBlank.fill_eq {f : δ → ε} {p : List (Char ⊕ δ)} {line : List (Char ⊕ ε)}
    (h : LoneBlank (fill f p) line) (g : δ → ε) : fill f p = fill g p := by
  refine List.map_congr_left fun x hx => ?_
  cases x with
  | inl c => rfl
  | inr d => simpa using h.eq_or (inr_mem_fill_iff.mpr ⟨d, hx, rfl⟩)

theorem Faultless.exists_fill {f : δ → ε} {p : List (Char ⊕ δ)} {l : List (Char ⊕ ε)} (g : δ → ε)
    (h : Faultless (fill f p) l) :
    ∃ m, Faultless (fill g p) m ∧ ((∀ e, .inr e ∉ l) → ∀ e, .inr e ∉ m) ∧
      (l = m → fill f p = fill g p) := by
  obtain ⟨m, hm, hnone, hsame⟩ := h.stripped.exists_fill g
  refine ⟨m, ⟨fun line hline => h.lone line ?_, hm⟩, hnone, hsame⟩
  rwa [← hline.fill_eq f]

/-- From the documented layout to the one that is read. -/
def Exchange.toRead : Exchange where
  source := Stripped
  target := AsRead
  common := Faultless
  exchange := by
    intro p l h
    by_cases hlone : ∃ line, LoneBlank (fill Prod.fst p) line
    · obtain ⟨line, hline⟩ := hlone
      have hblank := loneBlank_iff.mp hline
      refine ⟨line, ?_, fun _ e he => by simpa using hline.blankLine _ he,
        fun heq => absurd heq.symm ?_⟩
      · rw [← hline.fill_eq Prod.snd]
        exact .kept hline
      · rw [h.unique hblank.1.stripped]
        exact hblank.2
    · have hfaultless : Faultless (fill Prod.fst p) l := ⟨not_exists.mp hlone, h⟩
      obtain ⟨m, hm, hnone, hsame⟩ := hfaultless.exists_fill Prod.snd
      exact ⟨m, .stripped hm.lone hm.stripped, hnone, fun heq => ⟨hsame heq, hfaultless⟩⟩

/-- From the layout that is read to the documented one. -/
def Exchange.toDocumented : Exchange where
  source := AsRead
  target := Stripped
  common := Faultless
  exchange := by
    intro p l h
    cases h with
    | kept hline =>
      have hblank := loneBlank_iff.mp hline
      refine ⟨[], ?_, by simp, fun heq => absurd heq hblank.2⟩
      rw [← hline.fill_eq Prod.snd]
      exact hblank.1.stripped
    | stripped hlone h =>
      have hfaultless : Faultless (fill Prod.fst p) l := ⟨hlone, h⟩
      obtain ⟨m, hm, hnone, hsame⟩ := hfaultless.exists_fill Prod.snd
      exact ⟨m, hm.stripped, hnone, fun heq => ⟨hsame heq, hfaultless⟩⟩

/-- From the layout without a kept line to itself, as a case of the layout that is read. -/
def Exchange.ofFaultless : Exchange where
  source := Faultless
  target := Faultless
  common := AsRead
  exchange := by
    intro p l h
    obtain ⟨m, hm, hnone, hsame⟩ := h.exists_fill Prod.snd
    exact ⟨m, hm, hnone, fun heq => ⟨hsame heq, .stripped h.lone h.stripped⟩⟩

theorem rightUnique_stripped : Relator.RightUnique (Stripped (ε := ε)) :=
  fun _ _ _ h h' => h.unique h'

theorem rightUnique_asRead : Relator.RightUnique (AsRead (ε := ε)) :=
  fun _ _ _ h h' => h.unique h'

theorem rightUnique_faultless : Relator.RightUnique (Faultless (ε := ε)) :=
  fun _ _ _ h h' => h.stripped.unique h'.stripped

/-- What is derived without a kept line is derived if one may be kept. -/
theorem Program.asRead_of_faultless {e : Expr} (h : Program Lexicon.standard Faultless e text) :
    Program Lexicon.standard AsRead e text := by
  obtain ⟨e', he', hsame⟩ := Program.exchange .ofFaultless h
  exact hsame (h.unique rightUnique_faultless he')

/-! ## An indented string by itself -/

theorem indentedBody_of_chars {cs : List Char} (hcs : ∀ c ∈ cs, c ≠ '\'' ∧ c ≠ '$') :
    StringBody lexicon strip .indented (ofSymbols (cs.map .inl)) (cs ++ ['\'', '\'']) [] := by
  induction cs with
  | nil => exact .close (.indented [])
  | cons c cs ih =>
    have hc := hcs c List.mem_cons_self
    have hwritten : Written .indented [c] (c :: (cs ++ ['\'', '\''])) (cs ++ ['\'', '\'']) :=
      .indented (fun h => absurd h hc.1) (fun h => absurd h hc.2)
    exact .chars hwritten (ih fun d hd => hcs d (List.mem_cons_of_mem _ hd))

/-- A text between two apostrophes on each side is derived as the string of what is left of it. -/
theorem program_of_indented {cs : List Char} {l : List (Char ⊕ Expr)} {s : Template Expr}
    (htext : text = '\'' :: '\'' :: (cs ++ ['\'', '\''])) (hcs : ∀ c ∈ cs, c ≠ '\'' ∧ c ≠ '$')
    (hstrip : strip (cs.map .inl) l) (hs : Normal s l) : Program lexicon strip (.str s) text := by
  subst htext
  have hcontent : Content strip .indented (ofSymbols (cs.map .inl)).symbols l := by
    rw [symbols_ofSymbols]
    exact .indented hstrip
  have hstring : StringLiteral lexicon strip s ('\'' :: '\'' :: (cs ++ ['\'', '\''])) [] :=
    .mk (.indented _) (indentedBody_of_chars hcs) (.stop (by simp)) hcontent hs
  exact ⟨_, .stop (by simp [isSpace]),
    .application (.operands (.first (.primary (.string hstring))))⟩

end Grammar

open Grammar

/-! ## What is read -/

/-- A text is accepted exactly if the documented grammar derives a tree from it, and it derives
one tree.  That tree is the one that is read, exactly if it is derived without a line that is
kept, and in any case the tree that is read is derived with that line. -/
theorem readProgram_iff_program (text : String) :
    ((∃ e, readProgram Lexicon.standard text = .accepted e) ↔
      ∃ e, Program Lexicon.standard Stripped e text.toList) ∧
    (∀ e e', Program Lexicon.standard Stripped e text.toList →
      Program Lexicon.standard Stripped e' text.toList → e = e') ∧
    ((∀ e, readProgram Lexicon.standard text = .accepted e ↔
        Program Lexicon.standard Stripped e text.toList) ↔
      ∀ e, Program Lexicon.standard Stripped e text.toList →
        Program Lexicon.standard Faultless e text.toList) ∧
    ∀ e, readProgram Lexicon.standard text = .accepted e ↔
      Program Lexicon.standard AsRead e text.toList := by
  have hread : ∀ e, readProgram Lexicon.standard text = .accepted e ↔
      Program Lexicon.standard AsRead e text.toList :=
    fun e => ⟨program_of_readProgram, readProgram_of_program⟩
  refine ⟨⟨?_, ?_⟩, fun e e' h h' => h.unique rightUnique_stripped h', ⟨?_, ?_⟩, hread⟩
  · rintro ⟨e, he⟩
    obtain ⟨e', he', -⟩ := Program.exchange .toDocumented ((hread e).mp he)
    exact ⟨e', he'⟩
  · rintro ⟨e, he⟩
    obtain ⟨e', he', -⟩ := Program.exchange .toRead he
    exact ⟨e', (hread e').mpr he'⟩
  · intro hsame e he
    obtain ⟨e', he', hfaultless⟩ := Program.exchange .toRead he
    have hasRead : Program Lexicon.standard AsRead e text.toList := (hread e).mp ((hsame e).mpr he)
    exact hfaultless (hasRead.unique rightUnique_asRead he')
  · intro hfaultless e
    have hasRead : ∀ e', Program Lexicon.standard Stripped e' text.toList →
        Program Lexicon.standard AsRead e' text.toList := fun e' he' =>
      (hfaultless e' he').asRead_of_faultless
    refine ⟨fun he => ?_, fun he => (hread e).mpr (hasRead e he)⟩
    obtain ⟨e', he', -⟩ := Program.exchange .toDocumented ((hread e).mp he)
    rwa [((hread e).mp he).unique rightUnique_asRead (hasRead e' he')]

/-- A dict and a pattern that start alike, an operand that could be the start of a parameter,
and a dot inside the function that is the last argument: one tree is derived and no other.  And
an indented string with a line of text: what is read is what is derived. -/
theorem readProgram_iff_program_last_lambda :
    (∃! e, Program Lexicon.standard Stripped e "x {} {x ? { }, ...}: x.x # end".toList) ∧
    ∀ e, readProgram Lexicon.standard "''\n  a''" = .accepted e ↔
      Program Lexicon.standard Stripped e "''\n  a''".toList := by
  constructor
  · let x : Name := ⟨"x", by decide⟩
    let tree : Expr := .apply (.apply (.var x) (.dict false []))
      (.lambda (.pattern ⟨[⟨x, some (.dict false [])⟩], true⟩) (.dot (.var x) (.text "x")))
    obtain ⟨haccepted, hunique, -⟩ := readProgram_iff_program "x {} {x ? { }, ...}: x.x # end"
    obtain ⟨e, he⟩ := haccepted.mp ⟨tree, by decide +kernel⟩
    exact ⟨e, he, fun e' he' => hunique e' e he' he⟩
  · obtain ⟨-, hunique, hiff, -⟩ := readProgram_iff_program "''\n  a''"
    let line : List (Char ⊕ Expr) := [.inl ' ', .inl ' ', .inl 'a']
    have hsolid : ¬ BlankLine line := by simp [BlankLine, line]
    have hspaces : Indented 2 line := .mk 2 (by simp)
    have hleast : LeastIndentation [line] 2 := .solid List.mem_cons_self hsolid hspaces (by
      simp [indented_iff, indented_iff.mp hspaces])
    have hlines : Lines [[], line] (['\n', ' ', ' ', 'a'].map .inl) :=
      ⟨by simp, by simp [line], rfl⟩
    have hstripped : Stripped (['\n', ' ', ' ', 'a'].map .inl) [.inl 'a'] :=
      .mk hlines (.blank (by simp [BlankLine])) (@DropsLast.solid _ line [] hsolid)
        hleast (.cons (.deep _) .nil)
    have hlone : ∀ l, ¬ LoneBlank (['\n', ' ', ' ', 'a'].map .inl : List (Char ⊕ Expr)) l :=
      fun l hl => by simpa using hl.eq_or (x := .inl 'a') (by simp)
    have hderived : Program Lexicon.standard Faultless (.str [.literal "a"]) "''\n  a''".toList :=
      program_of_indented rfl (by simp) ⟨hlone, hstripped⟩ (normal_iff.mpr ⟨rfl, rfl⟩)
    have hdocumented : Program Lexicon.standard Stripped (.str [.literal "a"]) "''\n  a''".toList :=
      program_of_indented rfl (by simp) hstripped (normal_iff.mpr ⟨rfl, rfl⟩)
    refine hiff.mpr fun e he => ?_
    rwa [hunique e _ he hdocumented]

/-! ## What is not read -/

/-- Where a reader keeps the blanks of a string, the documented grammar derives the empty string. -/
theorem readProgram_of_loneBlank {text : String} {cs blanks : List Char}
    (htext : text.toList = '\'' :: '\'' :: (cs ++ ['\'', '\'']))
    (h : LoneBlank (cs.map .inl : List (Char ⊕ Expr)) (blanks.map .inl)) :
    readProgram Lexicon.standard text = .accepted (.str [.literal (String.ofList blanks)]) ∧
      Program Lexicon.standard Stripped (.str []) text.toList := by
  have hlone := loneBlank_iff.mp h
  have hcs : ∀ c ∈ cs, c ≠ '\'' ∧ c ≠ '$' := by
    intro c hc
    obtain hc | hc | hc := h.eq_or (List.mem_map_of_mem hc) <;> cases hc <;> decide
  have hnormal : Normal [.literal (String.ofList blanks)]
      (blanks.map .inl : List (Char ⊕ Expr)) := by
    have hne : blanks ≠ [] := by simpa using hlone.2
    exact normal_iff.mpr ⟨by simp [Template.isClean, hne], by simp [Piece.symbols]⟩
  exact ⟨readProgram_of_program (program_of_indented htext hcs (.kept h) hnormal),
    program_of_indented htext hcs hlone.1.stripped (normal_iff.mpr ⟨rfl, rfl⟩)⟩

/-- Two spaces in a string, below an empty line or by themselves. -/
theorem readProgram_iff_program_blank_lines :
    (readProgram Lexicon.standard "''\n  ''" = .accepted (.str [.literal "  "]) ∧
      Program Lexicon.standard Stripped (.str []) "''\n  ''".toList ∧
      ¬ ∀ e, readProgram Lexicon.standard "''\n  ''" = .accepted e ↔
        Program Lexicon.standard Stripped e "''\n  ''".toList) ∧
    readProgram Lexicon.standard "''  ''" = .accepted (.str [.literal "  "]) ∧
      Program Lexicon.standard Stripped (.str []) "''  ''".toList := by
  have hblank : BlankLine ([' ', ' '].map .inl : List (Char ⊕ Expr)) := by simp [BlankLine]
  have habove : BlankLine ([] : List (Char ⊕ Expr)) := by simp [BlankLine]
  have hsecond : LoneBlank (['\n', ' ', ' '].map .inl : List (Char ⊕ Expr)) ([' ', ' '].map .inl) :=
    .second habove hblank (by simp)
  obtain ⟨hread, hderived⟩ :
      readProgram Lexicon.standard "''\n  ''" = .accepted (.str [.literal "  "]) ∧
        Program Lexicon.standard Stripped (.str []) "''\n  ''".toList :=
    readProgram_of_loneBlank rfl hsecond
  refine ⟨⟨hread, hderived, fun h => ?_⟩, readProgram_of_loneBlank rfl (.first hblank (by simp))⟩
  have hempty := (h (.str [])).mpr hderived
  cases hread.symm.trans hempty

end LazyConfig
