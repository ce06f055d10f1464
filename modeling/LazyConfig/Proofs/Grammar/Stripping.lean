import LazyConfig.Grammar.Strings
import LazyConfig.Proofs.Template.Bodies
import LazyConfig.Proofs.Template.Stripping
set_option autoImplicit false

/-!
# The grammar: layout

The grammar says what an indented string comes to by lines and spaces, and a reader finds it by
functions on templates.  Here the two are matched.  Each step of the grammar has one outcome, so
the layout of a text can be left out in one way only, and a reader does that, save for the blank
line that it keeps.

Holes do not come into it.  Texts that differ in what stands in their holes lose the same lines
and spaces, and neither loses a hole.
-/

namespace LazyConfig.Grammar

open Template

variable {ε δ : Type} {text line l m : List (Char ⊕ ε)} {ls : List (List (Char ⊕ ε))}

/-! ## Each step has one outcome -/

section

variable [BEq (Char ⊕ ε)] [LawfulBEq (Char ⊕ ε)]

theorem Lines.eq_splitOn (h : Lines ls text) : ls = text.splitOn (.inl '\n') := by
  rw [← h.joined]
  exact (List.splitOn_intercalate _ h.ended h.nonempty).symm

end

theorem Lines.unique {ls' : List (List (Char ⊕ ε))} (h : Lines ls text) (h' : Lines ls' text) :
    ls = ls' := by
  classical
  let _ : BEq (Char ⊕ ε) := instBEqOfDecidableEq
  rw [h.eq_splitOn, h'.eq_splitOn]

theorem DropsFirst.unique {below below' : List (List (Char ⊕ ε))} (h : DropsFirst ls below)
    (h' : DropsFirst ls below') : below = below' := by
  cases h with
  | blank hblank =>
    cases h' with
    | blank => rfl
    | solid hsolid => exact absurd hblank hsolid
  | solid hsolid =>
    cases h' with
    | blank hblank => exact absurd hblank hsolid
    | solid => rfl

theorem dropsLast_append_iff {kept : List (List (Char ⊕ ε))} :
    DropsLast (ls ++ [line]) kept ↔
      BlankLine line ∧ kept = ls ∨ ¬ BlankLine line ∧ kept = ls ++ [line] := by
  constructor
  · generalize hall : ls ++ [line] = all
    intro h
    cases h with
    | none => simp at hall
    | blank h =>
      obtain ⟨rfl, hline⟩ := List.append_inj' hall rfl
      obtain rfl := List.singleton_inj.mp hline
      exact Or.inl ⟨h, rfl⟩
    | solid h =>
      obtain ⟨rfl, hline⟩ := List.append_inj' hall rfl
      obtain rfl := List.singleton_inj.mp hline
      exact Or.inr ⟨h, rfl⟩
  · rintro (⟨h, rfl⟩ | ⟨h, rfl⟩)
    · exact .blank h
    · exact .solid h

theorem dropsLast_nil_iff {kept : List (List (Char ⊕ ε))} :
    DropsLast ([] : List (List (Char ⊕ ε))) kept ↔ kept = [] := by
  constructor
  · generalize hall : ([] : List (List (Char ⊕ ε))) = all
    intro h
    cases h with
    | none => rfl
    | blank h => simp at hall
    | solid h => simp at hall
  · rintro rfl
    exact .none

theorem DropsLast.unique {kept kept' : List (List (Char ⊕ ε))} (h : DropsLast ls kept)
    (h' : DropsLast ls kept') : kept = kept' := by
  obtain rfl | ⟨front, last, rfl⟩ := List.eq_nil_or_concat' ls
  · rw [dropsLast_nil_iff.mp h, dropsLast_nil_iff.mp h']
  · obtain ⟨hblank, rfl⟩ | ⟨hsolid, rfl⟩ := dropsLast_append_iff.mp h
    · obtain ⟨-, rfl⟩ | ⟨hsolid, -⟩ := dropsLast_append_iff.mp h'
      · rfl
      · exact absurd hblank hsolid
    · obtain ⟨hblank, -⟩ | ⟨-, rfl⟩ := dropsLast_append_iff.mp h'
      · exact absurd hblank hsolid
      · rfl

/-- The number of spaces that a line starts with. -/
def spaces (line : List (Char ⊕ ε)) : Nat := (line.takeWhile isSpaceSymbol).length

theorem isSpaceSymbol_iff {x : Char ⊕ ε} : isSpaceSymbol x = true ↔ x = .inl ' ' := by
  cases x <;> simp [isSpaceSymbol]

theorem spaces_replicate_append {n : Nat} {rest : List (Char ⊕ ε)} :
    spaces (List.replicate n (.inl ' ') ++ rest) = n + spaces rest := by
  have hspaces : ∀ x ∈ List.replicate n (Sum.inl ' ' : Char ⊕ ε), isSpaceSymbol x = true :=
    fun x hx => isSpaceSymbol_iff.mpr (List.eq_of_mem_replicate hx)
  rw [spaces, List.takeWhile_append_of_pos hspaces, List.length_append, List.length_replicate,
    spaces]

theorem spaces_eq_zero_iff : spaces line = 0 ↔ line.head? ≠ some (.inl ' ') := by
  cases line with
  | nil => simp [spaces]
  | cons x line =>
    rw [List.head?_cons, ne_eq, Option.some_inj, ← isSpaceSymbol_iff]
    cases hx : isSpaceSymbol x <;> simp [spaces, hx]

/-- A line is as many spaces as there are in front, or fewer, and what is behind them. -/
theorem replicate_append_drop {n : Nat} (h : n ≤ spaces line) :
    List.replicate n (.inl ' ') ++ line.drop n = line := by
  induction line generalizing n with
  | nil =>
    obtain rfl : n = 0 := Nat.le_zero.mp h
    rfl
  | cons x line ih =>
    cases n with
    | zero => rfl
    | succ n =>
      have hx : isSpaceSymbol x = true := by
        cases hx : isSpaceSymbol x with
        | true => rfl
        | false => simp [spaces, hx] at h
      have hn : n ≤ spaces line := by simpa [spaces, hx] using h
      rw [List.replicate_succ, List.cons_append, List.drop_succ_cons, ih hn,
        isSpaceSymbol_iff.mp hx]

/-- Behind all the spaces comes no other. -/
theorem head?_drop_spaces (line : List (Char ⊕ ε)) :
    (line.drop (spaces line)).head? ≠ some (.inl ' ') := by
  have hspaces : spaces (List.replicate (spaces line) (.inl ' ') ++ line.drop (spaces line)) =
      spaces line + spaces (line.drop (spaces line)) := spaces_replicate_append
  rw [replicate_append_drop (Nat.le_refl _)] at hspaces
  rw [← spaces_eq_zero_iff]
  omega

theorem indented_iff {n : Nat} : Indented n line ↔ spaces line = n := by
  constructor
  · intro h
    cases h with
    | mk hrest =>
      rw [spaces_replicate_append, spaces_eq_zero_iff.mpr hrest, Nat.add_zero]
  · rintro rfl
    have h := Indented.mk (spaces line) (head?_drop_spaces line)
    rwa [replicate_append_drop (Nat.le_refl _)] at h

theorem outdented_iff {n : Nat} : Outdented n line l ↔ line.drop (min n (spaces line)) = l := by
  constructor
  · intro h
    cases h with
    | deep rest =>
      rw [spaces_replicate_append, Nat.min_eq_left (Nat.le_add_right _ _)]
      exact List.drop_left' List.length_replicate
    | shallow hm hrest =>
      rw [spaces_replicate_append, spaces_eq_zero_iff.mpr hrest, Nat.add_zero,
        Nat.min_eq_right (Nat.le_of_lt hm)]
      exact List.drop_left' List.length_replicate
  · rintro rfl
    rcases Nat.lt_or_ge (spaces line) n with hlt | hle
    · have h := Outdented.shallow hlt (head?_drop_spaces line)
      rwa [replicate_append_drop (Nat.le_refl _), ← Nat.min_eq_right (Nat.le_of_lt hlt)] at h
    · have h : Outdented n _ _ := .deep (line.drop n)
      rw [replicate_append_drop hle] at h
      rwa [Nat.min_eq_left hle]

theorem Outdented.rightUnique {n : Nat} : Relator.RightUnique (@Outdented ε n) :=
  fun _ _ _ h h' => (outdented_iff.mp h).symm.trans (outdented_iff.mp h')

theorem LeastIndentation.unique {m n : Nat} (h : LeastIndentation ls m)
    (h' : LeastIndentation ls n) : m = n := by
  cases h with
  | blank hblank =>
    cases h' with
    | blank => rfl
    | solid hmem hsolid _ _ => exact absurd (hblank _ hmem) hsolid
  | solid hmem hsolid hindented hle =>
    cases h' with
    | blank hblank => exact absurd (hblank _ hmem) hsolid
    | solid hmem' hsolid' hindented' hle' =>
      exact Nat.le_antisymm (hle _ hmem' hsolid' _ hindented') (hle' _ hmem hsolid _ hindented)

/-- Leaving out the layout of a text has one outcome. -/
theorem Stripped.unique (h : Stripped text l) (h' : Stripped text m) : l = m := by
  cases h with
  | mk lines first last least outdented =>
    cases h' with
    | mk lines' first' last' least' outdented' =>
      obtain rfl := lines.unique lines'
      obtain rfl := first.unique first'
      obtain rfl := last.unique last'
      obtain rfl := least.unique least'
      rw [List.right_unique_forall₂' Outdented.rightUnique outdented outdented']

/-! ## What a reader leaves out -/

/-- Every text has lines. -/
theorem exists_lines (text : List (Char ⊕ ε)) : ∃ ls, Lines ls text := by
  induction text with
  | nil => exact ⟨[[]], by simp, by simp, rfl⟩
  | cons x text ih =>
    obtain ⟨ls, hnonempty, hended, rfl⟩ := ih
    obtain ⟨line, others, rfl⟩ := List.exists_cons_of_ne_nil hnonempty
    by_cases hx : x = .inl '\n'
    · exact ⟨[] :: line :: others, by simp, by simpa using hended, by simp [hx]⟩
    · refine ⟨(x :: line) :: others, by simp, ?_, ?_⟩
      · simpa [Ne.symm hx] using hended
      · cases others <;> simp

theorem lines_symbols (t : Template ε) : Lines ((Template.lines t).map symbols) (symbols t) := by
  classical
  let _ : BEq (Char ⊕ ε) := instBEqOfDecidableEq
  obtain ⟨ls, hls⟩ := exists_lines (symbols t)
  rwa [map_symbols_lines, ← hls.eq_splitOn]

theorem blankLine_symbols_iff {line : Template ε} :
    BlankLine (symbols line) ↔ isBlankLine line = true := by
  rw [isBlankLine_eq_all, List.all_eq_true]
  refine forall₂_congr fun x _ => ?_
  cases x <;> simp [isBlankSymbol, isBlankChar]

theorem leastIndentation_commonIndentation {ls : List (Template ε)}
    (hls : ∀ line ∈ ls, isMerged line = true) :
    LeastIndentation (ls.map symbols) (commonIndentation ls) := by
  unfold commonIndentation
  cases hmin : ((ls.filter fun line => !isBlankLine line).map indentation).min? with
  | none =>
    rw [List.min?_eq_none_iff, List.map_eq_nil_iff, List.filter_eq_nil_iff] at hmin
    refine .blank fun line hline => ?_
    obtain ⟨l, hl, rfl⟩ := List.mem_map.mp hline
    exact blankLine_symbols_iff.mpr (by simpa using hmin l hl)
  | some n =>
    rw [List.min?_eq_some_iff] at hmin
    obtain ⟨hmem, hle⟩ := hmin
    obtain ⟨line, hline, rfl⟩ := List.mem_map.mp hmem
    obtain ⟨hline, hsolid⟩ := List.mem_filter.mp hline
    refine .solid (List.mem_map_of_mem hline) (by simpa [blankLine_symbols_iff] using hsolid)
      (indented_iff.mpr (indentation_of_isMerged (hls line hline)).symm) ?_
    intro other hother hsolid m hm
    obtain ⟨l, hl, rfl⟩ := List.mem_map.mp hother
    rw [indented_iff.mp hm |>.symm, spaces, ← indentation_of_isMerged (hls l hl)]
    refine hle _ (List.mem_map_of_mem (List.mem_filter.mpr ⟨hl, ?_⟩))
    simpa [blankLine_symbols_iff] using hsolid

theorem forall₂_outdented {ls : List (Template ε)} (n : Nat)
    (hls : ∀ line ∈ ls, isMerged line = true) :
    List.Forall₂ (Outdented n) (ls.map symbols) ((outdent n ls).map symbols) := by
  rw [outdent, List.map_map, List.forall₂_map_left_iff, List.forall₂_map_right_iff,
    List.forall₂_same]
  intro line hline
  rw [outdented_iff, spaces, ← indentation_of_isMerged (hls line hline)]
  exact (symbols_dropIndentation (Nat.min_le_right _ _)).symm

theorem mem_of_mem_dropBlankFirst {ls : List (Template ε)} {line : Template ε}
    (h : line ∈ dropBlankFirst ls) : line ∈ ls := by
  unfold dropBlankFirst at h
  split at h
  · split at h
    · exact List.mem_cons_of_mem _ h
    · exact h
  · exact h

theorem dropBlankLast_of_solid {ls : List (Template ε)} {last : Template ε}
    (hlast : isBlankLine last = false) : dropBlankLast (ls ++ [last]) = ls ++ [last] := by
  induction ls with
  | nil => rfl
  | cons line others ih =>
    cases others with
    | nil => simp [dropBlankLast, hlast]
    | cons next rest => cases rest <;> simpa [dropBlankLast] using ih

theorem mem_of_mem_dropBlankLast {ls : List (Template ε)} {line : Template ε}
    (h : line ∈ dropBlankLast ls) : line ∈ ls := by
  obtain rfl | ⟨front, last, rfl⟩ := List.eq_nil_or_concat' ls
  · exact h
  · cases hlast : isBlankLine last with
    | true =>
      cases front with
      | nil => exact h
      | cons next rest =>
        rw [dropBlankLast_append (List.cons_ne_nil _ _) hlast] at h
        exact List.mem_append_left _ h
    | false => rwa [dropBlankLast_of_solid hlast] at h

/-- All that a text has is a blank line, below another one or by itself. -/
def AllBlank (text line : List (Char ⊕ ε)) : Prop :=
  BlankLine line ∧ (Lines [line] text ∨ ∃ above, BlankLine above ∧ Lines [above, line] text)

theorem BlankLine.ended (h : BlankLine line) : .inl '\n' ∉ line := by
  intro hmem
  simpa using h _ hmem

theorem loneBlank_iff : LoneBlank text line ↔ AllBlank text line ∧ line ≠ [] := by
  constructor
  · intro h
    cases h with
    | first h hne => exact ⟨⟨h, Or.inl ⟨by simp, by simpa using h.ended, by simp⟩⟩, hne⟩
    | second habove h hne =>
      exact ⟨⟨h, Or.inr ⟨_, habove, by simp, by simpa using ⟨habove.ended, h.ended⟩, by simp⟩⟩, hne⟩
  · rintro ⟨⟨h, ⟨-, -, rfl⟩ | ⟨above, habove, -, -, rfl⟩⟩, hne⟩
    · simpa using LoneBlank.first h hne
    · simpa using LoneBlank.second habove h hne

theorem AllBlank.unique {line' : List (Char ⊕ ε)} (h : AllBlank text line)
    (h' : AllBlank text line') : line = line' := by
  obtain ⟨-, hlines | ⟨above, -, hlines⟩⟩ := h <;>
    obtain ⟨-, hlines' | ⟨above', -, hlines'⟩⟩ := h' <;>
    simpa using congrArg List.getLast? (hlines.unique hlines')

/-- Nothing is left of a text of blank lines, of which there are no more than two. -/
theorem AllBlank.stripped (h : AllBlank text line) : Stripped text [] := by
  have hnone : LeastIndentation ([] : List (List (Char ⊕ ε))) 0 := .blank (by simp)
  obtain ⟨hline, hlines | ⟨above, habove, hlines⟩⟩ := h
  · exact .mk hlines (.blank hline) .none hnone .nil
  · exact .mk hlines (.blank habove) (@DropsLast.blank _ line [] hline) hnone .nil

/-- A reader keeps the last line of a text of blank lines. -/
theorem AllBlank.symbols_stripIndentation {t : Template ε} (h : AllBlank (symbols t) line) :
    symbols (stripIndentation t) = line := by
  have hkept : ∃ last, dropBlankLast (dropBlankFirst (Template.lines t)) = [last] ∧
      symbols last = line := by
    obtain ⟨-, hlines | ⟨above, habove, hlines⟩⟩ := h
    · obtain ⟨last, hlast, hsymbols⟩ :=
        List.map_eq_singleton_iff.mp ((lines_symbols t).unique hlines)
      exact ⟨last, by rw [hlast, dropBlankFirst, dropBlankLast]; simp, hsymbols⟩
    · obtain ⟨first, rest, hfirst, rfl, hrest⟩ :=
        List.map_eq_cons_iff.mp ((lines_symbols t).unique hlines)
      obtain ⟨last, rfl, hsymbols⟩ := List.map_eq_singleton_iff.mp hrest
      refine ⟨last, ?_, hsymbols⟩
      rw [hfirst, dropBlankFirst_cons (blankLine_symbols_iff.mp habove) (List.cons_ne_nil _ _),
        dropBlankLast]
  obtain ⟨last, hlast, rfl⟩ := hkept
  have hblank : isBlankLine last = true := blankLine_symbols_iff.mp h.1
  have hnone : commonIndentation [last] = 0 := by simp [commonIndentation, hblank]
  rw [stripIndentation, hlast, hnone, outdent_zero, joinLines]

/-- A blank last line is dropped unless it is the only one. -/
theorem dropsLast_dropBlankLast {ls : List (Template ε)}
    (hlone : ∀ line, ls = [line] → isBlankLine line = false) :
    DropsLast (ls.map symbols) ((dropBlankLast ls).map symbols) := by
  obtain rfl | ⟨front, last, rfl⟩ := List.eq_nil_or_concat' ls
  · exact .none
  · cases hlast : isBlankLine last with
    | false =>
      rw [dropBlankLast_of_solid hlast, List.map_append]
      exact .solid (by simp [blankLine_symbols_iff, hlast])
    | true =>
      have hfront : front ≠ [] := by
        rintro rfl
        exact absurd hlast (by simp [hlone last rfl])
      rw [dropBlankLast_append hfront hlast, List.map_append]
      exact .blank (blankLine_symbols_iff.mpr hlast)

/-- A reader drops what the grammar drops, unless all that there is is blank. -/
theorem exists_drops {ls : List (Template ε)} (hls : ls ≠ []) :
    (∃ below, DropsFirst (ls.map symbols) below ∧
      DropsLast below ((dropBlankLast (dropBlankFirst ls)).map symbols)) ∨
    ∃ line, isBlankLine line = true ∧
      (ls = [line] ∨ ∃ above, isBlankLine above = true ∧ ls = [above, line]) := by
  cases ls with
  | nil => exact absurd rfl hls
  | cons first others =>
    cases hfirst : isBlankLine first with
    | false =>
      have hdrop : dropBlankFirst (first :: others) = first :: others := by
        cases others <;> simp [dropBlankFirst, hfirst]
      refine Or.inl ⟨_, .solid (by simp [blankLine_symbols_iff, hfirst]), ?_⟩
      rw [hdrop]
      exact dropsLast_dropBlankLast fun line hline => by
        obtain ⟨rfl, -⟩ := List.cons.inj hline
        exact hfirst
    | true =>
      cases others with
      | nil => exact Or.inr ⟨first, hfirst, Or.inl rfl⟩
      | cons next rest =>
        rw [dropBlankFirst_cons hfirst (List.cons_ne_nil _ _)]
        by_cases hlone : ∃ line, next :: rest = [line] ∧ isBlankLine line = true
        · obtain ⟨line, hline, hblank⟩ := hlone
          exact Or.inr ⟨line, hblank, Or.inr ⟨first, hfirst, by rw [hline]⟩⟩
        · refine Or.inl ⟨_, .blank (blankLine_symbols_iff.mpr hfirst), ?_⟩
          exact dropsLast_dropBlankLast fun line hline =>
            Bool.eq_false_iff.mpr fun hblank => hlone ⟨line, hline, hblank⟩

/-- A reader leaves out the layout that the grammar leaves out, and keeps the line that is said to
be kept. -/
theorem asRead_stripIndentation {t : Template ε} (ht : isMerged t = true) :
    AsRead (symbols t) (symbols (stripIndentation t)) := by
  by_cases hblank : ∃ line, AllBlank (symbols t) line
  · obtain ⟨line, hline⟩ := hblank
    rw [hline.symbols_stripIndentation]
    by_cases hne : line = []
    · subst hne
      exact .stripped (fun l hl => (loneBlank_iff.mp hl).2
        (hline.unique (loneBlank_iff.mp hl).1).symm) hline.stripped
    · exact .kept (loneBlank_iff.mpr ⟨hline, hne⟩)
  · refine .stripped (fun l hl => hblank ⟨l, (loneBlank_iff.mp hl).1⟩) ?_
    obtain ⟨below, hfirst, hlast⟩ | ⟨line, hline, hlines⟩ := exists_drops (lines_ne_nil t)
    · have hmerged : ∀ line ∈ dropBlankLast (dropBlankFirst (Template.lines t)),
          isMerged line = true := fun line hline =>
        isMerged_of_mem_lines ht (mem_of_mem_dropBlankFirst (mem_of_mem_dropBlankLast hline))
      rw [stripIndentation, symbols_joinLines]
      exact .mk (lines_symbols t) hfirst hlast (leastIndentation_commonIndentation hmerged)
        (forall₂_outdented _ hmerged)
    · have hsymbols := lines_symbols t
      refine absurd ⟨symbols line, blankLine_symbols_iff.mpr hline, ?_⟩ hblank
      obtain hlines | ⟨above, habove, hlines⟩ := hlines
      · exact Or.inl (by simpa [hlines] using hsymbols)
      · exact Or.inr ⟨symbols above, blankLine_symbols_iff.mpr habove, by
          simpa [hlines] using hsymbols⟩

/-! ## Normal forms -/

theorem normal_iff {t : Template ε} : Normal t l ↔ isClean t = true ∧ symbols t = l :=
  ⟨fun h => ⟨isClean_iff.mpr ⟨h.nonempty, isMerged_iff.mpr h.merged⟩, h.reads⟩,
    fun h => ⟨h.2, (isClean_iff.mp h.1).1, isMerged_iff.mp (isClean_iff.mp h.1).2⟩⟩

theorem normal_clean (t : Template ε) : Normal (clean t) (symbols t) :=
  normal_iff.mpr ⟨isClean_clean t, symbols_clean t⟩

theorem Normal.unique {t u : Template ε} (h : Normal t l) (h' : Normal u l) : t = u := by
  obtain ⟨ht, rfl⟩ := normal_iff.mp h
  obtain ⟨hu, hsymbols⟩ := normal_iff.mp h'
  exact eq_of_symbols_eq ht hu hsymbols.symm

/-- One piece for each symbol. -/
def ofSymbols (l : List (Char ⊕ ε)) : Template ε :=
  l.map (Sum.elim (fun c => .literal (String.singleton c)) .antiquote)

theorem symbols_ofSymbols (l : List (Char ⊕ ε)) : symbols (ofSymbols l) = l := by
  induction l with
  | nil => rfl
  | cons x l ih =>
    rw [ofSymbols, List.map_cons, symbols_cons, ← ofSymbols, ih]
    cases x <;> simp [Piece.symbols]

/-- Every text is that of a template in normal form. -/
theorem exists_normal (l : List (Char ⊕ ε)) : ∃ t, Normal t l :=
  ⟨clean (ofSymbols l), by simpa [symbols_ofSymbols] using normal_clean (ofSymbols l)⟩

/-- However a body was gathered, its normal form reads as the body. -/
theorem normal_clean_padded (body : Template ε) :
    Normal (clean (padded [] body)) (symbols body) := by
  simpa [symbols_padded] using normal_clean (padded [] body)

/-- However a body was gathered, a reader leaves out its layout. -/
theorem asRead_padded (body : Template ε) :
    AsRead (symbols body) (symbols (stripIndentation (padded [] body))) := by
  simpa [symbols_padded] using asRead_stripIndentation (isMerged_padded [] body)

/-! ## The layout of a text is left out in one way -/

theorem AsRead.unique (h : AsRead text l) (h' : AsRead text m) : l = m := by
  cases h with
  | kept hlone =>
    cases h' with
    | kept hlone' => exact (loneBlank_iff.mp hlone).1.unique (loneBlank_iff.mp hlone').1
    | stripped hnone => exact absurd hlone (hnone _)
  | stripped hnone h =>
    cases h' with
    | kept hlone => exact absurd hlone (hnone _)
    | stripped _ h' => exact h.unique h'

theorem exists_stripped (text : List (Char ⊕ ε)) : ∃ l, Stripped text l := by
  obtain ⟨t, ht⟩ := exists_normal text
  have h := asRead_stripIndentation (isMerged_of_isClean (normal_iff.mp ht).1)
  rw [ht.reads] at h
  cases h with
  | kept hlone => exact ⟨[], (loneBlank_iff.mp hlone).1.stripped⟩
  | stripped _ h => exact ⟨_, h⟩

/-- A reader leaves out nothing but blanks and line feeds. -/
theorem AsRead.filter_isSolid (h : AsRead text l) : l.filter isSolid = text.filter isSolid := by
  obtain ⟨t, ht⟩ := exists_normal text
  have hread := asRead_stripIndentation (isMerged_of_isClean (normal_iff.mp ht).1)
  rw [ht.reads] at hread
  rw [h.unique hread, ← ht.reads]
  exact solids_stripIndentation t

theorem BlankLine.filter_isSolid (h : BlankLine line) : line.filter isSolid = [] := by
  rw [List.filter_eq_nil_iff]
  intro x hx
  obtain rfl | rfl := h x hx <;> simp [isSolid, isBlankChar]

/-- The grammar leaves out nothing but blanks and line feeds. -/
theorem Stripped.filter_isSolid (h : Stripped text l) : l.filter isSolid = text.filter isSolid := by
  by_cases hlone : ∃ line, LoneBlank text line
  · obtain ⟨line, hline⟩ := hlone
    have hblank := (loneBlank_iff.mp hline).1
    rw [h.unique hblank.stripped, ← (AsRead.kept hline).filter_isSolid, hblank.1.filter_isSolid]
    rfl
  · exact (AsRead.stripped (not_exists.mp hlone) h).filter_isSolid

/-! ## Holes do not come into it -/

/-- The text with other things in its holes. -/
def fill (f : ε → δ) (l : List (Char ⊕ ε)) : List (Char ⊕ δ) := l.map (Sum.map id f)

variable {f g : ε → δ}

theorem inl_mem_fill_iff {c : Char} : .inl c ∈ fill f l ↔ .inl c ∈ l := by
  rw [fill, List.mem_map]
  constructor
  · rintro ⟨x | e, hx, hxc⟩
    · obtain rfl : x = c := Sum.inl.inj hxc
      exact hx
    · exact absurd hxc (by simp)
  · exact fun h => ⟨_, h, rfl⟩

theorem inr_mem_fill_iff {d : δ} : .inr d ∈ fill f l ↔ ∃ e, .inr e ∈ l ∧ f e = d := by
  rw [fill, List.mem_map]
  constructor
  · rintro ⟨x | e, hx, hxd⟩
    · exact absurd hxd (by simp)
    · exact ⟨e, hx, Sum.inr.inj hxd⟩
  · rintro ⟨e, he, rfl⟩
    exact ⟨_, he, rfl⟩

/-- A text without holes has none, whatever would stand in them. -/
theorem inr_notMem_fill (g : ε → δ) (h : ∀ d, .inr d ∉ fill f l) (d : δ) : .inr d ∉ fill g l := by
  intro hmem
  obtain ⟨e, he, -⟩ := inr_mem_fill_iff.mp hmem
  exact h (f e) (inr_mem_fill_iff.mpr ⟨e, he, rfl⟩)

theorem fill_append (f : ε → δ) (l m : List (Char ⊕ ε)) :
    fill f (l ++ m) = fill f l ++ fill f m := List.map_append

theorem fill_chars (f : ε → δ) (cs : List Char) :
    fill f (cs.map .inl) = cs.map .inl := by
  simp [fill]

theorem blankLine_fill_iff : BlankLine (fill f line) ↔ BlankLine line := by
  simp only [BlankLine, fill, List.forall_mem_map]
  refine forall₂_congr fun x _ => ?_
  cases x <;> simp

theorem spaces_fill (f : ε → δ) (line : List (Char ⊕ ε)) : spaces (fill f line) = spaces line := by
  have hspace : isSpaceSymbol ∘ Sum.map id f = isSpaceSymbol := by
    funext x
    cases x <;> rfl
  rw [spaces, fill, List.takeWhile_map, List.length_map, hspace, spaces]

theorem fill_intercalate (f : ε → δ) (ls : List (List (Char ⊕ ε))) :
    fill f ([.inl '\n'].intercalate ls) = [.inl '\n'].intercalate (ls.map (fill f)) := by
  induction ls with
  | nil => rfl
  | cons line others ih =>
    cases others with
    | nil => simp
    | cons next rest => simp_all [fill]

theorem Lines.map_fill (f : ε → δ) (h : Lines ls text) : Lines (ls.map (fill f)) (fill f text) where
  nonempty := by simpa using h.nonempty
  ended := by simpa [inl_mem_fill_iff] using h.ended
  joined := by rw [← fill_intercalate, h.joined]

theorem DropsFirst.map_fill {below : List (List (Char ⊕ ε))} (f : ε → δ) (h : DropsFirst ls below) :
    DropsFirst (ls.map (fill f)) (below.map (fill f)) := by
  cases h with
  | blank h => exact .blank (blankLine_fill_iff.mpr h)
  | solid h => exact .solid (mt blankLine_fill_iff.mp h)

theorem DropsLast.map_fill {kept : List (List (Char ⊕ ε))} (f : ε → δ) (h : DropsLast ls kept) :
    DropsLast (ls.map (fill f)) (kept.map (fill f)) := by
  cases h with
  | none => exact .none
  | blank h =>
    rw [List.map_append]
    exact .blank (blankLine_fill_iff.mpr h)
  | solid h =>
    rw [List.map_append]
    exact .solid (mt blankLine_fill_iff.mp h)

theorem indented_fill_iff {n : Nat} : Indented n (fill f line) ↔ Indented n line := by
  rw [indented_iff, indented_iff, spaces_fill]

theorem LeastIndentation.map_fill {n : Nat} (f : ε → δ) (h : LeastIndentation ls n) :
    LeastIndentation (ls.map (fill f)) n := by
  cases h with
  | blank h => exact .blank (by simpa [blankLine_fill_iff] using h)
  | solid hmem hline h hle =>
    refine .solid (List.mem_map_of_mem hmem) (mt blankLine_fill_iff.mp hline)
      (indented_fill_iff.mpr h) ?_
    simpa [blankLine_fill_iff, indented_fill_iff] using hle

theorem Outdented.map_fill {n : Nat} (f : ε → δ) (h : Outdented n line l) :
    Outdented n (fill f line) (fill f l) := by
  rw [outdented_iff] at h ⊢
  rw [spaces_fill, ← h]
  exact List.map_drop.symm

theorem Stripped.map_fill (f : ε → δ) (h : Stripped text l) :
    Stripped (fill f text) (fill f l) := by
  cases h with
  | mk lines first last least outdented =>
    rw [fill_intercalate]
    refine .mk (lines.map_fill f) (first.map_fill f) (last.map_fill f) (least.map_fill f) ?_
    rw [List.forall₂_map_left_iff, List.forall₂_map_right_iff]
    exact outdented.imp fun _ _ h => h.map_fill f

theorem inr_mem_of_filter_isSolid {e : ε} (h : l.filter isSolid = m.filter isSolid)
    (hmem : .inr e ∈ l) : .inr e ∈ m := by
  have hsolid : .inr e ∈ l.filter isSolid := List.mem_filter.mpr ⟨hmem, rfl⟩
  rw [h] at hsolid
  exact (List.mem_filter.mp hsolid).1

/-- Two texts that differ in their holes only lose the same layout, and if they come to the same,
they have been the same. -/
theorem Stripped.exists_fill {m : List (Char ⊕ δ)} (g : ε → δ) (h : Stripped (fill f text) m) :
    ∃ m', Stripped (fill g text) m' ∧ ((∀ e, .inr e ∉ m) → ∀ e, .inr e ∉ m') ∧
      (m = m' → fill f text = fill g text) := by
  obtain ⟨l, hl⟩ := exists_stripped text
  obtain rfl := h.unique (hl.map_fill f)
  refine ⟨fill g l, hl.map_fill g, inr_notMem_fill g, fun heq => ?_⟩
  refine List.map_congr_left fun x hx => ?_
  cases x with
  | inl c => rfl
  | inr d =>
    have hkept : .inr d ∈ l := inr_mem_of_filter_isSolid hl.filter_isSolid.symm hx
    exact List.map_inj_left.mp heq _ hkept

end LazyConfig.Grammar
