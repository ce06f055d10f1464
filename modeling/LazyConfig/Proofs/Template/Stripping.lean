import LazyConfig.Parser
import LazyConfig.Proofs.Template.Solids
set_option autoImplicit false

/-!
# Templates: stripping

Stripping takes away the indentation that was put in front of lines, and no more of them.

The blank last line, where the closing mark of an indented string stands, is dropped after the
blank first line, and neither is dropped if it is the only line left.  So a last line may be
kept that has lost the line in front of it.
-/

namespace LazyConfig.Template

variable {ε : Type}

/-! ## Blank lines at the ends -/

theorem dropBlankFirst_cons {first : Template ε} {ls : List (Template ε)}
    (hfirst : isBlankLine first = true) (hls : ls ≠ []) : dropBlankFirst (first :: ls) = ls := by
  cases ls with
  | nil => exact absurd rfl hls
  | cons next rest => simp [dropBlankFirst, hfirst]

/-- A line behind the others does not matter for the first one, unless that is the only one. -/
theorem dropBlankFirst_append {ls : List (Template ε)} (hne : ls ≠ [])
    (hlone : ∀ line, ls = [line] → isBlankLine line = false) (last : Template ε) :
    dropBlankFirst (ls ++ [last]) = dropBlankFirst ls ++ [last] := by
  cases ls with
  | nil => exact absurd rfl hne
  | cons first others =>
    cases others with
    | nil => simp [dropBlankFirst, hlone first rfl]
    | cons next rest =>
      rw [List.cons_append, List.cons_append, dropBlankFirst, dropBlankFirst]
      split <;> rfl

theorem dropBlankFirst_ne_nil {ls : List (Template ε)} (h : ls ≠ []) : dropBlankFirst ls ≠ [] := by
  unfold dropBlankFirst
  split
  · split <;> exact List.cons_ne_nil _ _
  · exact h

theorem dropBlankLast_append {ls : List (Template ε)} {last : Template ε} (hls : ls ≠ [])
    (hlast : isBlankLine last = true) : dropBlankLast (ls ++ [last]) = ls := by
  induction ls with
  | nil => exact absurd rfl hls
  | cons line others ih =>
    cases others with
    | nil => simp [dropBlankLast, hlast]
    | cons next rest =>
      have hrest := ih (List.cons_ne_nil next rest)
      cases rest <;> simpa [dropBlankLast] using hrest

/-! ## Indentation that is taken away -/

/-- What all nonblank lines have and one of them has exactly is their common indentation. -/
theorem commonIndentation_eq {ls : List (Template ε)} {k : Nat}
    (hle : ∀ line ∈ ls, k ≤ indentation line)
    (hmem : ∃ line ∈ ls, isBlankLine line = false ∧ indentation line = k) :
    commonIndentation ls = k := by
  have hmin : ((ls.filter fun line => !isBlankLine line).map indentation).min? = some k := by
    rw [List.min?_eq_some_iff]
    refine ⟨?_, fun n hn => ?_⟩
    · obtain ⟨line, hline, hsolid, rfl⟩ := hmem
      exact List.mem_map_of_mem (List.mem_filter.mpr ⟨hline, by simp [hsolid]⟩)
    · obtain ⟨line, hline, rfl⟩ := List.mem_map.mp hn
      exact hle line (List.mem_filter.mp hline).1
  rw [commonIndentation, hmin, Option.getD_some]

theorem map_symbols_outdent {ls : List (Template ε)} {k : Nat}
    (hle : ∀ line ∈ ls, k ≤ indentation line) :
    (outdent k ls).map symbols = (ls.map symbols).map (List.drop k) := by
  rw [outdent, List.map_map, List.map_map]
  refine List.map_congr_left fun line hline => ?_
  have hmin : min k (indentation line) = k := Nat.min_eq_left (hle line hline)
  rw [Function.comp_apply, hmin]
  exact symbols_dropIndentation (hle line hline)

theorem outdent_zero (ls : List (Template ε)) : outdent 0 ls = ls := by
  refine (List.map_congr_left fun line _ => ?_).trans (List.map_id ls)
  rw [Nat.zero_min]
  cases line with
  | nil => rfl
  | cons piece rest => cases piece <;> simp [dropIndentation]

/-! ## The line of the closing mark -/

/-- A template is blank if it is one blank line. -/
theorem isBlankLine_iff_lines {t : Template ε} :
    isBlankLine t = true ↔ ∃ line, lines t = [line] ∧ isBlankLine line = true := by
  constructor
  · intro h
    have hfeed : Sum.inl '\n' ∉ symbols t := by
      intro hmem
      rw [isBlankLine_eq_all, List.all_eq_true] at h
      exact absurd (h _ hmem) (by simp [isBlankSymbol, isBlankChar])
    have hlines : (lines t).map symbols = [t].map symbols :=
      map_symbols_lines_of_joinLines (List.cons_ne_nil _ _) (by simpa using hfeed) rfl
    obtain ⟨line, hline, hsymbols⟩ := List.map_eq_singleton_iff.mp hlines
    refine ⟨line, hline, ?_⟩
    rw [isBlankLine_eq_all, hsymbols, ← isBlankLine_eq_all, h]
  · rintro ⟨line, hline, h⟩
    have hsymbols := symbols_joinLines_lines t
    rw [hline, joinLines] at hsymbols
    rw [isBlankLine_eq_all, ← hsymbols, ← isBlankLine_eq_all, h]

theorem isBlankLine_ofChunk {l : List Char} (h : ∀ c ∈ l, isBlankChar c = true) :
    isBlankLine (ofChunk l : Template ε) = true := by
  simpa [isBlankLine_eq_all, symbols_ofChunk, isBlankSymbol] using h

/-- A template of lines, then a line feed and blanks, is stripped without the blanks, unless all
in front of the line feed is blank: then the blanks are all that is left. -/
theorem stripIndentation_append_blank (body : Template ε) {w : String}
    (hw : ∀ c ∈ w.toList, isBlankChar c = true) :
    stripIndentation (body ++ [.literal ("\n" ++ w)]) =
      if isBlankLine body = true then ofChunk w.toList
      else
        let ls := dropBlankFirst (lines body)
        joinLines (outdent (commonIndentation ls) ls) := by
  have hfeed : '\n' ∉ w.toList := fun hmem => absurd (hw _ hmem) (by decide)
  have hlast : isBlankLine (ofChunk w.toList : Template ε) = true := isBlankLine_ofChunk hw
  have hlines : lines (body ++ [.literal ("\n" ++ w)]) = lines body ++ [ofChunk w.toList] := by
    rw [lines_append_lineFeed]
    exact congrArg _ (lines_ofText hfeed)
  rw [stripIndentation, hlines]
  split
  · next hblank =>
    obtain ⟨line, hline, hfirst⟩ := isBlankLine_iff_lines.mp hblank
    have hnone : commonIndentation [(ofChunk w.toList : Template ε)] = 0 := by
      simp [commonIndentation, hlast]
    rw [hline, List.singleton_append, dropBlankFirst_cons hfirst (List.cons_ne_nil _ _)]
    simp only [dropBlankLast, hnone, outdent_zero, joinLines]
  · next hsolid =>
    have hlone : ∀ line, lines body = [line] → isBlankLine line = false := fun line hline =>
      Bool.eq_false_iff.mpr fun hblank => hsolid (isBlankLine_iff_lines.mpr ⟨line, hline, hblank⟩)
    rw [dropBlankFirst_append (lines_ne_nil body) hlone,
      dropBlankLast_append (dropBlankFirst_ne_nil (lines_ne_nil body)) hlast]

/-- The blanks behind the last line feed of a template do not matter, exactly if what is in front
of it is not blank, or they are the same. -/
theorem clean_stripIndentation_append_blank_iff (body : Template ε) (w w' : String)
    (hw : ∀ c ∈ w.toList, isBlankChar c = true) (hw' : ∀ c ∈ w'.toList, isBlankChar c = true) :
    clean (stripIndentation (body ++ [.literal ("\n" ++ w)])) =
        clean (stripIndentation (body ++ [.literal ("\n" ++ w')])) ↔
      isBlankLine body = false ∨ w = w' := by
  rw [stripIndentation_append_blank body hw, stripIndentation_append_blank body hw']
  cases hbody : isBlankLine body with
  | false => simp
  | true =>
    rw [if_pos rfl, if_pos rfl]
    constructor
    · intro h
      have hsymbols := congrArg symbols h
      rw [symbols_clean, symbols_clean, symbols_ofChunk, symbols_ofChunk] at hsymbols
      have hchars := (List.map_inj_right fun _ _ => Sum.inl.inj).mp hsymbols
      exact Or.inr (String.toList_injective hchars)
    · rintro (h | rfl)
      · exact absurd h (by decide)
      · rfl

/-- A text, an antiquote and a line feed, and two ways to go on to the closing mark. -/
theorem clean_stripIndentation_append_tab :
    let body : Template Expr := [.literal "\n\n  a ", .antiquote (.var ⟨"x", by decide⟩)]
    isBlankLine body = false ∧
      clean (stripIndentation (body ++ [.literal ("\n" ++ " \t")])) =
        clean (stripIndentation (body ++ [.literal ("\n" ++ "")])) := by
  intro body
  have hbody : isBlankLine body = false := by decide
  have htab : ∀ c ∈ " \t".toList, isBlankChar c = true := by simp [isBlankChar]
  have hnone : ∀ c ∈ "".toList, isBlankChar c = true := by simp
  have hsame := clean_stripIndentation_append_blank_iff body " \t" "" htab hnone
  exact ⟨hbody, hsame.mpr (Or.inl hbody)⟩

/-- Where nothing stands in front of the line feed, the blanks in front of the closing mark are
the string. -/
theorem clean_stripIndentation_append_blank_ne :
    let body : Template Expr := []
    clean (stripIndentation (body ++ [.literal ("\n" ++ "  ")])) ≠
        clean (stripIndentation (body ++ [.literal ("\n" ++ "")])) ∧
      readProgram Lexicon.standard "''\n  ''" = .accepted (.str [.literal "  "]) ∧
      readProgram Lexicon.standard "''\n''" = .accepted (.str []) := by
  decide +kernel

/-! ## Lines with an indentation in front -/

/-- Lines below a line feed, each with spaces in front of it, and blanks below them. -/
def indented (k : Nat) (ls : List (Template ε)) (w : String) : Template ε :=
  let spaces : Piece ε := .literal (String.ofList (List.replicate k ' '))
  normalize (.literal "\n" :: (joinLines (ls.map (spaces :: ·)) ++ [.literal ("\n" ++ w)]))

theorem symbols_joinLines_append {ls : List (Template ε)} (hls : ls ≠ []) (last : Template ε) :
    symbols (joinLines (ls ++ [last])) =
      symbols (joinLines ls) ++ Sum.inl '\n' :: symbols last := by
  induction ls with
  | nil => exact absurd rfl hls
  | cons line others ih =>
    cases others with
    | nil => exact symbols_joinLines_cons line (List.cons_ne_nil _ _)
    | cons next rest =>
      rw [List.cons_append, symbols_joinLines_cons _ (by simp), ih (List.cons_ne_nil _ _),
        symbols_joinLines_cons _ (List.cons_ne_nil _ _)]
      simp

/-- The lines of indented lines: an empty one, the lines with their spaces, and the blanks. -/
theorem map_symbols_lines_indented {ls : List (Template ε)} {k : Nat} {w : String} (hne : ls ≠ [])
    (hls : ∀ line ∈ ls, Sum.inl '\n' ∉ symbols line) (hw : '\n' ∉ w.toList) :
    (lines (indented k ls w)).map symbols =
      [] :: (ls.map (List.replicate k (Sum.inl ' ') ++ symbols ·) ++ [w.toList.map Sum.inl]) := by
  let shifted : List (Template ε) := ls.map (.literal (String.ofList (List.replicate k ' ')) :: ·)
  have hshifted : shifted ≠ [] := by simpa [shifted] using hne
  have hreads : symbols (indented k ls w) =
      symbols (joinLines ([] :: (shifted ++ [ofText w]))) := by
    rw [indented, symbols_normalize, symbols_joinLines_cons _ (by simp),
      symbols_joinLines_append hshifted]
    simp [shifted, symbols_append, Piece.symbols, ofText]
  have hfeeds : ∀ line ∈ [] :: (shifted ++ [ofText w]), Sum.inl '\n' ∉ symbols line := by
    intro line hline
    simp only [List.mem_cons, List.mem_append, List.not_mem_nil, or_false] at hline
    obtain rfl | hmem | rfl := hline
    · simp
    · obtain ⟨l, hl, rfl⟩ := List.mem_map.mp hmem
      simpa [Piece.symbols] using hls l hl
    · simpa [ofText, Piece.symbols] using hw
  rw [map_symbols_lines_of_joinLines (List.cons_ne_nil _ _) hfeeds hreads]
  simp [shifted, Piece.symbols, ofText, Function.comp_def]

/-- The lines of indented lines are what stripping drops and, between, the lines with their
spaces. -/
theorem exists_lines_indented {ls : List (Template ε)} {k : Nat} {w : String} (hne : ls ≠ [])
    (hls : ∀ line ∈ ls, Sum.inl '\n' ∉ symbols line) (hw : ∀ c ∈ w.toList, isBlankChar c = true) :
    ∃ first shifted last, lines (indented k ls w) = first :: (shifted ++ [last]) ∧
      isBlankLine first = true ∧ isBlankLine last = true ∧
      (∀ line ∈ shifted, isMerged line = true) ∧
      shifted.map symbols = ls.map (List.replicate k (Sum.inl ' ') ++ symbols ·) := by
  have hfeed : '\n' ∉ w.toList := fun hmem => absurd (hw _ hmem) (by decide)
  have hmap := map_symbols_lines_indented (k := k) hne hls hfeed
  obtain ⟨first, behind, hlines, hfirst, hbehind⟩ := List.map_eq_cons_iff.mp hmap
  obtain ⟨shifted, lasts, rfl, hshifted, hlasts⟩ := List.map_eq_append_iff.mp hbehind
  obtain ⟨last, rfl, hlast⟩ := List.map_eq_singleton_iff.mp hlasts
  refine ⟨first, shifted, last, hlines, by simp [isBlankLine_eq_all, hfirst],
    by simpa [isBlankLine_eq_all, hlast, isBlankSymbol] using hw, fun line hline => ?_, hshifted⟩
  have hmem : line ∈ lines (indented k ls w) := by
    rw [hlines]
    exact List.mem_cons_of_mem _ (List.mem_append_left _ hline)
  exact isMerged_of_mem_lines (isMerged_normalize _) hmem

/-- A merged line that reads as spaces in front of a line is indented further by their number. -/
theorem indentation_of_replicate {line l : Template ε} {k : Nat} (hline : isMerged line = true)
    (h : symbols line = List.replicate k (Sum.inl ' ') ++ symbols l) :
    indentation line = k + ((symbols l).takeWhile isSpaceSymbol).length := by
  have hspaces : ∀ x ∈ List.replicate k (Sum.inl ' ' : Char ⊕ ε), isSpaceSymbol x = true :=
    fun x hx => List.eq_of_mem_replicate hx ▸ rfl
  rw [indentation_of_isMerged hline, h, List.takeWhile_append_of_pos hspaces, List.length_append,
    List.length_replicate]

theorem isBlankLine_of_replicate {line l : Template ε} {k : Nat}
    (h : symbols line = List.replicate k (Sum.inl ' ') ++ symbols l) :
    isBlankLine line = isBlankLine l := by
  rw [isBlankLine_eq_all, isBlankLine_eq_all, h, List.all_append]
  simp [isBlankSymbol, isBlankChar]

/-- Lines with the same spaces in front have these in common and no more, if one that is not
blank starts with none of its own. -/
theorem commonIndentation_of_replicate {ls shifted : List (Template ε)} {k : Nat}
    (hmerged : ∀ line ∈ shifted, isMerged line = true)
    (hshifted : shifted.map symbols = ls.map (List.replicate k (Sum.inl ' ') ++ symbols ·))
    (hstart : ∃ l ∈ ls, isBlankLine l = false ∧ (symbols l).head? ≠ some (Sum.inl ' ')) :
    (∀ line ∈ shifted, k ≤ indentation line) ∧ commonIndentation shifted = k := by
  have hle : ∀ line ∈ shifted, k ≤ indentation line := by
    intro line hline
    have hmem := List.mem_map_of_mem (f := symbols) hline
    rw [hshifted] at hmem
    obtain ⟨l, -, hl⟩ := List.mem_map.mp hmem
    rw [indentation_of_replicate (hmerged line hline) hl.symm]
    exact Nat.le_add_right _ _
  obtain ⟨l, hl, hsolid, hhead⟩ := hstart
  have hmem := List.mem_map_of_mem (f := (List.replicate k (Sum.inl ' ') ++ symbols ·)) hl
  rw [← hshifted] at hmem
  obtain ⟨line, hline, hsymbols⟩ := List.mem_map.mp hmem
  refine ⟨hle, commonIndentation_eq hle ⟨line, hline, ?_, ?_⟩⟩
  · rw [isBlankLine_of_replicate hsymbols, hsolid]
  · rw [indentation_of_replicate (hmerged line hline) hsymbols,
      takeWhile_isSpaceSymbol_of_head? hhead]
    rfl

/-- Stripping undoes indenting: the lines come back as they were, if one that is not blank had no
indentation of its own. -/
theorem clean_stripIndentation_indented {ls : List (Template ε)} {k : Nat} {w : String}
    (hls : ∀ line ∈ ls, Sum.inl '\n' ∉ symbols line)
    (hstart : ∃ line ∈ ls, isBlankLine line = false ∧ (symbols line).head? ≠ some (Sum.inl ' '))
    (hw : ∀ c ∈ w.toList, isBlankChar c = true) :
    clean (stripIndentation (indented k ls w)) = clean (joinLines ls) := by
  have hne : ls ≠ [] := by
    rintro rfl
    simp at hstart
  obtain ⟨first, shifted, last, hlines, hfirst, hlast, hmerged, hshifted⟩ :=
    exists_lines_indented (k := k) hne hls hw
  obtain ⟨hle, hcommon⟩ := commonIndentation_of_replicate hmerged hshifted hstart
  have hne' : shifted ≠ [] := by
    rintro rfl
    exact hne (List.map_eq_nil_iff.mp hshifted.symm)
  have hstrip : stripIndentation (indented k ls w) = joinLines (outdent k shifted) := by
    rw [stripIndentation, hlines, dropBlankFirst_cons hfirst (by simp),
      dropBlankLast_append hne' hlast, hcommon]
  refine clean_eq_of_symbols_eq (isClean_clean _) ?_
  rw [hstrip, symbols_clean, symbols_joinLines, symbols_joinLines, map_symbols_outdent hle,
    hshifted]
  simp [Function.comp_def]

/-- Lines that are indented alike and stripped are the lines again, each as it was, if one that is
not blank does not start with a space.  Of any template at all, stripping keeps the holes and the
characters other than blanks and line feeds, in order. -/
theorem stripIndentation_undoes_indented :
    (∀ (ls : List (Template ε)) (k : Nat) (w : String),
      (∀ line ∈ ls, Sum.inl '\n' ∉ symbols line) →
      (∃ line ∈ ls, isBlankLine line = false ∧ (symbols line).head? ≠ some (Sum.inl ' ')) →
      (∀ c ∈ w.toList, isBlankChar c = true) →
      clean (stripIndentation (indented k ls w)) = clean (joinLines ls)) ∧
    ∀ t : Template ε, solids (stripIndentation t) = solids t :=
  ⟨fun _ _ _ => clean_stripIndentation_indented, solids_stripIndentation⟩

/-- Lines with more indentation, without characters, with blanks only, with a tab in front, and
one that starts with an antiquote. -/
theorem stripIndentation_undoes_indented_antiquote :
    let x : Expr := .var ⟨"x", by decide⟩
    let ls : List (Template Expr) := [[.literal "  a ", .antiquote x], [], [.literal "   \t"],
      [.literal "\tb"], [.literal ""], [.antiquote x, .literal " c"], [.literal " "]]
    clean (stripIndentation (indented 4 ls "\t ")) = clean (joinLines ls) ∧
      solids (stripIndentation (indented 4 ls "\t ")) = solids (indented 4 ls "\t ") := by
  intro x ls
  have hfeeds : ∀ line ∈ ls, Sum.inl '\n' ∉ symbols line := by
    simp [ls, Piece.symbols]
  have hstart : ∃ line ∈ ls, isBlankLine line = false ∧
      (symbols line).head? ≠ some (Sum.inl ' ') :=
    ⟨[.antiquote x, .literal " c"], by simp [ls], rfl, by simp [Piece.symbols]⟩
  have hblank : ∀ c ∈ "\t ".toList, isBlankChar c = true := by simp [isBlankChar]
  exact ⟨stripIndentation_undoes_indented.1 ls 4 "\t " hfeeds hstart hblank,
    stripIndentation_undoes_indented.2 _⟩

end LazyConfig.Template
