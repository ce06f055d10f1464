import LazyConfig.Proofs.Template.Canonical
import LazyConfig.Template.Indent
set_option autoImplicit false

/-!
# Templates: lines

The lines of a template read as what the template reads as, cut at the line feeds.  How the
template is cut into literals decides how its lines are, and no more: whether a line is blank
can be told from what it reads as, and in a merged template so can the indentation.
-/

namespace LazyConfig.Template

variable {ε : Type}

/-! ## What lines read as -/

theorem lines_literal (text : String) (rest : Template ε) :
    lines (.literal text :: rest) = attachChunks (Text.lines text.toList) (lines rest) := rfl

theorem lines_antiquote (e : ε) (rest : Template ε) :
    lines (.antiquote e :: rest) = prependToFirst [.antiquote e] (lines rest) := rfl

theorem symbols_ofChunk (chunk : List Char) :
    symbols (ofChunk chunk : Template ε) = chunk.map Sum.inl := by
  cases chunk <;> simp [ofChunk, Piece.symbols]

theorem map_symbols_prependToFirst (front : Template ε) {ls : List (Template ε)} (h : ls ≠ []) :
    (prependToFirst front ls).map symbols =
      (ls.map symbols).modifyHead (symbols front ++ ·) := by
  cases ls with
  | nil => exact absurd rfl h
  | cons line others => simp [prependToFirst, symbols_append]

/-- A character in front of the first line of a literal. -/
theorem map_symbols_attachChunks_cons (c : Char) (line : List Char) (others : List (List Char))
    {ls : List (Template ε)} (h : ls ≠ []) :
    (attachChunks ((c :: line) :: others) ls).map symbols =
      ((attachChunks (line :: others) ls).map symbols).modifyHead (Sum.inl c :: ·) := by
  cases others with
  | nil =>
    rw [attachChunks, attachChunks, map_symbols_prependToFirst _ h,
      map_symbols_prependToFirst _ h, List.modifyHead_modifyHead]
    simp [symbols_ofChunk, Function.comp_def]
  | cons next rest => simp [attachChunks, symbols_ofChunk]

section

variable [BEq (Char ⊕ ε)] [LawfulBEq (Char ⊕ ε)]

theorem splitOn_lineFeed (m : List (Char ⊕ ε)) :
    (Sum.inl '\n' :: m).splitOn (Sum.inl '\n') = [] :: m.splitOn (Sum.inl '\n') := by
  simp [List.splitOn_eq_splitOnP, List.splitOnP_cons_eq_if_modifyHead]

theorem splitOn_cons {x : Char ⊕ ε} (h : x ≠ Sum.inl '\n') (m : List (Char ⊕ ε)) :
    (x :: m).splitOn (Sum.inl '\n') = (m.splitOn (Sum.inl '\n')).modifyHead (x :: ·) := by
  simp [List.splitOn_eq_splitOnP, List.splitOnP_cons_eq_if_modifyHead, h]

theorem map_symbols_attachChunks {ls : List (Template ε)} {m : List (Char ⊕ ε)}
    (h : ls.map symbols = m.splitOn (Sum.inl '\n')) (l : List Char) :
    (attachChunks (Text.lines l) ls).map symbols =
      (l.map Sum.inl ++ m).splitOn (Sum.inl '\n') := by
  have hne : ls ≠ [] := by
    rintro rfl
    exact List.splitOn_ne_nil _ m h.symm
  induction l with
  | nil =>
    rw [Text.lines, attachChunks, map_symbols_prependToFirst _ hne, h]
    exact congrFun List.modifyHead_id _
  | cons c l ih =>
    obtain ⟨line, others, hl⟩ := List.exists_cons_of_ne_nil (Text.lines_ne_nil l)
    rw [List.map_cons, List.cons_append, Text.lines]
    split
    · next hc =>
      rw [hc, splitOn_lineFeed, ← ih, hl]
      simp [attachChunks, symbols_ofChunk]
    · next hc =>
      rw [splitOn_cons (by simpa using hc), ← ih, hl]
      exact map_symbols_attachChunks_cons c line others hne

/-- The lines of a template read as what the template reads as, cut at the line feeds. -/
theorem map_symbols_lines (t : Template ε) :
    (lines t).map symbols = (symbols t).splitOn (Sum.inl '\n') := by
  induction t with
  | nil => rfl
  | cons piece rest ih =>
    cases piece with
    | literal text => exact map_symbols_attachChunks ih text.toList
    | antiquote e =>
      rw [lines_antiquote, map_symbols_prependToFirst _ (lines_ne_nil rest), ih]
      exact (splitOn_cons Sum.inr_ne_inl _).symm

end

/-! ## Joined lines -/

theorem symbols_joinLines_cons (line : Template ε) {ls : List (Template ε)} (h : ls ≠ []) :
    symbols (joinLines (line :: ls)) = symbols line ++ Sum.inl '\n' :: symbols (joinLines ls) := by
  cases ls with
  | nil => exact absurd rfl h
  | cons next rest => simp [joinLines, symbols_append, Piece.symbols]

theorem symbols_joinLines (ls : List (Template ε)) :
    symbols (joinLines ls) = [Sum.inl '\n'].intercalate (ls.map symbols) := by
  induction ls with
  | nil => rfl
  | cons line others ih =>
    cases others with
    | nil => simp [joinLines]
    | cons next rest =>
      rw [symbols_joinLines_cons _ (List.cons_ne_nil _ _), ih]
      simp

/-- Lines that are joined read as the template they were cut from. -/
theorem symbols_joinLines_lines (t : Template ε) : symbols (joinLines (lines t)) = symbols t := by
  classical
  let _ : BEq (Char ⊕ ε) := instBEqOfDecidableEq
  rw [symbols_joinLines, map_symbols_lines, List.intercalate_splitOn]

/-- A template that reads as lines that are joined has lines that read as they do. -/
theorem map_symbols_lines_of_joinLines {t : Template ε} {ls : List (Template ε)} (hne : ls ≠ [])
    (hls : ∀ line ∈ ls, Sum.inl '\n' ∉ symbols line) (h : symbols t = symbols (joinLines ls)) :
    (lines t).map symbols = ls.map symbols := by
  classical
  let _ : BEq (Char ⊕ ε) := instBEqOfDecidableEq
  rw [map_symbols_lines, h, symbols_joinLines]
  exact List.splitOn_intercalate _ (by simpa using hls) (by simpa using hne)

/-! ## Lines behind a line feed -/

theorem prependToFirst_append (front : Template ε) {ls : List (Template ε)} (h : ls ≠ [])
    (more : List (Template ε)) :
    prependToFirst front (ls ++ more) = prependToFirst front ls ++ more := by
  cases ls with
  | nil => exact absurd rfl h
  | cons line others => rfl

theorem attachChunks_append (chunks : List (List Char)) {ls : List (Template ε)} (h : ls ≠ [])
    (more : List (Template ε)) :
    attachChunks chunks (ls ++ more) = attachChunks chunks ls ++ more := by
  induction chunks with
  | nil => rfl
  | cons chunk chunks ih =>
    cases chunks with
    | nil => exact prependToFirst_append _ h more
    | cons next rest => rw [attachChunks, attachChunks, ih, List.cons_append]

/-- A line feed ends a line, and what stands behind it is cut by itself. -/
theorem lines_append_lineFeed (front behind : Template ε) (text : String) :
    lines (front ++ .literal ("\n" ++ text) :: behind) =
      lines front ++ lines (.literal text :: behind) := by
  induction front with
  | nil =>
    obtain ⟨line, others, hl⟩ := List.exists_cons_of_ne_nil (Text.lines_ne_nil text.toList)
    have hchunks : Text.lines ("\n" ++ text).toList = [] :: line :: others := by
      simp [Text.lines, hl]
    rw [List.nil_append, lines_literal, lines_literal, hchunks, hl]
    rfl
  | cons piece rest ih =>
    cases piece with
    | literal a =>
      rw [List.cons_append, lines_literal a, ih, attachChunks_append _ (lines_ne_nil rest),
        lines_literal a]
    | antiquote e =>
      rw [List.cons_append, lines_antiquote, ih, prependToFirst_append _ (lines_ne_nil rest),
        lines_antiquote]

theorem textLines_of_notMem {l : List Char} (h : '\n' ∉ l) : Text.lines l = [l] := by
  induction l with
  | nil => rfl
  | cons c l ih =>
    rw [List.mem_cons, not_or] at h
    rw [Text.lines, if_neg (Ne.symm h.1), ih h.2]

/-- A text without line feeds is one line. -/
theorem lines_ofText {text : String} (h : '\n' ∉ text.toList) :
    lines (ofText text : Template ε) = [ofChunk text.toList] := by
  rw [ofText, lines_literal, textLines_of_notMem h, lines, attachChunks, prependToFirst,
    List.append_nil]

/-! ## Lines of merged templates -/

theorem mem_attachChunks {chunks : List (List Char)} {first line : Template ε}
    {others : List (Template ε)} (h : line ∈ attachChunks chunks (first :: others)) :
    line ∈ first :: others ∨ (∃ chunk, line = ofChunk chunk) ∨
      ∃ chunk, line = ofChunk chunk ++ first := by
  induction chunks with
  | nil => exact Or.inl h
  | cons chunk chunks ih =>
    cases chunks with
    | nil =>
      rcases List.mem_cons.mp h with rfl | hmem
      · exact Or.inr (Or.inr ⟨chunk, rfl⟩)
      · exact Or.inl (List.mem_cons_of_mem _ hmem)
    | cons next rest =>
      rcases List.mem_cons.mp h with rfl | hmem
      · exact Or.inr (Or.inl ⟨chunk, rfl⟩)
      · exact ih hmem

theorem isMerged_ofChunk_append (chunk : List Char) {t : Template ε}
    (h : ∀ a, isMerged (.literal a :: t) = true) : isMerged (ofChunk chunk ++ t) = true := by
  unfold ofChunk
  split
  · exact isMerged_tail (h "")
  · exact h _

/-- In the lines of a merged template no literals are neighbours either. -/
theorem isMerged_of_mem_lines {t line : Template ε} (ht : isMerged t = true)
    (hline : line ∈ lines t) : isMerged line = true := by
  induction t generalizing line with
  | nil =>
    obtain rfl : line = [] := by simpa [lines] using hline
    rfl
  | cons piece rest ih =>
    have hrest := isMerged_tail ht
    cases piece with
    | antiquote e =>
      obtain ⟨first, others, hls⟩ := List.exists_cons_of_ne_nil (lines_ne_nil rest)
      rw [lines_antiquote, hls] at hline
      rw [hls] at ih
      rcases List.mem_cons.mp hline with rfl | hmem
      · have hfirst : isMerged first = true := ih hrest List.mem_cons_self
        exact hfirst
      · exact ih hrest (List.mem_cons_of_mem _ hmem)
    | literal a =>
      -- The line that the last chunk is attached to is empty or starts with an antiquote.
      obtain ⟨first, others, hls, hfirst⟩ : ∃ first others, lines rest = first :: others ∧
          ∀ b, isMerged (.literal b :: first) = true := by
        cases rest with
        | nil => exact ⟨[], [], rfl, fun _ => rfl⟩
        | cons next tail =>
          cases next with
          | literal b => exact absurd rfl ((isMerged_literal_iff.mp ht).2 b tail)
          | antiquote e =>
            obtain ⟨first, others, hls⟩ := List.exists_cons_of_ne_nil (lines_ne_nil tail)
            refine ⟨.antiquote e :: first, others, by rw [lines_antiquote, hls]; rfl, fun b => ?_⟩
            have hmem : .antiquote e :: first ∈ lines (.antiquote e :: tail) := by
              rw [lines_antiquote, hls]
              exact List.mem_cons_self
            exact isMerged_literal_iff.mpr ⟨ih hrest hmem, by simp⟩
      rw [lines_literal, hls] at hline
      obtain hmem | ⟨chunk, rfl⟩ | ⟨chunk, rfl⟩ := mem_attachChunks hline
      · exact ih hrest (by rwa [hls])
      · have h := isMerged_ofChunk_append (ε := ε) (t := []) chunk fun _ => rfl
        rwa [List.append_nil] at h
      · exact isMerged_ofChunk_append chunk hfirst

/-! ## Blanks and indentation -/

/-- Whether a symbol is a space or a tab. -/
def isBlankSymbol : Char ⊕ ε → Bool
  | .inl c => isBlankChar c
  | .inr _ => false

/-- Whether a symbol is a space. -/
def isSpaceSymbol : Char ⊕ ε → Bool
  | .inl c => c == ' '
  | .inr _ => false

/-- A line is blank if it reads as blank. -/
theorem isBlankLine_eq_all (line : Template ε) :
    isBlankLine line = (symbols line).all isBlankSymbol := by
  induction line with
  | nil => rfl
  | cons piece rest ih =>
    rw [symbols_cons, List.all_append, ← ih]
    cases piece with
    | literal a => simp [isBlankLine, Piece.symbols, isBlankSymbol, Function.comp_def]
    | antiquote e => simp [isBlankLine, Piece.symbols, isBlankSymbol]

theorem length_takeWhile_isSpaceSymbol (l : List Char) {m : List (Char ⊕ ε)}
    (hm : StartsAtHole m) :
    ((l.map Sum.inl ++ m).takeWhile isSpaceSymbol).length =
      (l.takeWhile (· == ' ')).length := by
  induction l with
  | nil =>
    cases m with
    | nil => rfl
    | cons x m =>
      cases x with
      | inl c => exact absurd rfl (hm c m)
      | inr e => rfl
  | cons c l ih =>
    cases hc : c == ' ' with
    | true => simp [isSpaceSymbol, hc, ih]
    | false => simp [isSpaceSymbol, hc]

theorem takeWhile_isSpaceSymbol_of_head? {m : List (Char ⊕ ε)}
    (h : m.head? ≠ some (Sum.inl ' ')) : m.takeWhile isSpaceSymbol = [] := by
  cases m with
  | nil => rfl
  | cons x m =>
    cases x with
    | inl c =>
      have hc : c ≠ ' ' := by simpa using h
      simp [isSpaceSymbol, hc]
    | inr e => rfl

/-- The indentation of a merged line is the number of spaces that it reads as at its start. -/
theorem indentation_of_isMerged {line : Template ε} (h : isMerged line = true) :
    indentation line = ((symbols line).takeWhile isSpaceSymbol).length := by
  cases line with
  | nil => rfl
  | cons piece rest =>
    cases piece with
    | antiquote e => rfl
    | literal a =>
      exact (length_takeWhile_isSpaceSymbol a.toList (startsAtHole_of_isMerged h)).symm

/-- The characters of an indentation are the first that a line reads as. -/
theorem symbols_dropIndentation {n : Nat} {line : Template ε} (h : n ≤ indentation line) :
    symbols (dropIndentation n line) = (symbols line).drop n := by
  cases line with
  | nil => simp [dropIndentation]
  | cons piece rest =>
    cases piece with
    | antiquote e =>
      obtain rfl : n = 0 := Nat.le_zero.mp h
      rfl
    | literal a =>
      have hlength : n ≤ a.toList.length :=
        Nat.le_trans h (List.takeWhile_sublist _).length_le
      simp [dropIndentation, Piece.symbols, List.drop_append_of_le_length, hlength]

end LazyConfig.Template
