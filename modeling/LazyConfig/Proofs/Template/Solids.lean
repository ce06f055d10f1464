import LazyConfig.Proofs.Template.Lines
set_option autoImplicit false

/-!
# Templates: what stripping keeps

Stripping drops blank lines and takes away spaces, and to do so it cuts a template at its line
feeds and joins the lines again.  So everything else that the template reads as is still there,
in order, and the antiquotes in particular.
-/

namespace LazyConfig.Template

variable {ε : Type}

/-! ## Solid symbols -/

/-- Whether a symbol is a hole or a character other than a space, a tab and a line feed. -/
def isSolid : Char ⊕ ε → Bool
  | .inl c => !isBlankChar c && c != '\n'
  | .inr _ => true

/-- The symbols of a template besides blanks and line feeds. -/
def solids (t : Template ε) : List (Char ⊕ ε) := (symbols t).filter isSolid

theorem solids_joinLines (ls : List (Template ε)) :
    solids (joinLines ls) = ls.flatMap solids := by
  induction ls with
  | nil => rfl
  | cons line others ih =>
    cases others with
    | nil => simp [joinLines]
    | cons next rest =>
      have hfeed : isSolid (Sum.inl '\n' : Char ⊕ ε) = false := rfl
      rw [solids, symbols_joinLines_cons _ (List.cons_ne_nil _ _), List.filter_append,
        List.filter_cons_of_neg (by simp [hfeed]), List.flatMap_cons, ← ih]
      rfl

/-- Cutting a template into lines loses nothing but line feeds. -/
theorem flatMap_solids_lines (t : Template ε) : (lines t).flatMap solids = solids t := by
  rw [← solids_joinLines, solids, symbols_joinLines_lines, solids]

theorem solids_of_isBlankLine {line : Template ε} (h : isBlankLine line = true) :
    solids line = [] := by
  rw [isBlankLine_eq_all, List.all_eq_true] at h
  rw [solids, List.filter_eq_nil_iff]
  intro x hx
  have hblank := h x hx
  cases x with
  | inl c =>
    have hc : isBlankChar c = true := hblank
    simp [isSolid, hc]
  | inr e => exact absurd hblank (by simp [isBlankSymbol])

theorem flatMap_solids_dropBlankFirst (ls : List (Template ε)) :
    (dropBlankFirst ls).flatMap solids = ls.flatMap solids := by
  unfold dropBlankFirst
  split
  · split
    · next hblank => simp [solids_of_isBlankLine hblank]
    · rfl
  · rfl

theorem flatMap_solids_dropBlankLast (ls : List (Template ε)) :
    (dropBlankLast ls).flatMap solids = ls.flatMap solids := by
  fun_induction dropBlankLast ls with
  | case1 => rfl
  | case2 => rfl
  | case3 line last hblank => simp [solids_of_isBlankLine hblank]
  | case4 => rfl
  | case5 line next third rest ih => exact congrArg (solids line ++ ·) ih

/-- What a filter refuses may be dropped from the front. -/
theorem filter_drop_of_le_takeWhile {α : Type} {p q : α → Bool}
    (hpq : ∀ x, p x = true → q x = false) {l : List α} {n : Nat}
    (h : n ≤ (l.takeWhile p).length) : (l.drop n).filter q = l.filter q := by
  induction l generalizing n with
  | nil => simp
  | cons x l ih =>
    cases n with
    | zero => rfl
    | succ n =>
      cases hx : p x with
      | false => simp [hx] at h
      | true =>
        have hn : n ≤ (l.takeWhile p).length := by simpa [hx] using h
        rw [List.drop_succ_cons, ih hn, List.filter_cons_of_neg (by simp [hpq x hx])]

theorem solids_dropIndentation {n : Nat} {line : Template ε} (h : n ≤ indentation line) :
    solids (dropIndentation n line) = solids line := by
  cases line with
  | nil => rfl
  | cons piece rest =>
    cases piece with
    | antiquote e => rfl
    | literal a =>
      have hspace : ∀ c : Char, (c == ' ') = true → isSolid (Sum.inl c : Char ⊕ ε) = false := by
        intro c hc
        rw [beq_iff_eq.mp hc]
        rfl
      have hchars := filter_drop_of_le_takeWhile hspace h
      simp only [dropIndentation, solids, symbols_cons, Piece.symbols, String.toList_ofList,
        List.filter_append, List.filter_map]
      exact congrArg (fun l => l.map Sum.inl ++ (symbols rest).filter isSolid) hchars

theorem flatMap_solids_outdent (n : Nat) (ls : List (Template ε)) :
    (outdent n ls).flatMap solids = ls.flatMap solids := by
  have hline : (fun line : Template ε => solids (dropIndentation (min n (indentation line)) line)) =
      solids :=
    funext fun line => solids_dropIndentation (Nat.min_le_right n (indentation line))
  rw [outdent, List.flatMap_map, hline]

/-- Stripping loses nothing but blanks and line feeds. -/
theorem solids_stripIndentation (t : Template ε) : solids (stripIndentation t) = solids t := by
  rw [stripIndentation, solids_joinLines, flatMap_solids_outdent, flatMap_solids_dropBlankLast,
    flatMap_solids_dropBlankFirst, flatMap_solids_lines]

end LazyConfig.Template
