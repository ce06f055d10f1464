import LazyConfig.Proofs.Parsing.Quoted
set_option autoImplicit false

/-!
# Templates: cuts that are seen

A template is rendered literal by literal, and each literal gets its escapes by itself.  Two
characters together are escaped, the dollar sign and the brace that would start an antiquote.
If a cut goes between them, neither literal has the mark, and it is written without an escape.

`cutMarks` counts these cuts.  They are all that a rendering shows of how literal text is cut:
each costs one backslash, and without them a template is written as what it reads as.
-/

namespace LazyConfig

namespace Template

variable {ε : Type}

/-! ## Cut marks -/

/-- Whether the first symbol is a brace. -/
def startsBrace : List (Char ⊕ ε) → Bool
  | .inl c :: _ => c == '\x7b'
  | _ => false

/-- The number of cuts that go through the mark of an antiquote. -/
def cutMarks : Template ε → Nat
  | [] => 0
  | .antiquote _ :: rest => cutMarks rest
  | .literal text :: rest =>
      (if text.toList.getLast? = some '$' ∧ startsBrace (symbols rest) = true then 1 else 0) +
        cutMarks rest

theorem startsBrace_of_startsAtHole {l : List (Char ⊕ ε)} (h : StartsAtHole l) :
    startsBrace l = false := by
  unfold startsBrace
  split
  · next c l' => exact absurd rfl (h c l')
  · rfl

/-- Where no literals are neighbours, no mark is cut. -/
theorem cutMarks_eq_zero_of_isMerged {t : Template ε} (h : isMerged t = true) :
    cutMarks t = 0 := by
  induction t with
  | nil => rfl
  | cons piece rest ih =>
    have hrest := ih (isMerged_tail h)
    cases piece with
    | antiquote e => exact hrest
    | literal a => simp [cutMarks, hrest, startsBrace_of_startsAtHole (startsAtHole_of_isMerged h)]

end Template

/-! ## What a template reads as, written -/

open Template LazyConfig.Parser

/-- Characters and holes in double quotation marks, with every mark escaped. -/
def escapeSymbols : List (Char ⊕ Expr) → List Char
  | [] => []
  | .inl '$' :: .inl '\x7b' :: rest => '\\' :: '$' :: '\x7b' :: escapeSymbols rest
  | .inl c :: rest => escapeChar c ++ escapeSymbols rest
  | .inr e :: rest => '$' :: '\x7b' :: (e.renderBare.toList ++ '\x7d' :: escapeSymbols rest)

theorem escapeSymbols_inl {c : Char} {l : List (Char ⊕ Expr)}
    (h : c = '$' → startsBrace l = false) :
    escapeSymbols (.inl c :: l) = escapeChar c ++ escapeSymbols l := by
  rw [escapeSymbols]
  rintro rest rfl rfl
  exact absurd (h rfl) (by simp [startsBrace])

/-- Characters in front of symbols are written by themselves, unless a mark is cut. -/
theorem escapeSymbols_append (l : List Char) {m : List (Char ⊕ Expr)}
    (h : l.getLast? = some '$' → startsBrace m = false) :
    escapeSymbols (l.map Sum.inl ++ m) = escapeChars l ++ escapeSymbols m := by
  fun_induction escapeChars l with
  | case1 => rfl
  | case2 rest ih =>
    have hrest : rest.getLast? = some '$' → startsBrace m = false := fun hlast =>
      h (by simp [List.getLast?_cons, hlast])
    simp [escapeSymbols, ih hrest]
  | case3 c rest hmark ih =>
    have hhead : c = '$' → startsBrace (rest.map Sum.inl ++ m) = false := by
      intro hc
      cases rest with
      | nil => exact h (by simp [hc])
      | cons x rest =>
        have hx : x ≠ '\x7b' := fun hx => hmark rest hc (by rw [hx])
        simpa [startsBrace] using hx
    have hrest : rest.getLast? = some '$' → startsBrace m = false := fun hlast =>
      h (by simp [List.getLast?_cons, hlast])
    rw [List.append_assoc, ← ih hrest]
    exact escapeSymbols_inl hhead

theorem escapeSymbols_map_inl (l : List Char) :
    escapeSymbols (l.map Sum.inl) = escapeChars l := by
  have h := escapeSymbols_append l (m := []) fun _ => rfl
  simpa [escapeSymbols] using h

/-- A cut mark costs one backslash. -/
theorem length_escapeSymbols_append {l : List Char} {m : List (Char ⊕ Expr)}
    (hl : l.getLast? = some '$') (hm : startsBrace m = true) :
    (escapeSymbols (l.map Sum.inl ++ m)).length =
      (escapeChars l).length + (escapeSymbols m).length + 1 := by
  obtain ⟨front, rfl⟩ := List.getLast?_eq_some_iff.mp hl
  obtain ⟨m, rfl⟩ : ∃ m', m = .inl '\x7b' :: m' := by
    unfold startsBrace at hm
    split at hm
    · next c m' =>
      obtain rfl : c = '\x7b' := by simpa using hm
      exact ⟨m', rfl⟩
    · exact absurd hm (by simp)
  have hwhole := escapeSymbols_append front (m := .inl '$' :: .inl '\x7b' :: m) fun _ => rfl
  have hfront := escapeSymbols_append front (m := [.inl '$']) fun _ => rfl
  have hchars : escapeChars (front ++ ['$']) = escapeChars front ++ ['$'] := by
    rw [← escapeSymbols_map_inl, List.map_append]
    exact hfront
  have hbrace : escapeSymbols (.inl '\x7b' :: m) = '\x7b' :: escapeSymbols m := rfl
  rw [List.map_append, List.append_assoc]
  refine (congrArg List.length hwhole).trans ?_
  rw [hchars, hbrace]
  simp [escapeSymbols]
  omega

/-! ## Renderings -/

/-- The rendering of a template lacks one backslash for each mark that is cut. -/
theorem length_escapeSymbols (t : Template Expr) :
    (escapeSymbols (symbols t)).length = (renderPieces t).toList.length + cutMarks t := by
  induction t with
  | nil => rfl
  | cons piece rest ih =>
    cases piece with
    | antiquote e =>
      simp [symbols_cons, Piece.symbols, escapeSymbols, renderPieces, cutMarks, ih]
      omega
    | literal a =>
      rw [symbols_cons, Piece.symbols, renderPieces, cutMarks, String.toList_append, toList_escape,
        List.length_append]
      split
      · next h =>
        rw [length_escapeSymbols_append h.1 h.2, ih]
        omega
      · next h =>
        have hcut : a.toList.getLast? = some '$' → startsBrace (symbols rest) = false :=
          fun hlast => Bool.eq_false_iff.mpr fun hbrace => h ⟨hlast, hbrace⟩
        rw [escapeSymbols_append _ hcut, List.length_append, ih]
        omega

/-- A template without cut marks is rendered as what it reads as. -/
theorem toList_renderPieces {t : Template Expr} (h : cutMarks t = 0) :
    (renderPieces t).toList = escapeSymbols (symbols t) := by
  induction t with
  | nil => rfl
  | cons piece rest ih =>
    cases piece with
    | antiquote e => simp [symbols_cons, Piece.symbols, escapeSymbols, renderPieces, ih h]
    | literal a =>
      rw [cutMarks, Nat.add_eq_zero_iff] at h
      have hcut : a.toList.getLast? = some '$' → startsBrace (symbols rest) = false := by
        intro hlast
        rw [Bool.eq_false_iff]
        exact fun hbrace => by simp [hlast, hbrace] at h
      rw [symbols_cons, Piece.symbols, renderPieces, String.toList_append, toList_escape,
        escapeSymbols_append _ hcut, ih h.2]

/-- Templates without cut marks that read alike are rendered alike. -/
theorem renderTemplate_congr {t u : Template Expr} (ht : cutMarks t = 0) (hu : cutMarks u = 0)
    (h : symbols t = symbols u) : renderTemplate t = renderTemplate u := by
  have hpieces : renderPieces t = renderPieces u := String.toList_injective (by
    rw [toList_renderPieces ht, toList_renderPieces hu, h])
  rw [renderTemplate, renderTemplate, hpieces]

/-- A template is rendered like its normal form exactly if none of its cuts goes through a
mark. -/
theorem renderTemplate_normalize_iff (t : Template Expr) :
    renderTemplate t = renderTemplate (normalize t) ↔ cutMarks t = 0 := by
  have hnormal : cutMarks (normalize t) = 0 := cutMarks_eq_zero_of_isMerged (isMerged_normalize t)
  refine ⟨fun h => ?_, fun h => renderTemplate_congr h hnormal (symbols_normalize t).symm⟩
  have hpieces : (renderPieces t).toList.length = (renderPieces (normalize t)).toList.length := by
    have hlength := congrArg (fun s => s.toList.length) h
    simpa [renderTemplate] using hlength
  have hcut := length_escapeSymbols t
  have hmerged := length_escapeSymbols (normalize t)
  rw [symbols_normalize] at hmerged
  omega

end LazyConfig
