import LazyConfig.Template
set_option autoImplicit false

/-!
# Templates: canonical forms

A template without empty or neighbouring literals is determined by what it reads as,
and `clean` gives one for every template.  So whatever pieces a reader gathers, cleaning
them gives the one canonical template with the same characters and holes.
-/

namespace LazyConfig.Template

variable {ε : Type}

/-! ## What a canonical template starts with -/

/-- Whether the first symbol is not a character. -/
def StartsAtHole (l : List (Char ⊕ ε)) : Prop := ∀ c l', l ≠ Sum.inl c :: l'

theorem startsAtHole_nil : StartsAtHole ([] : List (Char ⊕ ε)) := by
  intro c l' h
  exact absurd h (by simp)

theorem startsAtHole_inr (e : ε) (l : List (Char ⊕ ε)) : StartsAtHole (Sum.inr e :: l) := by
  intro c l' h
  exact absurd h (by simp)

theorem isClean_tail {piece : Piece ε} {rest : Template ε} (h : isClean (piece :: rest) = true) :
    isClean rest = true := by
  cases piece with
  | antiquote e => exact h
  | literal a =>
    cases rest with
    | nil => rfl
    | cons next rest =>
      cases next with
      | literal b => simp [isClean] at h
      | antiquote e =>
        rw [isClean, Bool.and_eq_true] at h
        · exact h.2
        · simp

/-- Behind a literal of a canonical template comes no character. -/
theorem startsAtHole_of_literal {a : String} {rest : Template ε}
    (h : isClean (.literal a :: rest) = true) : a ≠ "" ∧ StartsAtHole (symbols rest) := by
  cases rest with
  | nil => exact ⟨by rintro rfl; simp [isClean] at h, startsAtHole_nil⟩
  | cons next rest =>
    cases next with
    | literal b => simp [isClean] at h
    | antiquote e =>
      refine ⟨?_, startsAtHole_inr _ _⟩
      rintro rfl
      simp [isClean] at h

/-! ## Canonical templates are determined by what they read as -/

/-- Characters up to the first hole are determined by the symbols. -/
theorem append_inl_injective {a b : List Char} {l m : List (Char ⊕ ε)} (hl : StartsAtHole l)
    (hm : StartsAtHole m) (h : a.map Sum.inl ++ l = b.map Sum.inl ++ m) : a = b ∧ l = m := by
  induction a generalizing b with
  | nil =>
    cases b with
    | nil => exact ⟨rfl, h⟩
    | cons y b => exact absurd h (hl y _)
  | cons x a ih =>
    cases b with
    | nil => exact absurd h.symm (hm x _)
    | cons y b =>
      simp only [List.map_cons, List.cons_append, List.cons.injEq, Sum.inl.injEq] at h
      obtain ⟨hab, hlm⟩ := ih h.2
      exact ⟨by rw [h.1, hab], hlm⟩

theorem eq_nil_of_symbols_eq_nil {t : Template ε} (ht : isClean t = true)
    (h : symbols t = []) : t = [] := by
  cases t with
  | nil => rfl
  | cons piece rest =>
    cases piece with
    | antiquote e => simp [Piece.symbols] at h
    | literal a =>
      have hne := (startsAtHole_of_literal ht).1
      simp [Piece.symbols, hne] at h

/-- Canonical templates that read alike are equal. -/
theorem eq_of_symbols_eq {t u : Template ε} (ht : isClean t = true) (hu : isClean u = true)
    (h : symbols t = symbols u) : t = u := by
  induction t generalizing u with
  | nil => exact (eq_nil_of_symbols_eq_nil hu h.symm).symm
  | cons piece rest ih =>
    cases u with
    | nil => exact eq_nil_of_symbols_eq_nil ht h
    | cons other rest' =>
      rw [symbols_cons, symbols_cons] at h
      cases piece with
      | antiquote e =>
        cases other with
        | antiquote e' =>
          simp only [Piece.symbols, List.singleton_append, List.cons.injEq, Sum.inr.injEq] at h
          rw [h.1, ih (isClean_tail ht) (isClean_tail hu) h.2]
        | literal b =>
          have hb := startsAtHole_of_literal hu
          obtain ⟨hnil, -⟩ := append_inl_injective (a := []) (startsAtHole_inr e _) hb.2 h
          exact absurd (String.toList_eq_nil_iff.mp hnil.symm) hb.1
      | literal a =>
        have ha := startsAtHole_of_literal ht
        cases other with
        | antiquote e' =>
          obtain ⟨hnil, -⟩ := append_inl_injective (b := []) ha.2 (startsAtHole_inr e' _) h
          exact absurd (String.toList_eq_nil_iff.mp hnil) ha.1
        | literal b =>
          have hb := startsAtHole_of_literal hu
          obtain ⟨hab, hrest⟩ := append_inl_injective ha.2 hb.2 h
          rw [String.toList_injective hab, ih (isClean_tail ht) (isClean_tail hu) hrest]

/-- A canonical template without holes is the literal of its text, or empty. -/
theorem static?_eq_some_iff {t : Template ε} (ht : isClean t = true) {x : String} :
    static? t = some x ↔ symbols t = x.toList.map Sum.inl := by
  constructor
  · intro h
    unfold static? at h
    split at h
    · obtain rfl := Option.some.inj h
      rfl
    · obtain rfl := Option.some.inj h
      simp [Piece.symbols]
    · exact absurd h (by simp)
  · intro h
    by_cases hx : x = ""
    · subst hx
      rw [eq_nil_of_symbols_eq_nil ht h, static?]
    · have hclean : isClean [(.literal x : Piece ε)] = true := by simpa [isClean] using hx
      rw [eq_of_symbols_eq ht hclean (by simpa [Piece.symbols] using h), static?]

/-! ## Cleaning -/

theorem isClean_prepend {piece : Piece ε} {t : Template ε} (hp : piece.isEmptyLiteral = false)
    (ht : isClean t = true) : isClean (prepend piece t) = true := by
  cases piece with
  | antiquote e => exact ht
  | literal a =>
    have ha : a.isEmpty = false := hp
    cases t with
    | nil => simp [prepend, isClean, ha]
    | cons next rest =>
      cases next with
      | antiquote e =>
        have hrest : isClean rest = true := ht
        simp [prepend, isClean, ha, hrest]
      | literal b =>
        have hb := startsAtHole_of_literal ht
        have hab : (a ++ b).isEmpty = false := by
          have hne : a ≠ "" := by rintro rfl; simp at ha
          simp [hne]
        cases rest with
        | nil => simp [prepend, isClean, hab]
        | cons third rest =>
          cases third with
          | literal d => simp [isClean] at ht
          | antiquote e =>
            have hrest : isClean rest = true := isClean_tail (isClean_tail ht)
            simp [prepend, isClean, hab, hrest]

/-- What `clean` gives has no empty literal and no two literals in a row. -/
theorem isClean_clean (t : Template ε) : isClean (clean t) = true := by
  unfold clean
  induction t with
  | nil => rfl
  | cons piece rest ih =>
    cases hp : piece.isEmptyLiteral with
    | true => simpa [hp] using ih
    | false =>
      simp only [hp, Bool.not_false, List.filter_cons_of_pos, normalize]
      exact isClean_prepend hp ih

theorem symbols_of_isEmptyLiteral {piece : Piece ε} (h : piece.isEmptyLiteral = true) :
    piece.symbols = [] := by
  cases piece with
  | antiquote e => simp [Piece.isEmptyLiteral] at h
  | literal a => simpa [Piece.isEmptyLiteral, Piece.symbols] using h

/-- Cleaning keeps what a template reads as. -/
theorem symbols_clean (t : Template ε) : symbols (clean t) = symbols t := by
  unfold clean
  rw [symbols_normalize]
  induction t with
  | nil => rfl
  | cons piece rest ih =>
    cases hp : piece.isEmptyLiteral with
    | true => simp [hp, ih, symbols_of_isEmptyLiteral hp]
    | false => simp [hp, ih]

/-- A template that reads as a canonical one is cleaned to it. -/
theorem clean_eq_of_symbols_eq {t u : Template ε} (ht : isClean t = true)
    (h : symbols u = symbols t) : clean u = t :=
  eq_of_symbols_eq (isClean_clean u) ht ((symbols_clean u).trans h)

/-! ## Merged templates -/

/-- Whether no two literals are neighbours. -/
def isMerged : Template ε → Bool
  | [] => true
  | .antiquote _ :: rest => isMerged rest
  | .literal _ :: .literal _ :: _ => false
  | .literal _ :: rest => isMerged rest

theorem isMerged_literal_iff {a : String} {rest : Template ε} :
    isMerged (.literal a :: rest) = true ↔
      isMerged rest = true ∧ ∀ b tail, rest ≠ .literal b :: tail := by
  cases rest with
  | nil => simp [isMerged]
  | cons next tail => cases next <;> simp [isMerged]

theorem isMerged_tail {piece : Piece ε} {rest : Template ε}
    (h : isMerged (piece :: rest) = true) : isMerged rest = true := by
  cases piece with
  | antiquote e => exact h
  | literal a => exact (isMerged_literal_iff.mp h).1

theorem isMerged_prepend (piece : Piece ε) {t : Template ε} (h : isMerged t = true) :
    isMerged (prepend piece t) = true := by
  unfold prepend
  split
  · exact isMerged_literal_iff.mpr (isMerged_literal_iff.mp h)
  · next hother =>
    cases piece with
    | antiquote e => exact h
    | literal a => exact isMerged_literal_iff.mpr ⟨h, fun b tail => hother a b tail rfl⟩

/-- Normal forms have no two literals in a row. -/
theorem isMerged_normalize (t : Template ε) : isMerged (normalize t) = true := by
  induction t with
  | nil => rfl
  | cons piece rest ih => exact isMerged_prepend piece ih

/-- Behind a literal of a merged template comes no character. -/
theorem startsAtHole_of_isMerged {a : String} {rest : Template ε}
    (h : isMerged (.literal a :: rest) = true) : StartsAtHole (symbols rest) := by
  cases rest with
  | nil => exact startsAtHole_nil
  | cons next tail =>
    cases next with
    | literal b => exact absurd rfl ((isMerged_literal_iff.mp h).2 b tail)
    | antiquote e => exact startsAtHole_inr e _

theorem isMerged_iff {t : Template ε} :
    isMerged t = true ↔ ∀ a b, ¬ [.literal a, .literal b] <:+: t := by
  induction t with
  | nil => simp [isMerged]
  | cons piece rest ih =>
    cases piece with
    | antiquote e => simp [isMerged, ih, List.infix_cons_iff]
    | literal a =>
      rw [isMerged_literal_iff, ih]
      constructor
      · rintro ⟨hrest, hnext⟩ b c hinfix
        obtain ⟨tail, htail⟩ | hinfix := List.infix_cons_iff.mp hinfix
        · exact hnext c tail (List.cons.inj htail).2.symm
        · exact hrest b c hinfix
      · intro h
        refine ⟨fun b c hinfix => h b c (List.infix_cons hinfix), ?_⟩
        rintro b tail rfl
        exact h a b ⟨[], tail, rfl⟩

theorem isClean_literal_iff {a : String} {rest : Template ε} :
    isClean (.literal a :: rest) = true ↔
      a ≠ "" ∧ isClean rest = true ∧ ∀ b tail, rest ≠ .literal b :: tail := by
  cases rest with
  | nil => simp [isClean]
  | cons next tail => cases next <;> simp [isClean]

theorem isClean_iff {t : Template ε} :
    isClean t = true ↔ .literal "" ∉ t ∧ isMerged t = true := by
  induction t with
  | nil => simp [isClean, isMerged]
  | cons piece rest ih =>
    cases piece with
    | antiquote e => simp [isClean, isMerged, ih]
    | literal a =>
      rw [isClean_literal_iff, isMerged_literal_iff, ih, List.mem_cons, Piece.literal.injEq,
        not_or, ne_comm]
      simp only [ne_eq, and_assoc]

theorem isMerged_of_isClean {t : Template ε} (h : isClean t = true) : isMerged t = true :=
  (isClean_iff.mp h).2

/-! ## Merging -/

theorem prepend_of_ne (piece : Piece ε) {rest : Template ε}
    (h : ∀ b tail, rest ≠ .literal b :: tail) : prepend piece rest = piece :: rest := by
  unfold prepend
  split
  · next b tail => exact absurd rfl (h b tail)
  · rfl

theorem normalize_of_isMerged {t : Template ε} (h : isMerged t = true) : normalize t = t := by
  induction t with
  | nil => rfl
  | cons piece rest ih =>
    rw [normalize, ih (isMerged_tail h)]
    cases piece with
    | antiquote e => rfl
    | literal a => exact prepend_of_ne _ (isMerged_literal_iff.mp h).2

/-- Merging changes nothing exactly where nothing is left to merge. -/
theorem normalize_eq_self_iff {t : Template ε} : normalize t = t ↔ isMerged t = true :=
  ⟨fun h => h ▸ isMerged_normalize t, normalize_of_isMerged⟩

/-! ## The canonical form -/

theorem clean_eq_self_iff {t : Template ε} : clean t = t ↔ isClean t = true :=
  ⟨fun h => h ▸ isClean_clean t, fun h => clean_eq_of_symbols_eq h rfl⟩

/-- Two templates are cleaned to the same one exactly if they read alike. -/
theorem clean_eq_clean_iff {t u : Template ε} : clean t = clean u ↔ symbols t = symbols u := by
  constructor
  · intro h
    rw [← symbols_clean t, h, symbols_clean]
  · intro h
    exact clean_eq_of_symbols_eq (isClean_clean u) (h.trans (symbols_clean u).symm)

theorem clean_append (t u : Template ε) : clean (t ++ u) = clean (clean t ++ clean u) :=
  clean_eq_clean_iff.mpr (by simp only [symbols_append, symbols_clean])

/-- Cleaning gives the canonical form of a template: it keeps what the template reads as, leaves
no empty literal and no two literals in a row, and tells two templates apart exactly if they read
differently.  So it changes nothing more when done again, or when done for the parts of a
template first.  Merging alone keeps what the template reads as too, leaves no two literals in
a row, and changes nothing more when done again. -/
theorem clean_canonical (p q : Template ε) :
    symbols (clean p) = symbols p ∧ .literal "" ∉ clean p ∧
    (∀ a b, ¬ [.literal a, .literal b] <:+: clean p) ∧
    (clean p = clean q ↔ symbols p = symbols q) ∧
    clean (clean p) = clean p ∧ clean (p ++ q) = clean (clean p ++ clean q) ∧
    normalize (normalize p) = normalize p ∧ symbols (normalize p) = symbols p ∧
    ∀ a b, ¬ [.literal a, .literal b] <:+: normalize p := by
  obtain ⟨hempty, hmerged⟩ := isClean_iff.mp (isClean_clean p)
  exact ⟨symbols_clean p, hempty, isMerged_iff.mp hmerged, clean_eq_clean_iff,
    clean_eq_self_iff.mpr (isClean_clean p), clean_append p q,
    normalize_eq_self_iff.mpr (isMerged_normalize p), symbols_normalize p,
    isMerged_iff.mp (isMerged_normalize p)⟩

end LazyConfig.Template
