import LazyConfig.Proofs.Parsing.Bindings
set_option autoImplicit false

/-!
# Parsing: rendered functions

A rendered function reads back, and nothing else that stands where an expression may
stand is mistaken for one.  The second half decides the grammar's first alternative:
a function is tried before everything else, and a dict or an operand must make it fail
on the first thing that a parameter cannot have.
-/

namespace LazyConfig

/-! ## Texts of patterns -/

/-- The characters of a field of a pattern. -/
def Field.chars (f : Field Expr) : List Char :=
  match f.default with
  | none => f.name.text.toList
  | some e => f.name.text.toList ++ ' ' :: '?' :: ' ' :: e.chars .normal

/-- The characters of the fields of a pattern and of the ellipsis, with commas between. -/
def fieldsChars : List (Field Expr) → Bool → List Char
  | [], ellipsis => if ellipsis then ['.', '.', '.'] else []
  | [f], false => f.chars
  | f :: rest, ellipsis => f.chars ++ ',' :: ' ' :: fieldsChars rest ellipsis

theorem renderFields_cons (f : Field Expr) (fs : List (Field Expr)) :
    ∃ text : String, renderFields (f :: fs) = text :: renderFields fs ∧ text.toList = f.chars := by
  obtain ⟨x, default⟩ := f
  cases default with
  | none => exact ⟨x.text, rfl, rfl⟩
  | some e =>
    exact ⟨x.text ++ " ? " ++ e.renderBare, rfl, by simp [Field.chars, Expr.chars]⟩

theorem toList_intercalate_fields (fs : List (Field Expr)) (ellipsis : Bool) :
    (String.intercalate ", " (renderFields fs ++ if ellipsis then ["..."] else [])).toList =
      fieldsChars fs ellipsis := by
  induction fs with
  | nil => cases ellipsis <;> simp [renderFields, fieldsChars]
  | cons f fs ih =>
    obtain ⟨text, htext, hchars⟩ := renderFields_cons f fs
    cases fs with
    | nil => cases ellipsis <;> simp [htext, renderFields, fieldsChars, hchars]
    | cons g fs =>
      obtain ⟨next, hnext, -⟩ := renderFields_cons g fs
      rw [htext, fieldsChars, ← ih, hnext]
      · simp [hchars]
      · simp

/-- A pattern that names something is written between braces with a space on each side. -/
theorem toList_patternText {fs : List (Field Expr)} {ellipsis : Bool}
    (h : fs ≠ [] ∨ ellipsis = true) :
    (patternText (renderFields fs) ellipsis).toList =
      '\x7b' :: ' ' :: (fieldsChars fs ellipsis ++ [' ', '\x7d']) := by
  rw [← toList_intercalate_fields]
  unfold patternText
  split
  · next hempty =>
    cases fs with
    | nil => simp_all [renderFields]
    | cons f fs =>
      obtain ⟨text, htext, -⟩ := renderFields_cons f fs
      simp [htext] at hempty
  · simp

theorem exists_cons_patternText (fields : List String) (ellipsis : Bool) :
    ∃ t, (patternText fields ellipsis).toList = '\x7b' :: t := by
  unfold patternText
  split
  · exact ⟨[' ', '\x7d'], rfl⟩
  · exact ⟨_, by simp; rfl⟩

theorem canonicalFields_cons (f : Field Expr) (fs : List (Field Expr)) :
    canonicalFields (f :: fs) = true ↔
      (∀ e ∈ f.default, e.isCanonical = true) ∧ canonicalFields fs = true := by
  obtain ⟨x, default⟩ := f
  cases default <;> simp [canonicalFields]

theorem Field.exists_cons (f : Field Expr) : ∃ x t, f.chars = x :: t ∧ isNameChar x = true := by
  obtain ⟨name, default⟩ := f
  obtain ⟨x, t, ht, hx⟩ := name.exists_cons
  cases default with
  | none => exact ⟨x, t, ht, hx⟩
  | some e => exact ⟨x, t ++ ' ' :: '?' :: ' ' :: e.chars .normal, by simp [Field.chars, ht], hx⟩

/-- The fields start with a name, or with the ellipsis if there are none. -/
theorem exists_cons_fieldsChars {fs : List (Field Expr)} {ellipsis : Bool}
    (h : fs ≠ [] ∨ ellipsis = true) :
    ∃ x t, fieldsChars fs ellipsis = x :: t ∧ startsBlank x = false ∧ x ≠ '\x7d' := by
  cases fs with
  | nil =>
    obtain rfl : ellipsis = true := by simpa using h
    exact ⟨'.', _, rfl, by decide, by decide⟩
  | cons f fs =>
    obtain ⟨x, t, ht, hx⟩ := f.exists_cons
    have hne : x ≠ '\x7d' := ne_of_isNameChar hx (by decide)
    cases fs with
    | nil =>
      cases ellipsis with
      | false => exact ⟨x, t, ht, startsBlank_of_isNameChar hx, hne⟩
      | true => exact ⟨x, _, by rw [fieldsChars, ht]; rfl; simp, startsBlank_of_isNameChar hx, hne⟩
    | cons g fs =>
      exact ⟨x, _, by rw [fieldsChars, ht]; rfl; simp, startsBlank_of_isNameChar hx, hne⟩

namespace Parser

variable {tr : Bool} {c : Cursor} {o n : Nat} {rest : List Char} {r : Rules}

/-! ## Fields and patterns -/

/-- A default is read back, or there is none. -/
theorem yields_fieldDefault (hr : r.ReadBelow tr n) (default : Option Expr)
    (hdefault : ∀ e ∈ default, e.isCanonical = true)
    (hn : ∀ e ∈ default, (e.chars .normal).length < n) (hrest : Closes rest) (o : Nat) :
    Yields (fieldDefault r) (Settings.standard tr)
      ⟨o, (default.elim [] fun e => ' ' :: '?' :: ' ' :: e.chars .normal) ++ rest⟩ default
      (Cursor.skip ⟨o + (default.elim [] fun e => ' ' :: '?' :: ' ' :: e.chars .normal).length,
        rest⟩) := by
  cases default with
  | none =>
    refine Yields.bind (peekDelimiter_of_nextSolid_ne '?' o rfl ?_) (Yields.pure _ _)
    intro hx
    exact absurd (hrest '?' hx) (by decide)
  | some e =>
    have hmark : Cursor.skip ⟨o, ' ' :: '?' :: ' ' :: (e.chars .normal ++ rest)⟩ =
        ⟨o + 1, '?' :: ' ' :: (e.chars .normal ++ rest)⟩ := by
      rw [Cursor.skip_space]
      exact Cursor.skip_cons (by decide)
    have hvalue : Cursor.skip ⟨o + 1 + 1, ' ' :: (e.chars .normal ++ rest)⟩ =
        ⟨o + 3, e.chars .normal ++ rest⟩ := by
      rw [Cursor.skip_space]
      exact ((e.startsOperand_chars .normal).append _).skip _
    have hread := hr.expression e (hdefault e rfl) (hn e rfl) rest hrest _ _ hvalue
    have hend : o + (' ' :: '?' :: ' ' :: e.chars .normal).length =
        o + 3 + (e.chars .normal).length := by simp; omega
    show Yields (fieldDefault r) (Settings.standard tr)
      ⟨o, ' ' :: '?' :: ' ' :: (e.chars .normal ++ rest)⟩ (some e)
      (Cursor.skip ⟨o + (' ' :: '?' :: ' ' :: e.chars .normal).length, rest⟩)
    rw [hend]
    refine Yields.bind (peekDelimiter_lone hmark rfl (by decide)) ?_
    refine Yields.bind (yields_advance 1 _) ?_
    exact Yields.bind hread (Yields.pure _ _)

theorem Field.chars_eq (f : Field Expr) :
    f.chars = f.name.text.toList ++
      f.default.elim [] fun e => ' ' :: '?' :: ' ' :: e.chars .normal := by
  obtain ⟨x, default⟩ := f
  cases default <;> simp [Field.chars]

/-- What a round of the fields does with a field: it stops at the mark behind it. -/
theorem yields_field (hr : r.ReadBelow tr n) (f : Field Expr)
    (hf : ∀ e ∈ f.default, e.isCanonical = true) (hn : f.chars.length ≤ n) (hrest : Closes rest)
    (hc : c.skip = ⟨o, f.chars ++ rest⟩) {β : Type} {k : Name → Option Expr → Parser β} {b : β}
    {c' : Cursor}
    (hk : Yields (k f.name f.default) (Settings.standard tr)
      (Cursor.skip ⟨o + f.chars.length, rest⟩) b c') :
    Yields (do
        let name ← identifier
        let default ← fieldDefault r
        k name default) (Settings.standard tr) c b c' := by
  rw [Field.chars_eq] at hc hn hk
  rw [List.append_assoc] at hc
  have hends : NameEnds
      ((f.default.elim [] fun e => ' ' :: '?' :: ' ' :: e.chars .normal) ++ rest) := by
    cases f.default with
    | none => exact (Follows.of_closes hrest).nameEnds
    | some e => exact nameEnds_cons (by decide) _
  have hlt : ∀ e ∈ f.default, (e.chars .normal).length < n := by
    intro e he
    rw [Option.mem_def] at he
    rw [he] at hn
    simp at hn
    omega
  refine Yields.bind (yields_identifier hc hends) ?_
  refine Yields.bind (yields_fieldDefault hr f.default hf hlt hrest _) ?_
  rwa [List.length_append, ← Nat.add_assoc] at hk

/-- The fields of a pattern are read back up to the brace. -/
theorem loops_fieldsChars (hr : r.ReadBelow tr n) (fs taken : List (Field Expr))
    (ellipsis : Bool) (hne : fs ≠ [] ∨ ellipsis = true) (hfs : canonicalFields fs = true)
    (hn : (fieldsChars fs ellipsis).length ≤ n) {c : Cursor} {o : Nat}
    (hc : c.skip = ⟨o, fieldsChars fs ellipsis ++ ' ' :: '\x7d' :: rest⟩) :
    ∃ c', Loops (fieldRound r) (Settings.standard tr) taken c (taken.reverse ++ fs, ellipsis) c' ∧
      c'.skip = ⟨o + (fieldsChars fs ellipsis).length + 1, '\x7d' :: rest⟩ := by
  have hbrace : ∀ o : Nat, Cursor.skip ⟨o, ' ' :: '\x7d' :: rest⟩ = ⟨o + 1, '\x7d' :: rest⟩ := by
    intro o
    rw [Cursor.skip_space]
    exact Cursor.skip_cons (by decide)
  induction fs generalizing taken c o with
  | nil =>
    obtain rfl : ellipsis = true := by simpa using hne
    rw [List.append_nil]
    refine ⟨⟨o + 3, ' ' :: '\x7d' :: rest⟩, Loops.done ?_, hbrace _⟩
    refine Yields.bind (peekDelimiter_of_delimiterAt? hc (Lexicon.delimiterAt?_ellipsis _)) ?_
    exact Yields.bind (yields_advance 3 _) (Yields.pure _ _)
  | cons f fs ih =>
    obtain ⟨hf, hfs⟩ := (canonicalFields_cons f fs).mp hfs
    have hdots : ∀ t, (f.chars ++ t).head? ≠ some '.' := by
      intro t
      obtain ⟨x, u, hu, hx⟩ := f.exists_cons
      rw [hu]
      simpa using ne_of_isNameChar hx (by decide)
    by_cases hlast : fs = [] ∧ ellipsis = false
    · obtain ⟨rfl, rfl⟩ := hlast
      have hc' : c.skip = ⟨o, f.chars ++ ' ' :: '\x7d' :: rest⟩ := hc
      have hskip := Cursor.skip_of_skip_eq hc'
      have hcloses : Closes (' ' :: '\x7d' :: rest) := by
        intro x hx
        rw [nextSolid_space] at hx
        exact closes_cons (by decide) rest x hx
      refine ⟨_, Loops.done ?_, by rw [Cursor.skip_skip]; exact hbrace _⟩
      refine Yields.bind (peekDelimiter_of_head?_ne '.' hc' rfl (hdots _)) ?_
      refine yields_field hr f hf hn hcloses hskip ?_
      have hcomma : Yields (peekDelimiter ",") (Settings.standard tr)
          (Cursor.skip ⟨o + f.chars.length, ' ' :: '\x7d' :: rest⟩) false
          (Cursor.skip ⟨o + f.chars.length, ' ' :: '\x7d' :: rest⟩) := by
        rw [hbrace]
        exact peekDelimiter_of_head?_ne ',' (Cursor.skip_cons (by decide)) rfl (by simp)
      refine Yields.bind hcomma ?_
      rw [← List.reverse_cons]
      exact Yields.pure _ _
    · have hmore : fs ≠ [] ∨ ellipsis = true := by
        rcases fs with _ | ⟨g, fs⟩ <;> cases ellipsis <;> simp_all
      have hchars : fieldsChars (f :: fs) ellipsis =
          f.chars ++ ',' :: ' ' :: fieldsChars fs ellipsis := by
        rcases fs with _ | ⟨g, fs⟩ <;> cases ellipsis <;> simp_all [fieldsChars]
      rw [hchars] at hc hn ⊢
      simp only [List.append_assoc, List.cons_append] at hc
      have hskip := Cursor.skip_of_skip_eq hc
      obtain ⟨x, t, ht, hblank, -⟩ := exists_cons_fieldsChars hmore
      have hnext : Cursor.skip ⟨o + f.chars.length + 1,
          ' ' :: (fieldsChars fs ellipsis ++ ' ' :: '\x7d' :: rest)⟩ =
          ⟨o + f.chars.length + 1 + 1, fieldsChars fs ellipsis ++ ' ' :: '\x7d' :: rest⟩ := by
        rw [Cursor.skip_space, ht]
        exact Cursor.skip_cons hblank
      have hround : Yields (fieldRound r taken) (Settings.standard tr) c (.again (f :: taken))
          ⟨o + f.chars.length + 1, ' ' :: (fieldsChars fs ellipsis ++ ' ' :: '\x7d' :: rest)⟩ := by
        refine Yields.bind (peekDelimiter_of_head?_ne '.' hc rfl (hdots _)) ?_
        refine yields_field hr f hf (by simp at hn; omega) (closes_cons (by decide) _) hskip ?_
        rw [Cursor.skip_cons (by decide)]
        refine Yields.bind (peekDelimiter_lone (Cursor.skip_cons (by decide)) rfl (by decide)) ?_
        exact Yields.bind (yields_advance 1 _) (Yields.pure _ _)
      obtain ⟨c', hloop, hc'⟩ := ih (f :: taken) hmore hfs (by simp at hn; omega) hnext
      have hshorter := Cursor.length_rest_skip_le c
      rw [hc] at hshorter
      refine ⟨c', ?_, ?_⟩
      · have hstate : (f :: taken).reverse ++ fs = taken.reverse ++ f :: fs := by simp
        rw [hstate] at hloop
        exact Loops.again hround (by simp at hshorter ⊢; omega) hloop
      · rw [hc']
        simp only [List.length_append, List.length_cons, Cursor.mk.injEq, and_true]
        omega

theorem ofFields_of_distinct {p : Pattern Expr} (h : p.Distinct) :
    Pattern.ofFields p.fields p.ellipsis = .ok p := by
  have hnone : firstRepeat? [] (p.fields.map fun field => field.name.text) = none :=
    (firstRepeat?_eq_none_iff [] _).mpr ⟨h, by simp⟩
  unfold Pattern.ofFields
  rw [hnone]

/-- A pattern is read back. -/
theorem reads_pattern (hr : r.ReadBelow tr n) (p : Pattern Expr) (hdistinct : p.Distinct)
    (hfields : canonicalFields p.fields = true)
    (hn : (patternText (renderFields p.fields) p.ellipsis).toList.length ≤ n) :
    Reads (pattern r) tr (patternText (renderFields p.fields) p.ellipsis).toList rest p := by
  intro c o hc
  -- Whatever the fields are, the brace behind them and the check of the names remain.
  have hclose : ∀ {m : Nat} {q : Parser (Pattern Expr)}, q = pure p →
      Yields (delimiter "\x7d" >>= fun _ => q) (Settings.standard tr) ⟨m, '\x7d' :: rest⟩ p
        ⟨m + 1, rest⟩ := by
    rintro m q rfl
    exact Yields.bind (yields_delimiter (Cursor.skip_cons (by decide)) rfl (by decide))
      (Yields.pure _ _)
  refine Yields.bind (yields_cursor c) ?_
  by_cases hsome : p.fields ≠ [] ∨ p.ellipsis = true
  · rw [toList_patternText hsome] at hc hn ⊢
    simp only [List.cons_append, List.append_assoc, List.nil_append] at hc
    refine Yields.bind (yields_delimiter hc rfl (by decide)) ?_
    obtain ⟨x, t, ht, hblank, hne⟩ := exists_cons_fieldsChars hsome
    have hinner : Cursor.skip ⟨o + 1, ' ' :: (fieldsChars p.fields p.ellipsis ++
        ' ' :: '\x7d' :: rest)⟩ =
        ⟨o + 1 + 1, fieldsChars p.fields p.ellipsis ++ ' ' :: '\x7d' :: rest⟩ := by
      rw [Cursor.skip_space, ht]
      exact Cursor.skip_cons hblank
    obtain ⟨c', hloop, hc'⟩ := loops_fieldsChars hr p.fields [] p.ellipsis hsome
      hfields (by simp at hn; omega) (Cursor.skip_of_skip_eq hinner)
    have hnot : (fieldsChars p.fields p.ellipsis ++ ' ' :: '\x7d' :: rest).head? ≠ some '\x7d' := by
      rw [ht]
      simpa using hne
    have hlist : Yields (fieldList r) (Settings.standard tr) _ (p.fields, p.ellipsis) c' :=
      Yields.bind (peekDelimiter_of_head?_ne '\x7d' hinner rfl hnot) hloop.yields
    refine Yields.bind hlist ?_
    refine Yields.bind (yields_delimiter hc' rfl (by decide)) ?_
    have hend : o + ('\x7b' :: ' ' :: (fieldsChars p.fields p.ellipsis ++ [' ', '\x7d'])).length =
        o + 1 + 1 + (fieldsChars p.fields p.ellipsis).length + 1 + 1 := by simp; omega
    rw [hend, ofFields_of_distinct hdistinct]
    exact Yields.pure _ _
  · obtain ⟨fields, ellipsis⟩ := p
    obtain ⟨rfl, rfl⟩ : fields = [] ∧ ellipsis = false := by simpa using hsome
    have hc' : c.skip = ⟨o, '\x7b' :: ' ' :: '\x7d' :: rest⟩ := hc
    have hinner : Cursor.skip ⟨o + 1, ' ' :: '\x7d' :: rest⟩ = ⟨o + 2, '\x7d' :: rest⟩ := by
      rw [Cursor.skip_space]
      exact Cursor.skip_cons (by decide)
    refine Yields.bind (yields_delimiter hc' rfl (by decide)) ?_
    have hlist : Yields (fieldList r) (Settings.standard tr) ⟨o + 1, ' ' :: '\x7d' :: rest⟩
        ([], false) ⟨o + 2, '\x7d' :: rest⟩ :=
      Yields.bind (peekDelimiter_lone hinner rfl (by decide)) (Yields.pure _ _)
    refine Yields.bind hlist (hclose ?_)
    rw [ofFields_of_distinct hdistinct]

/-! ## Parameters and functions -/

/-- A parameter is read back up to the colon. -/
theorem yields_param (hr : r.ReadBelow tr n) (p : Param Expr) (hp : p.isCanonical = true)
    (hn : p.render.toList.length ≤ n) (hc : c.skip = ⟨o, p.render.toList ++ ':' :: rest⟩) :
    Yields (param r) (Settings.standard tr) c p ⟨o + p.render.toList.length, ':' :: rest⟩ := by
  have hbrace : ∀ (x : Name) (t : List Char), (x.text.toList ++ t).head? ≠ some '\x7b' := by
    intro x t
    obtain ⟨y, u, hu, hy⟩ := x.exists_cons
    rw [hu]
    simpa using ne_of_isNameChar hy (by decide)
  have hskip := Cursor.skip_of_skip_eq hc
  cases p with
  | name x =>
    simp only [Param.render] at hc hskip ⊢
    refine Yields.bind (peekDelimiter_of_head?_ne '\x7b' hc rfl (hbrace x _)) ?_
    refine Yields.bind (yields_identifier hskip (nameEnds_cons (by decide) _)) ?_
    refine Yields.bind (peekDelimiter_of_head?_ne '@' (Cursor.skip_cons (by decide)) rfl
      (by simp)) ?_
    exact Yields.pure _ _
  | pattern p =>
    have hp' : p.Distinct ∧ canonicalFields p.fields = true := by
      simpa [Param.isCanonical] using hp
    simp only [Param.render] at hc hn hskip ⊢
    obtain ⟨t, ht⟩ := exists_cons_patternText (renderFields p.fields) p.ellipsis
    have hread := reads_pattern hr p hp'.1 hp'.2 hn _ _ hskip
    rw [ht] at hc hread ⊢
    refine Yields.bind (peekDelimiter_lone hc rfl (by decide)) ?_
    exact Yields.bind hread (Yields.pure _ _)
  | both x p =>
    have hp' : p.Distinct ∧ canonicalFields p.fields = true := by
      simpa [Param.isCanonical] using hp
    have hchars : (Param.both x p).render.toList =
        x.text.toList ++ '@' :: (patternText (renderFields p.fields) p.ellipsis).toList := by
      simp [Param.render]
    rw [hchars] at hc hn hskip ⊢
    simp only [List.append_assoc, List.cons_append] at hc hskip
    refine Yields.bind (peekDelimiter_of_head?_ne '\x7b' hc rfl (hbrace x _)) ?_
    refine Yields.bind (yields_identifier hskip (nameEnds_cons (by decide) _)) ?_
    refine Yields.bind (peekDelimiter_lone (Cursor.skip_cons (by decide)) rfl (by decide)) ?_
    refine Yields.bind (yields_advance 1 _) ?_
    have hstart : Cursor.skip ⟨o + x.text.toList.length + 1,
        (patternText (renderFields p.fields) p.ellipsis).toList ++ ':' :: rest⟩ = _ :=
      ((startsOperand_patternText _ _).append _).skip _
    have hend : o + (x.text.toList ++
        '@' :: (patternText (renderFields p.fields) p.ellipsis).toList).length =
        o + x.text.toList.length + 1 +
          (patternText (renderFields p.fields) p.ellipsis).toList.length := by simp; omega
    rw [hend]
    exact Yields.bind (reads_pattern hr p hp'.1 hp'.2 (by simp at hn; omega) _ _ hstart)
      (Yields.pure _ _)

theorem chars_lambda (p : Param Expr) (body : Expr) :
    (Expr.lambda p body).chars .normal =
      p.render.toList ++ ':' :: ' ' :: body.chars .normal := by
  simp [Expr.chars, Expr.renderBare_lambda]

/-- A function is read back. -/
theorem reads_lambda (hr : r.ReadBelow tr n) (p : Param Expr) (body : Expr)
    (he : (Expr.lambda p body).isCanonical = true)
    (hn : ((Expr.lambda p body).chars .normal).length ≤ n) (hrest : Closes rest) :
    ReadsOver (lambda r) tr ((Expr.lambda p body).chars .normal) rest (.lambda p body) := by
  intro c o hc
  have hparts : p.isCanonical = true ∧ body.isCanonical = true := by
    simpa [Expr.isCanonical_lambda] using he
  rw [chars_lambda] at hc hn ⊢
  simp only [List.append_assoc, List.cons_append] at hc
  refine Yields.bind (yields_param hr p hparts.1 (by simp at hn; omega) hc) ?_
  refine Yields.bind (yields_delimiter (Cursor.skip_cons (by decide)) rfl (by decide)) ?_
  have hbody : Cursor.skip ⟨o + p.render.toList.length + 1, ' ' :: (body.chars .normal ++ rest)⟩ =
      ⟨o + p.render.toList.length + 2, body.chars .normal ++ rest⟩ := by
    rw [Cursor.skip_space]
    exact ((body.startsOperand_chars .normal).append _).skip _
  have hend : o + (p.render.toList ++ ':' :: ' ' :: body.chars .normal).length =
      o + p.render.toList.length + 2 + (body.chars .normal).length := by simp; omega
  rw [hend]
  exact Yields.bind (hr.expression body hparts.2 (by simp at hn; omega) rest hrest _ _ hbody)
    (Yields.pure _ _)

end Parser

end LazyConfig
