import LazyConfig.Proofs.Parsing.Quoted
set_option autoImplicit false

/-!
# Parsing: rendered keys, names and bindings

Everything between the braces of a dict and between the keywords of a `let`, and the
items of a list, read back provided that the expressions inside do.  The bound `n` is
on the lengths of texts: what is inside a construct is strictly shorter than its text,
so a rule that reads all texts below the bound reads constructs up to it.
-/

namespace LazyConfig

/-! ## Texts of keys -/

/-- The three forms of a key: a name, a string, or an antiquote. -/
inductive KeyText : List Char → Prop where
  | name (x : Name) : KeyText x.text.toList
  | quoted (t : List Char) : KeyText ('"' :: t)
  | hole (t : List Char) : KeyText ('$' :: '\x7b' :: t)

/-- A text is rendered bare if it is the text of a name and in quotes otherwise. -/
theorem renderName_cases (text : String) :
    (∃ x : Name, x.text = text ∧ renderName text = text) ∨ renderName text = renderQuoted text := by
  unfold renderName
  cases h : isBareName text with
  | true => exact Or.inl ⟨⟨text, by simpa [isBareName] using h⟩, rfl, rfl⟩
  | false => exact Or.inr rfl

theorem keyText_renderName (text : String) : KeyText (renderName text).toList := by
  obtain ⟨x, rfl, hx⟩ | hq := renderName_cases text
  · rw [hx]
    exact KeyText.name x
  · have hchars : (renderQuoted text).toList = '"' :: ((escape text).toList ++ ['"']) := by
      simp [renderQuoted]
    rw [hq, hchars]
    exact KeyText.quoted _

theorem Expr.keyText_renderKey (e : Expr) : KeyText e.renderKey.toList := by
  have hhole : ∀ text : String, KeyText ("$\x7b" ++ text ++ "\x7d").toList := by
    intro text
    have h : ("$\x7b" ++ text ++ "\x7d").toList = '$' :: '\x7b' :: (text.toList ++ ['\x7d']) := by
      simp
    rw [h]
    exact KeyText.hole _
  cases e with
  | str t =>
    rw [Expr.renderKey_str]
    unfold renderTemplateKey
    split
    · exact keyText_renderName _
    · have h : (renderTemplate t).toList = '"' :: ((renderPieces t).toList ++ ['"']) := by
        simp [renderTemplate]
      rw [h]
      exact KeyText.quoted _
  | _ => exact hhole _

/-- The text starts as a key does. -/
def StartsKey (w : List Char) : Prop :=
  ∃ x, w.head? = some x ∧ (isNameChar x = true ∨ x = '"' ∨ x = '$')

theorem KeyText.startsKey {w : List Char} (h : KeyText w) : StartsKey w := by
  cases h with
  | name x =>
    obtain ⟨y, t, ht, hy⟩ := x.exists_cons
    exact ⟨y, by rw [ht]; rfl, Or.inl hy⟩
  | quoted t => exact ⟨'"', rfl, Or.inr (Or.inl rfl)⟩
  | hole t => exact ⟨'$', rfl, Or.inr (Or.inr rfl)⟩

namespace StartsKey

variable {w : List Char}

theorem append (h : StartsKey w) (t : List Char) : StartsKey (w ++ t) := by
  obtain ⟨x, hx, hcases⟩ := h
  cases w with
  | nil => simp at hx
  | cons y w => exact ⟨x, by simpa using hx, hcases⟩

theorem head?_ne (h : StartsKey w) {y : Char} (hy : isNameChar y = false) (hquote : y ≠ '"')
    (hdollar : y ≠ '$') : w.head? ≠ some y := by
  obtain ⟨x, hx, hcases⟩ := h
  rw [hx]
  intro heq
  obtain rfl : x = y := by simpa using heq
  rcases hcases with h | rfl | rfl
  · simp [hy] at h
  · exact hquote rfl
  · exact hdollar rfl

theorem exists_cons (h : StartsKey w) : ∃ x t, w = x :: t ∧ startsBlank x = false := by
  obtain ⟨x, hx, hcases⟩ := h
  cases w with
  | nil => simp at hx
  | cons y w =>
    obtain rfl : y = x := by simpa using hx
    refine ⟨y, w, rfl, ?_⟩
    rcases hcases with h | rfl | rfl
    · exact startsBlank_of_isNameChar h
    · decide
    · decide

theorem nextSolid_ne (h : StartsKey w) {y : Char} (hy : isNameChar y = false) (hquote : y ≠ '"')
    (hdollar : y ≠ '$') : nextSolid w ≠ some y := by
  have hne := h.head?_ne hy hquote hdollar
  obtain ⟨x, t, rfl, hx⟩ := h.exists_cons
  rwa [nextSolid_cons hx]

theorem skip (h : StartsKey w) (o : Nat) : Cursor.skip ⟨o, w⟩ = ⟨o, w⟩ := by
  obtain ⟨x, t, rfl, hx⟩ := h.exists_cons
  exact Cursor.skip_cons hx

theorem length_pos (h : StartsKey w) : 0 < w.length := by
  obtain ⟨x, t, rfl, -⟩ := h.exists_cons
  simp

end StartsKey

namespace Parser

variable {tr : Bool} {c : Cursor} {o n : Nat} {rest : List Char} {r : Rules}

/-- Where a key stands, no keyword does. -/
theorem peekKeyword_keyText {w : List Char} {k : String} (hw : KeyText w)
    (hc : c.skip = ⟨o, w ++ rest⟩) (hr : NameEnds rest) (hk : k ∈ keywords) :
    Yields (peekKeyword k) (Settings.standard tr) c false ⟨o, w ++ rest⟩ := by
  have hne : k ≠ "" := by rintro rfl; revert hk; decide
  cases hw with
  | name x => exact peekKeyword_name hc hr hk
  | quoted t => exact peekKeyword_of_nameEnds hc (nameEnds_cons (by decide) _) hne
  | hole t => exact peekKeyword_of_nameEnds hc (nameEnds_cons (by decide) _) hne

/-! ## Rules that read below a bound -/

/-- An operand may end in front of the text: neither a key nor the rest of a parameter
follows. -/
structure Follows (rest : List Char) : Prop where
  /-- A name ends here. -/
  nameEnds : NameEnds rest
  /-- Neither a dot, nor a colon, nor an at sign follows. -/
  next : ∀ x ∈ nextSolid rest, x ≠ '.' ∧ x ≠ ':' ∧ x ≠ '@'

theorem Follows.of_closes (h : Closes rest) : Follows rest where
  nameEnds := nameEnds_of_nextSolid fun x hx => isNameChar_of_mem_closers (h x hx)
  next := by
    intro x hx
    have hmem := h x hx
    simp only [closers, List.mem_cons, List.not_mem_nil, or_false] at hmem
    rcases hmem with rfl | rfl | rfl | rfl <;> decide

theorem Follows.of_space_operand {w : List Char} (h : StartsOperand w) (t : List Char) :
    Follows (' ' :: (w ++ t)) where
  nameEnds := nameEnds_cons (by decide) _
  next := by
    intro x hx
    obtain ⟨y, hy, hstart⟩ := (h.append t).nextSolid
    rw [nextSolid_space, hy, Option.mem_some_iff] at hx
    subst hx
    exact ⟨ne_of_startsOperand hstart (by decide), ne_of_startsOperand hstart (by decide),
      ne_of_startsOperand hstart (by decide)⟩

/-- The rules read every canonical expression with a text below a bound. -/
structure Rules.ReadBelow (r : Rules) (tr : Bool) (n : Nat) : Prop where
  /-- An expression reads back as itself. -/
  expression : ReadsBelow r.expression tr n
  /-- So does an item of a list. -/
  item : ∀ e : Expr, e.isCanonical = true → (e.chars .listItem).length < n →
    ∀ rest, Follows rest → ReadsOver r.dotted tr (e.chars .listItem) rest e

/-- An expression with the mark behind it. -/
theorem ReadsBelow.yields_closed {p : Parser Expr} (hp : ReadsBelow p tr n) {e : Expr}
    (he : e.isCanonical = true) (hn : (e.chars .normal).length < n) {x : Char} (hx : x ∈ closers)
    (hc : c.skip = ⟨o, e.chars .normal ++ x :: rest⟩) :
    Yields p (Settings.standard tr) c e ⟨o + (e.chars .normal).length, x :: rest⟩ := by
  have hread := hp e he hn (x :: rest) (closes_cons hx rest) c o hc
  have hblank : startsBlank x = false := by
    simp only [closers, List.mem_cons, List.not_mem_nil, or_false] at hx
    rcases hx with rfl | rfl | rfl | rfl <;> decide
  rwa [Cursor.skip_cons hblank] at hread

/-! ## Names and keys -/

/-- A text in quotes is the rendering of a canonical template. -/
theorem exists_template_of_renderQuoted (text : String) :
    ∃ t : Template Expr, Template.isClean t = true ∧ canonicalPieces t = true ∧
      renderTemplate t = renderQuoted text ∧ t.static? = some text := by
  by_cases h : text = ""
  · subst h
    exact ⟨[], rfl, rfl, by simp [renderTemplate, renderQuoted, renderPieces, escape, escapeChars],
      rfl⟩
  · refine ⟨[.literal text], by simp [Template.isClean, h], rfl, ?_, rfl⟩
    simp [renderTemplate, renderQuoted, renderPieces]

theorem peekString_name {x : Name} (hc : c.skip = ⟨o, x.text.toList ++ rest⟩) :
    Yields peekString (Settings.standard tr) c false ⟨o, x.text.toList ++ rest⟩ := by
  obtain ⟨y, t, ht, hy⟩ := x.exists_cons
  rw [ht] at hc ⊢
  exact peekString_of_cons hc (ne_of_isNameChar hy (by decide)) (ne_of_isNameChar hy (by decide))

theorem peekString_renderTemplate {t : Template Expr}
    (hc : c.skip = ⟨o, (renderTemplate t).toList ++ rest⟩) :
    Yields peekString (Settings.standard tr) c true ⟨o, (renderTemplate t).toList ++ rest⟩ := by
  have hchars : (renderTemplate t).toList = '"' :: ((renderPieces t).toList ++ ['"']) := by
    simp [renderTemplate]
  rw [hchars] at hc ⊢
  exact peekString_quoted hc

/-- A name of a binding is read back, bare or quoted. -/
theorem reads_staticName (hr : r.ReadBelow tr n) (text : String)
    (hn : (renderName text).toList.length ≤ n) (hrest : NameEnds rest) :
    Reads (staticName r) tr (renderName text).toList rest text := by
  intro c o hc
  have hskip := Cursor.skip_of_skip_eq hc
  obtain ⟨x, rfl, hx⟩ | hq := renderName_cases text
  · rw [hx] at hc hskip ⊢
    refine Yields.bind (peekString_name hc) ?_
    exact Yields.bind (yields_identifier hskip hrest) (Yields.pure _ _)
  · obtain ⟨t, hclean, hcanonical, hrender, hstatic⟩ := exists_template_of_renderQuoted text
    rw [hq, ← hrender] at hc hn hskip ⊢
    refine Yields.bind (peekString_renderTemplate hc) ?_
    refine Yields.bind (yields_cursor _) ?_
    refine Yields.bind (reads_string hr.expression t hclean hcanonical hn rest _ o hskip) ?_
    rw [hstatic]
    exact Yields.pure _ _

theorem yields_peekHole {t : List Char} (hc : c.skip = ⟨o, '$' :: '\x7b' :: t⟩) :
    Yields (peekDelimiter "$\x7b") (Settings.standard tr) c true ⟨o, '$' :: '\x7b' :: t⟩ :=
  peekDelimiter_of_delimiterAt? hc (Lexicon.delimiterAt?_hole t)

/-- A string as a key is read back. -/
theorem reads_key_template (hr : r.ReadBelow tr n) (t : Template Expr)
    (hclean : Template.isClean t = true) (hcanonical : canonicalPieces t = true)
    (hn : (renderTemplate t).toList.length ≤ n) :
    Reads (key r) tr (renderTemplate t).toList rest (.str t) := by
  intro c o hc
  have hskip := Cursor.skip_of_skip_eq hc
  refine Yields.bind (peekString_renderTemplate hc) ?_
  exact Yields.bind (reads_string hr.expression t hclean hcanonical hn rest _ o hskip)
    (Yields.pure _ _)

/-- A text as a key is read back, bare or quoted. -/
theorem reads_key_renderName (hr : r.ReadBelow tr n) (t : Template Expr)
    (hclean : Template.isClean t = true) {text : String} (hstatic : t.static? = some text)
    (hn : (renderName text).toList.length ≤ n) (hrest : NameEnds rest) :
    Reads (key r) tr (renderName text).toList rest (.str t) := by
  intro c o hc
  have hskip := Cursor.skip_of_skip_eq hc
  -- The empty text is no name, so a bare name is the text of a single literal.
  have ht : t = [] ∧ text = "" ∨ t = [.literal text] := by
    unfold Template.static? at hstatic
    split at hstatic
    · exact Or.inl ⟨rfl, by simpa using hstatic.symm⟩
    · obtain rfl := Option.some.inj hstatic
      exact Or.inr rfl
    · simp at hstatic
  obtain ⟨x, rfl, hx⟩ | hq := renderName_cases text
  · rw [hx] at hc hskip ⊢
    have hne : x.text ≠ "" := ((NameFault.of?_eq_none_iff x.text).mp x.bare).1
    obtain ⟨-, hempty⟩ | rfl := ht
    · exact absurd hempty hne
    refine Yields.bind (peekString_name hc) ?_
    have hnot : (x.text.toList ++ rest).head? ≠ some '$' := by
      obtain ⟨y, u, hu, hy⟩ := x.exists_cons
      rw [hu]
      simpa using ne_of_isNameChar hy (by decide)
    refine Yields.bind (peekDelimiter_of_head?_ne '$' hskip rfl hnot) ?_
    exact Yields.bind (yields_identifier hskip hrest) (Yields.pure _ _)
  · have hrender : renderTemplate t = renderQuoted text := by
      obtain ⟨rfl, rfl⟩ | rfl := ht <;>
        simp [renderTemplate, renderQuoted, renderPieces, escape, escapeChars]
    have hcanonical : canonicalPieces t = true := by
      obtain ⟨rfl, rfl⟩ | rfl := ht <;> rfl
    rw [hq, ← hrender] at hc hn ⊢
    exact reads_key_template hr t hclean hcanonical hn c o hc

/-- An antiquote as a key is read back. -/
theorem reads_key_hole (hr : r.ReadBelow tr n) (e : Expr) (he : e.isCanonical = true)
    (hn : (e.chars .normal).length < n) :
    Reads (key r) tr ('$' :: '\x7b' :: (e.chars .normal ++ ['\x7d'])) rest e := by
  intro c o hc
  have hcons : '$' :: '\x7b' :: (e.chars .normal ++ ['\x7d']) ++ rest =
      '$' :: '\x7b' :: (e.chars .normal ++ '\x7d' :: rest) := by simp
  rw [hcons] at hc
  have hskip := Cursor.skip_of_skip_eq hc
  refine Yields.bind (peekString_of_cons hc (by decide) (by decide)) ?_
  refine Yields.bind (yields_peekHole hskip) ?_
  refine Yields.bind (yields_advance 2 _) ?_
  have hinner : Cursor.skip ⟨o + 2, e.chars .normal ++ '\x7d' :: rest⟩ =
      ⟨o + 2, e.chars .normal ++ '\x7d' :: rest⟩ :=
    ((e.startsOperand_chars .normal).append _).skip _
  refine Yields.bind (hr.expression.yields_closed he hn (by decide) hinner) ?_
  have hend : o + ('$' :: '\x7b' :: (e.chars .normal ++ ['\x7d'])).length =
      o + 2 + (e.chars .normal).length + 1 := by simp; omega
  rw [hend]
  exact Yields.bind (yields_delimiter (Cursor.skip_cons (by decide)) rfl (by decide))
    (Yields.pure _ _)

/-- Every canonical expression is read back as a key. -/
theorem reads_key (hr : r.ReadBelow tr n) (e : Expr) (he : e.isCanonical = true)
    (hn : e.renderKey.toList.length ≤ n) (hrest : NameEnds rest) :
    Reads (key r) tr e.renderKey.toList rest e := by
  have hhole : e.renderKey = "$\x7b" ++ e.renderBare ++ "\x7d" →
      Reads (key r) tr e.renderKey.toList rest e := by
    intro h
    have hchars : e.renderKey.toList = '$' :: '\x7b' :: (e.chars .normal ++ ['\x7d']) := by
      simp [h, Expr.chars]
    rw [hchars] at hn ⊢
    exact reads_key_hole hr e he (by simp at hn; omega)
  cases e with
  | str t =>
    have ht : Template.isClean t = true ∧ canonicalPieces t = true := by
      simpa [Expr.isCanonical] using he
    rw [Expr.renderKey_str] at hn ⊢
    unfold renderTemplateKey at hn ⊢
    cases hstatic : Template.static? t with
    | some text =>
      simp only [hstatic] at hn ⊢
      exact reads_key_renderName hr t ht.1 hstatic hn hrest
    | none =>
      simp only [hstatic] at hn ⊢
      exact reads_key_template hr t ht.1 ht.2 hn
  | _ => exact hhole rfl

/-! ## Names taken over -/

theorem toList_renderNames_cons (name : String) (names : List String) :
    (renderNames (name :: names)).toList =
      ' ' :: ((renderName name).toList ++ (renderNames names).toList) := by
  simp [renderNames, String.join_cons]

theorem nameEnds_renderNames (names : List String) (rest : List Char) :
    NameEnds ((renderNames names).toList ++ ';' :: rest) := by
  cases names with
  | nil => exact nameEnds_cons (by decide) _
  | cons name names =>
    rw [toList_renderNames_cons]
    exact nameEnds_cons (by decide) _

/-- The names of an `inherit` are read back up to the semicolon. -/
theorem loops_renderNames (hr : r.ReadBelow tr n) (names taken : List String)
    (hn : (renderNames names).toList.length ≤ n) {c : Cursor} {o : Nat}
    (hc : c.skip = Cursor.skip ⟨o, (renderNames names).toList ++ ';' :: rest⟩) :
    Loops (inheritRound r) (Settings.standard tr) taken c (taken.reverse ++ names)
      ⟨o + (renderNames names).toList.length, ';' :: rest⟩ := by
  induction names generalizing taken c o with
  | nil =>
    have hc' : c.skip = ⟨o, ';' :: rest⟩ := hc.trans (Cursor.skip_cons (by decide))
    rw [List.append_nil]
    exact Loops.done (Yields.bind (peekDelimiter_lone hc' rfl (by decide)) (Yields.pure _ _))
  | cons name names ih =>
    have hkey := (keyText_renderName name).startsKey
    rw [toList_renderNames_cons] at hc hn ⊢
    simp only [List.cons_append, List.append_assoc, Cursor.skip_space] at hc
    rw [(hkey.append _).skip] at hc
    have hskip := Cursor.skip_of_skip_eq hc
    have hread := reads_staticName hr name (by simp at hn; omega)
      (nameEnds_renderNames names rest) _ _ hskip
    have hround : Yields (inheritRound r taken) (Settings.standard tr) c
        (.again (name :: taken)) _ :=
      Yields.bind (peekDelimiter_of_head?_ne ';' hc rfl
          ((hkey.append _).head?_ne (by decide) (by decide) (by decide)))
        (Yields.bind hread (Yields.pure _ _))
    have hshorter := Cursor.length_rest_skip_le c
    rw [hc] at hshorter
    have hpos := hkey.length_pos
    have hlater := ih (name :: taken) (by simp at hn; omega)
      (c := ⟨o + 1 + (renderName name).toList.length,
        (renderNames names).toList ++ ';' :: rest⟩) rfl
    have hstate : (name :: taken).reverse ++ names = taken.reverse ++ name :: names := by simp
    have hend : o + (' ' :: ((renderName name).toList ++ (renderNames names).toList)).length =
        o + 1 + (renderName name).toList.length + (renderNames names).toList.length := by
      simp; omega
    rw [hstate] at hlater
    rw [hend]
    exact Loops.again hround (by simp at hshorter ⊢; omega) hlater

/-- An `inherit` is read back up to the semicolon. -/
theorem yields_inheritance (hr : r.ReadBelow tr n) (source : Option Expr) (names : List String)
    (hsource : ∀ e ∈ source, e.isCanonical = true)
    (hn : (renderInherit source names).toList.length ≤ n)
    (hc : c.skip = ⟨o, (renderInherit source names).toList ++ ';' :: rest⟩) :
    Yields (inheritance r) (Settings.standard tr) c (source, names)
      ⟨o + (renderInherit source names).toList.length, ';' :: rest⟩ := by
  cases source with
  | none =>
    have hchars : (renderInherit none names).toList =
        "inherit".toList ++ (renderNames names).toList := by
      simp [renderInherit, inheritText]
    rw [hchars] at hc hn ⊢
    rw [List.append_assoc] at hc
    refine Yields.bind (yields_keyword hc (nameEnds_renderNames names rest) (by decide)) ?_
    have hnone : Yields (inheritSource r) (Settings.standard tr)
        ⟨o + "inherit".toList.length, (renderNames names).toList ++ ';' :: rest⟩ none
        (Cursor.skip ⟨o + "inherit".toList.length, (renderNames names).toList ++ ';' :: rest⟩) := by
      refine Yields.bind (peekDelimiter_of_nextSolid_ne '(' _ rfl ?_) (Yields.pure _ _)
      cases names with
      | nil => simp [renderNames, String.join_nil, nextSolid_cons (x := ';') (by decide)]
      | cons name names =>
        rw [toList_renderNames_cons, List.cons_append, List.append_assoc, nextSolid_space]
        exact ((keyText_renderName name).startsKey.append _).nextSolid_ne (by decide) (by decide)
          (by decide)
    refine Yields.bind hnone ?_
    rw [List.length_append, ← Nat.add_assoc]
    refine Yields.bind (Loops.yields ?_) (Yields.pure _ _)
    exact loops_renderNames hr names [] (by simp at hn; omega) (Cursor.skip_skip _)
  | some e =>
    have hchars : (renderInherit (some e) names).toList =
        "inherit".toList ++
          ' ' :: '(' :: (e.chars .normal ++ ')' :: (renderNames names).toList) := by
      simp [renderInherit, inheritText, Expr.chars]
    rw [hchars] at hc hn ⊢
    simp only [List.append_assoc, List.cons_append] at hc
    refine Yields.bind (yields_keyword hc (nameEnds_cons (by decide) _) (by decide)) ?_
    have hopen : Cursor.skip ⟨o + "inherit".toList.length,
        ' ' :: '(' :: (e.chars .normal ++ ')' :: ((renderNames names).toList ++ ';' :: rest))⟩ =
        ⟨o + "inherit".toList.length + 1,
          '(' :: (e.chars .normal ++ ')' :: ((renderNames names).toList ++ ';' :: rest))⟩ := by
      rw [Cursor.skip_space]
      exact Cursor.skip_cons (by decide)
    have hinner := ((e.startsOperand_chars .normal).append
      (')' :: ((renderNames names).toList ++ ';' :: rest))).skip
        (o + "inherit".toList.length + 1 + 1)
    have hsome : Yields (inheritSource r) (Settings.standard tr) ⟨o + "inherit".toList.length,
          ' ' :: '(' :: (e.chars .normal ++ ')' :: ((renderNames names).toList ++ ';' :: rest))⟩
        (some e)
        ⟨o + "inherit".toList.length + 1 + 1 + (e.chars .normal).length + 1,
          (renderNames names).toList ++ ';' :: rest⟩ := by
      refine Yields.bind (peekDelimiter_lone hopen rfl (by decide)) ?_
      refine Yields.bind (yields_advance 1 _) ?_
      refine Yields.bind (hr.expression.yields_closed (hsource e rfl) (by simp at hn; omega)
        (by decide) hinner) ?_
      exact Yields.bind (yields_delimiter (Cursor.skip_cons (by decide)) rfl (by decide))
        (Yields.pure _ _)
    refine Yields.bind hsome ?_
    have hend : o + ("inherit".toList ++
        ' ' :: '(' :: (e.chars .normal ++ ')' :: (renderNames names).toList)).length =
        o + "inherit".toList.length + 1 + 1 + (e.chars .normal).length + 1 +
          (renderNames names).toList.length := by
      simp; omega
    rw [hend]
    refine Yields.bind (Loops.yields ?_) (Yields.pure _ _)
    exact loops_renderNames hr names [] (by simp at hn; omega) rfl

end Parser

/-! ## Texts of bindings -/

/-- The text of a binding of a dict, without the semicolon. -/
def Binding.entryText : Binding Expr Expr → String
  | .equation k v => k.renderKey ++ " = " ++ v.renderBare
  | .inherit source names => renderInherit source names

/-- The text of a binding of a `let`, without the semicolon. -/
def Binding.definitionText : Binding String Expr → String
  | .equation k v => renderName k ++ " = " ++ v.renderBare
  | .inherit source names => renderInherit source names

theorem renderEntries_cons (b : Binding Expr Expr) (bs : List (Binding Expr Expr)) :
    renderEntries (b :: bs) = b.entryText ++ "; " ++ renderEntries bs := by
  cases b with
  | equation k v => rfl
  | inherit source names => cases source <;> rfl

theorem renderDefinitions_cons (b : Binding String Expr) (bs : List (Binding String Expr)) :
    renderDefinitions (b :: bs) = b.definitionText ++ "; " ++ renderDefinitions bs := by
  cases b with
  | equation k v => rfl
  | inherit source names => cases source <;> rfl

theorem canonicalEntries_cons (b : Binding Expr Expr) (bs : List (Binding Expr Expr)) :
    canonicalEntries (b :: bs) = (canonicalEntries [b] && canonicalEntries bs) := by
  cases b with
  | equation k v => simp [canonicalEntries]
  | inherit source names => cases source <;> simp [canonicalEntries]

theorem canonicalDefinitions_cons (b : Binding String Expr) (bs : List (Binding String Expr)) :
    canonicalDefinitions (b :: bs) = (canonicalDefinitions [b] && canonicalDefinitions bs) := by
  cases b with
  | equation k v => simp [canonicalDefinitions]
  | inherit source names => cases source <;> simp [canonicalDefinitions]

theorem startsKey_inherit (source : Option Expr) (names : List String) :
    StartsKey (renderInherit source names).toList := by
  cases source with
  | none => exact ⟨'i', by simp [renderInherit, inheritText], Or.inl (by decide)⟩
  | some e => exact ⟨'i', by simp [renderInherit, inheritText], Or.inl (by decide)⟩

theorem Binding.startsKey_entryText (b : Binding Expr Expr) : StartsKey b.entryText.toList := by
  cases b with
  | equation k v =>
    simpa [entryText] using k.keyText_renderKey.startsKey.append _
  | inherit source names => exact startsKey_inherit source names

theorem Binding.startsKey_definitionText (b : Binding String Expr) :
    StartsKey b.definitionText.toList := by
  cases b with
  | equation k v =>
    simpa [definitionText] using (keyText_renderName k).startsKey.append _
  | inherit source names => exact startsKey_inherit source names

namespace Parser

variable {tr : Bool} {c : Cursor} {o n : Nat} {rest : List Char} {r : Rules}

/-! ## Bindings -/

/-- The word `inherit` and what is behind it. -/
theorem exists_inherit_append (source : Option Expr) (names : List String) (rest : List Char) :
    ∃ t, (renderInherit source names).toList ++ ';' :: rest = "inherit".toList ++ t ∧
      NameEnds t := by
  cases source with
  | none =>
    exact ⟨(renderNames names).toList ++ ';' :: rest, by simp [renderInherit, inheritText],
      nameEnds_renderNames names rest⟩
  | some e =>
    exact ⟨' ' :: ("(" ++ e.renderBare ++ ")" ++ renderNames names).toList ++ ';' :: rest,
      by simp [renderInherit, inheritText], nameEnds_cons (by decide) _⟩

theorem peekKeyword_inherit {source : Option Expr} {names : List String}
    (hc : c.skip = ⟨o, (renderInherit source names).toList ++ ';' :: rest⟩) :
    Yields (peekKeyword "inherit") (Settings.standard tr) c true
      ⟨o, (renderInherit source names).toList ++ ';' :: rest⟩ := by
  obtain ⟨t, ht, hnameEnds⟩ := exists_inherit_append source names rest
  rw [ht] at hc ⊢
  exact peekKeyword_of_wordPart hc (wordPart_keyword (by decide) hnameEnds) (by decide)

/-- The value of an equation is read back up to the semicolon. -/
theorem yields_equals_value (hr : r.ReadBelow tr n) (v : Expr) (hv : v.isCanonical = true)
    (hn : (v.chars .normal).length < n) {β : Type} (f : Expr → β) :
    Yields (do
        delimiter "="
        return f (← r.expression)) (Settings.standard tr)
      ⟨o, ' ' :: '=' :: ' ' :: (v.chars .normal ++ ';' :: rest)⟩ (f v)
      ⟨o + 3 + (v.chars .normal).length, ';' :: rest⟩ := by
  have hequals : Cursor.skip ⟨o, ' ' :: '=' :: ' ' :: (v.chars .normal ++ ';' :: rest)⟩ =
      ⟨o + 1, '=' :: ' ' :: (v.chars .normal ++ ';' :: rest)⟩ := by
    rw [Cursor.skip_space]
    exact Cursor.skip_cons (by decide)
  have hvalue : Cursor.skip ⟨o + 1 + 1, ' ' :: (v.chars .normal ++ ';' :: rest)⟩ =
      ⟨o + 3, v.chars .normal ++ ';' :: rest⟩ := by
    rw [Cursor.skip_space]
    exact ((v.startsOperand_chars .normal).append _).skip _
  refine Yields.bind (yields_delimiter hequals rfl (by decide)) ?_
  exact Yields.bind (hr.expression.yields_closed hv hn (by decide) hvalue) (Yields.pure _ _)

/-- A binding of a dict is read back up to the semicolon. -/
theorem yields_entry (hr : r.ReadBelow tr n) (b : Binding Expr Expr)
    (hb : canonicalEntries [b] = true) (hn : b.entryText.toList.length ≤ n)
    (hc : c.skip = ⟨o, b.entryText.toList ++ ';' :: rest⟩) :
    Yields (entry r) (Settings.standard tr) c b
      ⟨o + b.entryText.toList.length, ';' :: rest⟩ := by
  have hskip := Cursor.skip_of_skip_eq hc
  cases b with
  | inherit source names =>
    have hsource : ∀ e ∈ source, e.isCanonical = true := by
      rintro e rfl
      simpa [canonicalEntries] using hb
    refine Yields.bind (peekKeyword_inherit hc) ?_
    exact Yields.bind (yields_inheritance hr source names hsource hn hskip) (Yields.pure _ _)
  | equation k v =>
    have hkv : k.isCanonical = true ∧ v.isCanonical = true := by
      simpa [canonicalEntries] using hb
    have hchars : (Binding.equation k v).entryText.toList =
        k.renderKey.toList ++ ' ' :: '=' :: ' ' :: v.chars .normal := by
      simp [Binding.entryText, Expr.chars]
    rw [hchars] at hc hn hskip ⊢
    simp only [List.append_assoc, List.cons_append] at hc hskip ⊢
    have hends : NameEnds (' ' :: '=' :: ' ' :: (v.chars .normal ++ ';' :: rest)) :=
      nameEnds_cons (by decide) _
    refine Yields.bind (peekKeyword_keyText k.keyText_renderKey hc hends (by decide)) ?_
    refine Yields.bind (reads_key hr k hkv.1 (by simp at hn; omega) hends _ _ hskip) ?_
    have hend : o + (k.renderKey.toList ++ ' ' :: '=' :: ' ' :: v.chars .normal).length =
        o + k.renderKey.toList.length + 3 + (v.chars .normal).length := by simp; omega
    rw [hend]
    exact yields_equals_value hr v hkv.2 (by simp at hn; omega) _

/-- A binding of a `let` is read back up to the semicolon. -/
theorem yields_definition (hr : r.ReadBelow tr n) (b : Binding String Expr)
    (hb : canonicalDefinitions [b] = true) (hn : b.definitionText.toList.length ≤ n)
    (hc : c.skip = ⟨o, b.definitionText.toList ++ ';' :: rest⟩) :
    Yields (definition r) (Settings.standard tr) c b
      ⟨o + b.definitionText.toList.length, ';' :: rest⟩ := by
  have hskip := Cursor.skip_of_skip_eq hc
  cases b with
  | inherit source names =>
    have hsource : ∀ e ∈ source, e.isCanonical = true := by
      rintro e rfl
      simpa [canonicalDefinitions] using hb
    refine Yields.bind (peekKeyword_inherit hc) ?_
    exact Yields.bind (yields_inheritance hr source names hsource hn hskip) (Yields.pure _ _)
  | equation k v =>
    have hv : v.isCanonical = true := by simpa [canonicalDefinitions] using hb
    have hchars : (Binding.equation k v).definitionText.toList =
        (renderName k).toList ++ ' ' :: '=' :: ' ' :: v.chars .normal := by
      simp [Binding.definitionText, Expr.chars]
    rw [hchars] at hc hn hskip ⊢
    simp only [List.append_assoc, List.cons_append] at hc hskip ⊢
    have hends : NameEnds (' ' :: '=' :: ' ' :: (v.chars .normal ++ ';' :: rest)) :=
      nameEnds_cons (by decide) _
    refine Yields.bind (peekKeyword_keyText (keyText_renderName k) hc hends (by decide)) ?_
    refine Yields.bind (reads_staticName hr k (by simp at hn; omega) hends _ _ hskip) ?_
    have hend : o + ((renderName k).toList ++ ' ' :: '=' :: ' ' :: v.chars .normal).length =
        o + (renderName k).toList.length + 3 + (v.chars .normal).length := by simp; omega
    rw [hend]
    exact yields_equals_value hr v hv (by simp at hn; omega) _

/-- The bindings of a dict are read back up to the brace. -/
theorem loops_renderEntries (hr : r.ReadBelow tr n) (bs taken : List (Binding Expr Expr))
    (hbs : canonicalEntries bs = true) (hn : (renderEntries bs).toList.length ≤ n)
    {c : Cursor} {o : Nat}
    (hc : c.skip = Cursor.skip ⟨o, (renderEntries bs).toList ++ '\x7d' :: rest⟩) :
    Loops (entryRound r) (Settings.standard tr) taken c (taken.reverse ++ bs)
      ⟨o + (renderEntries bs).toList.length, '\x7d' :: rest⟩ := by
  induction bs generalizing taken c o with
  | nil =>
    have hc' : c.skip = ⟨o, '\x7d' :: rest⟩ := hc.trans (Cursor.skip_cons (by decide))
    rw [List.append_nil]
    exact Loops.done (Yields.bind (peekDelimiter_lone hc' rfl (by decide)) (Yields.pure _ _))
  | cons b bs ih =>
    have hb : canonicalEntries [b] = true ∧ canonicalEntries bs = true := by
      simpa [canonicalEntries_cons b bs] using hbs
    have hchars : (renderEntries (b :: bs)).toList =
        b.entryText.toList ++ ';' :: ' ' :: (renderEntries bs).toList := by
      simp [renderEntries_cons]
    have hkey := b.startsKey_entryText
    rw [hchars] at hc hn ⊢
    simp only [List.append_assoc, List.cons_append] at hc
    rw [(hkey.append _).skip] at hc
    have hskip := Cursor.skip_of_skip_eq hc
    have hentry := yields_entry hr b hb.1 (by simp at hn; omega) hskip
    have hround : Yields (entryRound r taken) (Settings.standard tr) c (.again (b :: taken))
        ⟨o + b.entryText.toList.length + 1, ' ' :: ((renderEntries bs).toList ++ '\x7d' :: rest)⟩ :=
      Yields.bind (peekDelimiter_of_head?_ne '\x7d' hc rfl
          ((hkey.append _).head?_ne (by decide) (by decide) (by decide)))
        (Yields.bind hentry
          (Yields.bind (yields_delimiter (Cursor.skip_cons (by decide)) rfl (by decide))
            (Yields.pure _ _)))
    have hshorter := Cursor.length_rest_skip_le c
    rw [hc] at hshorter
    have hlater := ih (b :: taken) hb.2 (by simp at hn; omega)
      (Cursor.skip_space (o + b.entryText.toList.length + 1) _)
    have hstate : (b :: taken).reverse ++ bs = taken.reverse ++ b :: bs := by simp
    have hend : o + (b.entryText.toList ++ ';' :: ' ' :: (renderEntries bs).toList).length =
        o + b.entryText.toList.length + 1 + 1 + (renderEntries bs).toList.length := by
      simp; omega
    rw [hstate] at hlater
    rw [hend]
    exact Loops.again hround (by simp at hshorter ⊢; omega) hlater

/-- The keyword behind the bindings of a `let` and what is behind it. -/
theorem skip_in (o : Nat) (t : List Char) :
    Cursor.skip ⟨o, "in".toList ++ t⟩ = ⟨o, "in".toList ++ t⟩ :=
  Cursor.skip_cons (x := 'i') (by decide)

theorem peekKeyword_in_definitionText (b : Binding String Expr) {t : List Char}
    (hc : c.skip = ⟨o, b.definitionText.toList ++ ';' :: t⟩) :
    Yields (peekKeyword "in") (Settings.standard tr) c false
      ⟨o, b.definitionText.toList ++ ';' :: t⟩ := by
  cases b with
  | inherit source names =>
    obtain ⟨u, hu, hends⟩ := exists_inherit_append source names t
    have hword : wordPart ("inherit".toList ++ u) ≠ "in".toList := by
      rw [wordPart_keyword (by decide) hends]
      decide
    simp only [Binding.definitionText] at hc ⊢
    rw [hu] at hc ⊢
    exact peekKeyword_of_wordPart_ne hc hword
  | equation k v =>
    have hchars : (Binding.equation k v).definitionText.toList ++ ';' :: t =
        (renderName k).toList ++ (' ' :: '=' :: ' ' :: v.renderBare.toList ++ ';' :: t) := by
      simp [Binding.definitionText]
    rw [hchars] at hc ⊢
    exact peekKeyword_keyText (keyText_renderName k) hc (nameEnds_cons (by decide) _) (by decide)

/-- The bindings of a `let` are read back up to the keyword. -/
theorem loops_renderDefinitions (hr : r.ReadBelow tr n) (bs taken : List (Binding String Expr))
    (hbs : canonicalDefinitions bs = true) (hn : (renderDefinitions bs).toList.length ≤ n)
    (hrest : NameEnds rest) {c : Cursor} {o : Nat}
    (hc : c.skip = Cursor.skip ⟨o, (renderDefinitions bs).toList ++ ("in".toList ++ rest)⟩) :
    Loops (definitionRound r) (Settings.standard tr) taken c (taken.reverse ++ bs)
      ⟨o + (renderDefinitions bs).toList.length, "in".toList ++ rest⟩ := by
  induction bs generalizing taken c o with
  | nil =>
    have hc' : c.skip = ⟨o, "in".toList ++ rest⟩ := hc.trans (skip_in o rest)
    rw [List.append_nil]
    exact Loops.done (Yields.bind
      (peekKeyword_of_wordPart hc' (wordPart_keyword (by decide) hrest) (by decide))
      (Yields.pure _ _))
  | cons b bs ih =>
    have hb : canonicalDefinitions [b] = true ∧ canonicalDefinitions bs = true := by
      simpa [canonicalDefinitions_cons b bs] using hbs
    have hchars : (renderDefinitions (b :: bs)).toList =
        b.definitionText.toList ++ ';' :: ' ' :: (renderDefinitions bs).toList := by
      simp [renderDefinitions_cons]
    have hkey := b.startsKey_definitionText
    rw [hchars] at hc hn ⊢
    simp only [List.append_assoc, List.cons_append] at hc
    rw [(hkey.append _).skip] at hc
    have hskip := Cursor.skip_of_skip_eq hc
    have hdefinition := yields_definition hr b hb.1 (by simp at hn; omega) hskip
    have hround : Yields (definitionRound r taken) (Settings.standard tr) c (.again (b :: taken))
        ⟨o + b.definitionText.toList.length + 1,
          ' ' :: ((renderDefinitions bs).toList ++ ("in".toList ++ rest))⟩ :=
      Yields.bind (peekKeyword_in_definitionText b hc)
        (Yields.bind hdefinition
          (Yields.bind (yields_delimiter (Cursor.skip_cons (by decide)) rfl (by decide))
            (Yields.pure _ _)))
    have hshorter := Cursor.length_rest_skip_le c
    rw [hc] at hshorter
    have hlater := ih (b :: taken) hb.2 (by simp at hn; omega)
      (Cursor.skip_space (o + b.definitionText.toList.length + 1) _)
    have hstate : (b :: taken).reverse ++ bs = taken.reverse ++ b :: bs := by simp
    have hend : o + (b.definitionText.toList ++ ';' :: ' ' :: (renderDefinitions bs).toList).length
        = o + b.definitionText.toList.length + 1 + 1 + (renderDefinitions bs).toList.length := by
      simp; omega
    rw [hstate] at hlater
    rw [hend]
    exact Loops.again hround (by simp at hshorter ⊢; omega) hlater

/-! ## Items of a list -/

theorem toList_renderItems_cons (e : Expr) (items : List Expr) :
    (renderItems (e :: items)).toList =
      e.chars .listItem ++ ' ' :: (renderItems items).toList := by
  simp [renderItems, Expr.chars, Expr.render]

/-- What stands behind an item of a list. -/
theorem follows_renderItems (items : List Expr) (rest : List Char) :
    Follows (' ' :: ((renderItems items).toList ++ ']' :: rest)) := by
  cases items with
  | nil =>
    refine ⟨nameEnds_cons (by decide) _, ?_⟩
    intro x hx
    simp only [renderItems, String.toList_empty, List.nil_append, nextSolid_space] at hx
    rw [nextSolid_cons (by decide), Option.mem_some_iff] at hx
    subst hx
    decide
  | cons e items =>
    rw [toList_renderItems_cons, List.append_assoc]
    exact Follows.of_space_operand (e.startsOperand_chars .listItem) _

/-- The items of a list are read back up to the bracket. -/
theorem loops_renderItems (hr : r.ReadBelow tr n) (items taken : List Expr)
    (hitems : canonicalItems items = true) (hn : (renderItems items).toList.length ≤ n)
    {c : Cursor} {o : Nat}
    (hc : c.skip = Cursor.skip ⟨o, (renderItems items).toList ++ ']' :: rest⟩) :
    Loops (listRound r) (Settings.standard tr) taken c (taken.reverse ++ items)
      ⟨o + (renderItems items).toList.length, ']' :: rest⟩ := by
  induction items generalizing taken c o with
  | nil =>
    have hc' : c.skip = ⟨o, ']' :: rest⟩ := hc.trans (Cursor.skip_cons (by decide))
    rw [List.append_nil]
    exact Loops.done (Yields.bind (peekDelimiter_lone hc' rfl (by decide)) (Yields.pure _ _))
  | cons e items ih =>
    have he : e.isCanonical = true ∧ canonicalItems items = true := by
      simpa [canonicalItems] using hitems
    have hstart := e.startsOperand_chars .listItem
    rw [toList_renderItems_cons] at hc hn ⊢
    simp only [List.append_assoc, List.cons_append] at hc
    rw [(hstart.append _).skip] at hc
    have hskip := Cursor.skip_of_skip_eq hc
    have hnot : (e.chars .listItem ++ ' ' :: ((renderItems items).toList ++ ']' :: rest)).head? ≠
        some ']' := by
      obtain ⟨x, hx, hoperand⟩ := hstart.append (' ' :: ((renderItems items).toList ++ ']' :: rest))
      rw [hx]
      simpa using ne_of_startsOperand hoperand (by decide)
    have hitem := hr.item e he.1 (by simp at hn; omega) _ (follows_renderItems items rest) _ _ hskip
    have hround : Yields (listRound r taken) (Settings.standard tr) c (.again (e :: taken)) _ :=
      Yields.bind (peekDelimiter_of_head?_ne ']' hc rfl hnot)
        (Yields.bind hitem (Yields.pure _ _))
    have hshorter := Cursor.length_rest_skip_le c
    rw [hc] at hshorter
    have hpos : 0 < (e.chars .listItem).length := by
      obtain ⟨x, t, ht, -⟩ := hstart.exists_cons
      simp [ht]
    have hend := Cursor.length_rest_skip_le
      ⟨o + (e.chars .listItem).length, ' ' :: ((renderItems items).toList ++ ']' :: rest)⟩
    have hlater := ih (e :: taken) he.2 (by simp at hn; omega)
      (o := o + (e.chars .listItem).length + 1)
      ((Cursor.skip_skip ⟨o + (e.chars .listItem).length,
        ' ' :: ((renderItems items).toList ++ ']' :: rest)⟩).trans (Cursor.skip_space _ _))
    have hstate : (e :: taken).reverse ++ items = taken.reverse ++ e :: items := by simp
    have hoffset : o + (e.chars .listItem ++ ' ' :: (renderItems items).toList).length =
        o + (e.chars .listItem).length + 1 + (renderItems items).toList.length := by
      simp; omega
    rw [hstate] at hlater
    rw [hoffset]
    exact Loops.again hround (by simp at hshorter hend ⊢; omega) hlater

/-! ## Lists, dicts and bindings with their keywords -/

theorem reads_list (hr : r.ReadBelow tr n) (items : List Expr)
    (hitems : canonicalItems items = true) (hn : (Expr.list items).renderBare.toList.length ≤ n) :
    Reads (list r) tr (Expr.list items).renderBare.toList rest (.list items) := by
  intro c o hc
  have hchars : (Expr.list items).renderBare.toList =
      '[' :: ' ' :: ((renderItems items).toList ++ [']']) := by
    simp [Expr.renderBare]
  rw [hchars] at hc hn ⊢
  simp only [List.cons_append, List.append_assoc, List.nil_append] at hc
  have hloop := loops_renderItems hr items [] hitems (by simp at hn; omega)
    (Cursor.skip_space (o + 1) ((renderItems items).toList ++ ']' :: rest))
  have hend : o + ('[' :: ' ' :: ((renderItems items).toList ++ [']'])).length =
      o + 1 + 1 + (renderItems items).toList.length + 1 := by simp; omega
  rw [hend]
  refine Yields.bind (yields_delimiter hc rfl (by decide)) ?_
  refine Yields.bind hloop.yields ?_
  exact Yields.bind (yields_delimiter (Cursor.skip_cons (by decide)) rfl (by decide))
    (Yields.pure _ _)

/-- The bindings of a dict in braces are read back. -/
theorem reads_dict (hr : r.ReadBelow tr n) (recursive : Bool) (bs : List (Binding Expr Expr))
    (hbs : canonicalEntries bs = true) (hn : (Expr.dict false bs).renderBare.toList.length ≤ n) :
    Reads (dict r recursive) tr (Expr.dict false bs).renderBare.toList rest
      (.dict recursive bs) := by
  intro c o hc
  have hchars : (Expr.dict false bs).renderBare.toList =
      '\x7b' :: ' ' :: ((renderEntries bs).toList ++ ['\x7d']) := by
    simp [Expr.renderBare]
  rw [hchars] at hc hn ⊢
  simp only [List.cons_append, List.append_assoc, List.nil_append] at hc
  have hloop := loops_renderEntries hr bs [] hbs (by simp at hn; omega)
    (Cursor.skip_space (o + 1) ((renderEntries bs).toList ++ '\x7d' :: rest))
  have hend : o + ('\x7b' :: ' ' :: ((renderEntries bs).toList ++ ['\x7d'])).length =
      o + 1 + 1 + (renderEntries bs).toList.length + 1 := by simp; omega
  rw [hend]
  refine Yields.bind (yields_delimiter hc rfl (by decide)) ?_
  refine Yields.bind hloop.yields ?_
  exact Yields.bind (yields_delimiter (Cursor.skip_cons (by decide)) rfl (by decide))
    (Yields.pure _ _)

end Parser

end LazyConfig
