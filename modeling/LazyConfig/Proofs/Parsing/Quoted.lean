import LazyConfig.Expr.Canonical
import LazyConfig.Expr.Render
import LazyConfig.Proofs.Parsing.Lexemes
import LazyConfig.Proofs.Template.Canonical
set_option autoImplicit false

/-!
# Parsing: rendered strings

A template in double quotation marks reads back as itself.  The escapes are undone one
unit at a time; the only place where two pieces could run together is a dollar sign at
the end of a literal, and what follows a literal never starts with a brace, because it
is an antiquote or the mark that ends the string.  The draft is compared with the
template by what both read as, so how the pieces were gathered does not matter.
-/

namespace LazyConfig

/-! ## What follows a text -/

/-- The characters that may stand behind an expression besides the end of the text. -/
def closers : List Char := [')', '\x7d', ';', ',']

/-- An expression may end in front of the text. -/
def Closes (rest : List Char) : Prop := ∀ x ∈ nextSolid rest, x ∈ closers

theorem closes_nil : Closes [] := fun _ hx => nomatch hx

theorem closes_cons {x : Char} (h : x ∈ closers) (t : List Char) : Closes (x :: t) := by
  have hblank : startsBlank x = false := by
    simp only [closers, List.mem_cons, List.not_mem_nil, or_false] at h
    rcases h with rfl | rfl | rfl | rfl <;> decide
  intro y hy
  rw [nextSolid_cons hblank, Option.mem_some_iff] at hy
  exact hy ▸ h

/-- A name ends where no solid character of a name follows. -/
theorem nameEnds_of_nextSolid {rest : List Char}
    (h : ∀ x ∈ nextSolid rest, isNameChar x = false) : NameEnds rest := by
  intro y hy
  cases rest with
  | nil => simp at hy
  | cons x t =>
    simp only [List.head?_cons, Option.mem_some_iff] at hy
    subst hy
    cases hx : isNameChar x with
    | false => rfl
    | true => simpa [hx] using h x (by rw [nextSolid_cons (startsBlank_of_isNameChar hx)]; rfl)

theorem isNameChar_of_mem_closers {x : Char} (h : x ∈ closers) : isNameChar x = false := by
  simp only [closers, List.mem_cons, List.not_mem_nil, or_false] at h
  rcases h with rfl | rfl | rfl | rfl <;> decide

/-! ## What an expression starts with -/

/-- Whether an operand may start with the character. -/
def startsOperand (x : Char) : Bool :=
  isNameChar x || x == '"' || x == '[' || x == '(' || x == '\x7b'

theorem startsBlank_of_startsOperand {x : Char} (h : startsOperand x = true) :
    startsBlank x = false := by
  simp only [startsOperand, Bool.or_eq_true, beq_iff_eq] at h
  rcases h with (((h | rfl) | rfl) | rfl) | rfl
  · exact startsBlank_of_isNameChar h
  all_goals decide

theorem ne_of_startsOperand {x y : Char} (hx : startsOperand x = true)
    (hy : startsOperand y = false) : x ≠ y := by
  rintro rfl
  simp [hx] at hy

/-- The characters of an expression at a place. -/
def Expr.chars (e : Expr) (place : Place) : List Char := (e.render place).toList

/-- The text starts with an operand. -/
def StartsOperand (w : List Char) : Prop := ∃ x, w.head? = some x ∧ startsOperand x = true

theorem StartsOperand.exists_cons {w : List Char} (h : StartsOperand w) :
    ∃ x t, w = x :: t ∧ startsOperand x = true := by
  obtain ⟨x, hx, hstart⟩ := h
  cases w with
  | nil => simp at hx
  | cons y t =>
    simp only [List.head?_cons, Option.some.injEq] at hx
    exact ⟨y, t, rfl, hx ▸ hstart⟩

theorem StartsOperand.append {w : List Char} (h : StartsOperand w) (t : List Char) :
    StartsOperand (w ++ t) := by
  obtain ⟨x, u, rfl, hx⟩ := h.exists_cons
  exact ⟨x, rfl, hx⟩

theorem StartsOperand.nextSolid {w : List Char} (h : StartsOperand w) :
    ∃ x, nextSolid w = some x ∧ startsOperand x = true := by
  obtain ⟨x, t, rfl, hx⟩ := h.exists_cons
  exact ⟨x, nextSolid_cons (startsBlank_of_startsOperand hx) t, hx⟩

theorem StartsOperand.skip {w : List Char} (h : StartsOperand w) (o : Nat) :
    Cursor.skip ⟨o, w⟩ = ⟨o, w⟩ := by
  obtain ⟨x, t, rfl, hx⟩ := h.exists_cons
  exact Cursor.skip_cons (startsBlank_of_startsOperand hx)

theorem startsOperand_name (x : Name) : StartsOperand x.text.toList := by
  obtain ⟨y, t, ht, hy⟩ := x.exists_cons
  exact ⟨y, by rw [ht]; rfl, by simp [startsOperand, hy]⟩

theorem startsOperand_enclose {e : Expr} (h : StartsOperand e.renderBare.toList)
    (place : Place) : StartsOperand (enclose e place e.renderBare).toList := by
  unfold enclose
  split
  · exact ⟨'(', by simp, by decide⟩
  · exact h

theorem startsOperand_patternText (fields : List String) (ellipsis : Bool) :
    StartsOperand (patternText fields ellipsis).toList := by
  unfold patternText
  split
  · exact ⟨'\x7b', rfl, by decide⟩
  · exact ⟨'\x7b', by simp, by decide⟩

/-- Every expression starts with an operand. -/
theorem Expr.startsOperand_renderBare : ∀ e : Expr, StartsOperand e.renderBare.toList
  | .var x => startsOperand_name x
  | .str _ => ⟨'"', by simp [renderBare], by decide⟩
  | .list _ => ⟨'[', by simp [renderBare], by decide⟩
  | .dict false _ => ⟨'\x7b', by simp [renderBare], by decide⟩
  | .dict true _ => ⟨'r', by simp [renderBare], by decide⟩
  | .dot subject _ => by
    have h := startsOperand_enclose subject.startsOperand_renderBare .dotLeft
    simpa [renderBare] using h.append _
  | .lambda (.name x) _ => by
    simpa [renderBare] using (startsOperand_name x).append _
  | .lambda (.pattern ⟨_, _⟩) _ => by
    simpa [renderBare] using (startsOperand_patternText _ _).append _
  | .lambda (.both x ⟨_, _⟩) _ => by
    simpa [renderBare] using (startsOperand_name x).append _
  | .apply f _ => by
    have h := startsOperand_enclose f.startsOperand_renderBare .applyLeft
    simpa [renderBare] using h.append _
  | .letIn _ _ => ⟨'l', by simp [renderBare], by decide⟩

theorem Expr.startsOperand_chars (e : Expr) (place : Place) : StartsOperand (e.chars place) :=
  startsOperand_enclose e.startsOperand_renderBare place

/-! ## Reading a text -/

namespace Parser

variable {α : Type} {tr : Bool} {c : Cursor} {o : Nat}

/-- The parser reads a text as a value and stops right behind it. -/
def Reads (p : Parser α) (tr : Bool) (w rest : List Char) (a : α) : Prop :=
  ∀ (c : Cursor) (o : Nat), c.skip = ⟨o, w ++ rest⟩ →
    Yields p (Settings.standard tr) c a ⟨o + w.length, rest⟩

/-- The parser reads a text as a value and stops behind the blank that follows. -/
def ReadsOver (p : Parser α) (tr : Bool) (w rest : List Char) (a : α) : Prop :=
  ∀ (c : Cursor) (o : Nat), c.skip = ⟨o, w ++ rest⟩ →
    Yields p (Settings.standard tr) c a (Cursor.skip ⟨o + w.length, rest⟩)

/-- The parser reads every canonical expression whose text is shorter than the bound. -/
def ReadsBelow (p : Parser Expr) (tr : Bool) (n : Nat) : Prop :=
  ∀ e : Expr, e.isCanonical = true → (e.chars .normal).length < n →
    ∀ rest, Closes rest → ReadsOver p tr (e.chars .normal) rest e

/-! ## Drafts -/

namespace Draft

theorem symbols_finish (d : Draft) :
    Template.symbols d.finish =
      Template.symbols d.pieces.reverse ++ d.buffer.reverse.map Sum.inl := by
  simp [finish, closed, Template.symbols_append, Piece.symbols]

theorem symbols_push (d : Draft) (cs : List Char) :
    Template.symbols (d.push cs).finish = Template.symbols d.finish ++ cs.map Sum.inl := by
  simp [symbols_finish, push]

theorem symbols_addHole (d : Draft) (e : Expr) :
    Template.symbols (d.addHole e).finish = Template.symbols d.finish ++ [Sum.inr e] := by
  simp [symbols_finish, addHole, closed, Template.symbols_append, Piece.symbols]

end Draft

/-! ## Rounds of a string body -/

section

variable {unit : List Char → StringUnit} {cause : Cause} {p : Parser Expr} {s : Settings}

theorem bodyRound_close {width : Nat} (h : unit c.rest = .close width) (d : Draft) :
    Yields (bodyRound unit cause p d) s c (.done d.finish) (c.advance width) := by
  refine Yields.bind (yields_ahead _ c) ?_
  rw [h]
  exact Yields.bind (yields_advance _ _) (Yields.pure _ _)

theorem bodyRound_chars {cs : List Char} {width : Nat} (h : unit c.rest = .chars cs width)
    (d : Draft) :
    Yields (bodyRound unit cause p d) s c (.again (d.push cs)) (c.advance width) := by
  refine Yields.bind (yields_ahead _ c) ?_
  rw [h]
  exact Yields.bind (yields_advance _ _) (Yields.pure _ _)

theorem bodyRound_hole {c' c'' : Cursor} {e : Expr} (h : unit c.rest = .hole)
    (hp : Yields p s (c.advance 2) e c') (hd : Yields (delimiter "\x7d") s c' () c'') (d : Draft) :
    Yields (bodyRound unit cause p d) s c (.again (d.addHole e)) c'' := by
  refine Yields.bind (yields_ahead _ c) ?_
  rw [h]
  exact Yields.bind (yields_advance _ _)
    (Yields.bind hp (Yields.bind hd (Yields.pure _ _)))

end

/-! ## Escapes are undone -/

/-- A character that is neither a mark nor the start of an antiquote stands for itself. -/
theorem quotedUnit_plain {x : Char} {t : List Char} (hquote : x ≠ '"') (hback : x ≠ '\\')
    (hhole : x = '$' → t.head? ≠ some '\x7b') : quotedUnit (x :: t) = .chars [x] 1 := by
  unfold quotedUnit
  split <;> simp_all

/-- A backslash gives the meaning of the character behind it. -/
theorem quotedUnit_escaped {x : Char} (hx : x ≠ '$') (t : List Char) :
    quotedUnit ('\\' :: x :: t) = .chars [unescape x] 2 := by
  rw [quotedUnit]
  rintro t' rfl
  exact fun _ => hx rfl

/-- How one character of a literal is written, if it is not the start of an antiquote. -/
def escapeChar (x : Char) : List Char :=
  if x = '\\' then ['\\', '\\']
  else if x = '"' then ['\\', '"']
  else if x = '\n' then ['\\', 'n']
  else if x = '\r' then ['\\', 'r']
  else if x = '\t' then ['\\', 't']
  else [x]

theorem escapeChars_cons {x : Char} {l : List Char} (h : x = '$' → l.head? ≠ some '\x7b') :
    escapeChars (x :: l) = escapeChar x ++ escapeChars l := by
  rw [escapeChars.eq_def]
  split
  · simp_all
  · simp_all
  · simp_all [escapeChar]

/-- No escaped text starts with a brace unless the text does. -/
theorem head?_escapeChars_ne {l t : List Char} (hl : l.head? ≠ some '\x7b')
    (ht : t.head? ≠ some '\x7b') : (escapeChars l ++ t).head? ≠ some '\x7b' := by
  unfold escapeChars
  split
  · exact ht
  · simp
  · next x l _ =>
    have hx : x ≠ '\x7b' := by simpa using hl
    split
    · simp
    · split
      · simp
      · split
        · simp
        · split
          · simp
          · split <;> simp [hx]

theorem quotedUnit_escapeChar {x : Char} {t : List Char} (hhole : x = '$' → t.head? ≠ some '\x7b') :
    quotedUnit (escapeChar x ++ t) = .chars [x] (escapeChar x).length := by
  unfold escapeChar
  split
  · next h => subst h; exact quotedUnit_escaped (by decide) t
  · next hback =>
    split
    · next h => subst h; exact quotedUnit_escaped (by decide) t
    · next hquote =>
      split
      · next h => subst h; exact quotedUnit_escaped (by decide) t
      · split
        · next h => subst h; exact quotedUnit_escaped (by decide) t
        · split
          · next h => subst h; exact quotedUnit_escaped (by decide) t
          · exact quotedUnit_plain hquote hback hhole

theorem escapeChar_length_pos (x : Char) : 0 < (escapeChar x).length := by
  unfold escapeChar
  repeat' split
  all_goals simp

theorem length_le_escapeChars (l : List Char) : l.length ≤ (escapeChars l).length := by
  fun_induction escapeChars l with
  | case1 => exact Nat.le_refl 0
  | case2 rest ih => simp; omega
  | case3 x rest h ih =>
    rw [List.length_append, List.length_cons]
    have hpos := escapeChar_length_pos x
    unfold escapeChar at hpos
    omega

section

variable {p : Parser Expr} {d : Draft} {u : Template Expr} {c' : Cursor} {t : List Char}

/-- The escaped characters of a literal are read back one by one. -/
theorem loops_escapeChars (l : List Char) (ht : t.head? ≠ some '\x7b')
    (h : Loops (bodyRound quotedUnit .unterminated p) (Settings.standard tr) (d.push l)
      ⟨o + (escapeChars l).length, t⟩ u c') :
    Loops (bodyRound quotedUnit .unterminated p) (Settings.standard tr) d
      ⟨o, escapeChars l ++ t⟩ u c' := by
  -- The induction is on the length, as an antiquote mark takes two characters at once.
  induction hn : l.length using Nat.strongRecOn generalizing l d o with
  | ind n ih =>
    cases l with
    | nil =>
      have hpush : d.push [] = d := rfl
      simpa [escapeChars, hpush] using h
    | cons x l =>
      by_cases hhole : x = '$' ∧ l.head? = some '\x7b'
      · obtain ⟨rfl, hl⟩ := hhole
        cases l with
        | nil => simp at hl
        | cons y l =>
          obtain rfl : y = '\x7b' := by simpa using hl
          have hchars : escapeChars ('$' :: '\x7b' :: l) = ['\\', '$', '\x7b'] ++ escapeChars l :=
            rfl
          have hround : Yields (bodyRound quotedUnit .unterminated p d) (Settings.standard tr)
              ⟨o, ['\\', '$', '\x7b'] ++ (escapeChars l ++ t)⟩ (.again (d.push ['$', '\x7b']))
              (Cursor.advance ⟨o, ['\\', '$', '\x7b'] ++ (escapeChars l ++ t)⟩ 3) :=
            bodyRound_chars rfl d
          rw [hchars, List.length_append, ← Nat.add_assoc] at h
          rw [hchars, List.append_assoc]
          refine Loops.again hround (by simp [Cursor.advance]; omega) ?_
          exact ih l.length (by simp at hn; omega) l (by simpa [Draft.push] using h) rfl
      · have hx : x = '$' → l.head? ≠ some '\x7b' := fun hd hl => hhole ⟨hd, hl⟩
        rw [escapeChars_cons hx] at h ⊢
        have hunit : quotedUnit (escapeChar x ++ (escapeChars l ++ t)) =
            .chars [x] (escapeChar x).length :=
          quotedUnit_escapeChar fun hd => head?_escapeChars_ne (hx hd) ht
        have hround : Yields (bodyRound quotedUnit .unterminated p d) (Settings.standard tr)
            ⟨o, escapeChar x ++ (escapeChars l ++ t)⟩ (.again (d.push [x]))
            (Cursor.advance ⟨o, escapeChar x ++ (escapeChars l ++ t)⟩ (escapeChar x).length) :=
          bodyRound_chars hunit d
        rw [Cursor.advance_append] at hround
        rw [List.append_assoc]
        have hpos := escapeChar_length_pos x
        rw [List.length_append, ← Nat.add_assoc] at h
        refine Loops.again hround (by simp; omega) ?_
        exact ih l.length (by simp at hn; omega) l (by simpa [Draft.push] using h) rfl

end

/-! ## Templates -/

theorem toList_escape (text : String) : (escape text).toList = escapeChars text.toList := by
  simp [escape]

/-- What follows a literal of a canonical template is no brace. -/
theorem head?_renderPieces_ne {a : String} {ps : List (Piece Expr)}
    (h : Template.isClean (.literal a :: ps) = true) (rest : List Char) :
    ((renderPieces ps).toList ++ '"' :: rest).head? ≠ some '\x7b' := by
  cases ps with
  | nil => simp [renderPieces]
  | cons piece ps =>
    cases piece with
    | literal b => simp [Template.isClean] at h
    | antiquote e => simp [renderPieces]

/-- The pieces of a canonical template are read back up to the mark that ends the string:
the draft grows by exactly what the template reads as. -/
theorem loops_renderPieces {p : Parser Expr} {n : Nat} (hp : ReadsBelow p tr n)
    (ps : List (Piece Expr)) (hclean : Template.isClean ps = true)
    (hcanonical : canonicalPieces ps = true) (hn : (renderPieces ps).toList.length < n)
    (d : Draft) (o : Nat) (rest : List Char) :
    ∃ u, Template.symbols u = Template.symbols d.finish ++ Template.symbols ps ∧
      Loops (bodyRound quotedUnit .unterminated p) (Settings.standard tr) d
        ⟨o, (renderPieces ps).toList ++ '"' :: rest⟩ u
        ⟨o + (renderPieces ps).toList.length + 1, rest⟩ := by
  induction ps generalizing d o with
  | nil =>
    refine ⟨d.finish, by simp, Loops.done ?_⟩
    have hround : Yields (bodyRound quotedUnit .unterminated p d) (Settings.standard tr)
        ⟨o, '"' :: rest⟩ (.done d.finish) ⟨o + 1, rest⟩ :=
      bodyRound_close rfl d
    simpa [renderPieces] using hround
  | cons piece ps ih =>
    cases piece with
    | literal a =>
      obtain ⟨u, hu, hloop⟩ := ih (Template.isClean_tail hclean) hcanonical
        (by simp [renderPieces] at hn; omega) (d.push a.toList)
        (o + (escapeChars a.toList).length)
      refine ⟨u, by rw [hu, Draft.symbols_push]; simp [Piece.symbols], ?_⟩
      have h := loops_escapeChars a.toList (head?_renderPieces_ne hclean rest) hloop
      simpa [renderPieces, toList_escape, Nat.add_assoc] using h
    | antiquote e =>
      have he : e.isCanonical = true ∧ canonicalPieces ps = true := by
        simpa [canonicalPieces] using hcanonical
      obtain ⟨u, hu, hloop⟩ := ih (Template.isClean_tail hclean) he.2
        (by simp [renderPieces] at hn; omega) (d.addHole e)
        (o + 2 + (e.chars .normal).length + 1)
      refine ⟨u, by rw [hu, Draft.symbols_addHole]; simp [Piece.symbols], ?_⟩
      have hskip := (e.startsOperand_chars .normal).append
        ('\x7d' :: ((renderPieces ps).toList ++ '"' :: rest))
      have hexpr := hp e he.1 (by simp [renderPieces, Expr.chars] at hn ⊢; omega)
        ('\x7d' :: ((renderPieces ps).toList ++ '"' :: rest)) (closes_cons (by decide) _)
        ⟨o + 2, _⟩ (o + 2) (hskip.skip _)
      rw [Cursor.skip_cons (by decide)] at hexpr
      have hround : Yields (bodyRound quotedUnit .unterminated p d) (Settings.standard tr)
          ⟨o, '$' :: '\x7b' :: (e.chars .normal ++
            '\x7d' :: ((renderPieces ps).toList ++ '"' :: rest))⟩ (.again (d.addHole e))
          ⟨o + 2 + (e.chars .normal).length + 1, (renderPieces ps).toList ++ '"' :: rest⟩ :=
        bodyRound_hole rfl hexpr
          (yields_delimiter (Cursor.skip_cons (by decide)) rfl (by decide)) d
      have hlength : o + (renderPieces (.antiquote e :: ps)).toList.length + 1 =
          o + 2 + (e.chars .normal).length + 1 + (renderPieces ps).toList.length + 1 := by
        simp [renderPieces, Expr.chars]; omega
      rw [hlength]
      have h := Loops.again hround (by simp; omega) hloop
      simpa [renderPieces, Expr.chars] using h

/-- A rendered string is read back exactly. -/
theorem reads_string {p : Parser Expr} {n : Nat} (hp : ReadsBelow p tr n)
    (t : Template Expr) (hclean : Template.isClean t = true)
    (hcanonical : canonicalPieces t = true) (hn : (renderTemplate t).toList.length ≤ n)
    (rest : List Char) : Reads (string p) tr (renderTemplate t).toList rest t := by
  intro c o hc
  have hchars : (renderTemplate t).toList = '"' :: ((renderPieces t).toList ++ ['"']) := by
    simp [renderTemplate]
  rw [hchars] at hc hn ⊢
  obtain ⟨u, hu, hloop⟩ := loops_renderPieces hp t hclean hcanonical
    (by simp at hn; omega) Draft.empty (o + 1) rest
  have hopen : Yields aheadOpening (Settings.standard tr) c (some .quoted) c.skip := by
    show Yields _ _ _ _ _
    have h : Yields aheadOpening (Settings.standard tr) c (opening? c.skip.rest) c.skip := rfl
    rwa [hc] at h ⊢
  rw [hc] at hopen
  refine Yields.bind hopen ?_
  refine Yields.bind (yields_advance 1 _) ?_
  have hcursor : Cursor.advance ⟨o, '"' :: ((renderPieces t).toList ++ ['"']) ++ rest⟩ 1 =
      ⟨o + 1, (renderPieces t).toList ++ '"' :: rest⟩ := by simp [Cursor.advance]
  rw [hcursor]
  have hread : u.clean = t := Template.clean_eq_of_symbols_eq hclean (by
    rw [hu]; simp [Draft.empty, Draft.symbols_finish])
  have hend : o + ('"' :: ((renderPieces t).toList ++ ['"'])).length =
      o + 1 + (renderPieces t).toList.length + 1 := by simp; omega
  rw [hend]
  exact Yields.bind hloop.yields (hread ▸ Yields.pure _ _)

end Parser

end LazyConfig
