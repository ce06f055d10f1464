import LazyConfig.Proofs.Parsing.Functions
set_option autoImplicit false

/-!
# Parsing: what a text leads with

The grammar tries a function first, then a `let`, then operands.  Which alternative is
right shows at the leftmost word of a text, however deep in the tree it stands.
`Leads` lists the ways in which a rendered text that is neither a function nor a `let`
may start; each of them makes the first two alternatives fail.
-/

namespace LazyConfig

/-- A name that ends in front of the text is no parameter. -/
structure NoParam (rest : List Char) : Prop where
  /-- A name ends here. -/
  nameEnds : NameEnds rest
  /-- Neither a colon nor an at sign follows. -/
  next : ∀ x ∈ nextSolid rest, x ≠ ':' ∧ x ≠ '@'

theorem Parser.Follows.noParam {rest : List Char} (h : Parser.Follows rest) : NoParam rest where
  nameEnds := h.nameEnds
  next := fun x hx => (h.next x hx).2

theorem NoParam.of_dot (t : List Char) : NoParam ('.' :: t) where
  nameEnds := nameEnds_cons (by decide) t
  next := by
    intro x hx
    rw [nextSolid_cons (by decide), Option.mem_some_iff] at hx
    subst hx
    decide

/-- How a text starts that is neither a function nor a `let`. -/
inductive Leads : List Char → Prop where
  /-- With a mark that no name and no pattern starts with. -/
  | mark {x : Char} (h : x ∈ ['"', '[', '(']) (t : List Char) : Leads (x :: t)
  /-- With a variable. -/
  | name (x : Name) {rest : List Char} (h : NoParam rest) : Leads (x.text.toList ++ rest)
  /-- With a recursive dict. -/
  | recursive (t : List Char) : Leads ("rec".toList ++ ' ' :: t)
  /-- With a dict. -/
  | dict (bs : List (Binding Expr Expr)) {rest : List Char} (h : NoParam rest) :
      Leads ('\x7b' :: ' ' :: ((renderEntries bs).toList ++ '\x7d' :: rest))

theorem Leads.of_parens (e : Expr) (t : List Char) :
    Leads ('(' :: (e.chars .normal ++ [')']) ++ t) :=
  Leads.mark (by decide) _

/-- In parentheses or bare, as the place asks for. -/
theorem Expr.chars_cases (e : Expr) (place : Place) :
    (e.needsParens place = true ∧ e.chars place = '(' :: (e.chars .normal ++ [')'])) ∨
      (e.needsParens place = false ∧ e.chars place = e.chars .normal) := by
  unfold Expr.chars Expr.render enclose
  cases h : e.needsParens place with
  | false => exact Or.inr ⟨rfl, by simp [Expr.needsParens_normal]⟩
  | true => exact Or.inl ⟨rfl, by simp [Expr.needsParens_normal]⟩

theorem chars_dot (subject key : Expr) :
    (Expr.dot subject key).chars .normal =
      subject.chars .dotLeft ++ '.' :: key.renderKey.toList := by
  simp [Expr.chars, Expr.render, Expr.renderBare, Expr.renderKey, enclose, Expr.needsParens]

theorem chars_apply (f a : Expr) :
    (Expr.apply f a).chars .normal = f.chars .applyLeft ++ ' ' :: a.chars .applyRight := by
  simp [Expr.chars, Expr.render, Expr.renderBare, enclose, Expr.needsParens]

/-- Neither a function nor a `let`. -/
def Expr.isOperation : Expr → Bool
  | .lambda _ _ => false
  | .letIn _ _ => false
  | _ => true

/-- To the left of something a function or a `let` is in parentheses. -/
theorem Expr.needsParens_of_not_isOperation {e : Expr} (h : e.isOperation = false) :
    e.needsParens .dotLeft = true ∧ e.needsParens .applyLeft = true := by
  cases e <;> simp_all [Expr.isOperation, Expr.needsParens]

/-- What is no function and no `let` leads with one of the listed forms: the induction is
down the left spine of operations. -/
theorem Expr.leads_chars : ∀ (e : Expr), e.isOperation = true → ∀ rest, NoParam rest →
    Leads (e.chars .normal ++ rest)
  | .var x, _, rest, h => Leads.name x h
  | .str t, _, rest, h => by
    have hchars : (Expr.str t).chars .normal ++ rest =
        '"' :: ((renderPieces t).toList ++ '"' :: rest) := by
      simp [Expr.chars, Expr.renderBare]
    rw [hchars]
    exact Leads.mark (by decide) _
  | .list items, _, rest, h => by
    have hchars : (Expr.list items).chars .normal ++ rest =
        '[' :: ' ' :: ((renderItems items).toList ++ ']' :: rest) := by
      simp [Expr.chars, Expr.renderBare]
    rw [hchars]
    exact Leads.mark (by decide) _
  | .dict false bs, _, rest, h => by
    have hchars : (Expr.dict false bs).chars .normal ++ rest =
        '\x7b' :: ' ' :: ((renderEntries bs).toList ++ '\x7d' :: rest) := by
      simp [Expr.chars, Expr.renderBare]
    rw [hchars]
    exact Leads.dict bs h
  | .dict true bs, _, rest, h => by
    have hchars : (Expr.dict true bs).chars .normal ++ rest =
        "rec".toList ++ ' ' :: '\x7b' :: ' ' :: ((renderEntries bs).toList ++ '\x7d' :: rest) := by
      simp [Expr.chars, Expr.renderBare]
    rw [hchars]
    exact Leads.recursive _
  | .dot subject key, _, rest, h => by
    rw [chars_dot, List.append_assoc]
    obtain ⟨-, hchars⟩ | ⟨hbare, hchars⟩ := subject.chars_cases .dotLeft
    · rw [hchars]
      exact Leads.of_parens subject _
    · rw [hchars]
      have hoperation : subject.isOperation = true := by
        cases hs : subject.isOperation with
        | true => rfl
        | false => simp [(needsParens_of_not_isOperation hs).1] at hbare
      exact subject.leads_chars hoperation _ (NoParam.of_dot _)
  | .apply f a, _, rest, h => by
    rw [chars_apply, List.append_assoc]
    obtain ⟨-, hchars⟩ | ⟨hbare, hchars⟩ := f.chars_cases .applyLeft
    · rw [hchars]
      exact Leads.of_parens f _
    · rw [hchars]
      have hoperation : f.isOperation = true := by
        cases hf : f.isOperation with
        | true => rfl
        | false => simp [(needsParens_of_not_isOperation hf).2] at hbare
      exact f.leads_chars hoperation _
        (Parser.Follows.of_space_operand (a.startsOperand_chars .applyRight) rest).noParam

namespace Parser

variable {tr : Bool} {c : Cursor} {o : Nat} {w rest : List Char} {r : Rules}

theorem nameEnds_of_mem_marks {x : Char} (h : x ∈ ['"', '[', '(']) (t : List Char) :
    NameEnds (x :: t) := by
  simp only [List.mem_cons, List.not_mem_nil, or_false] at h
  rcases h with rfl | rfl | rfl <;> exact nameEnds_cons (by decide) t

/-! ## The first alternative fails -/

/-- A round that fails makes its loop fail. -/
theorem Refuses.repeated {α σ : Type} {body : σ → Parser (Round σ α)} {state : σ} {s : Settings}
    (h : Refuses (body state) s c) : Refuses (repeated body state) s c :=
  Refuses.bind h _

/-- A variable alone is a parameter, but no colon follows it. -/
theorem refuses_lambda_variable {x : Name} (h : NoParam rest)
    (hc : c.skip = ⟨o, x.text.toList ++ rest⟩) :
    Refuses (lambda r) (Settings.standard tr) c := by
  have hskip := Cursor.skip_of_skip_eq hc
  have hbrace : (x.text.toList ++ rest).head? ≠ some '\x7b' := by
    obtain ⟨y, u, hu, hy⟩ := x.exists_cons
    rw [hu]
    simpa using ne_of_isNameChar hy (by decide)
  have hat : nextSolid rest ≠ some '@' := fun hx => (h.next '@' hx).2 rfl
  have hcolon : nextSolid rest ≠ some ':' := fun hx => (h.next ':' hx).1 rfl
  have hparam : Yields (param r) (Settings.standard tr) c (.name x)
      (Cursor.skip ⟨o + x.text.toList.length, rest⟩) :=
    Yields.bind (peekDelimiter_of_head?_ne '\x7b' hc rfl hbrace)
      (Yields.bind (yields_identifier hskip h.nameEnds)
        (Yields.bind (peekDelimiter_of_nextSolid_ne '@' _ rfl hat) (Yields.pure _ _)))
  refine Yields.bind_refuses hparam (Refuses.bind ?_ _)
  exact Yields.bind_refuses (peekDelimiter_of_head?_ne ':' (Cursor.skip_skip _) rfl hcolon)
    (Refuses.fail _ _)

/-- The empty dict is also a pattern, but no colon follows it. -/
theorem refuses_lambda_empty (h : NoParam rest)
    (hc : c.skip = ⟨o, '\x7b' :: ' ' :: '\x7d' :: rest⟩) :
    Refuses (lambda r) (Settings.standard tr) c := by
  have hskip := Cursor.skip_of_skip_eq hc
  have hcolon : nextSolid rest ≠ some ':' := fun hx => (h.next ':' hx).1 rfl
  have hclose : Cursor.skip ⟨o + 1, ' ' :: '\x7d' :: rest⟩ = ⟨o + 2, '\x7d' :: rest⟩ := by
    rw [Cursor.skip_space]
    exact Cursor.skip_cons (by decide)
  have hlist : Yields (fieldList r) (Settings.standard tr) ⟨o + 1, ' ' :: '\x7d' :: rest⟩
      ([], false) ⟨o + 2, '\x7d' :: rest⟩ :=
    Yields.bind (peekDelimiter_lone hclose rfl (by decide)) (Yields.pure _ _)
  have hpattern : Yields (pattern r) (Settings.standard tr)
      ⟨o, '\x7b' :: ' ' :: '\x7d' :: rest⟩ ⟨[], false⟩ ⟨o + 3, rest⟩ :=
    Yields.bind (yields_cursor _)
      (Yields.bind (yields_delimiter hskip rfl (by decide))
        (Yields.bind hlist
          (Yields.bind (yields_delimiter (Cursor.skip_cons (by decide)) rfl (by decide))
            (Yields.pure _ _))))
  have hparam : Yields (param r) (Settings.standard tr) c (.pattern ⟨[], false⟩) ⟨o + 3, rest⟩ :=
    Yields.bind (peekDelimiter_lone hc rfl (by decide)) (Yields.bind hpattern (Yields.pure _ _))
  exact Yields.bind_refuses hparam (Refuses.bind (refuses_delimiter ':' _ rfl hcolon) _)

/-- What the first binding of a dict starts with: a name with an equals sign behind it, no
name at all, or a keyword. -/
theorem entryText_cases (b : Binding Expr Expr) (t : List Char) :
    (∃ (x : Name) (u : List Char),
        b.entryText.toList ++ ';' :: t = x.text.toList ++ ' ' :: '=' :: u) ∨
      NameEnds (b.entryText.toList ++ ';' :: t) ∨
      (∃ u, b.entryText.toList ++ ';' :: t = "inherit".toList ++ u ∧ NameEnds u) := by
  cases b with
  | equation k v =>
    have hchars : (Binding.equation k v).entryText.toList ++ ';' :: t =
        k.renderKey.toList ++ ' ' :: '=' :: ' ' :: (v.chars .normal ++ ';' :: t) := by
      simp [Binding.entryText, Expr.chars]
    rw [hchars]
    have hkey := k.keyText_renderKey
    generalize k.renderKey.toList = w at hkey ⊢
    cases hkey with
    | name x => exact Or.inl ⟨x, _, rfl⟩
    | quoted u => exact Or.inr (Or.inl (nameEnds_cons (by decide) _))
    | hole u => exact Or.inr (Or.inl (nameEnds_cons (by decide) _))
  | inherit source names => exact Or.inr (Or.inr (exists_inherit_append source names t))

/-- The first binding of a dict is no field of a pattern. -/
theorem refuses_lambda_entry (b : Binding Expr Expr) (t : List Char)
    (hc : c.skip = ⟨o, '\x7b' :: ' ' :: (b.entryText.toList ++ ';' :: t)⟩) :
    Refuses (lambda r) (Settings.standard tr) c := by
  have hskip := Cursor.skip_of_skip_eq hc
  have hkey : StartsKey (b.entryText.toList ++ ';' :: t) := b.startsKey_entryText.append _
  have hfirst : Cursor.skip ⟨o + 1, ' ' :: (b.entryText.toList ++ ';' :: t)⟩ =
      ⟨o + 2, b.entryText.toList ++ ';' :: t⟩ := by
    rw [Cursor.skip_space]
    exact hkey.skip _
  have hstart := Cursor.skip_of_skip_eq hfirst
  have hbrace := hkey.head?_ne (y := '\x7d') (by decide) (by decide) (by decide)
  have hdots := hkey.head?_ne (y := '.') (by decide) (by decide) (by decide)
  refine Refuses.bind ?_ _
  refine Yields.bind_refuses (peekDelimiter_lone hc rfl (by decide)) (Refuses.bind ?_ _)
  refine Yields.bind_refuses (yields_cursor _) ?_
  refine Yields.bind_refuses (yields_delimiter hskip rfl (by decide)) ?_
  -- Without a name the fields fail; with one they end in front of an equals sign.
  have hnone : Refuses identifier (Settings.standard tr)
        ⟨o + 2, b.entryText.toList ++ ';' :: t⟩ →
      Refuses (fieldList r) (Settings.standard tr)
        ⟨o + 1, ' ' :: (b.entryText.toList ++ ';' :: t)⟩ := by
    intro h
    refine Yields.bind_refuses (peekDelimiter_of_head?_ne '\x7d' hfirst rfl hbrace) ?_
    refine Refuses.repeated ?_
    refine Yields.bind_refuses (peekDelimiter_of_head?_ne '.' hstart rfl hdots) ?_
    exact Refuses.bind h _
  obtain ⟨x, u, hw⟩ | hends | ⟨u, hw, hends⟩ := entryText_cases b t
  · rw [hw] at hfirst hstart hbrace hdots ⊢
    have hequals : Cursor.skip ⟨o + 2 + x.text.toList.length, ' ' :: '=' :: u⟩ =
        ⟨o + 2 + x.text.toList.length + 1, '=' :: u⟩ := by
      rw [Cursor.skip_space]
      exact Cursor.skip_cons (by decide)
    have hdefault : Yields (fieldDefault r) (Settings.standard tr)
        ⟨o + 2 + x.text.toList.length, ' ' :: '=' :: u⟩ none
        ⟨o + 2 + x.text.toList.length + 1, '=' :: u⟩ :=
      Yields.bind (peekDelimiter_of_head?_ne '?' hequals rfl (by simp)) (Yields.pure _ _)
    have hround : Yields (fieldRound r []) (Settings.standard tr)
        ⟨o + 2, x.text.toList ++ ' ' :: '=' :: u⟩ (.done ([⟨x, none⟩], false))
        ⟨o + 2 + x.text.toList.length + 1, '=' :: u⟩ :=
      Yields.bind (peekDelimiter_of_head?_ne '.' hstart rfl hdots)
        (Yields.bind (yields_identifier hstart (nameEnds_cons (by decide) _))
          (Yields.bind hdefault
            (Yields.bind (peekDelimiter_of_head?_ne ',' (Cursor.skip_cons (by decide)) rfl
              (by simp)) (Yields.pure _ _))))
    have hlist : Yields (fieldList r) (Settings.standard tr)
        ⟨o + 1, ' ' :: (x.text.toList ++ ' ' :: '=' :: u)⟩ ([⟨x, none⟩], false)
        ⟨o + 2 + x.text.toList.length + 1, '=' :: u⟩ :=
      Yields.bind (peekDelimiter_of_head?_ne '\x7d' hfirst rfl hbrace) (Loops.done hround).yields
    refine Yields.bind_refuses hlist (Refuses.bind (refuses_delimiter '\x7d' _ rfl ?_) _)
    rw [nextSolid_cons (by decide)]
    decide
  · exact Refuses.bind (hnone (refuses_identifier_of_nameEnds hstart hends)) _
  · rw [hw] at hstart
    refine Refuses.bind (hnone ?_) _
    rw [hw]
    exact refuses_identifier_keyword hstart hends (by decide)

/-- What leads with one of the listed forms is no function. -/
theorem refuses_lambda (h : Leads w) (hc : c.skip = ⟨o, w⟩) :
    Refuses (lambda r) (Settings.standard tr) c := by
  have hskip := Cursor.skip_of_skip_eq hc
  cases h with
  | @mark x hx t =>
    refine Refuses.bind ?_ _
    have hbrace : (x :: t).head? ≠ some '\x7b' := by
      intro h
      obtain rfl : x = '\x7b' := by simpa using h
      simp at hx
    refine Yields.bind_refuses (peekDelimiter_of_head?_ne '\x7b' hc rfl hbrace) ?_
    exact Refuses.bind (refuses_identifier_of_nameEnds hskip (nameEnds_of_mem_marks hx t)) _
  | name x h => exact refuses_lambda_variable h hc
  | recursive t =>
    refine Refuses.bind ?_ _
    have hbrace : ("rec".toList ++ ' ' :: t).head? ≠ some '\x7b' := by simp
    refine Yields.bind_refuses (peekDelimiter_of_head?_ne '\x7b' hc rfl hbrace) ?_
    exact Refuses.bind
      (refuses_identifier_keyword hskip (nameEnds_cons (by decide) _) (by decide)) _
  | @dict bs rest h =>
    cases bs with
    | nil => exact refuses_lambda_empty h hc
    | cons b bs =>
      rw [renderEntries_cons] at hc
      refine refuses_lambda_entry b
        (' ' :: ((renderEntries bs).toList ++ '\x7d' :: rest)) (o := o) ?_
      simpa using hc

/-- A `let` is no function. -/
theorem refuses_lambda_let (h : NameEnds rest) (hc : c.skip = ⟨o, "let".toList ++ rest⟩) :
    Refuses (lambda r) (Settings.standard tr) c := by
  have hskip := Cursor.skip_of_skip_eq hc
  refine Refuses.bind ?_ _
  have hbrace : ("let".toList ++ rest).head? ≠ some '\x7b' := by simp
  refine Yields.bind_refuses (peekDelimiter_of_head?_ne '\x7b' hc rfl hbrace) ?_
  exact Refuses.bind (refuses_identifier_keyword hskip h (by decide)) _

/-- What leads with one of the listed forms is no `let`. -/
theorem peekKeyword_let (h : Leads w) (hc : c.skip = ⟨o, w⟩) :
    Yields (peekKeyword "let") (Settings.standard tr) c false ⟨o, w⟩ := by
  cases h with
  | mark hx t => exact peekKeyword_of_nameEnds hc (nameEnds_of_mem_marks hx t) (by decide)
  | name x h => exact peekKeyword_name hc h.nameEnds (by decide)
  | recursive t =>
    refine peekKeyword_of_wordPart_ne hc ?_
    rw [wordPart_keyword (by decide) (nameEnds_cons (by decide) _)]
    decide
  | dict bs h => exact peekKeyword_of_nameEnds hc (nameEnds_cons (by decide) _) (by decide)

/-! ## Nothing follows -/

/-- Behind the blank there is the end of the text, or one of the closing marks. -/
theorem Closes.cases (h : Closes rest) (o : Nat) :
    (∃ m, Cursor.skip ⟨o, rest⟩ = ⟨m, []⟩) ∨
      ∃ m x t, Cursor.skip ⟨o, rest⟩ = ⟨m, x :: t⟩ ∧ x ∈ closers := by
  cases ht : rest.drop (blankLength false rest) with
  | nil => exact Or.inl ⟨o + blankLength false rest, by rw [Cursor.skip_eq, ht]⟩
  | cons x t =>
    refine Or.inr ⟨o + blankLength false rest, x, t, by rw [Cursor.skip_eq, ht], h x ?_⟩
    simp [nextSolid, ht]

/-- In front of what may follow an expression there is no name. -/
theorem refuses_identifier_of_closes (h : Closes rest) (hc : c.skip = Cursor.skip ⟨o, rest⟩) :
    Refuses identifier (Settings.standard tr) c := by
  obtain ⟨m, hm⟩ | ⟨m, x, t, hm, hx⟩ := Closes.cases h o
  · exact refuses_identifier_of_nameEnds (hc.trans hm) nameEnds_nil
  · exact refuses_identifier_of_nameEnds (hc.trans hm)
      (nameEnds_cons (isNameChar_of_mem_closers hx) t)

/-- In front of what may follow an expression there is no function. -/
theorem refuses_lambda_of_closes (h : Closes rest) (hc : c.skip = Cursor.skip ⟨o, rest⟩) :
    Refuses (lambda r) (Settings.standard tr) c := by
  have hbrace : nextSolid rest ≠ some '\x7b' := by
    intro hx
    exact absurd (h _ hx) (by decide)
  refine Refuses.bind (Yields.bind_refuses
    (peekDelimiter_of_head?_ne '\x7b' hc rfl hbrace) ?_) _
  exact Refuses.bind (refuses_identifier_of_closes (o := o) h (Cursor.skip_skip _)) _

/-- In front of what may follow an expression there is no operand. -/
theorem refuses_dotted_of_closes (h : Closes rest) (hc : c.skip = Cursor.skip ⟨o, rest⟩) :
    Refuses (dotted r) (Settings.standard tr) c := by
  have hskip := Cursor.skip_skip ⟨o, rest⟩
  have hnot : ∀ x, x ∉ closers → nextSolid rest ≠ some x := fun x hx hs => hx (h x hs)
  have hstring : Yields peekString (Settings.standard tr) c false (Cursor.skip ⟨o, rest⟩) := by
    obtain ⟨m, hm⟩ | ⟨m, x, t, hm, hx⟩ := Closes.cases h o
    · rw [hm]
      exact peekString_nil (hc.trans hm)
    · rw [hm]
      refine peekString_of_cons (hc.trans hm) ?_ ?_
      · rintro rfl
        revert hx
        decide
      · rintro rfl
        revert hx
        decide
  have hrec : Yields (peekKeyword "rec") (Settings.standard tr) (Cursor.skip ⟨o, rest⟩) false
      (Cursor.skip ⟨o, rest⟩) := by
    obtain ⟨m, hm⟩ | ⟨m, x, t, hm, hx⟩ := Closes.cases h o
    · rw [hm] at hskip ⊢
      exact peekKeyword_of_nameEnds hskip nameEnds_nil (by decide)
    · rw [hm] at hskip ⊢
      exact peekKeyword_of_nameEnds hskip (nameEnds_cons (isNameChar_of_mem_closers hx) t)
        (by decide)
  refine Refuses.bind ?_ _
  refine Yields.bind_refuses hstring ?_
  refine Yields.bind_refuses (peekDelimiter_of_head?_ne '[' hskip rfl (hnot _ (by decide))) ?_
  refine Yields.bind_refuses (peekDelimiter_of_head?_ne '(' hskip rfl (hnot _ (by decide))) ?_
  refine Yields.bind_refuses hrec ?_
  refine Yields.bind_refuses (peekDelimiter_of_head?_ne '\x7b' hskip rfl (hnot _ (by decide))) ?_
  exact Refuses.bind (refuses_identifier_of_closes h hskip) _

end Parser

end LazyConfig
