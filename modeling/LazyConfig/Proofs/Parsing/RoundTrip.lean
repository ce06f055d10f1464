import LazyConfig.Parser
import LazyConfig.Proofs.Parsing.Leading
set_option autoImplicit false

/-!
# Parsing: a rendered program reads back

Operands and applications are read by loops that extend what has been read so far, so
their statements are about continuations: if the loop would go on from the text behind
an expression to some value, then the whole rule reads that value.  The left spine of
the tree is then an induction, and the rest of the tree is inside constructs that are
strictly shorter.  The induction over the depth of the rules puts both together.
-/

namespace LazyConfig.Parser

variable {tr : Bool} {c : Cursor} {o n : Nat} {w rest : List Char} {r : Rules}

/-! ## Operands -/

/-- The text of an operand is read, and then keys are taken from behind it. -/
def ReadsOperand (r : Rules) (tr : Bool) (w : List Char) (e : Expr) : Prop :=
  ∀ (c : Cursor) (o : Nat) (rest : List Char), c.skip = ⟨o, w ++ rest⟩ → NameEnds rest →
    ∀ (v : Expr) (c' : Cursor),
      Loops (dotRound r) (Settings.standard tr) e ⟨o + w.length, rest⟩ v c' →
      Yields (dotted r) (Settings.standard tr) c v c'

theorem ReadsOperand.of_primary {e : Expr}
    (h : ∀ (c : Cursor) (o : Nat) (rest : List Char), c.skip = ⟨o, w ++ rest⟩ → NameEnds rest →
      Yields (primary r) (Settings.standard tr) c e ⟨o + w.length, rest⟩) :
    ReadsOperand r tr w e := by
  intro c o rest hc hrest v c' hloop
  exact Yields.bind (h c o rest hc hrest) hloop.yields

/-- An expression in parentheses is an operand. -/
theorem readsOperand_parens (hr : r.ReadBelow tr n) (e : Expr) (he : e.isCanonical = true)
    (hn : (e.chars .normal).length < n) :
    ReadsOperand r tr ('(' :: (e.chars .normal ++ [')'])) e := by
  refine ReadsOperand.of_primary fun c o rest hc _ => ?_
  simp only [List.cons_append, List.append_assoc, List.nil_append] at hc
  have hskip := Cursor.skip_of_skip_eq hc
  have hinner : Cursor.skip ⟨o + 1, e.chars .normal ++ ')' :: rest⟩ =
      ⟨o + 1, e.chars .normal ++ ')' :: rest⟩ :=
    ((e.startsOperand_chars .normal).append _).skip _
  have hend : o + ('(' :: (e.chars .normal ++ [')'])).length =
      o + 1 + (e.chars .normal).length + 1 := by simp; omega
  rw [hend]
  refine Yields.bind (peekString_of_cons hc (by decide) (by decide)) ?_
  refine Yields.bind (peekDelimiter_of_head?_ne '[' hskip rfl (by simp)) ?_
  refine Yields.bind (peekDelimiter_lone hskip rfl (by decide)) ?_
  refine Yields.bind (yields_advance 1 _) ?_
  refine Yields.bind (hr.expression.yields_closed he hn (by decide) hinner) ?_
  exact Yields.bind (yields_delimiter (Cursor.skip_cons (by decide)) rfl (by decide))
    (Yields.pure _ _)

theorem readsOperand_var (x : Name) : ReadsOperand r tr x.text.toList (.var x) := by
  refine ReadsOperand.of_primary fun c o rest hc hrest => ?_
  have hskip := Cursor.skip_of_skip_eq hc
  have hhead : ∀ y, isNameChar y = false → (x.text.toList ++ rest).head? ≠ some y := by
    intro y hy
    obtain ⟨z, u, hu, hz⟩ := x.exists_cons
    rw [hu]
    simpa using ne_of_isNameChar hz hy
  refine Yields.bind (peekString_name hc) ?_
  refine Yields.bind (peekDelimiter_of_head?_ne '[' hskip rfl (hhead _ (by decide))) ?_
  refine Yields.bind (peekDelimiter_of_head?_ne '(' hskip rfl (hhead _ (by decide))) ?_
  refine Yields.bind (peekKeyword_name hskip hrest (by decide)) ?_
  refine Yields.bind (peekDelimiter_of_head?_ne '\x7b' hskip rfl (hhead _ (by decide))) ?_
  exact Yields.bind (yields_identifier hskip hrest) (Yields.pure _ _)

theorem readsOperand_str (hr : r.ReadBelow tr n) (t : Template Expr)
    (ht : Template.isClean t = true ∧ canonicalPieces t = true)
    (hn : (renderTemplate t).toList.length ≤ n) :
    ReadsOperand r tr (renderTemplate t).toList (.str t) := by
  refine ReadsOperand.of_primary fun c o rest hc _ => ?_
  have hskip := Cursor.skip_of_skip_eq hc
  refine Yields.bind (peekString_renderTemplate hc) ?_
  exact Yields.bind (reads_string hr.expression t ht.1 ht.2 hn rest _ o hskip) (Yields.pure _ _)

theorem readsOperand_list (hr : r.ReadBelow tr n) (items : List Expr)
    (hitems : canonicalItems items = true) (hn : (Expr.list items).renderBare.toList.length ≤ n) :
    ReadsOperand r tr (Expr.list items).renderBare.toList (.list items) := by
  refine ReadsOperand.of_primary fun c o rest hc _ => ?_
  have hskip := Cursor.skip_of_skip_eq hc
  have hread := reads_list hr items hitems hn _ o hskip
  have hchars : (Expr.list items).renderBare.toList =
      '[' :: ' ' :: ((renderItems items).toList ++ [']']) := by
    simp [Expr.renderBare]
  rw [hchars] at hc hskip hread ⊢
  refine Yields.bind (peekString_of_cons hc (by decide) (by decide)) ?_
  exact Yields.bind (peekDelimiter_lone hskip rfl (by decide)) hread

theorem chars_dict (bs : List (Binding Expr Expr)) : (Expr.dict false bs).renderBare.toList =
    '\x7b' :: ' ' :: ((renderEntries bs).toList ++ ['\x7d']) := by
  simp [Expr.renderBare]

theorem readsOperand_dict (hr : r.ReadBelow tr n) (bs : List (Binding Expr Expr))
    (hbs : canonicalEntries bs = true) (hn : (Expr.dict false bs).renderBare.toList.length ≤ n) :
    ReadsOperand r tr (Expr.dict false bs).renderBare.toList (.dict false bs) := by
  refine ReadsOperand.of_primary fun c o rest hc _ => ?_
  have hskip := Cursor.skip_of_skip_eq hc
  have hread := reads_dict hr false bs hbs hn _ o hskip
  rw [chars_dict] at hc hskip hread ⊢
  refine Yields.bind (peekString_of_cons hc (by decide) (by decide)) ?_
  refine Yields.bind (peekDelimiter_of_head?_ne '[' hskip rfl (by simp)) ?_
  refine Yields.bind (peekDelimiter_of_head?_ne '(' hskip rfl (by simp)) ?_
  refine Yields.bind (peekKeyword_of_nameEnds hskip (nameEnds_cons (by decide) _) (by decide)) ?_
  exact Yields.bind (peekDelimiter_lone hskip rfl (by decide)) hread

theorem readsOperand_rec (hr : r.ReadBelow tr n) (bs : List (Binding Expr Expr))
    (hbs : canonicalEntries bs = true) (hn : (Expr.dict true bs).renderBare.toList.length ≤ n) :
    ReadsOperand r tr (Expr.dict true bs).renderBare.toList (.dict true bs) := by
  refine ReadsOperand.of_primary fun c o rest hc _ => ?_
  have hchars : (Expr.dict true bs).renderBare.toList =
      "rec".toList ++ ' ' :: (Expr.dict false bs).renderBare.toList := by
    simp [Expr.renderBare]
  rw [hchars] at hc hn ⊢
  rw [List.append_assoc, List.cons_append] at hc
  have hskip := Cursor.skip_of_skip_eq hc
  have hword : NameEnds (' ' :: ((Expr.dict false bs).renderBare.toList ++ rest)) :=
    nameEnds_cons (by decide) _
  have hinner : Cursor.skip ⟨o + "rec".toList.length,
      ' ' :: ((Expr.dict false bs).renderBare.toList ++ rest)⟩ =
      ⟨o + "rec".toList.length + 1, (Expr.dict false bs).renderBare.toList ++ rest⟩ := by
    rw [Cursor.skip_space]
    exact (((Expr.dict false bs).startsOperand_renderBare).append rest).skip _
  have hend : o + ("rec".toList ++ ' ' :: (Expr.dict false bs).renderBare.toList).length =
      o + "rec".toList.length + 1 + (Expr.dict false bs).renderBare.toList.length := by
    simp; omega
  rw [hend]
  refine Yields.bind (peekString_of_cons (x := 'r') hc (by decide) (by decide)) ?_
  refine Yields.bind (peekDelimiter_of_head?_ne '[' hskip rfl (by simp)) ?_
  refine Yields.bind (peekDelimiter_of_head?_ne '(' hskip rfl (by simp)) ?_
  refine Yields.bind (peekKeyword_of_wordPart hskip (wordPart_keyword (by decide) hword)
    (by decide)) ?_
  refine Yields.bind (yields_keyword hskip hword (by decide)) ?_
  exact reads_dict hr true bs hbs (by simp at hn ⊢; omega) _ _ hinner

/-- One more key is taken from behind an operand. -/
theorem yields_dotRound (hr : r.ReadBelow tr n) (subject key : Expr) (hkey : key.isCanonical = true)
    (hn : key.renderKey.toList.length ≤ n) (hrest : NameEnds rest) (o : Nat) :
    Yields (dotRound r subject) (Settings.standard tr) ⟨o, '.' :: (key.renderKey.toList ++ rest)⟩
      (.again (.dot subject key)) ⟨o + 1 + key.renderKey.toList.length, rest⟩ := by
  have hstart := key.keyText_renderKey.startsKey.append rest
  have hskip : Cursor.skip ⟨o, '.' :: (key.renderKey.toList ++ rest)⟩ =
      ⟨o, '.' :: (key.renderKey.toList ++ rest)⟩ := Cursor.skip_cons (by decide)
  have hdot := Lexicon.delimiterAt?_dot
    (hstart.head?_ne (y := '.') (by decide) (by decide) (by decide))
  refine Yields.bind (peekDelimiter_of_delimiterAt? hskip hdot) ?_
  refine Yields.bind (yields_cursor _) ?_
  refine Yields.bind (yields_advance 1 _) ?_
  have hread := reads_key hr key hkey hn hrest _ (o + 1) (hstart.skip (o + 1))
  exact Yields.bind (hread.attempt .key) (Yields.pure _ _)

theorem readsOperand_enclosed (hr : r.ReadBelow tr n) {e : Expr} {place : Place}
    (he : e.isCanonical = true) (hparens : e.needsParens place = true)
    (hn : (e.chars place).length ≤ n) : ReadsOperand r tr (e.chars place) e := by
  obtain ⟨-, hchars⟩ | ⟨hbare, -⟩ := e.chars_cases place
  · rw [hchars] at hn ⊢
    exact readsOperand_parens hr e he (by simp at hn; omega)
  · simp [hbare] at hparens

/-- An expression as it stands in front of a dot is an operand: the induction is down the
chain of keys. -/
theorem readsOperand_dotLeft (hr : r.ReadBelow tr n) : ∀ e : Expr, e.isCanonical = true →
    (e.chars .dotLeft).length ≤ n → ReadsOperand r tr (e.chars .dotLeft) e
  | .var x, _, _ => readsOperand_var x
  | .str t, he, hn => readsOperand_str hr t (by simpa [Expr.isCanonical] using he) hn
  | .list items, he, hn => readsOperand_list hr items (by simpa [Expr.isCanonical] using he) hn
  | .dict false bs, he, hn => readsOperand_dict hr bs (by simpa [Expr.isCanonical] using he) hn
  | .dict true bs, he, hn => readsOperand_rec hr bs (by simpa [Expr.isCanonical] using he) hn
  | .dot subject key, he, hn => by
    have hparts : subject.isCanonical = true ∧ key.isCanonical = true := by
      simpa [Expr.isCanonical] using he
    have hchars : (Expr.dot subject key).chars .dotLeft =
        subject.chars .dotLeft ++ '.' :: key.renderKey.toList := chars_dot subject key
    rw [hchars] at hn ⊢
    intro c o rest hc hrest v c' hloop
    rw [List.append_assoc, List.cons_append] at hc
    refine readsOperand_dotLeft hr subject hparts.1 (by simp at hn; omega) c o _ hc
      (nameEnds_cons (by decide) _) v c' ?_
    have hround := yields_dotRound hr subject key hparts.2 (by simp at hn; omega) hrest
      (o + (subject.chars .dotLeft).length)
    have hend : o + (subject.chars .dotLeft ++ '.' :: key.renderKey.toList).length =
        o + (subject.chars .dotLeft).length + 1 + key.renderKey.toList.length := by simp; omega
    rw [hend] at hloop
    have hshorter : rest.length < ('.' :: (key.renderKey.toList ++ rest)).length := by
      rw [List.length_cons, List.length_append]
      omega
    exact Loops.again hround hshorter hloop
  | .lambda p body, he, hn => readsOperand_enclosed hr he rfl hn
  | .apply f a, he, hn => readsOperand_enclosed hr he rfl hn
  | .letIn bs body, he, hn => readsOperand_enclosed hr he rfl hn

/-- An operand that nothing more follows. -/
theorem ReadsOperand.readsOver {e : Expr} (h : ReadsOperand r tr w e) (hrest : Follows rest) :
    ReadsOver (dotted r) tr w rest e := by
  intro c o hc
  have hdot : nextSolid rest ≠ some '.' := fun hx => (hrest.next '.' hx).1 rfl
  refine h c o rest hc hrest.nameEnds _ _ (Loops.done ?_)
  exact Yields.bind (peekDelimiter_of_nextSolid_ne '.' _ rfl hdot) (Yields.pure _ _)

/-! ## Applications -/

/-- The text of a function is read, and then arguments are taken from behind it. -/
def ReadsFunction (r : Rules) (tr : Bool) (w : List Char) (e : Expr) : Prop :=
  ∀ (c : Cursor) (o : Nat) (rest : List Char), c.skip = ⟨o, w ++ rest⟩ → Follows rest →
    ∀ (v : Expr) (c' : Cursor),
      Loops (argumentRound r) (Settings.standard tr) e (Cursor.skip ⟨o + w.length, rest⟩) v c' →
      Yields (application r) (Settings.standard tr) c v c'

theorem ReadsOperand.readsFunction {e : Expr} (h : ReadsOperand r tr w e) :
    ReadsFunction r tr w e := by
  intro c o rest hc hrest v c' hloop
  exact Yields.bind (h.readsOver hrest c o hc) hloop.yields

/-- An argument that is no function stands as it would in front of a dot. -/
theorem chars_applyRight {a : Expr} (h : ∀ p body, a ≠ .lambda p body) :
    a.chars .applyRight = a.chars .dotLeft := by
  have hparens : a.needsParens .applyRight = a.needsParens .dotLeft := by
    cases a <;> simp_all [Expr.needsParens]
  simp [Expr.chars, Expr.render, enclose, hparens]

theorem chars_listItem (e : Expr) : e.chars .listItem = e.chars .dotLeft := by
  have hparens : e.needsParens .listItem = e.needsParens .dotLeft := by
    cases e <;> simp [Expr.needsParens]
  simp [Expr.chars, Expr.render, enclose, hparens]

/-- What stands in front of a dot leads with no function. -/
theorem leads_dotLeft (e : Expr) (hrest : NoParam rest) : Leads (e.chars .dotLeft ++ rest) := by
  obtain ⟨-, hchars⟩ | ⟨hbare, hchars⟩ := e.chars_cases .dotLeft
  · rw [hchars]
    exact Leads.of_parens e rest
  · rw [hchars]
    have hoperation : e.isOperation = true := by
      cases h : e.isOperation with
      | true => rfl
      | false => simp [(Expr.needsParens_of_not_isOperation h).1] at hbare
    exact e.leads_chars hoperation rest hrest

/-- One more argument that is no function. -/
theorem yields_argumentRound (hr : r.ReadBelow tr n) (f a : Expr) (ha : a.isCanonical = true)
    (hn : (a.chars .dotLeft).length ≤ n) (hrest : Follows rest) (o : Nat) :
    Yields (argumentRound r f) (Settings.standard tr) ⟨o, a.chars .dotLeft ++ rest⟩
      (.again (.apply f a)) (Cursor.skip ⟨o + (a.chars .dotLeft).length, rest⟩) := by
  have hskip := ((a.startsOperand_chars .dotLeft).append rest).skip o
  have hleads := leads_dotLeft a hrest.noParam
  have hread := (readsOperand_dotLeft hr a ha hn).readsOver hrest _ o hskip
  refine Yields.bind ((refuses_lambda hleads hskip).attempt .lambda) ?_
  exact Yields.bind (hread.attempt .dotted) (Yields.pure _ _)

/-- An expression as it stands in front of an argument is a function: the induction is down
the chain of arguments. -/
theorem readsFunction_applyLeft (hr : r.ReadBelow tr n) : ∀ e : Expr, e.isCanonical = true →
    (e.chars .applyLeft).length ≤ n → ReadsFunction r tr (e.chars .applyLeft) e
  | .var x, he, hn => (readsOperand_dotLeft hr (.var x) he hn).readsFunction
  | .str t, he, hn => (readsOperand_dotLeft hr (.str t) he hn).readsFunction
  | .list items, he, hn => (readsOperand_dotLeft hr (.list items) he hn).readsFunction
  | .dict recursive bs, he, hn => (readsOperand_dotLeft hr (.dict recursive bs) he hn).readsFunction
  | .dot subject key, he, hn => (readsOperand_dotLeft hr (.dot subject key) he hn).readsFunction
  | .lambda p body, he, hn => (readsOperand_dotLeft hr (.lambda p body) he hn).readsFunction
  | .letIn bs body, he, hn => (readsOperand_dotLeft hr (.letIn bs body) he hn).readsFunction
  | .apply f a, he, hn => by
    by_cases hlambda : ∃ p body, a = .lambda p body
    · obtain ⟨p, body, rfl⟩ := hlambda
      exact (readsOperand_enclosed hr he rfl hn).readsFunction
    · have ha : ∀ p body, a ≠ .lambda p body := fun p body h => hlambda ⟨p, body, h⟩
      have hparts : f.isCanonical = true ∧ a.isCanonical = true := by
        simpa [Expr.isCanonical] using he
      have hparens : (Expr.apply f a).needsParens .applyLeft = false := by
        cases a <;> simp_all [Expr.needsParens]
      have hchars : (Expr.apply f a).chars .applyLeft =
          f.chars .applyLeft ++ ' ' :: a.chars .dotLeft := by
        rw [← chars_applyRight ha, ← chars_apply]
        simp [Expr.chars, Expr.render, enclose, hparens, Expr.needsParens_normal]
      rw [hchars] at hn ⊢
      intro c o rest hc hrest v c' hloop
      rw [List.append_assoc, List.cons_append] at hc
      have hstart := (a.startsOperand_chars .dotLeft).append rest
      have hnext :
          Cursor.skip ⟨o + (f.chars .applyLeft).length, ' ' :: (a.chars .dotLeft ++ rest)⟩ =
            ⟨o + (f.chars .applyLeft).length + 1, a.chars .dotLeft ++ rest⟩ := by
        rw [Cursor.skip_space]
        exact hstart.skip _
      refine readsFunction_applyLeft hr f hparts.1 (by simp at hn; omega) c o _ hc
        (Follows.of_space_operand (a.startsOperand_chars .dotLeft) rest) v c' ?_
      have hround := yields_argumentRound hr f a hparts.2 (by simp at hn; omega) hrest
        (o + (f.chars .applyLeft).length + 1)
      have hpos : 0 < (a.chars .dotLeft).length := by
        obtain ⟨x, t, ht, -⟩ := (a.startsOperand_chars .dotLeft).exists_cons
        simp [ht]
      have hshorter := Cursor.length_rest_skip_le
        ⟨o + (f.chars .applyLeft).length + 1 + (a.chars .dotLeft).length, rest⟩
      have hend : o + (f.chars .applyLeft ++ ' ' :: a.chars .dotLeft).length =
          o + (f.chars .applyLeft).length + 1 + (a.chars .dotLeft).length := by simp; omega
      rw [hend] at hloop
      rw [hnext]
      exact Loops.again hround (by simp at hshorter ⊢; omega) hloop

/-- After the last argument there is none. -/
theorem yields_argumentRound_of_closes (f : Expr) (hrest : Closes rest) (o : Nat) :
    Yields (argumentRound r f) (Settings.standard tr) (Cursor.skip ⟨o, rest⟩) (.done f)
      (Cursor.skip ⟨o, rest⟩) := by
  have hskip := Cursor.skip_skip ⟨o, rest⟩
  refine Yields.bind ((refuses_lambda_of_closes hrest hskip).attempt .lambda) ?_
  exact Yields.bind ((refuses_dotted_of_closes hrest hskip).attempt .dotted) (Yields.pure _ _)

/-! ## Expressions -/

/-- A function of arguments that leads with no function and no `let` is an expression. -/
theorem ReadsFunction.readsOver {e : Expr} (h : ReadsFunction r tr w e) (hleads : Leads (w ++ rest))
    (hrest : Closes rest) : ReadsOver (expression r) tr w rest e := by
  intro c o hc
  have hskip := Cursor.skip_of_skip_eq hc
  refine Yields.bind ((refuses_lambda hleads hc).attempt .lambda) ?_
  refine Yields.bind (peekKeyword_let hleads hc) ?_
  exact h _ o rest hskip (Follows.of_closes hrest) _ _
    (Loops.done (yields_argumentRound_of_closes e hrest _))

/-- An application to a function, which extends as far as it can. -/
theorem readsOver_apply_lambda (hr : r.ReadBelow tr n) (f : Expr) (p : Param Expr) (body : Expr)
    (he : (Expr.apply f (.lambda p body)).isCanonical = true)
    (hn : ((Expr.apply f (.lambda p body)).chars .normal).length ≤ n) (hrest : Closes rest) :
    ReadsOver (expression r) tr ((Expr.apply f (.lambda p body)).chars .normal) rest
      (.apply f (.lambda p body)) := by
  intro c o hc
  have hskip := Cursor.skip_of_skip_eq hc
  have hparts : f.isCanonical = true ∧ (Expr.lambda p body).isCanonical = true := by
    simpa [Expr.isCanonical] using he
  have hleads := (Expr.apply f (.lambda p body)).leads_chars rfl rest
    (Follows.of_closes hrest).noParam
  refine Yields.bind ((refuses_lambda hleads hc).attempt .lambda) ?_
  refine Yields.bind (peekKeyword_let hleads hc) ?_
  have hchars : (Expr.apply f (.lambda p body)).chars .normal =
      f.chars .applyLeft ++ ' ' :: (Expr.lambda p body).chars .normal :=
    chars_apply f (.lambda p body)
  rw [hchars] at hn hskip ⊢
  rw [List.append_assoc, List.cons_append] at hskip
  have hstart := (Expr.lambda p body).startsOperand_chars .normal
  have hnext : Cursor.skip ⟨o + (f.chars .applyLeft).length,
      ' ' :: ((Expr.lambda p body).chars .normal ++ rest)⟩ =
      ⟨o + (f.chars .applyLeft).length + 1, (Expr.lambda p body).chars .normal ++ rest⟩ := by
    rw [Cursor.skip_space]
    exact (hstart.append rest).skip _
  have hend : o + (f.chars .applyLeft ++ ' ' :: (Expr.lambda p body).chars .normal).length =
      o + (f.chars .applyLeft).length + 1 + ((Expr.lambda p body).chars .normal).length := by
    simp; omega
  rw [List.append_assoc, List.cons_append, hend]
  refine readsFunction_applyLeft hr f hparts.1 (by simp at hn; omega) _ o _ hskip
    (Follows.of_space_operand hstart rest) _ _ ?_
  rw [hnext]
  have hargument := reads_lambda hr p body hparts.2 (by simp at hn; omega) hrest _ _
    ((hstart.append rest).skip (o + (f.chars .applyLeft).length + 1))
  exact Loops.done (Yields.bind (hargument.attempt .lambda) (Yields.pure _ _))

/-- Bindings with their body are an expression. -/
theorem readsOver_letIn (hr : r.ReadBelow tr n) (bs : List (Binding String Expr)) (body : Expr)
    (he : (Expr.letIn bs body).isCanonical = true)
    (hn : ((Expr.letIn bs body).chars .normal).length ≤ n) (hrest : Closes rest) :
    ReadsOver (expression r) tr ((Expr.letIn bs body).chars .normal) rest (.letIn bs body) := by
  intro c o hc
  have hparts : canonicalDefinitions bs = true ∧ body.isCanonical = true := by
    simpa [Expr.isCanonical] using he
  have hchars : (Expr.letIn bs body).chars .normal = "let".toList ++
      ' ' :: ((renderDefinitions bs).toList ++ ("in".toList ++ ' ' :: body.chars .normal)) := by
    simp [Expr.chars, Expr.renderBare]
  rw [hchars] at hc hn ⊢
  simp only [List.append_assoc, List.cons_append] at hc
  have hskip := Cursor.skip_of_skip_eq hc
  have hword : ∀ t : List Char, NameEnds (' ' :: t) := fun t => nameEnds_cons (by decide) t
  refine Yields.bind ((refuses_lambda_let (hword _) hc).attempt .lambda) ?_
  refine Yields.bind (peekKeyword_of_wordPart hc (wordPart_keyword (by decide) (hword _))
    (by decide)) ?_
  refine Yields.bind (yields_keyword hskip (hword _) (by decide)) ?_
  have hloop := loops_renderDefinitions hr bs [] hparts.1 (by simp at hn; omega)
    (hword (body.chars .normal ++ rest)) (Cursor.skip_space (o + "let".toList.length) _)
  refine Yields.bind hloop.yields ?_
  refine Yields.bind (yields_keyword (skip_in _ _) (hword _) (by decide)) ?_
  have hbody : Cursor.skip ⟨o + "let".toList.length + 1 + (renderDefinitions bs).toList.length +
      "in".toList.length, ' ' :: (body.chars .normal ++ rest)⟩ =
      ⟨o + "let".toList.length + 1 + (renderDefinitions bs).toList.length + "in".toList.length + 1,
        body.chars .normal ++ rest⟩ := by
    rw [Cursor.skip_space]
    exact ((body.startsOperand_chars .normal).append rest).skip _
  have hend : o + ("let".toList ++ ' ' :: ((renderDefinitions bs).toList ++
      ("in".toList ++ ' ' :: body.chars .normal))).length =
      o + "let".toList.length + 1 + (renderDefinitions bs).toList.length + "in".toList.length + 1 +
        (body.chars .normal).length := by
    simp; omega
  rw [hend]
  exact Yields.bind (hr.expression body hparts.2 (by simp at hn; omega) rest hrest _ _ hbody)
    (Yields.pure _ _)

/-- An expression is read back where it stands bare. -/
theorem readsOver_expression (hr : r.ReadBelow tr n) (e : Expr) (he : e.isCanonical = true)
    (hn : (e.chars .normal).length ≤ n) (hrest : Closes rest) :
    ReadsOver (expression r) tr (e.chars .normal) rest e := by
  by_cases hbare : e.needsParens .applyLeft = false
  · have hchars : e.chars .applyLeft = e.chars .normal := by
      simp [Expr.chars, Expr.render, enclose, hbare, Expr.needsParens_normal]
    have hoperation : e.isOperation = true := by
      cases h : e.isOperation with
      | true => rfl
      | false => simp [(Expr.needsParens_of_not_isOperation h).2] at hbare
    have hread := readsFunction_applyLeft hr e he (by rwa [hchars])
    rw [hchars] at hread
    exact hread.readsOver (e.leads_chars hoperation rest (Follows.of_closes hrest).noParam) hrest
  · cases e with
    | lambda p body =>
      intro c o hc
      exact Yields.bind ((reads_lambda hr p body he hn hrest c o hc).attempt .lambda)
        (Yields.pure _ _)
    | letIn bs body => exact readsOver_letIn hr bs body he hn hrest
    | apply f a =>
      cases a with
      | lambda p body => exact readsOver_apply_lambda hr f p body he hn hrest
      | _ => exact absurd rfl hbare
    | _ => exact absurd rfl hbare

/-- An expression is read back at every place. -/
theorem readsOver_place (hr : r.ReadBelow tr n) (e : Expr) (he : e.isCanonical = true)
    (place : Place) (hn : (e.chars place).length ≤ n) (hrest : Closes rest) :
    ReadsOver (expression r) tr (e.chars place) rest e := by
  obtain ⟨-, hchars⟩ | ⟨-, hchars⟩ := e.chars_cases place
  · rw [hchars] at hn ⊢
    exact (readsOperand_parens hr e he (by simp at hn; omega)).readsFunction.readsOver
      (Leads.of_parens e rest) hrest
  · rw [hchars] at hn ⊢
    exact readsOver_expression hr e he hn hrest

/-! ## Whole texts -/

/-- Rules that may nest to a depth read every text shorter than the depth. -/
theorem readBelow_ofDepth (depth : Nat) : (Rules.ofDepth depth).ReadBelow tr depth := by
  induction depth with
  | zero =>
    exact ⟨fun _ _ h => absurd h (Nat.not_lt_zero _), fun _ _ h => absurd h (Nat.not_lt_zero _)⟩
  | succ depth ih =>
    refine ⟨fun e he hlt rest hrest => ?_, fun e he hlt rest hrest => ?_⟩
    · exact readsOver_expression ih e he (Nat.le_of_lt_succ hlt) hrest
    · rw [chars_listItem] at hlt ⊢
      exact (readsOperand_dotLeft ih e he (Nat.le_of_lt_succ hlt)).readsOver hrest

theorem yields_program (hr : r.ReadBelow tr n) (e : Expr) (he : e.isCanonical = true)
    (place : Place) (hn : (e.chars place).length ≤ n) :
    Yields (program r) (Settings.standard tr) ⟨0, e.chars place⟩ e
      ⟨(e.chars place).length, []⟩ := by
  have hstart : Cursor.skip ⟨0, e.chars place⟩ = ⟨0, e.chars place ++ []⟩ := by
    rw [List.append_nil]
    exact (e.startsOperand_chars place).skip 0
  have hread := readsOver_place hr e he place hn closes_nil _ _ hstart
  rw [Nat.zero_add, Cursor.skip_nil] at hread
  refine Yields.bind hread ?_
  refine Yields.bind (yields_skipBlank _) ?_
  exact Yields.bind (yields_ahead _ _) (Yields.pure _ _)

end LazyConfig.Parser

namespace LazyConfig

open LazyConfig.Parser

/-- A rendered program is accepted as the tree it was rendered from, with a trace or without. -/
theorem readTraced_render (e : Expr) (h : e.isCanonical = true) (place : Place) (tracing : Bool) :
    (readTraced (Settings.standard tracing) (e.render place)).1 = .accepted e := by
  have hreply : (Parser.run program (Settings.standard tracing) (e.render place)).1 =
      .ok e ⟨(e.chars place).length, []⟩ :=
    yields_program (readBelow_ofDepth ((e.chars place).length + 1)) e h place (Nat.le_succ _)
  unfold readTraced
  rcases hrun : Parser.run program (Settings.standard tracing) (e.render place) with ⟨reply, events⟩
  rw [hrun] at hreply
  subst hreply
  rfl

/-- A tree rendered as a key is read back by the rule for keys, up to the end of the text. -/
theorem run_key_renderKey (e : Expr) (h : e.isCanonical = true) (tracing : Bool) :
    (Parser.run key (Settings.standard tracing) e.renderKey).1 =
      .ok e ⟨e.renderKey.toList.length, []⟩ := by
  have hstart : Cursor.skip ⟨0, e.renderKey.toList⟩ = ⟨0, e.renderKey.toList ++ []⟩ := by
    rw [List.append_nil]
    exact e.keyText_renderKey.startsKey.skip 0
  have hbelow : (Rules.ofDepth (e.renderKey.toList.length + 1)).ReadBelow tracing
      (e.renderKey.toList.length + 1) := readBelow_ofDepth _
  have hread := reads_key hbelow e h (Nat.le_succ _) nameEnds_nil _ _ hstart
  rw [Nat.zero_add] at hread
  exact hread

/-- Reading undoes rendering: whatever canonical tree is rendered for whatever place, the
reader accepts the text and gives the tree, and the rule for keys reads the tree from its
text as a key and stops at the end. -/
theorem read_render (e : Expr) (h : e.isCanonical = true) :
    (∀ place : Place, readProgram Lexicon.standard (e.render place) = .accepted e) ∧
      (Parser.run Parser.key ⟨Lexicon.standard, false⟩ e.renderKey).1 =
        .ok e ⟨e.renderKey.toList.length, []⟩ :=
  ⟨fun place => readTraced_render e h place false, run_key_renderKey e h false⟩

/-- A function of a pattern with a default, applied and looked up under a key with an
antiquote, is read back from every place. -/
theorem read_render_pattern :
    let name : Name := ⟨"x", by decide⟩
    let pattern : Pattern Expr := ⟨[⟨name, some (.str [.literal "a$\x7b\"\n"])⟩], true⟩
    let e : Expr := .dot (.apply (.lambda (.both name pattern) (.var name)) (.dict true
      [.equation (.str [.antiquote (.var name), .literal "b"]) (.list [.letIn [] (.var name)]),
        .inherit none ["in"]])) (.str [.literal "in"])
    e.isCanonical = true ∧ readProgram Lexicon.standard (e.render .applyRight) = .accepted e ∧
      (Parser.run Parser.key ⟨Lexicon.standard, false⟩ e.renderKey).1 =
        .ok e ⟨e.renderKey.toList.length, []⟩ := by
  intro name pattern e
  have h : e.isCanonical = true := by decide +kernel
  exact ⟨h, (read_render e h).1 .applyRight, (read_render e h).2⟩

end LazyConfig
