import LazyConfig.Proofs.Parsing.RuleProgress
set_option autoImplicit false

/-!
# Parsing: the reader comes to an end

The rules refer back to themselves, and a run of the reader allows for one more nested rule
than the text has characters.  By induction on the allowance, a larger one makes no difference:
what a rule uses starts further on in the text, where less is left.  So there are rules without
an allowance, which use themselves, and the reader does what they do.
-/

namespace LazyConfig

namespace Parser

variable {α σ : Type} {text : List Char} {s : Settings} {c : Cursor}

/-! ## Rules without an allowance -/

/-- Two allowances that the rest of the text cannot use up are alike. -/
theorem Rules.AgreeFrom.ofDepth {o depth depth' : Nat} (h : text.length < o + depth)
    (h' : text.length < o + depth') :
    Rules.AgreeFrom text s o (Rules.ofDepth depth) (Rules.ofDepth depth') := by
  induction depth generalizing o depth' with
  | zero =>
    constructor <;> intro c hc ho <;> exact absurd hc.le_length (by omega)
  | succ depth ih =>
    cases depth' with
    | zero =>
      constructor <;> intro c hc ho <;> exact absurd hc.le_length (by omega)
    | succ depth' =>
      constructor <;> intro c hc ho
      · exact Proceeds.expression (ih (by omega) (by omega)) hc
      · exact Proceeds.dotted (ih (by omega) (by omega)) hc

/-- The rules that may be nested as deep as they want to. -/
def Rules.unbounded : Rules :=
  ⟨fun s c => Parser.expression (Rules.ofDepth c.rest.length) s c,
   fun s c => Parser.dotted (Rules.ofDepth c.rest.length) s c⟩

theorem Rules.AgreeFrom.unbounded {o depth : Nat} (h : text.length < o + depth) :
    Rules.AgreeFrom text s o (Rules.ofDepth depth) Rules.unbounded := by
  constructor <;> intro c hc ho
  all_goals
    have hlength := hc.offset_add_length
    have hagree : Rules.AgreeFrom text s c.offset (Rules.ofDepth depth)
        (Rules.ofDepth (c.rest.length + 1)) := .ofDepth (by omega) (by omega)
  · obtain ⟨hsame, hraised, hanswer⟩ := hagree.expression c hc (Nat.le_refl _)
    exact ⟨hsame, hraised, hanswer⟩
  · obtain ⟨hsame, hraised, hanswer⟩ := hagree.dotted c hc (Nat.le_refl _)
    exact ⟨hsame, hraised, hanswer⟩

theorem Rules.AgreeFrom.right {r r' : Rules} {o : Nat} (h : Rules.AgreeFrom text s o r r') :
    Rules.AgreeFrom text s o r' r' :=
  ⟨fun c hc ho => (h.expression c hc ho).right, fun c hc ho => (h.dotted c hc ho).right⟩

/-- The rules without an allowance use themselves. -/
theorem Rules.unbounded_eq :
    Rules.unbounded = ⟨Parser.expression Rules.unbounded, Parser.dotted Rules.unbounded⟩ := by
  have hagree : ∀ (s : Settings) (c : Cursor),
      Rules.AgreeFrom (List.replicate c.offset ' ' ++ c.rest) s (c.offset + 1)
        (Rules.ofDepth c.rest.length) Rules.unbounded := fun s c => by
    have hlength := c.in_replicate.offset_add_length
    exact .unbounded (by omega)
  refine congr (congrArg Rules.mk ?_) ?_ <;> funext s c
  · exact (Proceeds.expression (hagree s c) c.in_replicate).same
  · exact (Proceeds.dotted (hagree s c) c.in_replicate).same

/-! ## Rules and loops -/

/-- The rules of the grammar. -/
inductive IsRule : {α : Type} → (Rules → Parser α) → Prop where
  /-- An expression. -/
  | expression : IsRule expression
  /-- A function. -/
  | lambda : IsRule lambda
  /-- An operand applied to arguments. -/
  | application : IsRule application
  /-- An operand with its keys. -/
  | dotted : IsRule dotted
  /-- An expression that is complete by itself. -/
  | primary : IsRule primary
  /-- A list. -/
  | list : IsRule list
  /-- A dict, behind the keyword that makes it recursive. -/
  | dict (recursive : Bool) : IsRule fun r => dict r recursive
  /-- A key. -/
  | key : IsRule key
  /-- Bindings with their body. -/
  | letIn : IsRule letIn
  /-- Names taken over. -/
  | inheritance : IsRule inheritance
  /-- A name that may be in quotes. -/
  | staticName : IsRule staticName
  /-- A parameter. -/
  | param : IsRule param
  /-- A pattern. -/
  | pattern : IsRule pattern
  /-- A string. -/
  | string : IsRule fun r => string r.expression

/-- The rounds of the loops in the rules. -/
inductive IsRound : {σ α : Type} → (Rules → σ → Parser (Round σ α)) → Prop where
  /-- The characters of a string in double quotation marks. -/
  | quoted : IsRound fun r => bodyRound quotedUnit .unterminated r.expression
  /-- The characters of an indented string. -/
  | indented : IsRound fun r => bodyRound indentedUnit .unterminatedIndented r.expression
  /-- The names of an `inherit`. -/
  | inherit : IsRound inheritRound
  /-- The fields of a pattern. -/
  | field : IsRound fieldRound
  /-- The items of a list. -/
  | list : IsRound listRound
  /-- The bindings of a dict. -/
  | entry : IsRound entryRound
  /-- The keys behind an operand. -/
  | dot : IsRound dotRound
  /-- The arguments behind an operand. -/
  | argument : IsRound argumentRound
  /-- The bindings of a `let`. -/
  | definition : IsRound definitionRound

theorem IsRule.reaches {rule : Rules → Parser α} (h : IsRule rule) {r r' : Rules}
    (hr : r.AgreeFrom text s (c.offset + 1) r') (hc : c.In text) :
    Reaches text (rule r) (rule r') s c (c.offset + 1) := by
  cases h with
  | expression => exact .expression hr hc
  | lambda => exact .lambda hr hc
  | application => exact .application hr hc
  | dotted => exact .dotted hr hc
  | primary => exact .primary hr hc
  | list => exact .list hr hc
  | dict recursive => exact .dict hr hc recursive
  | key => exact .key hr hc
  | letIn => exact .letIn hr hc
  | inheritance => exact .inheritance hr hc
  | staticName => exact .staticName hr hc
  | param => exact .param hr hc
  | pattern => exact .pattern hr hc
  | string => exact .string hr hc

theorem IsRound.proceeds {round : Rules → σ → Parser (Round σ α)} (h : IsRound round)
    {r r' : Rules} (hr : r.AgreeFrom text s c.offset r') (hc : c.In text) (state : σ) :
    Proceeds text (round r state) (round r' state) s c (Round.Moves c) := by
  have hnext := hr.mono (Nat.le_succ _)
  cases h with
  | quoted => exact .bodyRound quotedUnit_fits _ hnext hc state
  | indented => exact .bodyRound indentedUnit_fits _ hnext hc state
  | inherit => exact .inheritRound hnext hc state
  | field => exact .fieldRound hnext hc state
  | list => exact .listRound hr hc state
  | entry => exact .entryRound hnext hc state
  | dot => exact .dotRound hnext hc state
  | argument => exact .argumentRound hnext hc state
  | definition => exact .definitionRound hnext hc state

/-! ## Alternatives -/

/-- A parser either yields something or refuses. -/
theorem Proceeds.yields_or_refuses {p q : Parser α} {Q : α → Cursor → Prop}
    (h : Proceeds text p q s c Q) : (∃ a d, Yields p s c a d ∧ Q a d) ∨ Refuses p s c := by
  have hanswer := h.answer
  cases hr : (p s c).1 with
  | ok a d =>
    rw [hr] at hanswer
    exact .inl ⟨a, d, hr, hanswer.2⟩
  | failed f => exact .inr ⟨f, hr⟩
  | exhausted =>
    rw [hr] at hanswer
    exact hanswer.elim

theorem Yields.not_refuses {p : Parser α} {a : α} {d : Cursor} (h : Yields p s c a d) :
    ¬ Refuses p s c := by
  rintro ⟨f, hf⟩
  exact Reply.noConfusion rfl (heq_of_eq (h.symm.trans hf))

/-- An alternative leaves the parser where it stood exactly if it fails. -/
theorem Reaches.attempt_iff {p : Parser α} (h : Reaches text p p s c (c.offset + 1))
    (branch : Branch) :
    ∃ found d, Yields (attempt branch p) s c found d ∧ (found = none ↔ Refuses p s c) ∧
      (d = c ↔ Refuses p s c) := by
  rcases Proceeds.yields_or_refuses h with ⟨a, d, hyields, hle⟩ | hrefuses
  · refine ⟨some a, d, hyields.attempt branch, ?_, ?_⟩
    · exact iff_of_false nofun hyields.not_refuses
    · refine iff_of_false ?_ hyields.not_refuses
      rintro rfl
      exact absurd hle (Nat.not_succ_le_self _)
  · exact ⟨none, c, hrefuses.attempt branch, iff_of_true rfl hrefuses, iff_of_true rfl hrefuses⟩

theorem Proceeds.of_yields {p q : Parser α} {Q : α → Cursor → Prop} {a : α} {d : Cursor}
    (h : Proceeds text p q s c Q) (hyields : Yields p s c a d) : d.In text ∧ Q a d := by
  have hanswer := h.answer
  rwa [show (p s c).1 = .ok a d from hyields] at hanswer

/-- The parser goes back to a dot exactly if no key follows it. -/
theorem dotRound_back_iff {r : Rules} {subject : Expr} {dot : Cursor}
    (hr : r.AgreeFrom text s (c.offset + 1) r) (hc : c.In text)
    (hdot : Yields (peekDelimiter ".") s c true dot) :
    Yields (dotRound r subject) s c (.done subject) dot ↔
      Refuses (key r) s (dot.advance 1) := by
  obtain ⟨hin, hle, hend⟩ := (Proceeds.peekDelimiter "." hc).of_yields hdot
  have hlength := hin.offset_add_length
  have hdotEnd : dot.offset + 1 ≤ text.length := hend rfl
  have hpast : (dot.advance 1).In text := hin.advance (by omega)
  have hbehind : c.offset + 1 ≤ (dot.advance 1).offset + 1 := Nat.le_trans
    (Nat.succ_le_succ hle) (Nat.le_succ _)
  have hround : ∀ {found : Option Expr} {e : Cursor},
      Yields (attempt .key (key r)) s (dot.advance 1) found e →
        Yields (dotRound r subject) s c (found.elim (.done subject) (.again <| .dot subject ·))
          (found.elim dot fun _ => e) := by
    intro found e hkey
    refine Yields.bind hdot (Yields.bind (yields_cursor dot) ?_)
    refine Yields.bind (yields_advance 1 dot) (Yields.bind hkey ?_)
    cases found with
    | some k => exact Yields.pure _ _
    | none => exact rfl
  have hkey := Proceeds.key (hr.mono hbehind) hpast
  refine ⟨fun hback => ?_, fun hrefuses => hround (hrefuses.attempt .key)⟩
  rcases hkey.yields_or_refuses with ⟨k, e, hyields, -⟩ | hrefuses
  · have hagain := hround (hyields.attempt .key)
    exact absurd (hback.symm.trans hagain) (by simp)
  · exact hrefuses

/-! ## The reader -/

/-- A run over a text does what the rules without an allowance do. -/
theorem proceeds_program (s : Settings) (text : List Char) :
    Reaches text (program (Rules.ofDepth (text.length + 1))) (program Rules.unbounded) s
      ⟨0, text⟩ 1 :=
  Proceeds.program (Rules.AgreeFrom.unbounded (by omega)) (Cursor.in_start text)

/-- What rules and loops do from every place of a text on. -/
structure Rules.Progress (text : List Char) (s : Settings) (r : Rules) : Prop where
  /-- A rule fails or passes over a character, and keeps within the text. -/
  rule : ∀ {α : Type} (rule : Rules → Parser α), IsRule rule → ∀ c : Cursor, c.In text →
    Reply.Within text (fun _ d => c.offset < d.offset) (rule r s c).1
  /-- A round of a loop passes over a character, is the last one, or fails. -/
  round : ∀ {σ α : Type} (round : Rules → σ → Parser (Round σ α)), IsRound round →
    ∀ (state : σ) (c : Cursor), c.In text → Reply.Within text (Round.Moves c) (round r state s c).1
  /-- A rule that is tried leaves the parser where it stood exactly if it fails. -/
  alternative : ∀ {α : Type} (rule : Rules → Parser α), IsRule rule → ∀ (branch : Branch)
    (c : Cursor), c.In text → ∃ found d, Yields (attempt branch (rule r)) s c found d ∧
      (found = none ↔ Refuses (rule r) s c) ∧ (d = c ↔ Refuses (rule r) s c)
  /-- The parser goes back to a dot exactly if no key follows it. -/
  dot : ∀ (subject : Expr) (c dot : Cursor), c.In text →
    Yields (peekDelimiter ".") s c true dot →
      (Yields (dotRound r subject) s c (.done subject) dot ↔ Refuses (key r) s (dot.advance 1))

theorem Rules.AgreeFrom.progress {r : Rules} (hr : ∀ o, r.AgreeFrom text s o r) :
    r.Progress text s where
  rule _ h _ hc := (h.reaches (hr _) hc).answer
  round _ h state _ hc := (h.proceeds (hr _) hc state).answer
  alternative _ h branch _ hc := (h.reaches (hr _) hc).attempt_iff branch
  dot _ _ _ hc hdot := dotRound_back_iff (hr _) hc hdot

end Parser

open LazyConfig.Parser

/-- The reader always makes progress and ends.  The rules without an allowance of nested rules
use themselves; from every place of a text on they and their loops pass over characters or
fail, and an alternative is taken back exactly if it fails.  The reader does what they do, so
every text is accepted or refused. -/
theorem reader_progresses (s : Settings) (text : String) :
    Rules.unbounded = ⟨Parser.expression Rules.unbounded, Parser.dotted Rules.unbounded⟩ ∧
      Rules.unbounded.Progress text.toList s ∧
      Parser.run program s text = program Rules.unbounded s ⟨0, text.toList⟩ ∧
      ((∃ e, (readTraced s text).1 = .accepted e) ∨
        ∃ f, (readTraced s text).1 = .refused f) := by
  have hrun := proceeds_program s text.toList
  refine ⟨Rules.unbounded_eq, ?_, hrun.same, ?_⟩
  · refine Rules.AgreeFrom.progress fun o => ?_
    have hagree : Rules.AgreeFrom text.toList s o (Rules.ofDepth (text.toList.length + 1))
        Rules.unbounded := .unbounded (by omega)
    exact hagree.right
  · rcases Proceeds.yields_or_refuses hrun with ⟨e, d, hyields, -⟩ | ⟨f, hf⟩
    · exact .inl ⟨e, congrArg (Verdict.ofReply · _) hyields⟩
    · exact .inr ⟨_, congrArg (Verdict.ofReply · _) hf⟩

/-- A dot behind a list at the end of the text: the list is read, and the parser goes back to
the dot exactly if there is no key. -/
theorem reader_progresses_dot :
    Cursor.In "[a].".toList ⟨3, ['.']⟩ ∧
      Yields (peekDelimiter ".") (Settings.standard false) ⟨3, ['.']⟩ true ⟨3, ['.']⟩ ∧
      Reply.Within "[a].".toList (fun _ d => 0 < d.offset)
        (list Rules.unbounded (Settings.standard false) ⟨0, "[a].".toList⟩).1 ∧
      Reply.Within "[a].".toList (Round.Moves ⟨3, ['.']⟩)
        (dotRound Rules.unbounded (.list []) (Settings.standard false) ⟨3, ['.']⟩).1 ∧
      (Yields (dotRound Rules.unbounded (.list [])) (Settings.standard false) ⟨3, ['.']⟩
          (.done (.list [])) ⟨3, ['.']⟩ ↔
        Refuses (key Rules.unbounded) (Settings.standard false) ⟨4, []⟩) := by
  have hc : Cursor.In "[a].".toList ⟨3, ['.']⟩ := ⟨by decide, by decide⟩
  have hdot : Yields (peekDelimiter ".") (Settings.standard false) ⟨3, ['.']⟩ true ⟨3, ['.']⟩ :=
    peekDelimiter_of_delimiterAt? (Cursor.skip_cons (by decide)) (Lexicon.delimiterAt?_dot nofun)
  obtain ⟨-, hprogress, -⟩ := reader_progresses (Settings.standard false) "[a]."
  have hlist := hprogress.rule list .list ⟨0, "[a].".toList⟩ (Cursor.in_start _)
  have hround := hprogress.round dotRound .dot (.list []) ⟨3, ['.']⟩ hc
  have hback := hprogress.dot (.list []) ⟨3, ['.']⟩ ⟨3, ['.']⟩ hc hdot
  exact ⟨hc, hdot, hlist, hround, hback⟩

end LazyConfig
