import LazyConfig.Parser
set_option autoImplicit false

/-!
# Parsing: what composed parsers keep

The rules of the grammar are put together from a few steps, by sequence, by alternatives that
may be given up, and by repetition.  A property that the steps have, and that these ways of
putting parsers together keep, is a property of every rule.  So a statement about all runs of
the reader is proved once for each step and not for each rule.
-/

namespace LazyConfig.Parser

/-- The steps have the property, and a parser that is put together has it if its parts do. -/
structure Compositional (P : {α : Type} → Parser α → Prop) : Prop where
  /-- Reading nothing. -/
  value : ∀ {α : Type} (a : α), P (pure a : Parser α)
  /-- One parser behind the other. -/
  sequence : ∀ {α β : Type} {p : Parser α} {k : α → Parser β}, P p → (∀ a, P (k a)) → P (p >>= k)
  /-- The end of an allowance. -/
  exhausted : ∀ {α : Type}, P (exhausted : Parser α)
  /-- A failure at an offset. -/
  failAt : ∀ {α : Type} (cause : Cause) (offset : Nat), P (failAt cause offset : Parser α)
  /-- Asking where the parser stands. -/
  cursor : P cursor
  /-- Going somewhere. -/
  seek : ∀ c : Cursor, P (seek c)
  /-- Looking at the characters ahead. -/
  ahead : ∀ {α : Type} (f : Lexicon → List Char → α), P (ahead f)
  /-- Passing over characters. -/
  advance : ∀ n : Nat, P (advance n)
  /-- An alternative that may be given up. -/
  attempt : ∀ {α : Type} {p : Parser α} (branch : Branch), P p → P (attempt branch p)
  /-- A parser that is chosen by a number which depends on where it stands. -/
  measured : ∀ {α : Type} {p : Nat → Parser α} (f : Cursor → Nat), (∀ n, P (p n)) →
    P fun s c => p (f c) s c

variable {P : {α : Type} → Parser α → Prop}

/-- The rules that others refer back to have the property. -/
structure Rules.Have (P : {α : Type} → Parser α → Prop) (r : Rules) : Prop where
  /-- An expression. -/
  expression : P r.expression
  /-- An operand with its keys. -/
  dotted : P r.dotted

namespace Compositional

variable {α β σ : Type}

/-! ## Combinations -/

theorem choice {c : Prop} [Decidable c] {yes no : Parser α} (hyes : P yes) (hno : P no) :
    P (if c then yes else no) := by
  split
  · exact hyes
  · exact hno

variable (hP : Compositional P)

include hP

theorem test {found : Parser Bool} {yes no : Parser α} (hfound : P found) (hyes : P yes)
    (hno : P no) : P (do if ← found then yes else no) :=
  hP.sequence hfound fun _ => choice hyes hno

theorem fail (cause : Cause) : P (fail cause : Parser α) :=
  hP.measured Cursor.offset (hP.failAt cause)

theorem repeated {body : σ → Parser (Round σ α)} (h : ∀ state, P (body state)) (state : σ) :
    P (repeated body state) := by
  refine hP.measured (p := fun n => rounds body n state) (fun c => c.rest.length + 1) fun n => ?_
  induction n generalizing state with
  | zero => exact hP.exhausted
  | succ n ih =>
    refine hP.sequence (h state) fun round => ?_
    cases round with
    | again next => exact ih next
    | done a => exact hP.value a

/-! ## Lexemes -/

theorem skipBlank : P skipBlank :=
  hP.measured (fun c => blankLength false c.rest) hP.advance

theorem peekDelimiter (d : String) : P (peekDelimiter d) :=
  hP.sequence hP.skipBlank fun _ => hP.sequence (hP.ahead _) fun _ => hP.value _

theorem delimiter (d : String) : P (delimiter d) :=
  hP.test (hP.peekDelimiter d) (hP.advance _) (hP.fail _)

theorem peekKeyword (k : String) : P (peekKeyword k) :=
  hP.sequence hP.skipBlank fun _ => hP.sequence (hP.ahead _) fun _ => hP.ahead _

theorem keyword (k : String) : P (keyword k) :=
  hP.test (hP.peekKeyword k) (hP.advance _) (hP.fail _)

theorem identifier : P identifier := by
  refine hP.sequence hP.skipBlank fun _ => hP.sequence (hP.ahead _) fun word => ?_
  refine choice (hP.fail _) (hP.sequence (hP.ahead _) fun name => ?_)
  cases name with
  | none => exact hP.fail _
  | some name => exact hP.sequence (hP.advance _) fun _ => hP.value name

theorem aheadOpening : P aheadOpening :=
  hP.sequence hP.skipBlank fun _ => hP.ahead _

theorem peekString : P peekString :=
  hP.sequence hP.aheadOpening fun _ => hP.value _

/-! ## Strings -/

theorem bodyRound (unit : List Char → StringUnit) (cause : Cause) {p : Parser Expr} (hp : P p)
    (d : Draft) : P (bodyRound unit cause p d) := by
  refine hP.sequence (hP.ahead _) fun u => ?_
  cases u with
  | broken => exact hP.fail cause
  | close width => exact hP.sequence (hP.advance width) fun _ => hP.value _
  | chars cs width => exact hP.sequence (hP.advance width) fun _ => hP.value _
  | hole =>
    exact hP.sequence (hP.advance 2) fun _ => hP.sequence hp fun _ =>
      hP.sequence (hP.delimiter _) fun _ => hP.value _

theorem string {p : Parser Expr} (hp : P p) : P (string p) := by
  refine hP.sequence hP.aheadOpening fun o => ?_
  cases o with
  | none => exact hP.fail _
  | some o =>
    cases o with
    | quoted =>
      exact hP.sequence (hP.advance 1) fun _ =>
        hP.sequence (hP.repeated (hP.bodyRound _ _ hp) _) fun _ => hP.value _
    | indented =>
      exact hP.sequence (hP.advance 2) fun _ =>
        hP.sequence (hP.repeated (hP.bodyRound _ _ hp) _) fun _ => hP.value _

/-! ## Keys, names and `inherit` -/

variable {r : Rules} (hr : r.Have P)

include hr

theorem key : P (key r) := by
  refine hP.test hP.peekString (hP.sequence (hP.string hr.expression) fun _ => hP.value _) ?_
  refine hP.test (hP.peekDelimiter _) ?_ (hP.sequence hP.identifier fun _ => hP.value _)
  exact hP.sequence (hP.advance 2) fun _ => hP.sequence hr.expression fun _ =>
    hP.sequence (hP.delimiter _) fun _ => hP.value _

theorem staticName : P (staticName r) := by
  refine hP.test hP.peekString ?_ (hP.sequence hP.identifier fun _ => hP.value _)
  refine hP.sequence hP.cursor fun start => hP.sequence (hP.string hr.expression) fun t => ?_
  cases Template.static? t with
  | none => exact hP.failAt _ _
  | some text => exact hP.value text

theorem inheritSource : P (inheritSource r) := by
  refine hP.test (hP.peekDelimiter _) ?_ (hP.value _)
  exact hP.sequence (hP.advance 1) fun _ => hP.sequence hr.expression fun _ =>
    hP.sequence (hP.delimiter _) fun _ => hP.value _

theorem inheritance : P (inheritance r) := by
  refine hP.sequence (hP.keyword _) fun _ => hP.sequence (hP.inheritSource hr) fun _ => ?_
  refine hP.sequence (hP.repeated (fun names => ?_) _) fun _ => hP.value _
  exact hP.test (hP.peekDelimiter _) (hP.value _)
    (hP.sequence (hP.staticName hr) fun _ => hP.value _)

/-! ## Parameters and functions -/

theorem fieldDefault : P (fieldDefault r) :=
  hP.test (hP.peekDelimiter _)
    (hP.sequence (hP.advance 1) fun _ => hP.sequence hr.expression fun _ => hP.value _) (hP.value _)

theorem fieldRound (fields : List (Field Expr)) : P (fieldRound r fields) := by
  refine hP.test (hP.peekDelimiter _) (hP.sequence (hP.advance 3) fun _ => hP.value _) ?_
  refine hP.sequence hP.identifier fun _ => hP.sequence (hP.fieldDefault hr) fun _ => ?_
  exact hP.test (hP.peekDelimiter _) (hP.sequence (hP.advance 1) fun _ => hP.value _) (hP.value _)

theorem pattern : P (pattern r) := by
  refine hP.sequence hP.cursor fun start => hP.sequence (hP.delimiter _) fun _ => ?_
  refine hP.sequence (hP.test (hP.peekDelimiter _) (hP.value _)
    (hP.repeated (hP.fieldRound hr) _)) fun list => ?_
  refine hP.sequence (hP.delimiter _) fun _ => ?_
  cases Pattern.ofFields list.1 list.2 with
  | ok p => exact hP.value p
  | error e => exact hP.failAt _ _

theorem param : P (param r) := by
  refine hP.test (hP.peekDelimiter _) (hP.sequence (hP.pattern hr) fun _ => hP.value _) ?_
  refine hP.sequence hP.identifier fun x => hP.test (hP.peekDelimiter _) ?_ (hP.value _)
  exact hP.sequence (hP.advance 1) fun _ => hP.sequence (hP.pattern hr) fun _ => hP.value _

theorem lambda : P (lambda r) :=
  hP.sequence (hP.param hr) fun _ => hP.sequence (hP.delimiter _) fun _ =>
    hP.sequence hr.expression fun _ => hP.value _

/-! ## Lists and dicts -/

theorem list : P (list r) := by
  refine hP.sequence (hP.delimiter _) fun _ => ?_
  refine hP.sequence (hP.repeated (fun items => ?_) _) fun _ =>
    hP.sequence (hP.delimiter _) fun _ => hP.value _
  exact hP.test (hP.peekDelimiter _) (hP.value _) (hP.sequence hr.dotted fun _ => hP.value _)

theorem entry : P (entry r) := by
  refine hP.test (hP.peekKeyword _) (hP.sequence (hP.inheritance hr) fun _ => hP.value _) ?_
  exact hP.sequence (hP.key hr) fun _ => hP.sequence (hP.delimiter _) fun _ =>
    hP.sequence hr.expression fun _ => hP.value _

theorem dict (recursive : Bool) : P (dict r recursive) := by
  refine hP.sequence (hP.delimiter _) fun _ => ?_
  refine hP.sequence (hP.repeated (fun bindings => ?_) _) fun _ =>
    hP.sequence (hP.delimiter _) fun _ => hP.value _
  exact hP.test (hP.peekDelimiter _) (hP.value _)
    (hP.sequence (hP.entry hr) fun _ => hP.sequence (hP.delimiter _) fun _ => hP.value _)

/-! ## Operands -/

theorem primary : P (primary r) := by
  refine hP.test hP.peekString (hP.sequence (hP.string hr.expression) fun _ => hP.value _) ?_
  refine hP.test (hP.peekDelimiter _) (hP.list hr) ?_
  refine hP.test (hP.peekDelimiter _) ?_ ?_
  · exact hP.sequence (hP.advance 1) fun _ => hP.sequence hr.expression fun _ =>
      hP.sequence (hP.delimiter _) fun _ => hP.value _
  · refine hP.test (hP.peekKeyword _) (hP.sequence (hP.keyword _) fun _ => hP.dict hr true) ?_
    exact hP.test (hP.peekDelimiter _) (hP.dict hr false)
      (hP.sequence hP.identifier fun _ => hP.value _)

theorem dotRound (subject : Expr) : P (dotRound r subject) := by
  refine hP.test (hP.peekDelimiter _) ?_ (hP.value _)
  refine hP.sequence hP.cursor fun dot => hP.sequence (hP.advance 1) fun _ => ?_
  refine hP.sequence (hP.attempt .key (hP.key hr)) fun k => ?_
  cases k with
  | some k => exact hP.value _
  | none => exact hP.sequence (hP.seek dot) fun _ => hP.value _

theorem dotted : P (dotted r) :=
  hP.sequence (hP.primary hr) fun _ => hP.repeated (hP.dotRound hr) _

theorem argumentRound (f : Expr) : P (argumentRound r f) := by
  refine hP.sequence (hP.attempt .lambda (hP.lambda hr)) fun a => ?_
  cases a with
  | some a => exact hP.value _
  | none =>
    refine hP.sequence (hP.attempt .dotted (hP.dotted hr)) fun a => ?_
    cases a with
    | some a => exact hP.value _
    | none => exact hP.value _

theorem application : P (application r) :=
  hP.sequence (hP.dotted hr) fun _ => hP.repeated (hP.argumentRound hr) _

/-! ## Expressions -/

theorem definition : P (definition r) := by
  refine hP.test (hP.peekKeyword _) (hP.sequence (hP.inheritance hr) fun _ => hP.value _) ?_
  exact hP.sequence (hP.staticName hr) fun _ => hP.sequence (hP.delimiter _) fun _ =>
    hP.sequence hr.expression fun _ => hP.value _

theorem letIn : P (letIn r) := by
  refine hP.sequence (hP.keyword _) fun _ => ?_
  refine hP.sequence (hP.repeated (fun bindings => ?_) _) fun _ =>
    hP.sequence (hP.keyword _) fun _ => hP.sequence hr.expression fun _ => hP.value _
  exact hP.test (hP.peekKeyword _) (hP.value _)
    (hP.sequence (hP.definition hr) fun _ => hP.sequence (hP.delimiter _) fun _ => hP.value _)

theorem expression : P (expression r) := by
  refine hP.sequence (hP.attempt .lambda (hP.lambda hr)) fun e => ?_
  cases e with
  | some e => exact hP.value e
  | none => exact hP.test (hP.peekKeyword _) (hP.letIn hr) (hP.application hr)

theorem program : P (program r) := by
  refine hP.sequence (hP.expression hr) fun e => hP.sequence hP.skipBlank fun _ => ?_
  exact hP.test (hP.ahead _) (hP.value e) (hP.fail _)

omit hr in
/-- Rules that may be nested to any depth have the property. -/
theorem ofDepth (depth : Nat) : (Rules.ofDepth depth).Have P := by
  induction depth with
  | zero => exact ⟨hP.exhausted, hP.exhausted⟩
  | succ depth ih => exact ⟨hP.expression ih, hP.dotted ih⟩

end Compositional

end LazyConfig.Parser
