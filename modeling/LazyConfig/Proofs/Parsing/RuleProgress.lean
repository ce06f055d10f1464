import LazyConfig.Proofs.Parsing.Progress
set_option autoImplicit false

/-!
# Parsing: progress of the rules

Every rule passes over a character or fails.  A rule uses the rules that refer back to
themselves behind at least one character that it has passed over, so it suffices for a rule at
a cursor that these do what they should from the next character on.  Each lemma goes through
the steps of its rule and says only where they lead.
-/

namespace LazyConfig.Parser

variable {α : Type} {text : List Char} {s : Settings} {c : Cursor}

/-- From an offset on, the rules of both systems pass over characters and do the same. -/
structure Rules.AgreeFrom (text : List Char) (s : Settings) (o : Nat) (r r' : Rules) : Prop where
  /-- An expression. -/
  expression : ∀ c : Cursor, c.In text → o ≤ c.offset →
    Reaches text r.expression r'.expression s c (c.offset + 1)
  /-- An operand with its keys. -/
  dotted : ∀ c : Cursor, c.In text → o ≤ c.offset →
    Reaches text r.dotted r'.dotted s c (c.offset + 1)

theorem Rules.AgreeFrom.mono {r r' : Rules} {o m : Nat} (h : Rules.AgreeFrom text s o r r')
    (hle : o ≤ m) : Rules.AgreeFrom text s m r r' :=
  ⟨fun c hc hm => h.expression c hc (Nat.le_trans hle hm),
   fun c hc hm => h.dotted c hc (Nat.le_trans hle hm)⟩

/-! ## Strings -/

/-- The characters of the unit stand ahead, and there are some. -/
def StringUnit.Fits (rest : List Char) : StringUnit → Prop
  | .close width => width ≤ rest.length
  | .chars _ width => 0 < width ∧ width ≤ rest.length
  | .hole => 2 ≤ rest.length
  | .broken => True

theorem quotedUnit_fits (rest : List Char) : (quotedUnit rest).Fits rest := by
  unfold quotedUnit
  split <;> simp [StringUnit.Fits]

theorem indentedUnit_fits (rest : List Char) : (indentedUnit rest).Fits rest := by
  unfold indentedUnit
  split <;> simp [StringUnit.Fits]

/-- The number of characters that open a string. -/
def Opening.width : Opening → Nat
  | .quoted => 1
  | .indented => 2

theorem opening?_width_le {rest : List Char} {opening : Opening}
    (h : opening? rest = some opening) : opening.width ≤ rest.length := by
  unfold opening? at h
  split at h
  · cases h
    simp [Opening.width]
  · cases h
    simp [Opening.width]
  · cases h

namespace Proceeds

variable {r r' : Rules}

theorem aheadOpening (hc : c.In text) :
    Proceeds text aheadOpening aheadOpening s c fun found d =>
      c.offset ≤ d.offset ∧ ∀ opening ∈ found, d.offset + opening.width ≤ text.length := by
  refine (skipBlank hc).bind fun _ d hd hskip => (ahead hd _).imp fun found e hfound => ?_
  subst hskip
  obtain ⟨rfl, rfl⟩ := hfound
  refine ⟨c.offset_le_skip, fun opening hopening => ?_⟩
  have hlength := hd.offset_add_length
  have hwidth := opening?_width_le hopening
  omega

theorem peekString (hc : c.In text) :
    Reaches text peekString peekString s c c.offset :=
  (aheadOpening hc).bind fun _ _ hd hfound => pure hd hfound.1

/-- An expression up to the delimiter that closes it. -/
theorem closed {Q : α → Cursor → Prop} {f : Expr → α} {d : String} (hd : 0 < d.length)
    (hr : r.AgreeFrom text s c.offset r') (hc : c.In text)
    (hQ : ∀ e d, c.offset < d.offset → Q (f e) d) :
    Proceeds text (do let e ← r.expression; Parser.delimiter d; return f e)
      (do let e ← r'.expression; Parser.delimiter d; return f e) s c Q :=
  (hr.expression c hc (Nat.le_refl _)).bind fun e _ he hle =>
    (delimiter hd he).bind fun _ d' he' hle' => pure he' (hQ e d' (by omega))

theorem bodyRound {unit : List Char → StringUnit} (hunit : ∀ rest, (unit rest).Fits rest)
    (cause : Cause) (hr : r.AgreeFrom text s (c.offset + 1) r') (hc : c.In text) (draft : Draft) :
    Proceeds text (bodyRound unit cause r.expression draft)
      (bodyRound unit cause r'.expression draft) s c (Round.Moves c) := by
  have hlength := hc.offset_add_length
  refine (ahead hc _).bind fun u d hd hu => ?_
  obtain ⟨rfl, rfl⟩ := hu
  have hfits := hunit c.rest
  cases hu : unit c.rest with
  | broken => exact fail cause hc
  | close width =>
    rw [hu] at hfits
    have hwidth : width ≤ c.rest.length := hfits
    refine (advance hc (by omega)).bind fun _ d hd hle => pure hd ?_
    exact Nat.le_trans (Nat.le_add_right _ _) hle
  | chars cs width =>
    rw [hu] at hfits
    obtain ⟨hpos, hwidth⟩ := hfits
    refine (advance hc (by omega)).bind fun _ d hd hle => pure hd ?_
    exact Nat.lt_of_lt_of_le (Nat.lt_add_of_pos_right hpos) hle
  | hole =>
    rw [hu] at hfits
    have hwidth : 2 ≤ c.rest.length := hfits
    refine (advance hc (by omega)).bind fun _ d hd hle => ?_
    refine closed (by decide) (hr.mono (by omega)) hd fun e d' hlt => ?_
    show c.offset < d'.offset
    omega

/-- The body of a string and the mark that ends it. -/
theorem body {unit : List Char → StringUnit} (hunit : ∀ rest, (unit rest).Fits rest)
    (cause : Cause) (hr : r.AgreeFrom text s (c.offset + 1) r') (hc : c.In text) :
    Reaches text (Parser.repeated (Parser.bodyRound unit cause r.expression) Draft.empty)
      (Parser.repeated (Parser.bodyRound unit cause r'.expression) Draft.empty) s c c.offset :=
  repeated hc (fun draft _ hd hle =>
    bodyRound hunit cause (hr.mono (Nat.succ_le_succ hle)) hd draft) _

theorem string (hr : r.AgreeFrom text s (c.offset + 1) r') (hc : c.In text) :
    Reaches text (string r.expression) (string r'.expression) s c (c.offset + 1) := by
  refine (aheadOpening hc).bind fun found d hd hfound => ?_
  obtain ⟨hle, hwidth⟩ := hfound
  match found with
  | none => exact fail _ hd
  | some .quoted =>
    refine (advance hd (hwidth .quoted rfl)).bind fun _ e he hopened => ?_
    simp only [Opening.width] at hopened
    refine (body quotedUnit_fits _ (hr.mono (by omega)) he).bind fun _ _ he' hle' => ?_
    exact pure he' (by omega)
  | some .indented =>
    refine (advance hd (hwidth .indented rfl)).bind fun _ e he hopened => ?_
    simp only [Opening.width] at hopened
    refine (body indentedUnit_fits _ (hr.mono (by omega)) he).bind fun _ _ he' hle' => ?_
    exact pure he' (by omega)

theorem ifString {Q : α → Cursor → Prop} {yes yes' no no' : Parser α} (hc : c.In text)
    (hyes : ∀ e, e.In text → c.offset ≤ e.offset → Proceeds text yes yes' s e Q)
    (hno : ∀ e, e.In text → c.offset ≤ e.offset → Proceeds text no no' s e Q) :
    Proceeds text (do if ← Parser.peekString then yes else no)
      (do if ← Parser.peekString then yes' else no') s c Q :=
  (peekString hc).bind fun _ e he hle => choice (fun _ => hyes e he hle) fun _ => hno e he hle

/-! ## Keys, names and `inherit` -/

theorem key (hr : r.AgreeFrom text s (c.offset + 1) r') (hc : c.In text) :
    Reaches text (key r) (key r') s c (c.offset + 1) := by
  refine ifString hc (fun d hd hle => ?_) fun d hd hle => ?_
  · refine (string (hr.mono (by omega)) hd).bind fun _ _ he hread => pure he (by omega)
  refine overDelimiter rfl hd (fun e he hopened => ?_) fun e he hle' => ?_
  · exact closed (by decide) (hr.mono (by omega)) he fun _ _ hlt => by omega
  · exact (identifier he).bind fun _ _ he' hread => pure he' (by omega)

theorem staticName (hr : r.AgreeFrom text s (c.offset + 1) r') (hc : c.In text) :
    Reaches text (staticName r) (staticName r') s c (c.offset + 1) := by
  refine ifString hc (fun d hd hle => ?_) fun d hd hle => ?_
  · refine (cursor hd).bind fun start _ _ hstart => ?_
    obtain ⟨rfl, rfl⟩ := hstart
    refine (string (hr.mono (by omega)) hd).bind fun t e he hread => ?_
    cases Template.static? t with
    | none => exact failAt _ hd.le_length
    | some name => exact pure he (by omega)
  · exact (identifier hd).bind fun _ _ he hread => pure he (by omega)

theorem inheritSource (hr : r.AgreeFrom text s (c.offset + 1) r') (hc : c.In text) :
    Reaches text (inheritSource r) (inheritSource r') s c c.offset := by
  refine overDelimiter rfl hc (fun d hd hopened => ?_) fun d hd hle => pure hd hle
  exact closed (by decide) (hr.mono hopened) hd fun _ _ hlt => by omega

theorem inheritRound (hr : r.AgreeFrom text s (c.offset + 1) r') (hc : c.In text)
    (names : List String) :
    Proceeds text (inheritRound r names) (inheritRound r' names) s c (Round.Moves c) := by
  refine ifDelimiter hc (fun d hd hle _ => pure hd hle) fun d hd hle => ?_
  exact (staticName (hr.mono (by omega)) hd).bind fun _ _ he hread =>
    pure he (Nat.lt_of_le_of_lt hle hread)

theorem inheritance (hr : r.AgreeFrom text s (c.offset + 1) r') (hc : c.In text) :
    Reaches text (inheritance r) (inheritance r') s c (c.offset + 1) := by
  refine (keyword (by decide) hc).bind fun _ d hd hle => ?_
  refine (inheritSource (hr.mono (by omega)) hd).bind fun _ e he hle' => ?_
  refine (repeated he (fun names e' he' hmore => ?_) _).bind fun _ _ he' hread =>
    pure he' (by omega)
  exact inheritRound (hr.mono (by omega)) he' names

/-! ## Parameters and functions -/

theorem fieldDefault (hr : r.AgreeFrom text s (c.offset + 1) r') (hc : c.In text) :
    Reaches text (fieldDefault r) (fieldDefault r') s c c.offset := by
  refine overDelimiter rfl hc (fun d hd hle => ?_) fun d hd hle => pure hd hle
  exact (hr.expression d hd hle).bind fun _ _ he hread => pure he (by omega)

theorem fieldRound (hr : r.AgreeFrom text s (c.offset + 1) r') (hc : c.In text)
    (fields : List (Field Expr)) :
    Proceeds text (fieldRound r fields) (fieldRound r' fields) s c (Round.Moves c) := by
  refine overDelimiter rfl hc
    (fun d hd hle => pure hd (Nat.le_trans (Nat.le_add_right _ _) hle)) fun d hd hle => ?_
  refine (identifier hd).bind fun _ e he hname => ?_
  refine (fieldDefault (hr.mono (by omega)) he).bind fun _ e' he' hle' => ?_
  have hread : c.offset < e'.offset := by omega
  refine overDelimiter rfl he' (fun d' hd' hcomma => pure hd' ?_) fun d' hd' hend => pure hd' ?_
  · exact Nat.lt_of_lt_of_le hread (Nat.le_trans (Nat.le_add_right _ _) hcomma)
  · exact Nat.le_trans (Nat.le_of_lt hread) hend

theorem fieldList (hr : r.AgreeFrom text s (c.offset + 1) r') (hc : c.In text) :
    Reaches text (fieldList r) (fieldList r') s c c.offset := by
  refine ifDelimiter hc (fun d hd hle _ => pure hd hle) fun d hd hle => ?_
  refine (repeated hd (fun fields e he hmore => ?_) _).mono hle
  exact fieldRound (hr.mono (by omega)) he fields

theorem pattern (hr : r.AgreeFrom text s (c.offset + 1) r') (hc : c.In text) :
    Reaches text (pattern r) (pattern r') s c (c.offset + 1) := by
  refine (cursor hc).bind fun start _ _ hstart => ?_
  obtain ⟨rfl, rfl⟩ := hstart
  refine (delimiter (by decide) hc).bind fun _ d hd hopened => ?_
  refine (fieldList (hr.mono (by omega)) hd).bind fun fields e he hle => ?_
  refine (delimiter (by decide) he).bind fun _ e' he' hclosed => ?_
  cases Pattern.ofFields fields.1 fields.2 with
  | ok p => exact pure he' (by omega)
  | error e => exact failAt _ hc.le_length

theorem param (hr : r.AgreeFrom text s (c.offset + 1) r') (hc : c.In text) :
    Reaches text (param r) (param r') s c (c.offset + 1) := by
  refine ifDelimiter hc (fun d hd hle _ => ?_) fun d hd hle => ?_
  · exact (pattern (hr.mono (by omega)) hd).bind fun _ _ he hread => pure he (by omega)
  refine (identifier hd).bind fun _ e he hname => ?_
  refine overDelimiter rfl he (fun e' he' hle' => ?_) fun e' he' hle' => pure he' (by omega)
  exact (pattern (hr.mono (by omega)) he').bind fun _ _ hd' hread => pure hd' (by omega)

theorem lambda (hr : r.AgreeFrom text s (c.offset + 1) r') (hc : c.In text) :
    Reaches text (lambda r) (lambda r') s c (c.offset + 1) := by
  refine (param hr hc).bind fun _ d hd hparam => ?_
  refine (delimiter (by decide) hd).bind fun _ e he hcolon => ?_
  exact (hr.expression e he (by omega)).bind fun _ _ he' hread => pure he' (by omega)

/-! ## Lists and dicts -/

theorem listRound (hr : r.AgreeFrom text s c.offset r') (hc : c.In text) (items : List Expr) :
    Proceeds text (listRound r items) (listRound r' items) s c (Round.Moves c) := by
  refine ifDelimiter hc (fun d hd hle _ => pure hd hle) fun d hd hle => ?_
  exact (hr.dotted d hd hle).bind fun _ _ he hread => pure he (Nat.lt_of_le_of_lt hle hread)

theorem list (hr : r.AgreeFrom text s (c.offset + 1) r') (hc : c.In text) :
    Reaches text (list r) (list r') s c (c.offset + 1) := by
  refine (delimiter (by decide) hc).bind fun _ d hd hopened => ?_
  refine (repeated hd (fun items e he hmore => ?_) _).bind fun _ e he hle => ?_
  · exact listRound (hr.mono (by omega)) he items
  · exact (delimiter (by decide) he).bind fun _ _ he' hclosed => pure he' (by omega)

theorem entry (hr : r.AgreeFrom text s (c.offset + 1) r') (hc : c.In text) :
    Reaches text (entry r) (entry r') s c (c.offset + 1) := by
  refine ifKeyword hc (fun d hd hle _ => ?_) fun d hd hle => ?_
  · exact (inheritance (hr.mono (by omega)) hd).bind fun _ _ he hread => pure he (by omega)
  refine (key (hr.mono (by omega)) hd).bind fun _ e he hkey => ?_
  refine (delimiter (by decide) he).bind fun _ e' he' hequals => ?_
  exact (hr.expression e' he' (by omega)).bind fun _ _ hd' hread => pure hd' (by omega)

theorem entryRound (hr : r.AgreeFrom text s (c.offset + 1) r') (hc : c.In text)
    (bindings : List (Binding Expr Expr)) :
    Proceeds text (entryRound r bindings) (entryRound r' bindings) s c (Round.Moves c) := by
  refine ifDelimiter hc (fun d hd hle _ => pure hd hle) fun d hd hle => ?_
  refine (entry (hr.mono (by omega)) hd).bind fun _ e he hentry => ?_
  refine (delimiter (by decide) he).bind fun _ e' he' hend => pure he' ?_
  show c.offset < e'.offset
  omega

theorem dict (hr : r.AgreeFrom text s (c.offset + 1) r') (hc : c.In text) (recursive : Bool) :
    Reaches text (dict r recursive) (dict r' recursive) s c (c.offset + 1) := by
  refine (delimiter (by decide) hc).bind fun _ d hd hopened => ?_
  refine (repeated hd (fun bindings e he hmore => ?_) _).bind fun _ e he hle => ?_
  · exact entryRound (hr.mono (by omega)) he bindings
  · exact (delimiter (by decide) he).bind fun _ _ he' hclosed => pure he' (by omega)

/-! ## Operands -/

theorem primary (hr : r.AgreeFrom text s (c.offset + 1) r') (hc : c.In text) :
    Reaches text (primary r) (primary r') s c (c.offset + 1) := by
  refine ifString hc (fun d hd hle => ?_) fun d hd hle => ?_
  · exact (string (hr.mono (by omega)) hd).bind fun _ _ he hread => pure he (by omega)
  refine ifDelimiter hd (fun e he hle' _ => ?_) fun e he hle' => ?_
  · exact (list (hr.mono (by omega)) he).mono (by omega)
  refine overDelimiter rfl he (fun d' hd' hopened => ?_) fun d' hd' hle'' => ?_
  · exact closed (by decide) (hr.mono (by omega)) hd' fun _ _ hlt => by omega
  refine ifKeyword hd' (fun e' he' hmore _ => ?_) fun e' he' hmore => ?_
  · refine (keyword (by decide) he').bind fun _ e'' he'' hrec => ?_
    exact (dict (hr.mono (by omega)) he'' true).mono (by omega)
  refine ifDelimiter he' (fun e'' he'' hmore' _ => ?_) fun e'' he'' hmore' => ?_
  · exact (dict (hr.mono (by omega)) he'' false).mono (by omega)
  · exact (identifier he'').bind fun _ _ hend hread => pure hend (by omega)

/-- A dot without a key is not passed over, but what stands in front of it is. -/
theorem dotRound (hr : r.AgreeFrom text s (c.offset + 1) r') (hc : c.In text) (subject : Expr) :
    Proceeds text (dotRound r subject) (dotRound r' subject) s c (Round.Moves c) := by
  refine ifDelimiter hc (fun d hd hle hend => ?_) fun d hd hle => pure hd hle
  refine (cursor hd).bind fun dot _ _ hdot => ?_
  obtain ⟨rfl, rfl⟩ := hdot
  refine (advance hd hend).bind fun _ e he hpast => ?_
  have hbehind : d.offset + 1 ≤ e.offset := hpast
  refine (attempt he .key (key (hr.mono (by omega)) he)).bind fun found e' he' hkey => ?_
  cases found with
  | some k =>
    refine pure he' ?_
    show c.offset < e'.offset
    have hread : e.offset + 1 ≤ e'.offset := hkey
    omega
  | none =>
    refine (seek hd).bind fun _ _ hd' hback => ?_
    subst hback
    exact pure hd' hle

theorem dotted (hr : r.AgreeFrom text s (c.offset + 1) r') (hc : c.In text) :
    Reaches text (dotted r) (dotted r') s c (c.offset + 1) := by
  refine (primary hr hc).bind fun subject d hd hle => ?_
  refine (repeated hd (fun subject e he hmore => ?_) subject).mono hle
  exact dotRound (hr.mono (by omega)) he subject

theorem argumentRound (hr : r.AgreeFrom text s (c.offset + 1) r') (hc : c.In text) (f : Expr) :
    Proceeds text (argumentRound r f) (argumentRound r' f) s c (Round.Moves c) := by
  refine (attempt hc .lambda (lambda hr hc)).bind fun found d hd hlambda => ?_
  cases found with
  | some a => exact pure hd (Nat.le_of_lt hlambda)
  | none =>
    subst hlambda
    refine (attempt hc .dotted (dotted hr hc)).bind fun found d hd hdotted => ?_
    cases found with
    | some a => exact pure hd hdotted
    | none =>
      subst hdotted
      exact pure hc (Nat.le_refl _)

theorem application (hr : r.AgreeFrom text s (c.offset + 1) r') (hc : c.In text) :
    Reaches text (application r) (application r') s c (c.offset + 1) := by
  refine (dotted hr hc).bind fun f d hd hle => ?_
  refine (repeated hd (fun f e he hmore => ?_) f).mono hle
  exact argumentRound (hr.mono (by omega)) he f

/-! ## Expressions -/

theorem definition (hr : r.AgreeFrom text s (c.offset + 1) r') (hc : c.In text) :
    Reaches text (definition r) (definition r') s c (c.offset + 1) := by
  refine ifKeyword hc (fun d hd hle _ => ?_) fun d hd hle => ?_
  · exact (inheritance (hr.mono (by omega)) hd).bind fun _ _ he hread => pure he (by omega)
  refine (staticName (hr.mono (by omega)) hd).bind fun _ e he hname => ?_
  refine (delimiter (by decide) he).bind fun _ e' he' hequals => ?_
  exact (hr.expression e' he' (by omega)).bind fun _ _ hd' hread => pure hd' (by omega)

theorem definitionRound (hr : r.AgreeFrom text s (c.offset + 1) r') (hc : c.In text)
    (bindings : List (Binding String Expr)) :
    Proceeds text (definitionRound r bindings) (definitionRound r' bindings) s c
      (Round.Moves c) := by
  refine ifKeyword hc (fun d hd hle _ => pure hd hle) fun d hd hle => ?_
  refine (definition (hr.mono (by omega)) hd).bind fun _ e he hdefinition => ?_
  refine (delimiter (by decide) he).bind fun _ e' he' hend => pure he' ?_
  show c.offset < e'.offset
  omega

theorem letIn (hr : r.AgreeFrom text s (c.offset + 1) r') (hc : c.In text) :
    Reaches text (letIn r) (letIn r') s c (c.offset + 1) := by
  refine (keyword (by decide) hc).bind fun _ d hd hlet => ?_
  refine (repeated hd (fun bindings e he hmore => ?_) _).bind fun _ e he hle => ?_
  · exact definitionRound (hr.mono (by omega)) he bindings
  refine (keyword (by decide) he).bind fun _ e' he' hin => ?_
  exact (hr.expression e' he' (by omega)).bind fun _ _ hd' hread => pure hd' (by omega)

theorem expression (hr : r.AgreeFrom text s (c.offset + 1) r') (hc : c.In text) :
    Reaches text (expression r) (expression r') s c (c.offset + 1) := by
  refine (attempt hc .lambda (lambda hr hc)).bind fun found d hd hlambda => ?_
  cases found with
  | some e => exact pure hd hlambda
  | none =>
    subst hlambda
    refine ifKeyword hc (fun d hd hle _ => ?_) fun d hd hle => ?_
    · exact (letIn (hr.mono (by omega)) hd).mono (by omega)
    · exact (application (hr.mono (by omega)) hd).mono (by omega)

theorem program (hr : r.AgreeFrom text s (c.offset + 1) r') (hc : c.In text) :
    Reaches text (program r) (program r') s c (c.offset + 1) := by
  refine (expression hr hc).bind fun e d hd hread => ?_
  refine (skipBlank hd).bind fun _ d' hd' hskip => (ahead hd' _).bind fun b d'' _ hb => ?_
  obtain ⟨-, rfl⟩ := hb
  subst hskip
  exact choice (fun _ => pure hd' (Nat.le_trans hread d.offset_le_skip)) fun _ => fail _ hd'

end Proceeds

end LazyConfig.Parser
