import LazyConfig.Proofs.Grammar.Sound
import LazyConfig.Proofs.Grammar.Starts
import LazyConfig.Proofs.Parsing.Functions
set_option autoImplicit false

/-!
# The grammar: what is derived is read

Under the lexicon of the language a reader finds every derivation.  Each rule is read to its
end provided that nothing behind it could be taken for more of it: behind an operand there is
no dot, and behind an expression there is what ends one.

The alternatives that are tried in vain do no harm.  Where the derivation goes on with an
operand, or ends, no function can be read, because a reader reads only what is derived and
no function is derived there; and so it is with operands and keys.
-/

namespace LazyConfig.Parser

open Grammar

variable {α β : Type} {tr : Bool} {r : Rules} {n : Nat} {u v w : List Char}

/-! ## Values that must be found -/

/-- At the start of the text the parser finds the value and what is left behind it. -/
def Finds (p : Parser α) (tr : Bool) (w : List Char) (a : α) (u : List Char) : Prop :=
  Passes False p (Settings.standard tr) w fun b v => b = a ∧ v = u

theorem Finds.pure (a : α) (w : List Char) : Finds (pure a : Parser α) tr w a w :=
  Passes.pure ⟨rfl, rfl⟩

theorem Finds.bind {p : Parser α} {k : α → Parser β} {a : α} {b : β} (hp : Finds p tr w a u)
    (hk : Finds (k a) tr u b v) : Finds (p >>= k) tr w b v := by
  refine Passes.bind hp ?_
  rintro _ _ ⟨rfl, rfl⟩
  exact hk

theorem finds_delimiter {d : String} (h : Delimiter Lexicon.standard d w u) :
    Finds (delimiter d) tr w () u :=
  ((passes_delimiter d).refuse fun hno => hno ⟨u, h⟩).imp
    fun _ _ h' => ⟨rfl, Delimiter.unique h' h⟩

theorem finds_identifier {x : Name} (h : Identifier Lexicon.standard x w u) :
    Finds identifier tr w x u :=
  (passes_identifier.refuse fun hno => hno ⟨x, u, h⟩).imp fun _ _ h' => Identifier.unique h' h

theorem finds_keyword {k : String} (hk : k ≠ "") (h : Keyword Lexicon.standard k w u) :
    Finds (keyword k) tr w () u :=
  ((passes_keyword hk).refuse fun hno => hno ⟨u, h⟩).imp
    fun _ _ h' => ⟨rfl, Keyword.unique h' h⟩

section

variable {yes no p : Parser β} {b : β}

theorem Finds.ifString {s : Template Expr} (h : StringLiteral Lexicon.standard AsRead s w u)
    (hyes : Finds yes tr w b v) : Finds (do if ← peekString then yes else no) tr w b v := by
  cases h with
  | mk opens _ _ => exact Passes.ifString (fun _ => hyes) fun hno => absurd ⟨_, _, opens⟩ hno

theorem Finds.ifString_no (h : startOf w ≠ .string) (hno : Finds no tr w b v) :
    Finds (do if ← peekString then yes else no) tr w b v :=
  Passes.ifString (fun ⟨_, _, hopens⟩ => absurd hopens.startOf_eq h) fun _ => hno

theorem Finds.ifDelimiter {d : String} (h : Delimiter Lexicon.standard d w u)
    (hyes : Finds yes tr w b v) : Finds (do if ← peekDelimiter d then yes else no) tr w b v :=
  Passes.ifDelimiter (fun _ => hyes) fun hno => absurd ⟨u, h⟩ hno

theorem Finds.ifDelimiter_no {d : String} (h : startOf w ≠ .delimiter d)
    (hno : Finds no tr w b v) : Finds (do if ← peekDelimiter d then yes else no) tr w b v :=
  Passes.ifDelimiter (fun ⟨_, hd⟩ => absurd (Delimiter.startOf_eq hd) h) fun _ => hno

theorem Finds.overDelimiter {d : String} {m : Nat} {k : Unit → Parser β}
    (h : Delimiter Lexicon.standard d w u) (hm : d.length = m) (hk : Finds (k ()) tr u b v) :
    Finds (do if ← peekDelimiter d then Parser.advance m >>= k else no) tr w b v := by
  refine Passes.overDelimiter hm (fun u' h' => ?_) fun hno => absurd ⟨u, h⟩ hno
  obtain rfl := Delimiter.unique h h'
  exact hk

theorem Finds.ifKeyword {k : String} (hk : k ≠ "") (h : Keyword Lexicon.standard k w u)
    (hyes : Finds yes tr w b v) : Finds (do if ← peekKeyword k then yes else no) tr w b v :=
  Passes.ifKeyword hk (fun _ => hyes) fun hno => absurd ⟨u, h⟩ hno

theorem Finds.ifKeyword_no {k : String} (hk : k ≠ "") (h : startOf w ≠ .word k)
    (hno : Finds no tr w b v) : Finds (do if ← peekKeyword k then yes else no) tr w b v :=
  Passes.ifKeyword hk (fun ⟨_, hword⟩ => absurd (Keyword.startOf_eq hword) h) fun _ => hno

theorem Finds.attempt (branch : Branch) (h : Finds p tr w b u) :
    Finds (attempt branch p) tr w (some b) u := by
  refine (Passes.attempt branch h).imp fun o v ho => ?_
  cases o with
  | some b' => exact ⟨congrArg some ho.1, ho.2⟩
  | none => exact ho.1.elim

/-- What cannot be read is given up. -/
theorem Finds.attempt_none {P : β → List Char → Prop} (branch : Branch)
    (h : Passes True p (Settings.standard tr) w P) (hP : ∀ b u, ¬ P b u) :
    Finds (Parser.attempt branch p) tr w none w := by
  refine (Passes.attempt branch h).imp fun o v ho => ?_
  cases o with
  | some b => exact absurd ho (hP b v)
  | none => exact ⟨rfl, ho.2.symm⟩

end

/-- A loop whose rounds gather a list finds the list. -/
theorem finds_gather {R : List α → List Char → List Char → Prop}
    {body : List α → Parser (Round (List α) (List α))}
    (hdone : ∀ xs v, R [] v u → Finds (body xs) tr v (.done xs.reverse) u)
    (hagain : ∀ xs x rest v, v.length ≤ w.length → R (x :: rest) v u →
      ∃ z, z.length < v.length ∧ R rest z u ∧ Finds (body xs) tr v (.again (x :: xs)) z)
    {all : List α} (h : R all w u) : Finds (repeated body []) tr w all u := by
  refine Passes.repeated (I := fun xs v => v.length ≤ w.length ∧
    ∃ rest, R rest v u ∧ xs.reverse ++ rest = all) (fun xs v hI => ?_)
    ⟨Nat.le_refl _, all, h, rfl⟩
  obtain ⟨hv, rest, hrest, rfl⟩ := hI
  cases rest with
  | nil =>
    refine (hdone xs v hrest).imp ?_
    rintro _ _ ⟨rfl, rfl⟩
    exact ⟨(List.append_nil _).symm, rfl⟩
  | cons x rest =>
    obtain ⟨z, hshorter, hrule, hfinds⟩ := hagain xs x rest v hv hrest
    refine hfinds.imp ?_
    rintro _ _ ⟨rfl, rfl⟩
    exact ⟨⟨by omega, rest, hrule, by simp⟩, hshorter⟩

/-- The rules find what is derived from fewer characters than a bound, and nothing else. -/
structure Rules.CompleteBelow (r : Rules) (tr : Bool) (n : Nat) : Prop where
  /-- They are sound. -/
  sound : r.SoundBelow (Settings.standard tr) n
  /-- Expressions. -/
  expression : ∀ {e : Expr} {w u : List Char}, w.length < n →
    Expression Lexicon.standard AsRead e w u → (startOf u).isEnd = true →
    Finds r.expression tr w e u
  /-- Operands with their keys. -/
  dotted : ∀ {e : Expr} {w u : List Char}, w.length < n →
    Dotted Lexicon.standard AsRead e w u → startOf u ≠ .delimiter "." → Finds r.dotted tr w e u

section

variable (hr : r.CompleteBelow tr n)

include hr

/-- An expression is found in front of a delimiter that ends one. -/
theorem finds_expression {e : Expr} {d : String} (hw : w.length < n)
    (he : Expression Lexicon.standard AsRead e w u) (hclose : Delimiter Lexicon.standard d u v)
    (hd : (Start.delimiter d).isEnd = true) : Finds r.expression tr w e u :=
  hr.expression hw he (by rwa [hclose.startOf_eq])

/-! ## Strings -/

/-- The rounds of a body, from where it starts. -/
theorem finds_body {o : Opening} {body : Template Expr} {t u : List Char} (cause : Cause)
    (ht : t.length ≤ n) (h : StringBody Lexicon.standard AsRead o body t u) :
    Ensures False (repeated (bodyRound (unitOf o) cause r.expression) Draft.empty)
      (Settings.standard tr) t fun X v => X = (Draft.gather body).finish ∧ v = u := by
  refine Ensures.repeated (I := fun d v => v.length ≤ n ∧ ∃ front rest,
    d = Draft.gather front ∧ StringBody Lexicon.standard AsRead o rest v u ∧ front ++ rest = body)
    List.length (fun _ => Nat.le_refl _) (fun d v hI => ?_) ⟨ht, [], body, rfl, h, rfl⟩
  obtain ⟨hv, front, rest, rfl, hrest, rfl⟩ := hI
  refine Ensures.bind (Ensures.ahead _) ?_
  rintro _ _ ⟨rfl, rfl⟩
  cases hrest with
  | close hmark =>
    obtain ⟨width, hunit, hdrop⟩ := hmark.unitOf_eq
    rw [hunit]
    refine Ensures.bind (Ensures.advance width) ?_
    rintro _ _ rfl
    exact Ensures.pure ⟨by rw [List.append_nil], hdrop⟩
  | @chars _ cs rest _ z _ hfirst hothers =>
    obtain ⟨width, hunit, hdrop⟩ := hfirst.unitOf_eq
    have hshorter := hfirst.length_lt
    rw [hunit]
    refine Ensures.bind (Ensures.advance width) ?_
    rintro _ _ rfl
    rw [hdrop]
    refine Ensures.pure ⟨⟨by omega, front ++ [.literal (String.ofList cs)], rest, ?_, hothers,
      by simp⟩, hshorter⟩
    rw [Draft.gather_append_singleton, Draft.add, String.toList_ofList]
  | @hole _ e rest t' y y' z _ hblank hinner hclose hothers =>
    rw [unitOf_hole]
    refine Ensures.bind (Ensures.advance 2) ?_
    rintro _ _ rfl
    have hy := hblank.length_le
    have hexpr := hinner.length_lt
    have hshorter := hclose.length_lt
    simp only [List.length_cons] at hv
    have hfinds := finds_expression (v := afterBlank z) hr (by omega) hinner
      ⟨z, hclose, blank_iff.mpr rfl⟩ (by decide)
    refine Ensures.bind (hfinds t' hblank.eq_afterBlank.symm) ?_
    rintro e' x ⟨rfl, hx⟩
    have hbrace := ensures_delimiter (s := Settings.standard tr) "\x7d" x
    rw [hx] at hbrace
    refine Ensures.bind (hbrace.refuse fun hno => hno ⟨_, z, hclose, blank_iff.mpr rfl⟩) ?_
    rintro _ z' hclose'
    obtain rfl := (hclose.unique hclose').2
    refine Ensures.pure ⟨⟨by omega, front ++ [.antiquote e'], rest, ?_, hothers, by simp⟩, ?_⟩
    · rw [Draft.gather_append_singleton, Draft.add]
    · simp only [List.length_cons]
      omega

theorem finds_string {s : Template Expr} (hw : w.length ≤ n)
    (h : StringLiteral Lexicon.standard AsRead s w u) : Finds (string r.expression) tr w s u := by
  rintro t rfl
  cases h with
  | @mk o body s l _ v z _ opens inner blank content normal =>
    have hopening : Ensures False aheadOpening (Settings.standard tr) t fun a v =>
        opening? (afterBlank t) = a ∧ afterBlank t = v :=
      fun _ => ⟨rfl, rfl⟩
    have hv := opens.length_lt
    refine Ensures.bind hopening ?_
    rintro _ _ ⟨rfl, rfl⟩
    rw [opening?_of_openingMark opens]
    cases o with
    | quoted =>
      refine Ensures.bind (Ensures.advance 1) ?_
      rintro _ _ rfl
      rw [opens.drop_quoted]
      refine Ensures.bind (finds_body hr _ (by omega) inner) ?_
      rintro _ _ ⟨rfl, rfl⟩
      rw [Draft.finish_gather]
      cases content with
      | quoted =>
        exact Ensures.pure ⟨(normal_clean_padded body).unique normal, blank.eq_afterBlank.symm⟩
    | indented =>
      refine Ensures.bind (Ensures.advance 2) ?_
      rintro _ _ rfl
      rw [opens.drop_indented]
      refine Ensures.bind (finds_body hr _ (by omega) inner) ?_
      rintro _ _ ⟨rfl, rfl⟩
      rw [Draft.finish_gather]
      cases content with
      | indented hstrip =>
        obtain rfl := (asRead_padded body).unique hstrip
        exact Ensures.pure ⟨(normal_clean _).unique normal, blank.eq_afterBlank.symm⟩

/-! ## Keys, names and `inherit` -/

theorem finds_key {k : Expr} (hw : w.length ≤ n) (h : Key Lexicon.standard AsRead k w u) :
    Finds (key r) tr w k u := by
  cases h with
  | name name =>
    have hstart := name.startOf_eq
    refine Finds.ifString_no (by simp [hstart]) (Finds.ifDelimiter_no (by simp [hstart]) ?_)
    exact Finds.bind (finds_identifier name) (Finds.pure _ _)
  | string h => exact Finds.ifString h (Finds.bind (finds_string hr hw h) (Finds.pure _ _))
  | hole opens inner closes =>
    have hlength := opens.length_lt
    refine Finds.ifString_no (by simp [opens.startOf_eq]) (Finds.overDelimiter opens (by decide) ?_)
    refine Finds.bind (finds_expression hr (by omega) inner closes (by decide)) ?_
    exact Finds.bind (finds_delimiter closes) (Finds.pure _ _)

theorem finds_staticName {x : String} (hw : w.length ≤ n)
    (h : StaticName Lexicon.standard AsRead x w u) : Finds (staticName r) tr w x u := by
  cases h with
  | name name =>
    refine Finds.ifString_no (by simp [name.startOf_eq]) ?_
    exact Finds.bind (finds_identifier name) (Finds.pure _ _)
  | string h static =>
    refine Finds.ifString h (Passes.bind Passes.cursor ?_)
    rintro start _ rfl
    refine Finds.bind (finds_string hr hw h) ?_
    rw [(Template.static?_eq_some_iff h.isClean).mpr static]
    exact Finds.pure _ _

theorem finds_names {names : List String} (hw : w.length ≤ n)
    (h : Names Lexicon.standard AsRead names w u) (hclose : Delimiter Lexicon.standard ";" u v) :
    Finds (repeated (inheritRound r) []) tr w names u := by
  refine finds_gather (R := Names Lexicon.standard AsRead) (fun xs z hend => ?_)
    (fun xs x rest z hz hrest => ?_) h
  · cases hend
    exact Finds.ifDelimiter hclose (Finds.pure _ _)
  · cases hrest with
    | cons first others =>
      refine ⟨_, first.length_lt, others,
        Finds.ifDelimiter_no first.startOf_ne_delimiter ?_⟩
      exact Finds.bind (finds_staticName hr (by omega) first) (Finds.pure _ _)

theorem finds_inheritance {source : Option Expr} {names : List String} (hw : w.length ≤ n)
    (h : Inheritance Lexicon.standard AsRead source names w u)
    (hclose : Delimiter Lexicon.standard ";" u v) :
    Finds (inheritance r) tr w (source, names) u := by
  cases h with
  | @scope _ _ z _ keyword list =>
    have hlength := keyword.length_lt
    have hsource : Finds (inheritSource r) tr z none z :=
      Finds.ifDelimiter_no (list.startOf_ne hclose) (Finds.pure _ _)
    refine Finds.bind (finds_keyword (by decide) keyword) (Finds.bind hsource ?_)
    exact Finds.bind (finds_names hr (by omega) list hclose) (Finds.pure _ _)
  | @source e _ _ z _ _ y _ keyword opens inner closes list =>
    have hlength := keyword.length_lt
    have hopen := opens.length_lt
    have hinner := inner.length_lt
    have hend := closes.length_lt
    have hsource : Finds (inheritSource r) tr z (some e) y := by
      refine Finds.overDelimiter opens (by decide) ?_
      refine Finds.bind (finds_expression hr (by omega) inner closes (by decide)) ?_
      exact Finds.bind (finds_delimiter closes) (Finds.pure _ _)
    refine Finds.bind (finds_keyword (by decide) keyword) (Finds.bind hsource ?_)
    exact Finds.bind (finds_names hr (by omega) list hclose) (Finds.pure _ _)

/-! ## Parameters and functions -/

/-- A field is its name and what is found behind it. -/
theorem finds_item {field : Field Expr} {d : String} (hw : w.length ≤ n)
    (h : Item Lexicon.standard AsRead field w u) (hclose : Delimiter Lexicon.standard d u v)
    (hd : (Start.delimiter d).isEnd = true) :
    ∃ z, Identifier Lexicon.standard field.name w z ∧
      Finds (fieldDefault r) tr z field.default u := by
  cases h with
  | plain name =>
    refine ⟨u, name, Finds.ifDelimiter_no ?_ (Finds.pure _ _)⟩
    rw [hclose.startOf_eq]
    intro heq
    rw [heq] at hd
    exact absurd hd (by decide)
  | default name mark default =>
    have hname := name.length_lt
    have hmark := mark.length_lt
    refine ⟨_, name, Finds.overDelimiter mark (by decide) ?_⟩
    exact Finds.bind (finds_expression hr (by omega) default hclose hd) (Finds.pure _ _)

theorem finds_fields {fields : List (Field Expr)} {ellipsis : Bool} (hw : w.length ≤ n)
    (h : Fields Lexicon.standard AsRead fields ellipsis w u)
    (hclose : Delimiter Lexicon.standard "\x7d" u v) :
    Finds (repeated (fieldRound r) []) tr w (fields, ellipsis) u := by
  refine Passes.repeated (I := fun xs z => z.length ≤ n ∧ ∃ rest,
    Fields Lexicon.standard AsRead rest ellipsis z u ∧ xs.reverse ++ rest = fields)
    (fun xs z hI => ?_) ⟨hw, fields, h, rfl⟩
  obtain ⟨hz, rest, hrest, rfl⟩ := hI
  cases hrest with
  | ellipsis hmark =>
    have hround : Finds (fieldRound r xs) tr z (.done (xs.reverse, true)) u :=
      Finds.overDelimiter hmark (by decide) (Finds.pure _ _)
    refine hround.imp ?_
    rintro _ _ ⟨rfl, rfl⟩
    exact ⟨by rw [List.append_nil], rfl⟩
  | @last field _ _ item =>
    obtain ⟨y, name, hdefault⟩ := finds_item hr hz item hclose (by decide)
    have hround : Finds (fieldRound r xs) tr z (.done ((field :: xs).reverse, false)) u := by
      refine Finds.ifDelimiter_no (by simp [name.startOf_eq]) ?_
      refine Finds.bind (finds_identifier name) (Finds.bind hdefault ?_)
      exact Finds.ifDelimiter_no (by simp [hclose.startOf_eq]) (Finds.pure _ _)
    refine hround.imp ?_
    rintro _ _ ⟨rfl, rfl⟩
    exact ⟨by rw [List.reverse_cons], rfl⟩
  | @more field rest _ _ y y' _ item comma others =>
    obtain ⟨x, name, hdefault⟩ := finds_item hr hz item comma (by decide)
    have hround : Finds (fieldRound r xs) tr z (.again (field :: xs)) y' := by
      refine Finds.ifDelimiter_no (by simp [name.startOf_eq]) ?_
      refine Finds.bind (finds_identifier name) (Finds.bind hdefault ?_)
      exact Finds.overDelimiter comma (by decide) (Finds.pure _ _)
    have hitem := item.length_lt
    have hcomma := comma.length_lt
    refine hround.imp ?_
    rintro _ _ ⟨rfl, rfl⟩
    exact ⟨⟨by omega, rest, others, by simp⟩, by omega⟩

theorem finds_pattern {p : Pattern Expr} (hw : w.length ≤ n)
    (h : DictPattern Lexicon.standard AsRead p w u) : Finds (pattern r) tr w p u := by
  refine Passes.bind Passes.cursor ?_
  rintro start _ rfl
  cases h with
  | @empty _ z _ opens closes =>
    have hlist : Finds (fieldList r) tr z ([], false) z :=
      Finds.ifDelimiter closes (Finds.pure _ _)
    refine Finds.bind (finds_delimiter opens) (Finds.bind hlist ?_)
    exact Finds.bind (finds_delimiter closes) (Finds.pure _ _)
  | @fields fields ellipsis _ z y _ opens list closes distinct =>
    have hlength := opens.length_lt
    have hlist : Finds (fieldList r) tr z (fields, ellipsis) y :=
      Finds.ifDelimiter_no (list.startOf_ne closes) (finds_fields hr (by omega) list closes)
    have hmade : Pattern.ofFields fields ellipsis = .ok ⟨fields, ellipsis⟩ :=
      ofFields_of_distinct distinct
    refine Finds.bind (finds_delimiter opens) (Finds.bind hlist ?_)
    refine Finds.bind (finds_delimiter closes) ?_
    simp only [hmade]
    exact Finds.pure _ _

theorem finds_param {p : Param Expr} (hw : w.length ≤ n)
    (h : Parameter Lexicon.standard AsRead p w u) (hcolon : Delimiter Lexicon.standard ":" u v) :
    Finds (param r) tr w p u := by
  cases h with
  | name name =>
    refine Finds.ifDelimiter_no (by simp [name.startOf_eq]) ?_
    refine Finds.bind (finds_identifier name) ?_
    exact Finds.ifDelimiter_no (by simp [hcolon.startOf_eq]) (Finds.pure _ _)
  | pattern pattern =>
    obtain ⟨_, opens⟩ := pattern.exists_opens
    refine Finds.ifDelimiter opens ?_
    exact Finds.bind (finds_pattern hr hw pattern) (Finds.pure _ _)
  | both name mark pattern =>
    have hname := name.length_lt
    have hmark := mark.length_lt
    refine Finds.ifDelimiter_no (by simp [name.startOf_eq]) ?_
    refine Finds.bind (finds_identifier name) (Finds.overDelimiter mark (by decide) ?_)
    exact Finds.bind (finds_pattern hr (by omega) pattern) (Finds.pure _ _)

theorem finds_lambda {e : Expr} (hw : w.length ≤ n) (h : Lambda Lexicon.standard AsRead e w u)
    (hend : (startOf u).isEnd = true) : Finds (lambda r) tr w e u := by
  cases h with
  | mk param colon body =>
    have hparam := param.length_lt
    have hcolon := colon.length_lt
    refine Finds.bind (finds_param hr hw param colon) ?_
    refine Finds.bind (finds_delimiter colon) ?_
    exact Finds.bind (hr.expression (by omega) body hend) (Finds.pure _ _)

/-! ## Lists and dicts -/

theorem finds_items {es : List Expr} (hw : w.length < n) (h : Items Lexicon.standard AsRead es w u)
    (hclose : Delimiter Lexicon.standard "]" u v) :
    Finds (repeated (listRound r) []) tr w es u := by
  refine finds_gather (R := Items Lexicon.standard AsRead) (fun xs z hend => ?_)
    (fun xs x rest z hz hrest => ?_) h
  · cases hend
    exact Finds.ifDelimiter hclose (Finds.pure _ _)
  · cases hrest with
    | cons first others =>
      refine ⟨_, first.length_lt, others, Finds.ifDelimiter_no first.startOf_ne ?_⟩
      have hitem := hr.dotted (by omega) first (others.startOf_ne hclose)
      exact Finds.bind hitem (Finds.pure _ _)

theorem finds_entry {b : Binding Expr Expr} (hw : w.length ≤ n)
    (h : DictBinding Lexicon.standard AsRead b w u) (hclose : Delimiter Lexicon.standard ";" u v) :
    Finds (entry r) tr w b u := by
  cases h with
  | inherit h =>
    obtain ⟨_, keyword⟩ := h.exists_keyword
    refine Finds.ifKeyword (by decide) keyword ?_
    exact Finds.bind (finds_inheritance hr hw h hclose) (Finds.pure _ _)
  | equation key mark value =>
    have hkey := key.length_lt
    have hmark := mark.length_lt
    refine Finds.ifKeyword_no (by decide) (key.startOf_ne_word (by decide)) ?_
    refine Finds.bind (finds_key hr hw key) (Finds.bind (finds_delimiter mark) ?_)
    exact Finds.bind (finds_expression hr (by omega) value hclose (by decide)) (Finds.pure _ _)

theorem finds_entries {bs : List (Binding Expr Expr)} (hw : w.length ≤ n)
    (h : DictBindings Lexicon.standard AsRead bs w u)
    (hclose : Delimiter Lexicon.standard "\x7d" u v) :
    Finds (repeated (entryRound r) []) tr w bs u := by
  refine finds_gather (R := DictBindings Lexicon.standard AsRead) (fun xs z hend => ?_)
    (fun xs x rest z hz hrest => ?_) h
  · cases hend
    exact Finds.ifDelimiter hclose (Finds.pure _ _)
  · cases hrest with
    | cons first semicolon others =>
      refine ⟨_, Nat.lt_trans semicolon.length_lt first.length_lt, others,
        Finds.ifDelimiter_no (first.startOf_ne (by decide)) ?_⟩
      refine Finds.bind (finds_entry hr (by omega) first semicolon) ?_
      exact Finds.bind (finds_delimiter semicolon) (Finds.pure _ _)

theorem finds_dict {bs : List (Binding Expr Expr)} (recursive : Bool) (hw : w.length ≤ n)
    (h : Dict Lexicon.standard AsRead bs w u) :
    Finds (dict r recursive) tr w (.dict recursive bs) u := by
  cases h with
  | mk opens bindings closes =>
    have hlength := opens.length_lt
    refine Finds.bind (finds_delimiter opens) ?_
    refine Finds.bind (finds_entries hr (by omega) bindings closes) ?_
    exact Finds.bind (finds_delimiter closes) (Finds.pure _ _)

/-! ## Operands -/

theorem finds_primary {e : Expr} (hw : w.length ≤ n) (h : Primary Lexicon.standard AsRead e w u) :
    Finds (primary r) tr w e u := by
  cases h with
  | string h => exact Finds.ifString h (Finds.bind (finds_string hr hw h) (Finds.pure _ _))
  | list opens items closes =>
    have hlength := opens.length_lt
    refine Finds.ifString_no (by simp [opens.startOf_eq]) (Finds.ifDelimiter opens ?_)
    refine Finds.bind (finds_delimiter opens) ?_
    refine Finds.bind (finds_items hr (by omega) items closes) ?_
    exact Finds.bind (finds_delimiter closes) (Finds.pure _ _)
  | dict h =>
    have hstart := h.startOf_eq
    have hread := finds_dict hr false hw h
    refine Finds.ifString_no (by simp [hstart]) (Finds.ifDelimiter_no (by simp [hstart])
      (Finds.ifDelimiter_no (by simp [hstart]) (Finds.ifKeyword_no (by decide) (by simp [hstart])
        ?_)))
    cases h with
    | mk opens _ _ => exact Finds.ifDelimiter opens hread
  | recursiveDict keyword h =>
    have hstart := keyword.startOf_eq
    have hlength := keyword.length_lt
    refine Finds.ifString_no (by simp [hstart]) (Finds.ifDelimiter_no (by simp [hstart])
      (Finds.ifDelimiter_no (by simp [hstart]) (Finds.ifKeyword (by decide) keyword ?_)))
    exact Finds.bind (finds_keyword (by decide) keyword) (finds_dict hr true (by omega) h)
  | var name =>
    have hstart := name.startOf_eq
    have hrec : startOf w ≠ .word "rec" := name.startOf_ne_word (by decide)
    refine Finds.ifString_no (by simp [hstart]) (Finds.ifDelimiter_no (by simp [hstart])
      (Finds.ifDelimiter_no (by simp [hstart]) (Finds.ifKeyword_no (by decide) hrec
        (Finds.ifDelimiter_no (by simp [hstart]) ?_))))
    exact Finds.bind (finds_identifier name) (Finds.pure _ _)
  | parens opens inner closes =>
    have hstart := opens.startOf_eq
    have hlength := opens.length_lt
    refine Finds.ifString_no (by simp [hstart]) (Finds.ifDelimiter_no (by simp [hstart])
      (Finds.overDelimiter opens (by decide) ?_))
    refine Finds.bind (finds_expression hr (by omega) inner closes (by decide)) ?_
    exact Finds.bind (finds_delimiter closes) (Finds.pure _ _)

/-- One more key. -/
theorem finds_dotRound {e k : Expr} (hw : w.length ≤ n) (dot : Delimiter Lexicon.standard "." w v)
    (h : Key Lexicon.standard AsRead k v u) : Finds (dotRound r e) tr w (.again (.dot e k)) u := by
  obtain ⟨hfound, hbehind⟩ := dot.delimiterAt?_eq
  have hlength := dot.length_lt
  refine Passes.test (b := fun z => Lexicon.standard.delimiterAt? z == some ".")
    (fun _ _ => ⟨rfl, rfl⟩) (fun _ _ => ?_) fun hno => ?_
  · refine Ensures.bind Ensures.cursor ?_
    rintro start _ ⟨-, rfl⟩
    refine Ensures.bind (Ensures.advance 1) ?_
    rintro _ _ rfl
    refine Ensures.bind ((finds_key hr (by omega) h).attempt .key _ hbehind) ?_
    rintro _ _ ⟨rfl, rfl⟩
    exact Ensures.pure ⟨rfl, rfl⟩
  · simp [hfound] at hno

theorem finds_keys {e e' : Expr} (hw : w.length ≤ n) (h : Keys Lexicon.standard AsRead e w e' u)
    (hend : startOf u ≠ .delimiter ".") : Finds (repeated (dotRound r) e) tr w e' u := by
  refine Passes.repeated (I := fun e v => v.length ≤ n ∧ Keys Lexicon.standard AsRead e v e' u)
    (fun e v hI => ?_) ⟨hw, h⟩
  obtain ⟨hv, hkeys⟩ := hI
  cases hkeys with
  | nil =>
    have hround : Finds (dotRound r e') tr u (.done e') u :=
      Finds.ifDelimiter_no hend (Finds.pure _ _)
    refine hround.imp ?_
    rintro _ _ ⟨rfl, rfl⟩
    exact ⟨rfl, rfl⟩
  | cons dot key others =>
    have hdot := dot.length_lt
    have hkey := key.length_lt
    refine (finds_dotRound hr hv dot key).imp ?_
    rintro _ _ ⟨rfl, rfl⟩
    exact ⟨⟨by omega, others⟩, by omega⟩

theorem finds_dotted {e : Expr} (hw : w.length ≤ n) (h : Dotted Lexicon.standard AsRead e w u)
    (hend : startOf u ≠ .delimiter ".") : Finds (dotted r) tr w e u := by
  obtain ⟨e', v, hprimary, hkeys⟩ := h.exists_keys
  have hlength := hprimary.length_lt
  exact Finds.bind (finds_primary hr hw hprimary) (finds_keys hr (by omega) hkeys hend)

/-- No function is read where a derivation goes on with an operand and more arguments. -/
theorem gives_up_lambda {f e : Expr} (hw : w.length ≤ n) (hf : Dotted Lexicon.standard AsRead f w v)
    {e' : Expr} (hrest : Arguments Lexicon.standard AsRead e' v e u)
    (hend : (startOf u).isEnd = true) : Finds (attempt .lambda (lambda r)) tr w none w := by
  exact Finds.attempt_none .lambda (sound_lambda hr.sound hw) fun _ _ ha =>
    hrest.not_lambda hend hf ha

theorem finds_arguments {f e : Expr} (hw : w.length ≤ n)
    (h : Arguments Lexicon.standard AsRead f w e u) (hend : (startOf u).isEnd = true) :
    Finds (repeated (argumentRound r) f) tr w e u := by
  refine Passes.repeated (I := fun f v => v.length ≤ n ∧ Arguments Lexicon.standard AsRead f v e u)
    (fun f v hI => ?_) ⟨hw, h⟩
  obtain ⟨hv, harguments⟩ := hI
  cases harguments with
  | nil =>
    have hround : Finds (argumentRound r e) tr u (.done e) u := by
      refine Finds.bind (Finds.attempt_none .lambda (sound_lambda hr.sound hv) fun a z ha => ?_)
        (Finds.bind (Finds.attempt_none .dotted (sound_dotted hr.sound hv) fun a z ha => ?_)
          (Finds.pure _ _))
      · exact Lambda.not_isEnd ha hend
      · exact Dotted.not_isEnd ha hend
    refine hround.imp ?_
    rintro _ _ ⟨rfl, rfl⟩
    exact ⟨rfl, rfl⟩
  | @lastLambda _ a _ _ argument =>
    have hround : Finds (argumentRound r f) tr v (.done (.apply f a)) u :=
      Finds.bind (Finds.attempt .lambda (finds_lambda hr hv argument hend)) (Finds.pure _ _)
    refine hround.imp ?_
    rintro _ _ ⟨rfl, rfl⟩
    exact ⟨rfl, rfl⟩
  | @cons _ a _ _ z _ argument others =>
    have hlength := argument.length_lt
    have hround : Finds (argumentRound r f) tr v (.again (.apply f a)) z := by
      refine Finds.bind (gives_up_lambda hr hv argument others hend) ?_
      refine Finds.bind (Finds.attempt .dotted (finds_dotted hr hv argument ?_)) (Finds.pure _ _)
      exact others.startOf_ne hend (by decide)
    refine hround.imp ?_
    rintro _ _ ⟨rfl, rfl⟩
    exact ⟨⟨by omega, others⟩, hlength⟩

/-! ## Expressions -/

theorem finds_definition {b : Binding String Expr} (hw : w.length ≤ n)
    (h : LetBinding Lexicon.standard AsRead b w u) (hclose : Delimiter Lexicon.standard ";" u v) :
    Finds (definition r) tr w b u := by
  cases h with
  | inherit h =>
    obtain ⟨_, keyword⟩ := h.exists_keyword
    refine Finds.ifKeyword (by decide) keyword ?_
    exact Finds.bind (finds_inheritance hr hw h hclose) (Finds.pure _ _)
  | equation name mark value =>
    have hname := name.length_lt
    have hmark := mark.length_lt
    refine Finds.ifKeyword_no (by decide) (name.startOf_ne_word (by decide)) ?_
    refine Finds.bind (finds_staticName hr hw name) (Finds.bind (finds_delimiter mark) ?_)
    exact Finds.bind (finds_expression hr (by omega) value hclose (by decide)) (Finds.pure _ _)

theorem finds_definitions {bs : List (Binding String Expr)} (hw : w.length ≤ n)
    (h : LetBindings Lexicon.standard AsRead bs w u) (hclose : Keyword Lexicon.standard "in" u v) :
    Finds (repeated (definitionRound r) []) tr w bs u := by
  refine finds_gather (R := LetBindings Lexicon.standard AsRead) (fun xs z hend => ?_)
    (fun xs x rest z hz hrest => ?_) h
  · cases hend
    exact Finds.ifKeyword (by decide) hclose (Finds.pure _ _)
  · cases hrest with
    | cons first semicolon others =>
      refine ⟨_, Nat.lt_trans semicolon.length_lt first.length_lt, others,
        Finds.ifKeyword_no (by decide) first.startOf_ne ?_⟩
      refine Finds.bind (finds_definition hr (by omega) first semicolon) ?_
      exact Finds.bind (finds_delimiter semicolon) (Finds.pure _ _)

theorem finds_wholeExpression {e : Expr} (hw : w.length ≤ n)
    (h : Expression Lexicon.standard AsRead e w u) (hend : (startOf u).isEnd = true) :
    Finds (expression r) tr w e u := by
  cases h with
  | lambda h =>
    exact Finds.bind (Finds.attempt .lambda (finds_lambda hr hw h hend)) (Finds.pure _ _)
  | letIn h =>
    refine Finds.bind (Finds.attempt_none .lambda (sound_lambda hr.sound hw) fun _ _ ha =>
      h.not_lambda ha) ?_
    cases h with
    | mk keyword bindings mark body =>
      have hkeyword := keyword.length_lt
      have hbindings := bindings.length_le
      have hmark := mark.length_lt
      refine Finds.ifKeyword (by decide) keyword ?_
      refine Finds.bind (finds_keyword (by decide) keyword) ?_
      refine Finds.bind (finds_definitions hr (by omega) bindings mark) ?_
      refine Finds.bind (finds_keyword (by decide) mark) ?_
      exact Finds.bind (hr.expression (by omega) body hend) (Finds.pure _ _)
  | application h =>
    obtain ⟨f, v, hf, harguments⟩ := h.exists_arguments
    have hlength := hf.length_lt
    refine Finds.bind (gives_up_lambda hr hw hf harguments hend) ?_
    refine Finds.ifKeyword_no (by decide) hf.startOf_ne_let ?_
    refine Finds.bind (finds_dotted hr hw hf ?_) (finds_arguments hr (by omega) harguments hend)
    exact harguments.startOf_ne hend (by decide)

end

/-! ## Whole texts -/

theorem completeBelow_ofDepth (depth : Nat) : (Rules.ofDepth depth).CompleteBelow tr depth := by
  induction depth with
  | zero =>
    exact ⟨soundBelow_ofDepth 0, fun h => absurd h (Nat.not_lt_zero _),
      fun h => absurd h (Nat.not_lt_zero _)⟩
  | succ depth ih =>
    exact ⟨soundBelow_ofDepth (depth + 1),
      fun hw h hend => finds_wholeExpression ih (Nat.le_of_lt_succ hw) h hend,
      fun hw h hend => finds_dotted ih (Nat.le_of_lt_succ hw) h hend⟩

theorem finds_program {e : Expr} {t : List Char} (hr : r.CompleteBelow tr n) (ht : t.length ≤ n)
    (h : Program Lexicon.standard AsRead e t) :
    Ensures False (program r) (Settings.standard tr) t fun e' _ => e' = e := by
  obtain ⟨w, hblank, he⟩ := h
  have hlength := hblank.length_le
  have hfinds := finds_wholeExpression hr (by omega) he rfl
  refine Ensures.bind (hfinds t hblank.eq_afterBlank.symm) ?_
  rintro e' u ⟨rfl, hu⟩
  refine Ensures.bind Ensures.skipBlank ?_
  rintro _ _ rfl
  refine Ensures.bind (Ensures.ahead _) ?_
  rintro _ _ ⟨rfl, rfl⟩
  rw [hu]
  exact Ensures.pure rfl

end LazyConfig.Parser

namespace LazyConfig

open LazyConfig.Parser Grammar

/-- A text that is derived from the grammar is accepted. -/
theorem readProgram_of_program {text : String} {e : Expr}
    (h : Program Lexicon.standard AsRead e text.toList) :
    readProgram Lexicon.standard text = .accepted e := by
  have hcomplete : (Rules.ofDepth (text.toList.length + 1)).CompleteBelow false
      (text.toList.length + 1) := completeBelow_ofDepth _
  have hrun := finds_program hcomplete (Nat.le_succ _) h 0
  rw [readProgram, readTraced, Parser.run]
  rcases hr : program (Rules.ofDepth (text.toList.length + 1)) ⟨Lexicon.standard, false⟩
    ⟨0, text.toList⟩ with ⟨reply, events⟩
  rw [show Settings.standard false = ⟨Lexicon.standard, false⟩ from rfl, hr] at hrun
  cases reply with
  | ok e' c =>
    obtain rfl : e' = e := hrun
    rfl
  | failed f => exact hrun.elim
  | exhausted => exact hrun.elim

end LazyConfig
