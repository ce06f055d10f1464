import LazyConfig.Expr.Equality
import LazyConfig.Expr.Outline
import Mathlib.Algebra.Group.Nat.Defs
import Mathlib.Tactic.SplitIfs
set_option autoImplicit false

/-!
# Outlines determine the tree

No two trees have one outline.  What makes this so is that a part tells by itself where it ends:
where two texts that start with parts of one kind are the same, so are the parts, and so is what
is left behind them.  All that is asked of what is left is that it does not start with a space,
because a field or a pattern may go on behind one.  In an outline a parenthesis, a bracket or a
comma comes next, or the end.
-/

namespace LazyConfig

/-! ## Texts in quotes -/

namespace Text

theorem digitChar_inj {n m : Nat} (hn : n < 16) (hm : m < 16)
    (h : Nat.digitChar n = Nat.digitChar m) : n = m := by
  have hall : ∀ i j : Fin 16, Nat.digitChar i = Nat.digitChar j → i = j := by decide
  exact congrArg Fin.val (hall ⟨n, hn⟩ ⟨m, hm⟩ h)

/-- The digits of a number that fits into the width determine it. -/
theorem hexDigits_inj {width n m : Nat} (hn : n < 16 ^ width) (hm : m < 16 ^ width)
    (h : hexDigits width n = hexDigits width m) : n = m := by
  induction width generalizing n m with
  | zero => omega
  | succ width ih =>
    rw [Nat.pow_succ] at hn hm
    obtain ⟨hhigh, hlow⟩ := List.append_inj' h rfl
    have hdiv : n / 16 = m / 16 := ih (by omega) (by omega) hhigh
    have hmod : n % 16 = m % 16 :=
      digitChar_inj (Nat.mod_lt n (by decide)) (Nat.mod_lt m (by decide)) (List.cons.inj hlow).1
    omega

/-- What stands behind the backslash of an escape, and the character that is meant. -/
def dumpEscapes : List (Char × Char) :=
  [('"', '"'), ('\\', '\\'), ('n', '\n'), ('r', '\r'), ('t', '\t'), ('b', '\x08'), ('f', '\x0c')]

theorem dumpEscapes_inj : ∀ p ∈ dumpEscapes, ∀ q ∈ dumpEscapes, p.1 = q.1 → p.2 = q.2 := by
  decide

theorem dumpEscapes_ne : ∀ p ∈ dumpEscapes, p.1 ≠ 'u' := by decide

/-- A character stands for itself, or is escaped by one character, or by its code point. -/
theorem dumpChar_cases (x : Char) :
    (x ≠ '"' ∧ x ≠ '\\' ∧ dumpChar x = [x]) ∨
      (∃ c, (c, x) ∈ dumpEscapes ∧ dumpChar x = ['\\', c]) ∨
      (x.toNat < 0x20 ∧ dumpChar x = '\\' :: 'u' :: hexDigits 4 x.toNat) := by
  have hescaped : ∀ {c y : Char}, (x == y) = true → (c, y) ∈ dumpEscapes → (c, x) ∈ dumpEscapes :=
    fun h hy => by rwa [beq_iff_eq.mp h]
  unfold dumpChar
  split_ifs with hmark hn hr ht hb hf hcontrol
  · refine .inr (.inl ⟨x, ?_, rfl⟩)
    rw [Bool.or_eq_true, beq_iff_eq, beq_iff_eq] at hmark
    rcases hmark with rfl | rfl <;> decide
  · exact .inr (.inl ⟨'n', hescaped hn (by decide), rfl⟩)
  · exact .inr (.inl ⟨'r', hescaped hr (by decide), rfl⟩)
  · exact .inr (.inl ⟨'t', hescaped ht (by decide), rfl⟩)
  · exact .inr (.inl ⟨'b', hescaped hb (by decide), rfl⟩)
  · exact .inr (.inl ⟨'f', hescaped hf (by decide), rfl⟩)
  · exact .inr (.inr ⟨hcontrol, rfl⟩)
  · simp only [Bool.or_eq_true, beq_iff_eq, not_or] at hmark
    exact .inl ⟨hmark.1, hmark.2, rfl⟩

/-- The first written character determines the character that is meant, whatever follows. -/
theorem dumpChar_append {x y : Char} {t u : List Char} (h : dumpChar x ++ t = dumpChar y ++ u) :
    x = y ∧ t = u := by
  obtain ⟨_, hx, ex⟩ | ⟨c, hc, ex⟩ | ⟨hx, ex⟩ := dumpChar_cases x <;>
    obtain ⟨_, hy, ey⟩ | ⟨d, hd, ey⟩ | ⟨hy, ey⟩ := dumpChar_cases y <;> rw [ex, ey] at h
  -- Only a character that stands for itself is written without a backslash.
  · simpa using h
  · exact absurd (List.cons.inj h).1 hx
  · exact absurd (List.cons.inj h).1 hx
  · exact absurd (List.cons.inj h).1.symm hy
  · simp only [List.cons_append, List.nil_append, List.cons.injEq, true_and] at h
    exact ⟨dumpEscapes_inj _ hc _ hd h.1, h.2⟩
  · exact absurd (List.cons.inj (List.cons.inj h).2).1 (dumpEscapes_ne _ hc)
  · exact absurd (List.cons.inj h).1.symm hy
  · exact absurd (List.cons.inj (List.cons.inj h).2).1.symm (dumpEscapes_ne _ hd)
  · simp only [List.cons_append, List.cons.injEq, true_and] at h
    obtain ⟨hdigits, hrest⟩ := List.append_inj h (by rw [length_hexDigits, length_hexDigits])
    exact ⟨Char.toNat_inj.mp (hexDigits_inj (by omega) (by omega) hdigits), hrest⟩

theorem dumpChar_append_ne (x : Char) (t u : List Char) : dumpChar x ++ t ≠ '"' :: u := by
  obtain ⟨hmark, _, hx⟩ | ⟨c, _, hx⟩ | ⟨_, hx⟩ := dumpChar_cases x <;> rw [hx] <;> simp [*]

theorem flatMap_dumpChar_append {l l' r r' : List Char}
    (h : l.flatMap dumpChar ++ '"' :: r = l'.flatMap dumpChar ++ '"' :: r') : l = l' ∧ r = r' := by
  induction l generalizing l' with
  | nil =>
    cases l' with
    | nil => exact ⟨rfl, (List.cons.inj h).2⟩
    | cons y l' =>
      rw [List.flatMap_cons, List.append_assoc] at h
      exact absurd h.symm (dumpChar_append_ne y _ _)
  | cons x l ih =>
    rw [List.flatMap_cons, List.append_assoc] at h
    cases l' with
    | nil => exact absurd h (dumpChar_append_ne x _ _)
    | cons y l' =>
      rw [List.flatMap_cons, List.append_assoc] at h
      obtain ⟨rfl, hrest⟩ := dumpChar_append h
      obtain ⟨rfl, hr⟩ := ih hrest
      exact ⟨rfl, hr⟩

/-- A text in quotes determines the text, whatever follows. -/
theorem dumpQuote_append {s s' : String} {r r' : List Char}
    (h : (dumpQuote s).toList ++ r = (dumpQuote s').toList ++ r') : s = s' ∧ r = r' := by
  simp only [toList_dumpQuote, List.cons_append, List.append_assoc, List.nil_append] at h
  obtain ⟨hs, hr⟩ := flatMap_dumpChar_append (List.cons.inj h).2
  exact ⟨String.toList_inj.mp hs, hr⟩

end Text

open Text (dumpQuote dumpQuote_append)

/-! ## Parts that tell where they end -/

/-- The text does not go on with a space. -/
def NoSpace (r : List Char) : Prop := r.head? ≠ some ' '

theorem noSpace_cons {x : Char} (h : x ≠ ' ') (r : List Char) : NoSpace (x :: r) := by
  simpa [NoSpace] using h

theorem NoSpace.ne_append {r w : List Char} (hr : NoSpace r) (hw : w.head? = some ' ')
    (t : List Char) : r ≠ w ++ t := by
  rintro rfl
  simp [NoSpace, hw] at hr

section

variable {α : Type} {write : α → String}

/-- Where a text starts with what is written for the value, and no space follows, the text
determines the value and what follows. -/
def Delimited (write : α → String) (a : α) : Prop :=
  ∀ b r r', NoSpace r → NoSpace r' → (write a).toList ++ r = (write b).toList ++ r' →
    a = b ∧ r = r'

namespace Delimited

/-- A part in front of a text that starts with a closing parenthesis. -/
theorem before {a b : α} (ha : Delimited write a) {back t u : List Char}
    (h : (write a).toList ++ (back ++ t) = (write b).toList ++ (back ++ u))
    (hback : back.head? = some ')') : a = b ∧ t = u := by
  have hspace : ∀ r, NoSpace (back ++ r) := fun r => by simp [NoSpace, hback]
  obtain ⟨hab, hrest⟩ := ha b _ _ (hspace t) (hspace u) h
  exact ⟨hab, List.append_cancel_left hrest⟩

/-- A part in parentheses. -/
theorem closed {a b : α} (ha : Delimited write a) {front : String} {r r' : List Char}
    (h : (front ++ write a ++ ")").toList ++ r = (front ++ write b ++ ")").toList ++ r') :
    a = b ∧ r = r' := by
  simp only [String.toList_append, List.append_assoc] at h
  exact ha.before (List.append_cancel_left h) rfl

/-- Two parts in parentheses of their own. -/
theorem pair {β : Type} {write' : β → String} {a b : α} {c d : β} (ha : Delimited write a)
    (hc : Delimited write' c) {front : String} {r r' : List Char}
    (h : (front ++ write a ++ ") (" ++ write' c ++ ")").toList ++ r =
      (front ++ write b ++ ") (" ++ write' d ++ ")").toList ++ r') :
    a = b ∧ c = d ∧ r = r' := by
  simp only [String.toList_append, List.append_assoc] at h
  obtain ⟨hab, hrest⟩ := ha.before (List.append_cancel_left h) rfl
  exact ⟨hab, hc.before hrest rfl⟩

end Delimited

/-! ## Lists of parts -/

/-- What a list of parts goes on with behind one of them. -/
def partsTail : List String → List Char
  | [] => [']']
  | part :: parts => ',' :: ' ' :: (part.toList ++ partsTail parts)

theorem toList_intercalate_cons (part : String) (parts : List String) :
    (String.intercalate ", " (part :: parts)).toList ++ [']'] =
      part.toList ++ partsTail parts := by
  induction parts generalizing part with
  | nil => rw [String.intercalate_singleton, partsTail]
  | cons next parts ih =>
    simp [String.intercalate_cons_cons, partsTail, ← ih next]

theorem toList_outlineList_nil : (outlineList []).toList = ['[', ']'] := rfl

theorem toList_outlineList_cons (part : String) (parts : List String) :
    (outlineList (part :: parts)).toList = '[' :: (part.toList ++ partsTail parts) := by
  rw [← toList_intercalate_cons]
  simp [outlineList]

theorem noSpace_partsTail (parts : List String) (r : List Char) :
    NoSpace (partsTail parts ++ r) := by
  cases parts with
  | nil => exact noSpace_cons (by decide) r
  | cons part parts => exact noSpace_cons (by decide) _

theorem partsTail_append {as bs : List α} (h : ∀ a ∈ as, Delimited write a) {r r' : List Char}
    (heq : partsTail (as.map write) ++ r = partsTail (bs.map write) ++ r') : as = bs ∧ r = r' := by
  induction as generalizing bs with
  | nil =>
    cases bs with
    | nil => exact ⟨rfl, (List.cons.inj heq).2⟩
    | cons b bs => simp [partsTail] at heq
  | cons a as ih =>
    cases bs with
    | nil => simp [partsTail] at heq
    | cons b bs =>
      simp only [List.map_cons, partsTail, List.cons_append, List.append_assoc,
        List.cons.injEq, true_and] at heq
      obtain ⟨rfl, hrest⟩ := h a List.mem_cons_self b _ _ (noSpace_partsTail _ _)
        (noSpace_partsTail _ _) heq
      obtain ⟨rfl, hr⟩ := ih (fun a ha => h a (List.mem_cons_of_mem _ ha)) hrest
      exact ⟨rfl, hr⟩

/-- A list in square brackets determines its parts, whatever follows, if no part can be taken
for the bracket that closes the list. -/
theorem outlineList_append (hstart : ∀ a t u, (write a).toList ++ t ≠ ']' :: u) {as bs : List α}
    (h : ∀ a ∈ as, Delimited write a) {r r' : List Char}
    (heq : (outlineList (as.map write)).toList ++ r =
      (outlineList (bs.map write)).toList ++ r') : as = bs ∧ r = r' := by
  cases as with
  | nil =>
    cases bs with
    | nil => exact ⟨rfl, List.append_cancel_left heq⟩
    | cons b bs =>
      simp only [List.map_nil, List.map_cons, toList_outlineList_nil, toList_outlineList_cons,
        List.cons_append, List.append_assoc, List.cons.injEq, true_and] at heq
      exact absurd heq.symm (hstart b _ _)
  | cons a as =>
    cases bs with
    | nil =>
      simp only [List.map_nil, List.map_cons, toList_outlineList_nil, toList_outlineList_cons,
        List.cons_append, List.append_assoc, List.cons.injEq, true_and] at heq
      exact absurd heq (hstart a _ _)
    | cons b bs =>
      simp only [List.map_cons, toList_outlineList_cons, List.cons_append, List.append_assoc,
        List.cons.injEq, true_and] at heq
      obtain ⟨rfl, hrest⟩ := h a List.mem_cons_self b _ _ (noSpace_partsTail _ _)
        (noSpace_partsTail _ _) heq
      obtain ⟨rfl, hr⟩ := partsTail_append (fun a ha => h a (List.mem_cons_of_mem _ ha)) hrest
      exact ⟨rfl, hr⟩

end

/-! ## The parts of a tree, one text each -/

/-- A piece of a template. -/
def Piece.outline : Piece Expr → String
  | .literal s => dumpQuote s
  | .antiquote e => "antiquote (" ++ e.outline ++ ")"

/-- A binding, given how its key is written. -/
def Binding.outline {κ : Type} (key : κ → String) : Binding κ Expr → String
  | .equation k v => "binding (" ++ key k ++ ") (" ++ v.outline ++ ")"
  | .inherit none names => "inherit " ++ outlineNames names
  | .inherit (some e) names => "inherit'from (" ++ e.outline ++ ") " ++ outlineNames names

/-- A key of a `let`. -/
def outlineKey (key : String) : String := "str " ++ dumpQuote key

/-- What a field goes on with behind its name. -/
def outlineDefault : Option Expr → String
  | none => ""
  | some e => " & def (" ++ e.outline ++ ")"

/-- A field of a pattern. -/
def Field.outline (field : Field Expr) : String :=
  "param " ++ dumpQuote field.name.text ++ outlineDefault field.default

/-- What a pattern goes on with behind its fields. -/
def outlineEllipsis (mark : Bool) : String := if mark then " <> ellipsis" else ""

/-- A pattern. -/
def Pattern.outline (p : Pattern Expr) : String :=
  "pattern " ++ outlineList (p.fields.map Field.outline) ++ outlineEllipsis p.ellipsis

/-- A parameter. -/
def Param.outline : Param Expr → String
  | .name x => "param " ++ dumpQuote x.text
  | .pattern p => p.outline
  | .both x p => "param " ++ dumpQuote x.text ++ " <> " ++ p.outline

theorem outlinePieces_eq_map (t : List (Piece Expr)) : outlinePieces t = t.map Piece.outline := by
  induction t with
  | nil => rfl
  | cons piece rest ih => cases piece <;> simp [outlinePieces, Piece.outline, ih]

theorem outlineEntries_eq_map (bindings : List (Binding Expr Expr)) :
    outlineEntries bindings = bindings.map (Binding.outline Expr.outline) := by
  induction bindings with
  | nil => rfl
  | cons binding rest ih =>
    obtain ⟨k, v⟩ | ⟨_ | e, names⟩ := binding <;> simp [outlineEntries, Binding.outline, ih]

theorem outlineDefinitions_eq_map (bindings : List (Binding String Expr)) :
    outlineDefinitions bindings = bindings.map (Binding.outline outlineKey) := by
  induction bindings with
  | nil => rfl
  | cons binding rest ih =>
    rw [List.map_cons, ← ih]
    obtain ⟨k, v⟩ | ⟨_ | e, names⟩ := binding
    · have h : "binding (" ++ outlineKey k = "binding (str " ++ dumpQuote k :=
        String.toList_inj.mp (by simp [outlineKey])
      rw [Binding.outline, h, outlineDefinitions]
    · rfl
    · rfl

theorem outlineFields_eq_map (fields : List (Field Expr)) :
    outlineFields fields = fields.map Field.outline := by
  induction fields with
  | nil => rfl
  | cons field rest ih =>
    obtain ⟨x, _ | e⟩ := field <;>
      simp [outlineFields, Field.outline, outlineDefault, ih, String.append_assoc]

namespace Expr

@[simp] theorem outline_var (x : Name) : (var x).outline = "var " ++ dumpQuote x.text := rfl

@[simp] theorem outline_str (t : List (Piece Expr)) :
    (str t).outline = "str " ++ outlineList (t.map Piece.outline) := by
  rw [← outlinePieces_eq_map]
  rfl

@[simp] theorem outline_list (items : List Expr) :
    (list items).outline = "list " ++ outlineList (items.map outline) := by
  rw [← outlineItems_eq_map]
  rfl

@[simp] theorem outline_dict (recursive : Bool) (bindings : List (Binding Expr Expr)) :
    (dict recursive bindings).outline =
      (if recursive then "rec'dict " else "dict ") ++
        outlineList (bindings.map (Binding.outline outline)) := by
  rw [← outlineEntries_eq_map]
  cases recursive <;> rfl

@[simp] theorem outline_dot (subject key : Expr) :
    (dot subject key).outline = "dot (" ++ subject.outline ++ ") (" ++ key.outline ++ ")" := rfl

@[simp] theorem outline_lambda (param : Param Expr) (body : Expr) :
    (lambda param body).outline = "lambda (" ++ param.outline ++ ") (" ++ body.outline ++ ")" := by
  apply String.toList_inj.mp
  -- The definition takes the parameter and its pattern apart, so it is unfolded for each form.
  cases param with
  | name x =>
    have h : (lambda (.name x) body).outline =
      "lambda (param " ++ dumpQuote x.text ++ ") (" ++ body.outline ++ ")" := rfl
    rw [h]
    simp [Param.outline]
  | pattern p =>
    have h : (lambda (.pattern p) body).outline =
      "lambda (pattern " ++ outlineList (outlineFields p.fields) ++
        (if p.ellipsis then " <> ellipsis" else "") ++ ") (" ++ body.outline ++ ")" := rfl
    rw [h]
    simp [Param.outline, Pattern.outline, outlineEllipsis, outlineFields_eq_map]
  | both x p =>
    have h : (lambda (.both x p) body).outline =
      "lambda (param " ++ dumpQuote x.text ++ " <> pattern " ++
        outlineList (outlineFields p.fields) ++
        (if p.ellipsis then " <> ellipsis" else "") ++ ") (" ++ body.outline ++ ")" := rfl
    rw [h]
    simp [Param.outline, Pattern.outline, outlineEllipsis, outlineFields_eq_map]

@[simp] theorem outline_apply (f a : Expr) :
    (apply f a).outline = "apply (" ++ f.outline ++ ") (" ++ a.outline ++ ")" := rfl

@[simp] theorem outline_letIn (bindings : List (Binding String Expr)) (body : Expr) :
    (letIn bindings body).outline =
      "let'in " ++ outlineList (bindings.map (Binding.outline outlineKey)) ++
        " (" ++ body.outline ++ ")" := by
  rw [← outlineDefinitions_eq_map]
  rfl

end Expr

/-! ## Every part tells where it ends -/

theorem Piece.outline_append_ne (piece : Piece Expr) (t u : List Char) :
    piece.outline.toList ++ t ≠ ']' :: u := by
  cases piece <;> simp [outline, Text.toList_dumpQuote]

theorem Expr.outline_append_ne (e : Expr) (t u : List Char) : e.outline.toList ++ t ≠ ']' :: u := by
  cases e with
  | dict recursive _ => cases recursive <;> simp
  | _ => simp

theorem Binding.outline_append_ne {κ : Type} {key : κ → String} (binding : Binding κ Expr)
    (t u : List Char) : (binding.outline key).toList ++ t ≠ ']' :: u := by
  obtain ⟨k, v⟩ | ⟨_ | e, names⟩ := binding <;> simp [outline]

theorem Field.outline_append_ne (field : Field Expr) (t u : List Char) :
    field.outline.toList ++ t ≠ ']' :: u := by
  simp [outline]

namespace Delimited

theorem quoted (s : String) : Delimited dumpQuote s := fun _ _ _ _ _ h => dumpQuote_append h

theorem outlineNames_append {names names' : List String} {r r' : List Char}
    (h : (outlineNames names).toList ++ r = (outlineNames names').toList ++ r') :
    names = names' ∧ r = r' := by
  refine outlineList_append (fun s t u => ?_) (fun s _ => quoted s) h
  simp [Text.toList_dumpQuote]

/-! ### Pieces and bindings -/

theorem literal (s : String) : Delimited Piece.outline (.literal s) := by
  intro b r r' _ _ h
  cases b with
  | literal s' =>
    obtain ⟨rfl, hr⟩ := dumpQuote_append h
    exact ⟨rfl, hr⟩
  | antiquote e => simp [Piece.outline, Text.toList_dumpQuote] at h

theorem antiquote {e : Expr} (he : Delimited Expr.outline e) :
    Delimited Piece.outline (.antiquote e) := by
  intro b r r' _ _ h
  cases b with
  | literal s => simp [Piece.outline, Text.toList_dumpQuote] at h
  | antiquote e' =>
    obtain ⟨rfl, hr⟩ := he.closed h
    exact ⟨rfl, hr⟩

section

variable {κ : Type} {key : κ → String}

theorem equation {k : κ} {v : Expr} (hk : Delimited key k) (hv : Delimited Expr.outline v) :
    Delimited (Binding.outline key) (.equation k v) := by
  intro b r r' _ _ h
  obtain ⟨k', v'⟩ | ⟨_ | e, names⟩ := b
  · obtain ⟨rfl, rfl, hr⟩ := hk.pair hv h
    exact ⟨rfl, hr⟩
  · simp [Binding.outline] at h
  · simp [Binding.outline] at h

theorem inherit (names : List String) :
    Delimited (Binding.outline key) (.inherit none names) := by
  intro b r r' _ _ h
  obtain ⟨k, v⟩ | ⟨_ | e, names'⟩ := b
  · simp [Binding.outline] at h
  · simp only [Binding.outline, String.toList_append, List.append_assoc] at h
    obtain ⟨rfl, hr⟩ := outlineNames_append (List.append_cancel_left h)
    exact ⟨rfl, hr⟩
  · simp [Binding.outline] at h

theorem inheritFrom {e : Expr} (he : Delimited Expr.outline e) (names : List String) :
    Delimited (Binding.outline key) (.inherit (some e) names) := by
  intro b r r' _ _ h
  obtain ⟨k, v⟩ | ⟨_ | e', names'⟩ := b
  · simp [Binding.outline] at h
  · simp [Binding.outline] at h
  · simp only [Binding.outline, String.toList_append, List.append_assoc] at h
    obtain ⟨rfl, hrest⟩ := he.before (List.append_cancel_left h) rfl
    obtain ⟨rfl, hr⟩ := outlineNames_append hrest
    exact ⟨rfl, hr⟩

end

theorem letKey (k : String) : Delimited outlineKey k := by
  intro b r r' _ _ h
  simp only [outlineKey, String.toList_append, List.append_assoc] at h
  exact dumpQuote_append (List.append_cancel_left h)

/-! ### Parameters -/

theorem noDefault : Delimited outlineDefault none := by
  intro b r r' hspace _ h
  cases b with
  | none => exact ⟨rfl, h⟩
  | some e =>
    exact absurd h (hspace.ne_append (by simp [outlineDefault]) r')

theorem default {e : Expr} (he : Delimited Expr.outline e) :
    Delimited outlineDefault (some e) := by
  intro b r r' _ hspace' h
  cases b with
  | none =>
    exact absurd h.symm (hspace'.ne_append (by simp [outlineDefault]) r)
  | some e' =>
    obtain ⟨rfl, hr⟩ := he.closed h
    exact ⟨rfl, hr⟩

theorem field (x : Name) {d : Option Expr} (hd : Delimited outlineDefault d) :
    Delimited Field.outline ⟨x, d⟩ := by
  rintro ⟨y, d'⟩ r r' hspace hspace' h
  simp only [Field.outline, String.toList_append, List.append_assoc] at h
  obtain ⟨hx, hrest⟩ := dumpQuote_append (List.append_cancel_left h)
  obtain ⟨rfl, hr⟩ := hd d' r r' hspace hspace' hrest
  obtain rfl := Name.ext_text hx
  exact ⟨rfl, hr⟩

theorem ellipsis (mark : Bool) : Delimited outlineEllipsis mark := by
  intro mark' r r' hspace hspace' h
  cases mark <;> cases mark'
  · exact ⟨rfl, h⟩
  · exact absurd h (hspace.ne_append rfl r')
  · exact absurd h.symm (hspace'.ne_append rfl r)
  · exact ⟨rfl, List.append_cancel_left h⟩

theorem pattern {p : Pattern Expr} (hp : ∀ field ∈ p.fields, Delimited Field.outline field) :
    Delimited Pattern.outline p := by
  rintro ⟨fields', mark'⟩ r r' hspace hspace' h
  obtain ⟨fields, mark⟩ := p
  simp only [Pattern.outline, String.toList_append, List.append_assoc] at h
  obtain ⟨rfl, hrest⟩ := outlineList_append Field.outline_append_ne hp (List.append_cancel_left h)
  obtain ⟨rfl, hr⟩ := ellipsis mark mark' r r' hspace hspace' hrest
  exact ⟨rfl, hr⟩

theorem parameter (x : Name) : Delimited Param.outline (.name x) := by
  intro b r r' hspace _ h
  cases b with
  | name y =>
    simp only [Param.outline, String.toList_append, List.append_assoc] at h
    obtain ⟨hx, hr⟩ := dumpQuote_append (List.append_cancel_left h)
    exact ⟨congrArg Param.name (Name.ext_text hx), hr⟩
  | pattern q => simp [Param.outline, Pattern.outline] at h
  | both y q =>
    simp only [Param.outline, String.toList_append, List.append_assoc] at h
    obtain ⟨_, hr⟩ := dumpQuote_append (List.append_cancel_left h)
    exact absurd hr (hspace.ne_append rfl _)

theorem parameterPattern {p : Pattern Expr} (hp : Delimited Pattern.outline p) :
    Delimited Param.outline (.pattern p) := by
  intro b r r' hspace hspace' h
  cases b with
  | name y => simp [Param.outline, Pattern.outline] at h
  | pattern q =>
    obtain ⟨rfl, hr⟩ := hp q r r' hspace hspace' h
    exact ⟨rfl, hr⟩
  | both y q => simp [Param.outline, Pattern.outline] at h

theorem parameterBoth (x : Name) {p : Pattern Expr} (hp : Delimited Pattern.outline p) :
    Delimited Param.outline (.both x p) := by
  intro b r r' hspace hspace' h
  cases b with
  | name y =>
    simp only [Param.outline, String.toList_append, List.append_assoc] at h
    obtain ⟨_, hr⟩ := dumpQuote_append (List.append_cancel_left h)
    exact absurd hr.symm (hspace'.ne_append rfl _)
  | pattern q => simp [Param.outline, Pattern.outline] at h
  | both y q =>
    simp only [Param.outline, String.toList_append, List.append_assoc] at h
    obtain ⟨hx, hrest⟩ := dumpQuote_append (List.append_cancel_left h)
    obtain ⟨rfl, hr⟩ := hp q r r' hspace hspace' (List.append_cancel_left hrest)
    obtain rfl := Name.ext_text hx
    exact ⟨rfl, hr⟩

/-! ### Expressions -/

theorem var (x : Name) : Delimited Expr.outline (.var x) := by
  intro b r r' _ _ h
  cases b with
  | var y =>
    simp only [Expr.outline_var, String.toList_append, List.append_assoc] at h
    obtain ⟨hx, hr⟩ := dumpQuote_append (List.append_cancel_left h)
    exact ⟨congrArg Expr.var (Name.ext_text hx), hr⟩
  | dict recursive _ => cases recursive <;> simp at h
  | _ => simp at h

theorem str {t : List (Piece Expr)} (ht : ∀ piece ∈ t, Delimited Piece.outline piece) :
    Delimited Expr.outline (.str t) := by
  intro b r r' _ _ h
  cases b with
  | str t' =>
    simp only [Expr.outline_str, String.toList_append, List.append_assoc] at h
    obtain ⟨rfl, hr⟩ := outlineList_append Piece.outline_append_ne ht (List.append_cancel_left h)
    exact ⟨rfl, hr⟩
  | dict recursive _ => cases recursive <;> simp at h
  | _ => simp at h

theorem list {items : List Expr} (hitems : ∀ e ∈ items, Delimited Expr.outline e) :
    Delimited Expr.outline (.list items) := by
  intro b r r' _ _ h
  cases b with
  | list items' =>
    simp only [Expr.outline_list, String.toList_append, List.append_assoc] at h
    obtain ⟨rfl, hr⟩ := outlineList_append Expr.outline_append_ne hitems
      (List.append_cancel_left h)
    exact ⟨rfl, hr⟩
  | dict recursive _ => cases recursive <;> simp at h
  | _ => simp at h

theorem dict (recursive : Bool) {bindings : List (Binding Expr Expr)}
    (hbindings : ∀ binding ∈ bindings, Delimited (Binding.outline Expr.outline) binding) :
    Delimited Expr.outline (.dict recursive bindings) := by
  intro b r r' _ _ h
  cases b with
  | dict recursive' bindings' =>
    simp only [Expr.outline_dict, String.toList_append, List.append_assoc] at h
    obtain rfl : recursive = recursive' := by
      cases recursive <;> cases recursive' <;> simp at h ⊢
    obtain ⟨rfl, hr⟩ := outlineList_append Binding.outline_append_ne hbindings
      (List.append_cancel_left h)
    exact ⟨rfl, hr⟩
  | _ => cases recursive <;> simp at h

theorem dot {subject key : Expr} (hsubject : Delimited Expr.outline subject)
    (hkey : Delimited Expr.outline key) : Delimited Expr.outline (.dot subject key) := by
  intro b r r' _ _ h
  cases b with
  | dot subject' key' =>
    obtain ⟨rfl, rfl, hr⟩ := hsubject.pair hkey h
    exact ⟨rfl, hr⟩
  | dict recursive _ => cases recursive <;> simp at h
  | _ => simp at h

theorem lambda {param : Param Expr} {body : Expr} (hparam : Delimited Param.outline param)
    (hbody : Delimited Expr.outline body) : Delimited Expr.outline (.lambda param body) := by
  intro b r r' _ _ h
  cases b with
  | lambda param' body' =>
    rw [Expr.outline_lambda, Expr.outline_lambda] at h
    obtain ⟨rfl, rfl, hr⟩ := hparam.pair hbody h
    exact ⟨rfl, hr⟩
  | dict recursive _ => cases recursive <;> simp at h
  | _ => simp at h

theorem apply {f a : Expr} (hf : Delimited Expr.outline f) (ha : Delimited Expr.outline a) :
    Delimited Expr.outline (.apply f a) := by
  intro b r r' _ _ h
  cases b with
  | apply f' a' =>
    obtain ⟨rfl, rfl, hr⟩ := hf.pair ha h
    exact ⟨rfl, hr⟩
  | dict recursive _ => cases recursive <;> simp at h
  | _ => simp at h

theorem letIn {bindings : List (Binding String Expr)} {body : Expr}
    (hbindings : ∀ binding ∈ bindings, Delimited (Binding.outline outlineKey) binding)
    (hbody : Delimited Expr.outline body) : Delimited Expr.outline (.letIn bindings body) := by
  intro b r r' _ _ h
  cases b with
  | letIn bindings' body' =>
    simp only [Expr.outline_letIn, String.toList_append, List.append_assoc] at h
    obtain ⟨rfl, hrest⟩ := outlineList_append Binding.outline_append_ne hbindings
      (List.append_cancel_left h)
    obtain ⟨rfl, hr⟩ := hbody.before (List.append_cancel_left hrest) rfl
    exact ⟨rfl, hr⟩
  | dict recursive _ => cases recursive <;> simp at h
  | _ => simp at h

end Delimited

/-! ### All trees, by recursion -/

mutual

/-- Every expression tells where it ends.  The recursion is on the tree that is written; the
other one follows from what is left of the text. -/
theorem Expr.delimited : ∀ e : Expr, Delimited Expr.outline e
  | .var x => .var x
  | .str t => .str (pieces_delimited t)
  | .list items => .list (items_delimited items)
  | .dict recursive bindings => .dict recursive (entries_delimited bindings)
  | .dot subject key => .dot subject.delimited key.delimited
  | .lambda (.name x) body => .lambda (.parameter x) body.delimited
  | .lambda (.pattern ⟨fields, _⟩) body =>
      .lambda (.parameterPattern (.pattern (fields_delimited fields))) body.delimited
  | .lambda (.both x ⟨fields, _⟩) body =>
      .lambda (.parameterBoth x (.pattern (fields_delimited fields))) body.delimited
  | .apply f a => .apply f.delimited a.delimited
  | .letIn bindings body => .letIn (definitions_delimited bindings) body.delimited

theorem pieces_delimited : ∀ t : List (Piece Expr), ∀ piece ∈ t, Delimited Piece.outline piece
  | [] => by simp
  | .literal s :: t => List.forall_mem_cons.mpr ⟨.literal s, pieces_delimited t⟩
  | .antiquote e :: t => List.forall_mem_cons.mpr ⟨.antiquote e.delimited, pieces_delimited t⟩

theorem items_delimited : ∀ items : List Expr, ∀ e ∈ items, Delimited Expr.outline e
  | [] => by simp
  | e :: items => List.forall_mem_cons.mpr ⟨e.delimited, items_delimited items⟩

theorem entries_delimited : ∀ bindings : List (Binding Expr Expr),
    ∀ binding ∈ bindings, Delimited (Binding.outline Expr.outline) binding
  | [] => by simp
  | .equation k v :: bindings =>
      List.forall_mem_cons.mpr ⟨.equation k.delimited v.delimited, entries_delimited bindings⟩
  | .inherit none names :: bindings =>
      List.forall_mem_cons.mpr ⟨.inherit names, entries_delimited bindings⟩
  | .inherit (some e) names :: bindings =>
      List.forall_mem_cons.mpr ⟨.inheritFrom e.delimited names, entries_delimited bindings⟩

theorem definitions_delimited : ∀ bindings : List (Binding String Expr),
    ∀ binding ∈ bindings, Delimited (Binding.outline outlineKey) binding
  | [] => by simp
  | .equation k v :: bindings =>
      List.forall_mem_cons.mpr ⟨.equation (.letKey k) v.delimited, definitions_delimited bindings⟩
  | .inherit none names :: bindings =>
      List.forall_mem_cons.mpr ⟨.inherit names, definitions_delimited bindings⟩
  | .inherit (some e) names :: bindings =>
      List.forall_mem_cons.mpr ⟨.inheritFrom e.delimited names, definitions_delimited bindings⟩

theorem fields_delimited : ∀ fields : List (Field Expr),
    ∀ field ∈ fields, Delimited Field.outline field
  | [] => by simp
  | ⟨x, none⟩ :: fields => List.forall_mem_cons.mpr ⟨.field x .noDefault, fields_delimited fields⟩
  | ⟨x, some e⟩ :: fields =>
      List.forall_mem_cons.mpr ⟨.field x (.default e.delimited), fields_delimited fields⟩

end

/-- Two trees have one outline only if they are the same tree, and being the same tree is what
the comparison of trees decides. -/
theorem Expr.outline_eq_iff (a b : Expr) :
    (a.outline = b.outline ↔ a = b) ∧ (a.outline = b.outline ↔ a.same b = true) := by
  have houtline : a.outline = b.outline ↔ a = b := by
    refine ⟨fun h => ?_, congrArg outline⟩
    have hends : NoSpace [] := nofun
    exact (a.delimited b [] [] hends hends (by rw [h])).1
  exact ⟨houtline, houtline.trans (a.same_iff b).symm⟩

end LazyConfig
