import LazyConfig.Proofs.Lowering.Success
set_option autoImplicit false

/-!
# Lowering: parts of a program

The term of a program depends on a part only through the term of the part, except that a key of
a dict must be a text as it stands.  So two expressions that have the same term, or both have
none, can stand for each other anywhere in a program.
-/

namespace LazyConfig

/-! ## Steps that succeed alike -/

namespace Lowering

variable {α β : Type}

/-- A result of one step is a result of the other. -/
def SucceedsLike (p q : Lowering α) : Prop := ∀ a, (p false).1 = .ok a ↔ (q false).1 = .ok a

namespace SucceedsLike

theorem refl (p : Lowering α) : p.SucceedsLike p := fun _ => Iff.rfl

theorem symm {p q : Lowering α} (h : p.SucceedsLike q) : q.SucceedsLike p := fun a => (h a).symm

theorem trans {p q r : Lowering α} (h : p.SucceedsLike q) (h' : q.SucceedsLike r) :
    p.SucceedsLike r :=
  fun a => (h a).trans (h' a)

theorem bind {p q : Lowering α} {k l : α → Lowering β} (h : p.SucceedsLike q)
    (hk : ∀ a, (k a).SucceedsLike (l a)) : (p >>= k).SucceedsLike (q >>= l) := by
  intro b
  rw [bind_eq_ok_iff, bind_eq_ok_iff]
  exact exists_congr fun a => and_congr (h a) (hk a b)

/-- The steps in front are alike. -/
theorem before {p q : Lowering α} (h : p.SucceedsLike q) (k : α → Lowering β) :
    (p >>= k).SucceedsLike (q >>= k) :=
  h.bind fun _ => refl _

/-- The steps behind are alike. -/
theorem behind (p : Lowering α) {k l : α → Lowering β} (hk : ∀ a, (k a).SucceedsLike (l a)) :
    (p >>= k).SucceedsLike (p >>= l) :=
  (refl p).bind hk

end SucceedsLike

end Lowering

open Lowering

/-! ## Expressions with a gap -/

/-- A binding without its value or its source. -/
inductive BindingGap (κ : Type) where
  /-- An equation without its value. -/
  | value (key : κ)
  /-- An `inherit` without its source. -/
  | source (names : List String)

/-- The binding with an expression in the gap. -/
def BindingGap.fill {κ : Type} (e : Expr) : BindingGap κ → Binding κ Expr
  | .value key => .equation key e
  | .source names => .inherit (some e) names

/-- A parameter with a pattern, and with a name for the whole argument if there is one. -/
def Param.ofPattern {ε : Type} (p : Pattern ε) : Option Name → Param ε
  | none => .pattern p
  | some x => .both x p

/-- An expression with a gap for a part of it. -/
inductive Expr.Frame where
  /-- An antiquote of a string. -/
  | hole (before behind : List (Piece Expr))
  /-- An item of a list. -/
  | item (before behind : List Expr)
  /-- A key of a dict. -/
  | key (recursive : Bool) (before : List (Binding Expr Expr)) (value : Expr)
      (behind : List (Binding Expr Expr))
  /-- A value or a source in a dict. -/
  | entry (recursive : Bool) (before : List (Binding Expr Expr)) (gap : BindingGap Expr)
      (behind : List (Binding Expr Expr))
  /-- What is looked into. -/
  | subject (key : Expr)
  /-- What is looked up. -/
  | dotKey (subject : Expr)
  /-- The default of a field. -/
  | default (whole : Option Name) (before : List (Field Expr)) (x : Name)
      (behind : List (Field Expr)) (ellipsis : Bool) (body : Expr)
  /-- The body of a function. -/
  | lambdaBody (param : Param Expr)
  /-- A function that is applied. -/
  | function (argument : Expr)
  /-- The argument of a function. -/
  | argument (function : Expr)
  /-- A value or a source in a `let`. -/
  | definition (before : List (Binding String Expr)) (gap : BindingGap String)
      (behind : List (Binding String Expr)) (body : Expr)
  /-- The body of a `let`. -/
  | letBody (bindings : List (Binding String Expr))

/-- The expression with the gap filled. -/
def Expr.Frame.fill (e : Expr) : Expr.Frame → Expr
  | .hole before behind => .str (before ++ .antiquote e :: behind)
  | .item before behind => .list (before ++ e :: behind)
  | .key recursive before value behind =>
      .dict recursive (before ++ .equation e value :: behind)
  | .entry recursive before gap behind => .dict recursive (before ++ gap.fill e :: behind)
  | .subject k => .dot e k
  | .dotKey s => .dot s e
  | .default whole before x behind ellipsis body =>
      .lambda (.ofPattern ⟨before ++ ⟨x, some e⟩ :: behind, ellipsis⟩ whole) body
  | .lambdaBody param => .lambda param e
  | .function a => .apply e a
  | .argument f => .apply f e
  | .definition before gap behind body => .letIn (before ++ gap.fill e :: behind) body
  | .letBody bindings => .letIn bindings e

theorem BindingGap.holds_fill {κ : Type} (gap : BindingGap κ) (e : Expr) :
    (gap.fill e).Holds e := by
  cases gap with
  | value key => exact .value key e
  | source names => exact .source e names

theorem Binding.Holds.exists_gap {κ : Type} {binding : Binding κ Expr} {e : Expr}
    (h : binding.Holds e) : ∃ gap : BindingGap κ, gap.fill e = binding := by
  cases h with
  | value key e => exact ⟨.value key, rfl⟩
  | source e names => exact ⟨.source names, rfl⟩

/-- There is a gap wherever an expression can stand in another. -/
theorem Expr.part_iff_exists_fill {d e : Expr} : Part d e ↔ ∃ f : Expr.Frame, f.fill d = e := by
  constructor
  · intro h
    cases h with
    | hole h =>
      obtain ⟨before, behind, rfl⟩ := List.append_of_mem h
      exact ⟨.hole before behind, rfl⟩
    | item h =>
      obtain ⟨before, behind, rfl⟩ := List.append_of_mem h
      exact ⟨.item before behind, rfl⟩
    | @key r _ value _ h =>
      obtain ⟨before, behind, rfl⟩ := List.append_of_mem h
      exact ⟨.key r before value behind, rfl⟩
    | @entry r _ _ _ h hd =>
      obtain ⟨before, behind, rfl⟩ := List.append_of_mem h
      obtain ⟨gap, rfl⟩ := hd.exists_gap
      exact ⟨.entry r before gap behind, rfl⟩
    | subject _ key => exact ⟨.subject key, rfl⟩
    | dotKey subject _ => exact ⟨.dotKey subject, rfl⟩
    | @default x _ body param h =>
      cases param with
      | name y => exact absurd h List.not_mem_nil
      | pattern p =>
        obtain ⟨fields, ellipsis⟩ := p
        obtain ⟨before, behind, hfields⟩ := List.append_of_mem h
        obtain rfl : fields = _ := hfields
        exact ⟨.default none before x behind ellipsis body, rfl⟩
      | both y p =>
        obtain ⟨fields, ellipsis⟩ := p
        obtain ⟨before, behind, hfields⟩ := List.append_of_mem h
        obtain rfl : fields = _ := hfields
        exact ⟨.default (some y) before x behind ellipsis body, rfl⟩
    | lambdaBody param _ => exact ⟨.lambdaBody param, rfl⟩
    | function _ a => exact ⟨.function a, rfl⟩
    | argument f _ => exact ⟨.argument f, rfl⟩
    | @definition _ body _ _ h hd =>
      obtain ⟨before, behind, rfl⟩ := List.append_of_mem h
      obtain ⟨gap, rfl⟩ := hd.exists_gap
      exact ⟨.definition before gap behind body, rfl⟩
    | letBody bindings _ => exact ⟨.letBody bindings, rfl⟩
  · rintro ⟨f, rfl⟩
    cases f with
    | hole => exact .hole List.mem_append_cons_self
    | item => exact .item List.mem_append_cons_self
    | key => exact .key List.mem_append_cons_self
    | entry _ _ gap _ => exact .entry List.mem_append_cons_self (gap.holds_fill d)
    | subject key => exact .subject d key
    | dotKey subject => exact .dotKey subject d
    | default whole => cases whole <;> exact .default List.mem_append_cons_self
    | lambdaBody param => exact .lambdaBody param d
    | function a => exact .function d a
    | argument f => exact .argument f d
    | definition _ gap _ _ => exact .definition List.mem_append_cons_self (gap.holds_fill d)
    | letBody bindings => exact .letBody bindings d

/-! ## Expressions that lower alike -/

/-- The two expressions have the same term or both have none, and as keys they are the same
text or both are none. -/
structure Expr.LowersLike (d e : Expr) : Prop where
  /-- The terms. -/
  terms : d.toTerm.SucceedsLike e.toTerm
  /-- The texts. -/
  keys : d.staticText? = e.staticText?

section

variable {d e : Expr} (h : d.LowersLike e)

include h

theorem pieceTerms_succeedsLike (before behind : List (Piece Expr)) :
    (pieceTerms (before ++ .antiquote d :: behind)).SucceedsLike
      (pieceTerms (before ++ .antiquote e :: behind)) := by
  induction before with
  | nil => exact h.terms.before _
  | cons piece rest ih =>
    cases piece with
    | literal s => exact ih.before _
    | antiquote c => exact .behind _ fun _ => ih.before _

theorem itemTerms_succeedsLike (before behind : List Expr) :
    (itemTerms (before ++ d :: behind)).SucceedsLike (itemTerms (before ++ e :: behind)) := by
  induction before with
  | nil => exact h.terms.before _
  | cons c rest ih => exact .behind _ fun _ => ih.before _

theorem defaultTerms_succeedsLike (before : List (Field Expr)) (x : Name)
    (behind : List (Field Expr)) :
    (defaultTerms (before ++ ⟨x, some d⟩ :: behind)).SucceedsLike
      (defaultTerms (before ++ ⟨x, some e⟩ :: behind)) := by
  induction before with
  | nil => exact h.terms.before _
  | cons field rest ih =>
    obtain ⟨y, default⟩ := field
    cases default with
    | none => exact ih
    | some c => exact .behind _ fun _ => ih.before _

theorem staticKey_succeedsLike : (staticKey d).SucceedsLike (staticKey e) := by
  intro name
  rw [staticKey_eq_ok_iff, staticKey_eq_ok_iff, h.keys]

end

/-- Only the names of the fields count for what is made of the terms of a pattern. -/
theorem notedPattern_congr {fields others : List (Field Expr)}
    (h : (fields.map fun field => field.name.text) = others.map fun field => field.name.text)
    (ellipsis : Bool) (defaults : List (String × Term)) (body : Term) :
    notedPattern fields ellipsis defaults body = notedPattern others ellipsis defaults body := by
  unfold notedPattern
  rw [h]

/-- Bindings of a dict that are alike if they come first are alike behind others. -/
theorem entryTerms_succeedsLike {bindings others : List (Binding Expr Expr)}
    (h : ∀ claimed, (entryTerms claimed bindings).SucceedsLike (entryTerms claimed others))
    (before : List (Binding Expr Expr)) (claimed : List String) :
    (entryTerms claimed (before ++ bindings)).SucceedsLike
      (entryTerms claimed (before ++ others)) := by
  induction before generalizing claimed with
  | nil => exact h claimed
  | cons binding rest ih =>
    cases binding with
    | equation key value =>
      exact .behind _ fun _ => .behind _ fun _ => .behind _ fun _ => (ih _).before _
    | inherit source names =>
      cases source with
      | none => exact .behind _ fun _ => (ih _).before _
      | some c => exact .behind _ fun _ => .behind _ fun _ => (ih _).before _

theorem definitionTerms_succeedsLike {bindings others : List (Binding String Expr)}
    (h : ∀ claimed, (definitionTerms claimed bindings).SucceedsLike
      (definitionTerms claimed others))
    (before : List (Binding String Expr)) (claimed : List String) :
    (definitionTerms claimed (before ++ bindings)).SucceedsLike
      (definitionTerms claimed (before ++ others)) := by
  induction before generalizing claimed with
  | nil => exact h claimed
  | cons binding rest ih =>
    cases binding with
    | equation name value => exact .behind _ fun _ => .behind _ fun _ => (ih _).before _
    | inherit source names =>
      cases source with
      | none => exact .behind _ fun _ => (ih _).before _
      | some c => exact .behind _ fun _ => .behind _ fun _ => (ih _).before _

theorem dict_succeedsLike {bindings others : List (Binding Expr Expr)} (recursive : Bool)
    (h : (entryTerms [] bindings).SucceedsLike (entryTerms [] others)) :
    (Expr.dict recursive bindings).toTerm.SucceedsLike (Expr.dict recursive others).toTerm := by
  cases recursive <;> exact h.before _

namespace Expr.LowersLike

variable {d e c : Expr}

theorem refl (e : Expr) : e.LowersLike e := ⟨.refl _, rfl⟩

theorem symm (h : d.LowersLike e) : e.LowersLike d := ⟨h.terms.symm, h.keys.symm⟩

theorem trans (h : d.LowersLike e) (h' : e.LowersLike c) : d.LowersLike c :=
  ⟨h.terms.trans h'.terms, h.keys.trans h'.keys⟩

/-- The expressions are alike in whatever they are put. -/
theorem fill (h : d.LowersLike e) (f : Expr.Frame) : (f.fill d).LowersLike (f.fill e) := by
  cases f with
  | hole before behind =>
    refine ⟨(pieceTerms_succeedsLike h before behind).before _, ?_⟩
    exact (staticText?_of_antiquote List.mem_append_cons_self).trans
      (staticText?_of_antiquote List.mem_append_cons_self).symm
  | item before behind => exact ⟨(itemTerms_succeedsLike h before behind).before _, rfl⟩
  | key recursive before value behind =>
    refine ⟨dict_succeedsLike recursive (entryTerms_succeedsLike (fun _ => ?_) before []), rfl⟩
    exact (staticKey_succeedsLike h).before _
  | entry recursive before gap behind =>
    refine ⟨dict_succeedsLike recursive (entryTerms_succeedsLike (fun _ => ?_) before []), rfl⟩
    cases gap with
    | value key => exact .behind _ fun _ => .behind _ fun _ => h.terms.before _
    | source names => exact h.terms.before _
  | subject key => exact ⟨h.terms.before _, rfl⟩
  | dotKey subject => exact ⟨.behind _ fun _ => h.terms.before _, rfl⟩
  | default whole before x behind ellipsis body =>
    have hdefaults := defaultTerms_succeedsLike h before x behind
    have hpattern : ∀ defaults b,
        (notedPattern (before ++ ⟨x, some d⟩ :: behind) ellipsis defaults b).SucceedsLike
          (notedPattern (before ++ ⟨x, some e⟩ :: behind) ellipsis defaults b) := by
      intro defaults b
      have hnames : ((before ++ ⟨x, some d⟩ :: behind).map fun field => field.name.text) =
          (before ++ ⟨x, some e⟩ :: behind).map fun field => field.name.text := by
        rw [List.map_append, List.map_append, List.map_cons, List.map_cons]
      exact notedPattern_congr hnames ellipsis defaults b ▸ .refl _
    cases whole with
    | none =>
      exact ⟨.behind _ fun _ => hdefaults.bind fun _ => hpattern _ _, rfl⟩
    | some y =>
      exact ⟨.behind _ fun _ => hdefaults.bind fun _ => (hpattern _ _).before _, rfl⟩
  | lambdaBody param =>
    cases param <;> exact ⟨h.terms.before _, rfl⟩
  | function argument => exact ⟨h.terms.before _, rfl⟩
  | argument function => exact ⟨.behind _ fun _ => h.terms.before _, rfl⟩
  | definition before gap behind body =>
    refine ⟨(definitionTerms_succeedsLike (fun _ => ?_) before []).before _, rfl⟩
    cases gap with
    | value name => exact .behind _ fun _ => h.terms.before _
    | source names => exact h.terms.before _
  | letBody bindings => exact ⟨.behind _ fun _ => h.terms.before _, rfl⟩

end Expr.LowersLike

/-! ## Changes anywhere in a program -/

/-- A change of an expression that stands anywhere in a program. -/
inductive Expr.Within (R : Expr → Expr → Prop) : Expr → Expr → Prop
  | here {d e : Expr} (h : R d e) : Within R d e
  | inside {d e : Expr} (f : Expr.Frame) (h : Within R d e) : Within R (f.fill d) (f.fill e)

/-- A kind of change that leaves terms as they are does so anywhere in a program, however often
it is made and undone. -/
theorem Expr.lower_eq_ok_iff_of_changes {R : Expr → Expr → Prop}
    (hR : ∀ d e, R d e → d.LowersLike e) {d e : Expr} (h : Relation.EqvGen (Within R) d e)
    (t : Term) : d.lower = .ok t ↔ e.lower = .ok t := by
  have hwithin : ∀ d e, Within R d e → d.LowersLike e := by
    intro d e h
    induction h with
    | here h => exact hR _ _ h
    | inside f _ ih => exact ih.fill f
  have hlike : d.LowersLike e := by
    induction h with
    | rel d e h => exact hwithin d e h
    | refl e => exact .refl e
    | symm d e _ ih => exact ih.symm
    | trans d e c _ _ ih ih' => exact ih.trans ih'
  exact hlike.terms t

end LazyConfig
