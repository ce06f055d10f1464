import LazyConfig.Expr.ToTerm
import Mathlib.Data.List.Forall2
set_option autoImplicit false

/-!
# Lowering in steps

What a step gives, without the notes: a sequence succeeds exactly if its parts do, and else
it is refused as the first part that is.
-/

namespace LazyConfig

namespace Lowering

variable {α β : Type} {p : Lowering α} {k : α → Lowering β} {tracing : Bool}

/-- A step behind one that succeeds. -/
theorem bind_ok {a : α} (h : (p tracing).1 = .ok a) :
    ((p >>= k) tracing).1 = (k a tracing).1 := by
  rcases hp : p tracing with ⟨outcome, notes⟩
  rw [hp] at h
  obtain rfl : outcome = .ok a := h
  rw [bind_of_ok hp]

theorem bind_eq_ok_iff {b : β} :
    ((p >>= k) tracing).1 = .ok b ↔ ∃ a, (p tracing).1 = .ok a ∧ (k a tracing).1 = .ok b := by
  rcases hp : p tracing with ⟨outcome, notes⟩
  cases outcome with
  | ok a =>
    rw [bind_of_ok hp]
    constructor
    · intro h
      exact ⟨a, rfl, h⟩
    · rintro ⟨c, hc, h⟩
      exact Except.ok.inj hc ▸ h
  | error e =>
    rw [bind_of_error hp]
    constructor
    · intro h
      exact nomatch h
    · rintro ⟨c, hc, -⟩
      exact nomatch hc

theorem bind_eq_error_iff {err : LoweringError} :
    ((p >>= k) tracing).1 = .error err ↔
      (p tracing).1 = .error err ∨ ∃ a, (p tracing).1 = .ok a ∧ (k a tracing).1 = .error err := by
  rcases hp : p tracing with ⟨outcome, notes⟩
  cases outcome with
  | ok a =>
    rw [bind_of_ok hp]
    constructor
    · intro h
      exact .inr ⟨a, rfl, h⟩
    · rintro (h | ⟨c, hc, h⟩)
      · exact nomatch h
      · exact Except.ok.inj hc ▸ h
  | error e =>
    rw [bind_of_error hp]
    constructor
    · intro h
      exact .inl (Except.error.inj h ▸ rfl)
    · rintro (h | ⟨c, hc, -⟩)
      · exact Except.error.inj h ▸ rfl
      · exact nomatch hc

/-- A step that always succeeds refuses nothing. -/
theorem bind_eq_error_iff_of_total {err : LoweringError}
    (hk : ∀ a, ∃ b, (k a tracing).1 = .ok b) :
    ((p >>= k) tracing).1 = .error err ↔ (p tracing).1 = .error err := by
  rw [bind_eq_error_iff]
  constructor
  · rintro (h | ⟨a, -, h⟩)
    · exact h
    · obtain ⟨b, hb⟩ := hk a
      exact nomatch hb.symm.trans h
  · exact .inl

theorem bind_pure_eq_error_iff {f : α → β} {err : LoweringError} :
    ((p >>= fun a => pure (f a)) tracing).1 = .error err ↔ (p tracing).1 = .error err :=
  bind_eq_error_iff_of_total fun a => ⟨f a, rfl⟩

end Lowering

/-! ## Strings and lists -/

/-- The term is that of the piece by itself. -/
def Piece.Lowers : Piece Expr → Term → Prop
  | .literal s, t => t = .text s
  | .antiquote e, t => e.lower = .ok t

/-- A template has the terms of its pieces, one for each. -/
theorem pieceTerms_eq_ok_iff {pieces : List (Piece Expr)} {ts : List Term} :
    (pieceTerms pieces false).1 = .ok ts ↔ List.Forall₂ Piece.Lowers pieces ts := by
  induction pieces generalizing ts with
  | nil =>
    constructor
    · intro h
      exact Except.ok.inj h ▸ .nil
    · rintro ⟨⟩
      rfl
  | cons piece rest ih =>
    cases piece with
    | literal s =>
      rw [pieceTerms, Lowering.bind_eq_ok_iff]
      constructor
      · rintro ⟨later, hrest, h⟩
        exact Except.ok.inj h ▸ .cons rfl (ih.mp hrest)
      · rintro (_ | ⟨rfl, hrest⟩)
        exact ⟨_, ih.mpr hrest, rfl⟩
    | antiquote e =>
      rw [pieceTerms, Lowering.bind_eq_ok_iff]
      constructor
      · rintro ⟨t, he, h⟩
        obtain ⟨later, hrest, h⟩ := Lowering.bind_eq_ok_iff.mp h
        exact Except.ok.inj h ▸ .cons he (ih.mp hrest)
      · rintro (_ | ⟨he, hrest⟩)
        exact ⟨_, he, Lowering.bind_eq_ok_iff.mpr ⟨_, ih.mpr hrest, rfl⟩⟩

theorem refused_of_pieceTerms {pieces : List (Piece Expr)} {err : LoweringError}
    (h : (pieceTerms pieces false).1 = .error err) :
    ∃ e, .antiquote e ∈ pieces ∧ e.lower = .error err := by
  induction pieces with
  | nil => exact nomatch h
  | cons piece rest ih =>
    cases piece with
    | literal s =>
      rw [pieceTerms, Lowering.bind_pure_eq_error_iff] at h
      obtain ⟨e, he, herr⟩ := ih h
      exact ⟨e, List.mem_cons_of_mem _ he, herr⟩
    | antiquote d =>
      rw [pieceTerms, Lowering.bind_eq_error_iff] at h
      rcases h with h | ⟨t, -, h⟩
      · exact ⟨d, List.mem_cons_self, h⟩
      rw [Lowering.bind_pure_eq_error_iff] at h
      obtain ⟨e, he, herr⟩ := ih h
      exact ⟨e, List.mem_cons_of_mem _ he, herr⟩

/-- A list has the terms of its items, one for each. -/
theorem items_of_itemTerms {items : List Expr} {ts : List Term}
    (h : (itemTerms items false).1 = .ok ts) :
    List.Forall₂ (fun e t => e.lower = .ok t) items ts := by
  induction items generalizing ts with
  | nil => exact Except.ok.inj h ▸ .nil
  | cons e rest ih =>
    rw [itemTerms, Lowering.bind_eq_ok_iff] at h
    obtain ⟨t, he, h⟩ := h
    obtain ⟨later, hrest, h⟩ := Lowering.bind_eq_ok_iff.mp h
    exact Except.ok.inj h ▸ .cons he (ih hrest)

theorem refused_of_itemTerms {items : List Expr} {err : LoweringError}
    (h : (itemTerms items false).1 = .error err) : ∃ e ∈ items, e.lower = .error err := by
  induction items with
  | nil => exact nomatch h
  | cons d rest ih =>
    rw [itemTerms, Lowering.bind_eq_error_iff] at h
    rcases h with h | ⟨t, -, h⟩
    · exact ⟨d, List.mem_cons_self, h⟩
    rw [Lowering.bind_pure_eq_error_iff] at h
    obtain ⟨e, he, herr⟩ := ih h
    exact ⟨e, List.mem_cons_of_mem _ he, herr⟩

/-- What stands in the first of two lists that match has its match. -/
theorem exists_of_forall₂ {α β : Type} {R : α → β → Prop} {as : List α} {bs : List β}
    (h : List.Forall₂ R as bs) {a : α} (ha : a ∈ as) : ∃ b ∈ bs, R a b := by
  induction h with
  | nil => exact absurd ha List.not_mem_nil
  | cons hhead _ ih =>
    rcases List.mem_cons.mp ha with rfl | ha
    · exact ⟨_, List.mem_cons_self, hhead⟩
    · obtain ⟨b, hb, hR⟩ := ih ha
      exact ⟨b, List.mem_cons_of_mem _ hb, hR⟩

/-! ## Patterns -/

variable {tracing : Bool}

/-- The defaults of a pattern stand under the names of the fields that have one, in order. -/
theorem keys_sublist_of_defaultTerms {fields : List (Field Expr)} {defaults : List (String × Term)}
    (h : (defaultTerms fields tracing).1 = .ok defaults) :
    (defaults.map Prod.fst).Sublist (fields.map fun field => field.name.text) := by
  induction fields generalizing defaults with
  | nil =>
    obtain rfl : [] = defaults := Except.ok.inj h
    exact List.Sublist.refl _
  | cons field fields ih =>
    obtain ⟨y, default⟩ := field
    cases default with
    | none => exact (ih h).cons _
    | some d =>
      rw [defaultTerms, Lowering.bind_eq_ok_iff] at h
      obtain ⟨t, -, h⟩ := h
      obtain ⟨rest, hrest, h⟩ := Lowering.bind_eq_ok_iff.mp h
      obtain rfl : (y.text, t) :: rest = defaults := Except.ok.inj h
      exact (ih hrest).cons_cons _

theorem mem_names_of_defaultTerms {fields : List (Field Expr)} {defaults : List (String × Term)}
    (h : (defaultTerms fields tracing).1 = .ok defaults) :
    ∀ e ∈ defaults, e.1 ∈ fields.map fun field => field.name.text := by
  intro e he
  exact (keys_sublist_of_defaultTerms h).subset (List.mem_map_of_mem he)

/-- Each default of a pattern has its term among those of the defaults. -/
theorem exists_default_of_mem {fields : List (Field Expr)} {defaults : List (String × Term)}
    (h : (defaultTerms fields false).1 = .ok defaults) {y : Name} {d : Expr}
    (hfield : ⟨y, some d⟩ ∈ fields) : ∃ t, d.lower = .ok t ∧ (y.text, t) ∈ defaults := by
  induction fields generalizing defaults with
  | nil => exact absurd hfield List.not_mem_nil
  | cons field fields ih =>
    obtain ⟨z, default⟩ := field
    cases default with
    | none =>
      rcases List.mem_cons.mp hfield with heq | hfield
      · exact nomatch heq
      · exact ih h hfield
    | some c =>
      rw [defaultTerms, Lowering.bind_eq_ok_iff] at h
      obtain ⟨t, ht, h⟩ := h
      obtain ⟨rest, hrest, h⟩ := Lowering.bind_eq_ok_iff.mp h
      obtain rfl : (z.text, t) :: rest = defaults := Except.ok.inj h
      rcases List.mem_cons.mp hfield with heq | hfield
      · obtain ⟨rfl, hsome⟩ := Field.mk.inj heq
        obtain rfl := Option.some.inj hsome
        exact ⟨t, ht, List.mem_cons_self⟩
      · obtain ⟨u, hu, hmem⟩ := ih hrest hfield
        exact ⟨u, hu, List.mem_cons_of_mem _ hmem⟩

theorem refused_of_defaultTerms {fields : List (Field Expr)} {err : LoweringError}
    (h : (defaultTerms fields false).1 = .error err) :
    ∃ x e, ⟨x, some e⟩ ∈ fields ∧ e.lower = .error err := by
  induction fields with
  | nil => exact nomatch h
  | cons field rest ih =>
    obtain ⟨x, default⟩ := field
    cases default with
    | none =>
      obtain ⟨y, e, he, herr⟩ := ih h
      exact ⟨y, e, List.mem_cons_of_mem _ he, herr⟩
    | some d =>
      rw [defaultTerms, Lowering.bind_eq_error_iff] at h
      rcases h with h | ⟨t, -, h⟩
      · exact ⟨x, d, List.mem_cons_self, h⟩
      rw [Lowering.bind_pure_eq_error_iff] at h
      obtain ⟨y, e, he, herr⟩ := ih h
      exact ⟨y, e, List.mem_cons_of_mem _ he, herr⟩

section

variable {p : Pattern Expr} {body : Expr} {b : Term} {defaults : List (String × Term)}
  (hbody : body.lower = .ok b) (hdefaults : (defaultTerms p.fields false).1 = .ok defaults)

include hbody hdefaults

/-- The term of a function with a pattern. -/
theorem lower_pattern :
    (Expr.lambda (.pattern p) body).lower = .ok (patternTerm p.names p.ellipsis defaults b) := by
  obtain ⟨fields, ellipsis⟩ := p
  rw [Expr.lower, Expr.toTerm, Lowering.bind_ok hbody, Lowering.bind_ok hdefaults]
  rfl

/-- The term of a function with a name and a pattern. -/
theorem lower_both (y : Name) :
    (Expr.lambda (.both y p) body).lower =
      .ok (.lam (.name y.text)
        (.app (patternTerm p.names p.ellipsis defaults b) (.var y.text))) := by
  obtain ⟨fields, ellipsis⟩ := p
  rw [Expr.lower, Expr.toTerm, Lowering.bind_ok hbody, Lowering.bind_ok hdefaults]
  rfl

end

end LazyConfig
