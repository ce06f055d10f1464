import LazyConfig.Proofs.Lowering.Scopes
import LazyConfig.Proofs.Template.Bodies
import Mathlib.Logic.Relation
set_option autoImplicit false

/-!
# Lowering: which programs have a core term

A program has a core term exactly if every dict in it has keys that are known before
evaluation, and no dict or `let` in it binds a name twice.  A program without one is refused
for such a fault of a dict or `let` in it.
-/

namespace LazyConfig

/-- The fields that a parameter takes out of its argument. -/
def Param.fields {ε : Type} : Param ε → List (Field ε)
  | .name _ => []
  | .pattern p => p.fields
  | .both _ p => p.fields

/-- A template with a text reads as that text. -/
theorem Template.symbols_of_static? {ε : Type} {t : Template ε} {text : String}
    (h : t.static? = some text) : t.symbols = text.toList.map Sum.inl := by
  unfold static? at h
  split at h
  · exact Option.some.inj h ▸ rfl
  · exact Option.some.inj h ▸ List.append_nil _
  · exact nomatch h

namespace Expr

/-! ## Where an expression can stand -/

/-- The first expression stands directly in the second. -/
inductive Part : Expr → Expr → Prop
  | hole {d : Expr} {t : List (Piece Expr)} (h : .antiquote d ∈ t) : Part d (.str t)
  | item {d : Expr} {items : List Expr} (h : d ∈ items) : Part d (.list items)
  | key {r : Bool} {d value : Expr} {bindings : List (Binding Expr Expr)}
      (h : .equation d value ∈ bindings) : Part d (.dict r bindings)
  | entry {r : Bool} {d : Expr} {binding : Binding Expr Expr}
      {bindings : List (Binding Expr Expr)} (h : binding ∈ bindings) (hd : binding.Holds d) :
      Part d (.dict r bindings)
  | subject (d key : Expr) : Part d (.dot d key)
  | dotKey (subject d : Expr) : Part d (.dot subject d)
  | default {x : Name} {d body : Expr} {param : Param Expr} (h : ⟨x, some d⟩ ∈ param.fields) :
      Part d (.lambda param body)
  | lambdaBody (param : Param Expr) (d : Expr) : Part d (.lambda param d)
  | function (d a : Expr) : Part d (.apply d a)
  | argument (f d : Expr) : Part d (.apply f d)
  | definition {d body : Expr} {binding : Binding String Expr}
      {bindings : List (Binding String Expr)} (h : binding ∈ bindings) (hd : binding.Holds d) :
      Part d (.letIn bindings body)
  | letBody (bindings : List (Binding String Expr)) (d : Expr) : Part d (.letIn bindings d)

/-- The first expression stands anywhere in the second, or is all of it. -/
def Occurs : Expr → Expr → Prop := Relation.ReflTransGen Part

theorem Binding.sizeOf_lt_of_holds {κ : Type} [SizeOf κ] {binding : Binding κ Expr} {d : Expr}
    (h : binding.Holds d) : sizeOf d < sizeOf binding := by
  cases h <;> simp only [Binding.equation.sizeOf_spec, Binding.inherit.sizeOf_spec,
    Option.some.sizeOf_spec] <;> omega

theorem Part.sizeOf_lt {d e : Expr} (h : Part d e) : sizeOf d < sizeOf e := by
  cases h with
  | hole h =>
    have hpiece := List.sizeOf_lt_of_mem h
    simp only [Piece.antiquote.sizeOf_spec] at hpiece
    simp only [str.sizeOf_spec]
    omega
  | item h =>
    have hitem := List.sizeOf_lt_of_mem h
    simp only [list.sizeOf_spec]
    omega
  | key h =>
    have hbinding := List.sizeOf_lt_of_mem h
    simp only [Binding.equation.sizeOf_spec] at hbinding
    simp only [dict.sizeOf_spec]
    omega
  | entry h hd =>
    have hbinding := List.sizeOf_lt_of_mem h
    have hpart := Binding.sizeOf_lt_of_holds hd
    simp only [dict.sizeOf_spec]
    omega
  | @default x d body param h =>
    have hfield := List.sizeOf_lt_of_mem h
    have hparam : sizeOf param.fields < sizeOf param + 1 := by
      cases param with
      | name x => simp only [Param.fields, Param.name.sizeOf_spec, List.nil.sizeOf_spec]; omega
      | pattern p =>
        simp only [Param.fields, Param.pattern.sizeOf_spec]
        cases p
        simp only [Pattern.mk.sizeOf_spec]
        omega
      | both x p =>
        simp only [Param.fields, Param.both.sizeOf_spec]
        cases p
        simp only [Pattern.mk.sizeOf_spec]
        omega
    simp only [Field.mk.sizeOf_spec, Option.some.sizeOf_spec] at hfield
    simp only [lambda.sizeOf_spec]
    omega
  | definition h hd =>
    have hbinding := List.sizeOf_lt_of_mem h
    have hpart := Binding.sizeOf_lt_of_holds hd
    simp only [letIn.sizeOf_spec]
    omega
  | _ =>
    simp only [dot.sizeOf_spec, lambda.sizeOf_spec, apply.sizeOf_spec, letIn.sizeOf_spec]
    omega

/-! ## Faults -/

/-- The keys of a dict are known before evaluation, and neither a dict nor a `let` binds a
name twice.  Names bound by equations and names taken over count together. -/
def WellBound : Expr → Prop
  | .dict _ bindings =>
      (∀ key value, .equation key value ∈ bindings → ∃ name, key.staticText? = some name) ∧
        (boundNames staticText? bindings).Nodup
  | .letIn bindings _ => (boundNames some bindings).Nodup
  | _ => True

/-- What an expression does wrong where it stands. -/
inductive Blames : Expr → LoweringError → Prop
  | key {r : Bool} {k value : Expr} {bindings : List (Binding Expr Expr)} {err : LoweringError}
      (h : .equation k value ∈ bindings) (hkey : k.BadKey err) : Blames (.dict r bindings) err
  | dict {r : Bool} {name : String} {bindings : List (Binding Expr Expr)}
      (h : 2 ≤ (boundNames staticText? bindings).count name) :
      Blames (.dict r bindings) (.repeatedName name .dict)
  | letIn {name : String} {bindings : List (Binding String Expr)} {body : Expr}
      (h : 2 ≤ (boundNames some bindings).count name) :
      Blames (.letIn bindings body) (.repeatedName name .letIn)

theorem Blames.not_wellBound {e : Expr} {err : LoweringError} (h : e.Blames err) :
    ¬ e.WellBound := by
  intro hbound
  cases h with
  | key hmem hkey =>
    obtain ⟨name, hname⟩ := hbound.1 _ _ hmem
    rw [hkey.staticText?_eq_none] at hname
    exact nomatch hname
  | dict hcount =>
    exact absurd (List.nodup_iff_count.mp hbound.2 _) (Nat.not_le.mpr hcount)
  | letIn hcount =>
    exact absurd (List.nodup_iff_count.mp hbound _) (Nat.not_le.mpr hcount)

/-! ## One level of a program -/

/-- A string with an antiquote is no text as it stands. -/
theorem staticText?_of_antiquote {t : List (Piece Expr)} {e : Expr}
    (h : .antiquote e ∈ t) : (str t).staticText? = none := by
  cases hstatic : (str t).staticText? with
  | none => rfl
  | some text =>
    rw [Template.antiquote_mem_iff, ← Template.symbols_normalize,
      Template.symbols_of_static? hstatic] at h
    obtain ⟨c, -, hc⟩ := List.mem_map.mp h
    exact absurd hc Sum.inl_ne_inr

/-- A key that is known before evaluation has no holes, and so it has a term. -/
theorem lowers_of_staticText? {k : Expr} {name : String} (h : k.staticText? = some name) :
    ∃ t, k.lower = .ok t := by
  cases k with
  | str t =>
    cases hlower : (str t).lower with
    | ok u => exact ⟨u, rfl⟩
    | error err =>
      rw [lower, toTerm, Lowering.bind_pure_eq_error_iff] at hlower
      obtain ⟨d, hd, -⟩ := refused_of_pieceTerms hlower
      rw [staticText?_of_antiquote hd] at h
      cases h
  | _ => cases h

/-- A program that has a core term is at no fault where it starts, and its parts have core
terms too. -/
theorem parts_of_lower {e : Expr} {t : Term} (h : e.lower = .ok t) :
    e.WellBound ∧ ∀ d, Part d e → ∃ u, d.lower = .ok u := by
  cases e with
  | var x => exact ⟨trivial, fun d hd => nomatch hd⟩
  | str pieces =>
    rw [lower, toTerm, Lowering.bind_eq_ok_iff] at h
    obtain ⟨ts, hts, -⟩ := h
    refine ⟨trivial, ?_⟩
    rintro d ⟨hd⟩
    obtain ⟨u, -, hu⟩ := exists_of_forall₂ (pieceTerms_eq_ok_iff.mp hts) hd
    exact ⟨u, hu⟩
  | list items =>
    rw [lower, toTerm, Lowering.bind_eq_ok_iff] at h
    obtain ⟨ts, hts, -⟩ := h
    refine ⟨trivial, ?_⟩
    rintro d (_ | hd)
    obtain ⟨u, -, hu⟩ := exists_of_forall₂ (items_of_itemTerms hts) hd
    exact ⟨u, hu⟩
  | dict r bindings =>
    have hentries : ∃ bound, (entryTerms [] bindings false).1 = .ok bound := by
      cases r <;>
      · rw [lower, toTerm, Lowering.bind_eq_ok_iff] at h
        exact ⟨h.choose, h.choose_spec.1⟩
    obtain ⟨bound, hbound⟩ := hentries
    have hamounts := amounts_of_entryTerms hbound
    refine ⟨⟨fun k value hmem => hamounts.key_eq_some hmem, hamounts.nodup_boundNames.1⟩, ?_⟩
    rintro d hd
    cases hd with
    | key hmem => exact lowers_of_staticText? (hamounts.key_eq_some hmem).choose_spec
    | entry hmem hd => exact hamounts.lowers_of_holds hmem hd
  | dot subject key =>
    rw [lower, toTerm, Lowering.bind_eq_ok_iff] at h
    obtain ⟨s, hs, h⟩ := h
    obtain ⟨k, hk, -⟩ := Lowering.bind_eq_ok_iff.mp h
    refine ⟨trivial, ?_⟩
    rintro d hd
    cases hd with
    | subject => exact ⟨s, hs⟩
    | dotKey => exact ⟨k, hk⟩
  | lambda param body =>
    have hparts : (∃ b, body.lower = .ok b) ∧ ∀ x d, ⟨x, some d⟩ ∈ param.fields →
        ∃ u, d.lower = .ok u := by
      cases param with
      | name x =>
        rw [lower, toTerm, Lowering.bind_eq_ok_iff] at h
        obtain ⟨b, hb, -⟩ := h
        exact ⟨⟨b, hb⟩, fun _ _ hd => absurd hd List.not_mem_nil⟩
      | pattern p | both x p =>
        rw [lower, toTerm, Lowering.bind_eq_ok_iff] at h
        obtain ⟨b, hb, h⟩ := h
        obtain ⟨defaults, hdefaults, -⟩ := Lowering.bind_eq_ok_iff.mp h
        refine ⟨⟨b, hb⟩, fun x d hd => ?_⟩
        obtain ⟨u, hu, -⟩ := exists_default_of_mem hdefaults hd
        exact ⟨u, hu⟩
    refine ⟨trivial, ?_⟩
    rintro d hd
    cases hd with
    | lambdaBody => exact hparts.1
    | default hmem => exact hparts.2 _ _ hmem
  | apply f a =>
    rw [lower, toTerm, Lowering.bind_eq_ok_iff] at h
    obtain ⟨g, hg, h⟩ := h
    obtain ⟨b, hb, -⟩ := Lowering.bind_eq_ok_iff.mp h
    refine ⟨trivial, ?_⟩
    rintro d hd
    cases hd with
    | function => exact ⟨g, hg⟩
    | argument => exact ⟨b, hb⟩
  | letIn bindings body =>
    rw [lower, toTerm, Lowering.bind_eq_ok_iff] at h
    obtain ⟨bound, hbound, h⟩ := h
    obtain ⟨b, hb, -⟩ := Lowering.bind_eq_ok_iff.mp h
    have hamounts := amounts_of_definitionTerms hbound
    refine ⟨hamounts.nodup_boundNames.1, ?_⟩
    rintro d hd
    cases hd with
    | definition hmem hd => exact hamounts.lowers_of_holds hmem hd
    | letBody => exact ⟨b, hb⟩

/-- A program that is refused is at fault where it starts, or a part is refused alike. -/
theorem blames_or_part_of_lower {e : Expr} {err : LoweringError} (h : e.lower = .error err) :
    e.Blames err ∨ ∃ d, Part d e ∧ d.lower = .error err := by
  cases e with
  | var x => cases h
  | str pieces =>
    rw [lower, toTerm, Lowering.bind_pure_eq_error_iff] at h
    obtain ⟨d, hd, herr⟩ := refused_of_pieceTerms h
    exact .inr ⟨d, .hole hd, herr⟩
  | list items =>
    rw [lower, toTerm, Lowering.bind_pure_eq_error_iff] at h
    obtain ⟨d, hd, herr⟩ := refused_of_itemTerms h
    exact .inr ⟨d, .item hd, herr⟩
  | dict r bindings =>
    have hentries : (entryTerms [] bindings false).1 = .error err := by
      cases r with
      | false =>
        rw [lower, toTerm, Lowering.bind_pure_eq_error_iff] at h
        exact h
      | true => exact (Lowering.bind_eq_error_iff_of_total fun _ => ⟨_, rfl⟩).mp h
    cases refused_of_entryTerms hentries with
    | key hmem hkey => exact .inl (.key hmem hkey)
    | part hmem hd herr => exact .inr ⟨_, .entry hmem hd, herr⟩
    | name hcount => exact .inl (.dict hcount)
  | dot subject key =>
    rw [lower, toTerm, Lowering.bind_eq_error_iff] at h
    rcases h with h | ⟨s, -, h⟩
    · exact .inr ⟨subject, .subject _ _, h⟩
    rw [Lowering.bind_pure_eq_error_iff] at h
    exact .inr ⟨key, .dotKey _ _, h⟩
  | lambda param body =>
    cases param with
    | name x =>
      rw [lower, toTerm, Lowering.bind_pure_eq_error_iff] at h
      exact .inr ⟨body, .lambdaBody _ _, h⟩
    | pattern p | both x p =>
      rw [lower, toTerm, Lowering.bind_eq_error_iff] at h
      rcases h with h | ⟨b, -, h⟩
      · exact .inr ⟨body, .lambdaBody _ _, h⟩
      have hdefaults := (Lowering.bind_eq_error_iff_of_total fun _ => ⟨_, rfl⟩).mp h
      obtain ⟨x, d, hd, herr⟩ := refused_of_defaultTerms hdefaults
      exact .inr ⟨d, .default hd, herr⟩
  | apply f a =>
    rw [lower, toTerm, Lowering.bind_eq_error_iff] at h
    rcases h with h | ⟨g, -, h⟩
    · exact .inr ⟨f, .function _ _, h⟩
    rw [Lowering.bind_pure_eq_error_iff] at h
    exact .inr ⟨a, .argument _ _, h⟩
  | letIn bindings body =>
    rw [lower, toTerm, Lowering.bind_eq_error_iff] at h
    rcases h with h | ⟨bound, -, h⟩
    · cases refused_of_definitionTerms h with
      | key hmem hkey => exact hkey.elim
      | part hmem hd herr => exact .inr ⟨_, .definition hmem hd, herr⟩
      | name hcount => exact .inl (.letIn hcount)
    rw [Lowering.bind_pure_eq_error_iff] at h
    exact .inr ⟨body, .letBody _ _, h⟩

/-! ## Whole programs -/

/-- Whatever occurs in a program that has a core term has one too. -/
theorem lowers_of_occurs {d e : Expr} (hd : d.Occurs e) (he : ∃ t, e.lower = .ok t) :
    ∃ t, d.lower = .ok t := by
  induction hd using Relation.ReflTransGen.head_induction_on with
  | refl => exact he
  | head hpart _ ih =>
    obtain ⟨t, ht⟩ := ih
    exact (parts_of_lower ht).2 _ hpart

/-- A program that is refused is at fault somewhere. -/
theorem exists_blames_of_lower {e : Expr} {err : LoweringError} (h : e.lower = .error err) :
    ∃ d : Expr, d.Occurs e ∧ d.Blames err := by
  rcases blames_or_part_of_lower h with hblames | ⟨d, hpart, hd⟩
  · exact ⟨e, .refl, hblames⟩
  · obtain ⟨c, hc, hblames⟩ := exists_blames_of_lower hd
    exact ⟨c, hc.tail hpart, hblames⟩
termination_by sizeOf e
decreasing_by exact hpart.sizeOf_lt

/-- A program has a core term exactly if the keys of every dict in it are known before
evaluation and no dict or `let` in it binds a name twice.  Otherwise one of these is at fault,
and the refusal says how. -/
theorem lower_isOk_iff_wellBound (e : Expr) :
    ((∃ t, e.lower = .ok t) ↔ ∀ d : Expr, d.Occurs e → d.WellBound) ∧
      ∀ err, e.lower = .error err → ∃ d : Expr, d.Occurs e ∧ d.Blames err := by
  refine ⟨⟨?_, ?_⟩, fun err herr => exists_blames_of_lower herr⟩
  · intro he d hd
    obtain ⟨t, ht⟩ := lowers_of_occurs hd he
    exact (parts_of_lower ht).1
  · intro hall
    cases hlower : e.lower with
    | ok t => exact ⟨t, rfl⟩
    | error err =>
      obtain ⟨d, hd, hblames⟩ := exists_blames_of_lower hlower
      exact absurd (hall d hd) hblames.not_wellBound

end Expr

end LazyConfig
