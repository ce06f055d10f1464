import LazyConfig.Expr.Inherit
import LazyConfig.Proofs.Lowering
import LazyConfig.Term.Free
set_option autoImplicit false

/-!
# Free names of lowered programs

Variables are the only names that a program writes, and they are bare.  A name that is
not bare may still be free in the term of a program: a dict may take it over from the
scope around.  There is no other way, however deep the term is.
-/

namespace LazyConfig

variable {x : String} {tracing : Bool}

theorem hasFree_appendTerms {ts : List Term} (h : ∀ t ∈ ts, t.hasFree x = false) :
    (appendTerms ts).hasFree x = false := by
  induction ts with
  | nil => rfl
  | cons t ts ih =>
    have ht := h t List.mem_cons_self
    cases ts with
    | nil => exact ht
    | cons u ts =>
      have hrest := ih fun v hv => h v (List.mem_cons_of_mem t hv)
      simp [appendTerms, Term.hasFree, Term.function, ht, hrest]

theorem hasFree_lookupNames {source : Term} (h : source.hasFree x = false) (names : List String) :
    ∀ e ∈ lookupNames source names, e.2.hasFree x = false := by
  intro e he
  obtain ⟨y, -, rfl⟩ := List.mem_map.mp he
  simp [lookupTerm, Term.hasFree, Term.function, h]

/-- A function with a pattern adds no free name to those of its body and its defaults. -/
theorem hasFree_patternTerm {names : List String} {ellipsis : Bool}
    {defaults : List (String × Term)} {body : Term} (hbody : body.hasFree x = false)
    (hdefaults : ∀ e ∈ defaults, e.2.hasFree x = false) :
    (patternTerm names ellipsis defaults body).hasFree x = false := by
  have hkeys : (Term.keySet names).hasFree x = false := by
    refine anyHasFree_eq_false_iff.mpr fun t ht => ?_
    obtain ⟨y, -, rfl⟩ := List.mem_map.mp ht
    rfl
  have hfill := hasFree_ofEntries hdefaults
  cases ellipsis with
  | true =>
    simp [patternTerm, Term.hasFree, Term.function, Binder.binds, Binder.ofKeys, hbody, hfill]
  | false =>
    simp [patternTerm, Term.hasFree, Term.function, Binder.binds, Binder.ofKeys, hbody, hfill,
      hkeys]

/-- What the bindings of a scope amount to has no free use of the name. -/
def Bound.avoids (x : String) (bound : Bound) : Prop :=
  (∀ e ∈ bound.own, e.2.hasFree x = false) ∧ x ∉ bound.outer

theorem hasFree_plainDict {bound : Bound} (h : bound.avoids x) :
    (plainDict bound).hasFree x = false := by
  refine hasFree_ofEntries fun e he => ?_
  rcases List.mem_append.mp he with he | he
  · exact h.1 e he
  · obtain ⟨y, hy, rfl⟩ := List.mem_map.mp he
    refine beq_eq_false_iff_ne.mpr ?_
    rintro rfl
    exact h.2 hy

theorem hasFree_recursiveDict {bound : Bound} {t : Term} (h : bound.avoids x)
    (ht : (recursiveDict bound tracing).1 = .ok t) : t.hasFree x = false := by
  obtain ⟨_, -, ht⟩ := Lowering.bind_eq_ok_iff.mp ht
  obtain rfl := Except.ok.inj ht
  refine hasFree_ofBindings h.1 fun hown => hasFree_ofEntries fun e he => ?_
  obtain ⟨y, hy, rfl⟩ := List.mem_map.mp he
  refine beq_eq_false_iff_ne.mpr ?_
  rintro rfl
  rcases List.mem_append.mp hy with hy | hy
  · exact hown hy
  · exact h.2 hy

/-! ## Programs -/

mutual

/-- A name that no variable can have is free in the term of a program only if a dict in the
program takes it over from the scope around. -/
theorem Expr.hasFree_toTerm (hx : ∀ y : Name, y.text ≠ x) : ∀ (e : Expr) {t : Term},
    (e.toTerm tracing).1 = .ok t → e.inherits x = false → t.hasFree x = false
  | .var y, t, h, _ => by
    obtain rfl : Term.var y.text = t := Except.ok.inj h
    exact beq_eq_false_iff_ne.mpr (hx y)
  | .str pieces, t, h, hin => by
    obtain ⟨ts, hts, h⟩ := Lowering.bind_eq_ok_iff.mp h
    obtain rfl : appendTerms ts = t := Except.ok.inj h
    exact hasFree_appendTerms (hasFree_pieceTerms hx pieces hts hin)
  | .list items, t, h, hin => by
    obtain ⟨ts, hts, h⟩ := Lowering.bind_eq_ok_iff.mp h
    obtain rfl : Term.list ts = t := Except.ok.inj h
    exact anyHasFree_eq_false_iff.mpr (hasFree_itemTerms hx items hts hin)
  | .dict false bindings, t, h, hin => by
    obtain ⟨bound, hbound, h⟩ := Lowering.bind_eq_ok_iff.mp h
    obtain rfl : plainDict bound = t := Except.ok.inj h
    exact hasFree_plainDict (avoids_entryTerms hx bindings hbound hin)
  | .dict true bindings, t, h, hin => by
    obtain ⟨bound, hbound, h⟩ := Lowering.bind_eq_ok_iff.mp h
    exact hasFree_recursiveDict (avoids_entryTerms hx bindings hbound hin) h
  | .dot subject key, t, h, hin => by
    obtain ⟨hsubject, hkey⟩ := Bool.or_eq_false_iff.mp hin
    obtain ⟨s, hs, h⟩ := Lowering.bind_eq_ok_iff.mp h
    obtain ⟨k, hk, h⟩ := Lowering.bind_eq_ok_iff.mp h
    obtain rfl : lookupTerm s k = t := Except.ok.inj h
    simp [lookupTerm, Term.hasFree, Term.function, Expr.hasFree_toTerm hx subject hs hsubject,
      Expr.hasFree_toTerm hx key hk hkey]
  | .lambda (.name y) body, t, h, hin => by
    obtain ⟨b, hb, h⟩ := Lowering.bind_eq_ok_iff.mp h
    obtain rfl : Term.lam (.name y.text) b = t := Except.ok.inj h
    simp [Term.hasFree, Expr.hasFree_toTerm hx body hb hin]
  | .lambda (.pattern ⟨fields, ellipsis⟩) body, t, h, hin => by
    obtain ⟨hbody, hfields⟩ := Bool.or_eq_false_iff.mp hin
    obtain ⟨b, hb, h⟩ := Lowering.bind_eq_ok_iff.mp h
    obtain ⟨defaults, hd, h⟩ := Lowering.bind_eq_ok_iff.mp h
    obtain ⟨_, -, h⟩ := Lowering.bind_eq_ok_iff.mp h
    obtain rfl := Except.ok.inj h
    exact hasFree_patternTerm (Expr.hasFree_toTerm hx body hb hbody)
      (hasFree_defaultTerms hx fields hd hfields)
  | .lambda (.both y ⟨fields, ellipsis⟩) body, t, h, hin => by
    obtain ⟨hbody, hfields⟩ := Bool.or_eq_false_iff.mp hin
    obtain ⟨b, hb, h⟩ := Lowering.bind_eq_ok_iff.mp h
    obtain ⟨defaults, hd, h⟩ := Lowering.bind_eq_ok_iff.mp h
    obtain ⟨f, hf, h⟩ := Lowering.bind_eq_ok_iff.mp h
    obtain ⟨_, -, hf⟩ := Lowering.bind_eq_ok_iff.mp hf
    obtain rfl := Except.ok.inj hf
    obtain rfl := Except.ok.inj h
    have hpattern : (patternTerm (fields.map fun field => field.name.text) ellipsis defaults
        b).hasFree x = false :=
      hasFree_patternTerm (Expr.hasFree_toTerm hx body hb hbody)
        (hasFree_defaultTerms hx fields hd hfields)
    simp [Term.hasFree, hpattern, hx y]
  | .apply f a, t, h, hin => by
    obtain ⟨hfunction, hargument⟩ := Bool.or_eq_false_iff.mp hin
    obtain ⟨g, hg, h⟩ := Lowering.bind_eq_ok_iff.mp h
    obtain ⟨b, hb, h⟩ := Lowering.bind_eq_ok_iff.mp h
    obtain rfl : Term.app g b = t := Except.ok.inj h
    simp [Term.hasFree, Expr.hasFree_toTerm hx f hg hfunction,
      Expr.hasFree_toTerm hx a hb hargument]
  | .letIn bindings body, t, h, hin => by
    obtain ⟨hbindings, hbody⟩ := Bool.or_eq_false_iff.mp hin
    obtain ⟨bound, hbound, h⟩ := Lowering.bind_eq_ok_iff.mp h
    obtain ⟨b, hb, h⟩ := Lowering.bind_eq_ok_iff.mp h
    obtain rfl : Term.ofBindings bound.own b = t := Except.ok.inj h
    exact hasFree_ofBindings (hasFree_definitionTerms hx bindings hbound hbindings)
      fun _ => Expr.hasFree_toTerm hx body hb hbody

theorem hasFree_pieceTerms (hx : ∀ y : Name, y.text ≠ x) :
    ∀ (pieces : List (Piece Expr)) {ts : List Term}, (pieceTerms pieces tracing).1 = .ok ts →
    piecesInherit x pieces = false →
    ∀ t ∈ ts, t.hasFree x = false
  | [], ts, h, _ => by
    obtain rfl : [] = ts := Except.ok.inj h
    exact fun t ht => absurd ht List.not_mem_nil
  | .literal text :: rest, ts, h, hin => by
    obtain ⟨us, hus, h⟩ := Lowering.bind_eq_ok_iff.mp h
    obtain rfl : Term.text text :: us = ts := Except.ok.inj h
    exact List.forall_mem_cons.mpr ⟨rfl, hasFree_pieceTerms hx rest hus hin⟩
  | .antiquote e :: rest, ts, h, hin => by
    obtain ⟨he, hrest⟩ := Bool.or_eq_false_iff.mp hin
    obtain ⟨t, ht, h⟩ := Lowering.bind_eq_ok_iff.mp h
    obtain ⟨us, hus, h⟩ := Lowering.bind_eq_ok_iff.mp h
    obtain rfl : t :: us = ts := Except.ok.inj h
    exact List.forall_mem_cons.mpr
      ⟨Expr.hasFree_toTerm hx e ht he, hasFree_pieceTerms hx rest hus hrest⟩

theorem hasFree_itemTerms (hx : ∀ y : Name, y.text ≠ x) : ∀ (items : List Expr) {ts : List Term},
    (itemTerms items tracing).1 = .ok ts → itemsInherit x items = false →
    ∀ t ∈ ts, t.hasFree x = false
  | [], ts, h, _ => by
    obtain rfl : [] = ts := Except.ok.inj h
    exact fun t ht => absurd ht List.not_mem_nil
  | e :: rest, ts, h, hin => by
    obtain ⟨he, hrest⟩ := Bool.or_eq_false_iff.mp hin
    obtain ⟨t, ht, h⟩ := Lowering.bind_eq_ok_iff.mp h
    obtain ⟨us, hus, h⟩ := Lowering.bind_eq_ok_iff.mp h
    obtain rfl : t :: us = ts := Except.ok.inj h
    exact List.forall_mem_cons.mpr
      ⟨Expr.hasFree_toTerm hx e ht he, hasFree_itemTerms hx rest hus hrest⟩

theorem avoids_entryTerms (hx : ∀ y : Name, y.text ≠ x) :
    ∀ (bindings : List (Binding Expr Expr)) {claimed : List String} {bound : Bound},
    (entryTerms claimed bindings tracing).1 = .ok bound →
    entriesInherit x bindings = false → bound.avoids x
  | [], claimed, bound, h, _ => by
    obtain rfl : ⟨[], []⟩ = bound := Except.ok.inj h
    exact ⟨fun e he => absurd he List.not_mem_nil, List.not_mem_nil⟩
  | .equation key value :: rest, claimed, bound, h, hin => by
    obtain ⟨hvalue, hrest⟩ := Bool.or_eq_false_iff.mp hin
    obtain ⟨name, -, h⟩ := Lowering.bind_eq_ok_iff.mp h
    obtain ⟨_, -, h⟩ := Lowering.bind_eq_ok_iff.mp h
    obtain ⟨t, ht, h⟩ := Lowering.bind_eq_ok_iff.mp h
    obtain ⟨later, hlater, h⟩ := Lowering.bind_eq_ok_iff.mp h
    obtain rfl : Bound.mk ((name, t) :: later.own) later.outer = bound := Except.ok.inj h
    obtain ⟨hown, houter⟩ := avoids_entryTerms hx rest hlater hrest
    exact ⟨List.forall_mem_cons.mpr ⟨Expr.hasFree_toTerm hx value ht hvalue, hown⟩, houter⟩
  | .inherit none names :: rest, claimed, bound, h, hin => by
    obtain ⟨hnames, hrest⟩ := Bool.or_eq_false_iff.mp hin
    obtain ⟨_, -, h⟩ := Lowering.bind_eq_ok_iff.mp h
    obtain ⟨later, hlater, h⟩ := Lowering.bind_eq_ok_iff.mp h
    obtain rfl : Bound.mk later.own (names ++ later.outer) = bound := Except.ok.inj h
    obtain ⟨hown, houter⟩ := avoids_entryTerms hx rest hlater hrest
    refine ⟨hown, fun hmem => ?_⟩
    rcases List.mem_append.mp hmem with hmem | hmem
    · simp [hmem] at hnames
    · exact houter hmem
  | .inherit (some e) names :: rest, claimed, bound, h, hin => by
    obtain ⟨he, hrest⟩ := Bool.or_eq_false_iff.mp hin
    obtain ⟨source, hs, h⟩ := Lowering.bind_eq_ok_iff.mp h
    obtain ⟨_, -, h⟩ := Lowering.bind_eq_ok_iff.mp h
    obtain ⟨later, hlater, h⟩ := Lowering.bind_eq_ok_iff.mp h
    obtain rfl : Bound.mk (lookupNames source names ++ later.own) later.outer = bound :=
      Except.ok.inj h
    obtain ⟨hown, houter⟩ := avoids_entryTerms hx rest hlater hrest
    have hlookups := hasFree_lookupNames (Expr.hasFree_toTerm hx e hs he) names
    exact ⟨List.forall_mem_append.mpr ⟨hlookups, hown⟩, houter⟩

theorem hasFree_definitionTerms (hx : ∀ y : Name, y.text ≠ x) :
    ∀ (bindings : List (Binding String Expr)) {claimed : List String} {bound : Bound},
    (definitionTerms claimed bindings tracing).1 = .ok bound →
    definitionsInherit x bindings = false → ∀ e ∈ bound.own, e.2.hasFree x = false
  | [], claimed, bound, h, _ => by
    obtain rfl : ⟨[], []⟩ = bound := Except.ok.inj h
    exact fun e he => absurd he List.not_mem_nil
  | .equation name value :: rest, claimed, bound, h, hin => by
    obtain ⟨hvalue, hrest⟩ := Bool.or_eq_false_iff.mp hin
    obtain ⟨_, -, h⟩ := Lowering.bind_eq_ok_iff.mp h
    obtain ⟨t, ht, h⟩ := Lowering.bind_eq_ok_iff.mp h
    obtain ⟨later, hlater, h⟩ := Lowering.bind_eq_ok_iff.mp h
    obtain rfl : Bound.mk ((name, t) :: later.own) later.outer = bound := Except.ok.inj h
    exact List.forall_mem_cons.mpr ⟨Expr.hasFree_toTerm hx value ht hvalue,
      hasFree_definitionTerms hx rest hlater hrest⟩
  | .inherit none names :: rest, claimed, bound, h, hin => by
    obtain ⟨_, -, h⟩ := Lowering.bind_eq_ok_iff.mp h
    obtain ⟨later, hlater, h⟩ := Lowering.bind_eq_ok_iff.mp h
    obtain rfl : Bound.mk later.own (names ++ later.outer) = bound := Except.ok.inj h
    have hown := hasFree_definitionTerms hx rest hlater hin
    exact hown
  | .inherit (some e) names :: rest, claimed, bound, h, hin => by
    obtain ⟨he, hrest⟩ := Bool.or_eq_false_iff.mp hin
    obtain ⟨source, hs, h⟩ := Lowering.bind_eq_ok_iff.mp h
    obtain ⟨_, -, h⟩ := Lowering.bind_eq_ok_iff.mp h
    obtain ⟨later, hlater, h⟩ := Lowering.bind_eq_ok_iff.mp h
    obtain rfl : Bound.mk (lookupNames source names ++ later.own) later.outer = bound :=
      Except.ok.inj h
    have hlookups := hasFree_lookupNames (Expr.hasFree_toTerm hx e hs he) names
    exact List.forall_mem_append.mpr ⟨hlookups, hasFree_definitionTerms hx rest hlater hrest⟩

theorem hasFree_defaultTerms (hx : ∀ y : Name, y.text ≠ x) :
    ∀ (fields : List (Field Expr)) {defaults : List (String × Term)},
    (defaultTerms fields tracing).1 = .ok defaults → fieldsInherit x fields = false →
    ∀ e ∈ defaults, e.2.hasFree x = false
  | [], defaults, h, _ => by
    obtain rfl : [] = defaults := Except.ok.inj h
    exact fun e he => absurd he List.not_mem_nil
  | ⟨_, none⟩ :: rest, defaults, h, hin => hasFree_defaultTerms hx rest h hin
  | ⟨y, some d⟩ :: rest, defaults, h, hin => by
    obtain ⟨hd, hrest⟩ := Bool.or_eq_false_iff.mp hin
    obtain ⟨t, ht, h⟩ := Lowering.bind_eq_ok_iff.mp h
    obtain ⟨later, hlater, h⟩ := Lowering.bind_eq_ok_iff.mp h
    obtain rfl : (y.text, t) :: later = defaults := Except.ok.inj h
    exact List.forall_mem_cons.mpr ⟨Expr.hasFree_toTerm hx d ht hd,
      hasFree_defaultTerms hx rest hlater hrest⟩

end

/-- No variable has the name that stands for the argument of a pattern. -/
theorem Name.text_ne_argumentName (y : Name) : y.text ≠ argumentName := by
  intro hy
  have hbare := y.bare
  rw [hy] at hbare
  exact absurd hbare (by decide)

end LazyConfig
