import LazyConfig.Proofs.Lowering
set_option autoImplicit false

/-!
# Safety: the terms of programs

A core term may hold data that has no value, and may name builtin functions that there are
not.  The term of a program does neither, however deep one looks into it.
-/

namespace LazyConfig

/-- In all its parts the term has texts for data and names builtin functions that there are. -/
inductive Term.Core : Term → Prop where
  | var (x : String) : Core (.var x)
  | lam (binder : Binder) {body : Term} (hbody : Core body) : Core (.lam binder body)
  | app {f a : Term} (hf : Core f) (ha : Core a) : Core (.app f a)
  | text (s : String) : Core (.text s)
  | list {items : List Term} (h : ∀ t ∈ items, Core t) : Core (.list items)
  | dict {entries : List (String × Term)} (h : ∀ e ∈ entries, Core e.2) : Core (.dict entries)
  | letrec {bindings : List (String × Term)} {body : Term}
      (hbindings : ∀ e ∈ bindings, Core e.2) (hbody : Core body) : Core (.letrec bindings body)
  | builtin (b : Builtin) : Core (.builtin b.name)

namespace Term.Core

/-! ## Terms for parts of a program -/

theorem function (b : Builtin) : (Term.function b).Core := .builtin b

theorem ofEntries {entries : List (String × Term)} (h : ∀ e ∈ entries, e.2.Core) :
    (Term.ofEntries entries).Core :=
  .dict fun e he => h e ((sortBy_perm Prod.fst entries).mem_iff.mp he)

theorem ofBindings {bindings : List (String × Term)} {body : Term}
    (h : ∀ e ∈ bindings, e.2.Core) (hbody : body.Core) : (Term.ofBindings bindings body).Core :=
  .letrec (fun e he => h e ((sortBy_perm Prod.fst bindings).mem_iff.mp he)) hbody

theorem keySet (names : List String) : (Term.keySet names).Core := by
  refine .list fun t ht => ?_
  obtain ⟨x, -, rfl⟩ := List.mem_map.mp ht
  exact .text x

theorem lookupTerm {subject key : Term} (hsubject : subject.Core) (hkey : key.Core) :
    (LazyConfig.lookupTerm subject key).Core :=
  .app (.app (function .lookup) hsubject) hkey

theorem lookupNames {source : Term} (h : source.Core) (names : List String) :
    ∀ e ∈ LazyConfig.lookupNames source names, e.2.Core := by
  intro e he
  obtain ⟨x, -, rfl⟩ := List.mem_map.mp he
  exact lookupTerm h (.text x)

theorem appendTerms {ts : List Term} (h : ∀ t ∈ ts, t.Core) :
    (LazyConfig.appendTerms ts).Core := by
  induction ts with
  | nil => exact .text ""
  | cons t ts ih =>
    have ht := h t List.mem_cons_self
    cases ts with
    | nil => exact ht
    | cons u ts =>
      exact .app (.app (function .append) ht) (ih fun v hv => h v (List.mem_cons_of_mem t hv))

/-- The function of a pattern checks, completes and takes apart. -/
theorem patternTerm {names : List String} {ellipsis : Bool} {defaults : List (String × Term)}
    {body : Term} (hbody : body.Core) (hdefaults : ∀ e ∈ defaults, e.2.Core) :
    (LazyConfig.patternTerm names ellipsis defaults body).Core := by
  have hcompose : ∀ {f g : Term}, f.Core → g.Core →
      (Term.app (.app (.function .compose) f) g).Core :=
    fun hf hg => .app (.app (function .compose) hf) hg
  have hcomplete := Core.lam (.name argumentName)
    (.app (.app (function .mergeLeft) (.var argumentName)) (ofEntries hdefaults))
  refine hcompose (hcompose (.lam _ hbody) hcomplete) ?_
  cases ellipsis with
  | true => exact function .identity
  | false => exact .app (function .disallowExtra) (keySet names)

theorem ofNames (names : List String) :
    ∀ e ∈ names.map fun x => (x, Term.var x), e.2.Core := by
  intro e he
  obtain ⟨x, -, rfl⟩ := List.mem_map.mp he
  exact .var x

theorem plainDict {bound : Bound} (h : ∀ e ∈ bound.own, e.2.Core) :
    (LazyConfig.plainDict bound).Core :=
  ofEntries (List.forall_mem_append.mpr ⟨h, ofNames bound.outer⟩)

theorem recursiveDict {bound : Bound} {tracing : Bool} {t : Term} (h : ∀ e ∈ bound.own, e.2.Core)
    (ht : (LazyConfig.recursiveDict bound tracing).1 = .ok t) : t.Core := by
  obtain ⟨_, -, ht⟩ := Lowering.bind_eq_ok_iff.mp ht
  obtain rfl := Except.ok.inj ht
  exact ofBindings h (ofEntries (ofNames _))

end Term.Core

/-! ## Programs -/

variable {tracing : Bool}

mutual

/-- The term of a program has texts for data and names builtin functions that there are. -/
theorem Expr.core_toTerm : ∀ (e : Expr) {t : Term}, (e.toTerm tracing).1 = .ok t → t.Core
  | .var y, t, h => by
    obtain rfl : Term.var y.text = t := Except.ok.inj h
    exact .var y.text
  | .str pieces, t, h => by
    obtain ⟨ts, hts, h⟩ := Lowering.bind_eq_ok_iff.mp h
    obtain rfl : appendTerms ts = t := Except.ok.inj h
    exact .appendTerms (core_pieceTerms pieces hts)
  | .list items, t, h => by
    obtain ⟨ts, hts, h⟩ := Lowering.bind_eq_ok_iff.mp h
    obtain rfl : Term.list ts = t := Except.ok.inj h
    exact .list (core_itemTerms items hts)
  | .dict false bindings, t, h => by
    obtain ⟨bound, hbound, h⟩ := Lowering.bind_eq_ok_iff.mp h
    obtain rfl : plainDict bound = t := Except.ok.inj h
    exact .plainDict (core_entryTerms bindings hbound)
  | .dict true bindings, t, h => by
    obtain ⟨bound, hbound, h⟩ := Lowering.bind_eq_ok_iff.mp h
    exact .recursiveDict (core_entryTerms bindings hbound) h
  | .dot subject key, t, h => by
    obtain ⟨s, hs, h⟩ := Lowering.bind_eq_ok_iff.mp h
    obtain ⟨k, hk, h⟩ := Lowering.bind_eq_ok_iff.mp h
    obtain rfl : lookupTerm s k = t := Except.ok.inj h
    exact .lookupTerm (Expr.core_toTerm subject hs) (Expr.core_toTerm key hk)
  | .lambda (.name y) body, t, h => by
    obtain ⟨b, hb, h⟩ := Lowering.bind_eq_ok_iff.mp h
    obtain rfl : Term.lam (.name y.text) b = t := Except.ok.inj h
    exact .lam _ (Expr.core_toTerm body hb)
  | .lambda (.pattern ⟨fields, ellipsis⟩) body, t, h => by
    obtain ⟨b, hb, h⟩ := Lowering.bind_eq_ok_iff.mp h
    obtain ⟨defaults, hd, h⟩ := Lowering.bind_eq_ok_iff.mp h
    obtain ⟨_, -, h⟩ := Lowering.bind_eq_ok_iff.mp h
    obtain rfl := Except.ok.inj h
    exact .patternTerm (Expr.core_toTerm body hb) (core_defaultTerms fields hd)
  | .lambda (.both y ⟨fields, ellipsis⟩) body, t, h => by
    obtain ⟨b, hb, h⟩ := Lowering.bind_eq_ok_iff.mp h
    obtain ⟨defaults, hd, h⟩ := Lowering.bind_eq_ok_iff.mp h
    obtain ⟨f, hf, h⟩ := Lowering.bind_eq_ok_iff.mp h
    obtain ⟨_, -, hf⟩ := Lowering.bind_eq_ok_iff.mp hf
    obtain rfl := Except.ok.inj hf
    obtain rfl := Except.ok.inj h
    refine .lam _ (.app ?_ (.var y.text))
    exact .patternTerm (Expr.core_toTerm body hb) (core_defaultTerms fields hd)
  | .apply f a, t, h => by
    obtain ⟨g, hg, h⟩ := Lowering.bind_eq_ok_iff.mp h
    obtain ⟨b, hb, h⟩ := Lowering.bind_eq_ok_iff.mp h
    obtain rfl : Term.app g b = t := Except.ok.inj h
    exact .app (Expr.core_toTerm f hg) (Expr.core_toTerm a hb)
  | .letIn bindings body, t, h => by
    obtain ⟨bound, hbound, h⟩ := Lowering.bind_eq_ok_iff.mp h
    obtain ⟨b, hb, h⟩ := Lowering.bind_eq_ok_iff.mp h
    obtain rfl : Term.ofBindings bound.own b = t := Except.ok.inj h
    exact .ofBindings (core_definitionTerms bindings hbound) (Expr.core_toTerm body hb)

theorem core_pieceTerms : ∀ (pieces : List (Piece Expr)) {ts : List Term},
    (pieceTerms pieces tracing).1 = .ok ts → ∀ t ∈ ts, t.Core
  | [], ts, h => by
    obtain rfl : [] = ts := Except.ok.inj h
    exact fun t ht => absurd ht List.not_mem_nil
  | .literal text :: rest, ts, h => by
    obtain ⟨us, hus, h⟩ := Lowering.bind_eq_ok_iff.mp h
    obtain rfl : Term.text text :: us = ts := Except.ok.inj h
    exact List.forall_mem_cons.mpr ⟨.text text, core_pieceTerms rest hus⟩
  | .antiquote e :: rest, ts, h => by
    obtain ⟨t, ht, h⟩ := Lowering.bind_eq_ok_iff.mp h
    obtain ⟨us, hus, h⟩ := Lowering.bind_eq_ok_iff.mp h
    obtain rfl : t :: us = ts := Except.ok.inj h
    exact List.forall_mem_cons.mpr ⟨Expr.core_toTerm e ht, core_pieceTerms rest hus⟩

theorem core_itemTerms : ∀ (items : List Expr) {ts : List Term},
    (itemTerms items tracing).1 = .ok ts → ∀ t ∈ ts, t.Core
  | [], ts, h => by
    obtain rfl : [] = ts := Except.ok.inj h
    exact fun t ht => absurd ht List.not_mem_nil
  | e :: rest, ts, h => by
    obtain ⟨t, ht, h⟩ := Lowering.bind_eq_ok_iff.mp h
    obtain ⟨us, hus, h⟩ := Lowering.bind_eq_ok_iff.mp h
    obtain rfl : t :: us = ts := Except.ok.inj h
    exact List.forall_mem_cons.mpr ⟨Expr.core_toTerm e ht, core_itemTerms rest hus⟩

theorem core_entryTerms : ∀ (bindings : List (Binding Expr Expr)) {claimed : List String}
    {bound : Bound}, (entryTerms claimed bindings tracing).1 = .ok bound →
    ∀ e ∈ bound.own, e.2.Core
  | [], claimed, bound, h => by
    obtain rfl : ⟨[], []⟩ = bound := Except.ok.inj h
    exact fun e he => absurd he List.not_mem_nil
  | .equation key value :: rest, claimed, bound, h => by
    obtain ⟨name, -, h⟩ := Lowering.bind_eq_ok_iff.mp h
    obtain ⟨_, -, h⟩ := Lowering.bind_eq_ok_iff.mp h
    obtain ⟨t, ht, h⟩ := Lowering.bind_eq_ok_iff.mp h
    obtain ⟨later, hlater, h⟩ := Lowering.bind_eq_ok_iff.mp h
    obtain rfl : Bound.mk ((name, t) :: later.own) later.outer = bound := Except.ok.inj h
    exact List.forall_mem_cons.mpr ⟨Expr.core_toTerm value ht, core_entryTerms rest hlater⟩
  | .inherit none names :: rest, claimed, bound, h => by
    obtain ⟨_, -, h⟩ := Lowering.bind_eq_ok_iff.mp h
    obtain ⟨later, hlater, h⟩ := Lowering.bind_eq_ok_iff.mp h
    obtain rfl : Bound.mk later.own (names ++ later.outer) = bound := Except.ok.inj h
    have hown := core_entryTerms rest hlater
    exact hown
  | .inherit (some e) names :: rest, claimed, bound, h => by
    obtain ⟨source, hs, h⟩ := Lowering.bind_eq_ok_iff.mp h
    obtain ⟨_, -, h⟩ := Lowering.bind_eq_ok_iff.mp h
    obtain ⟨later, hlater, h⟩ := Lowering.bind_eq_ok_iff.mp h
    obtain rfl : Bound.mk (lookupNames source names ++ later.own) later.outer = bound :=
      Except.ok.inj h
    have hlookups := Term.Core.lookupNames (Expr.core_toTerm e hs) names
    exact List.forall_mem_append.mpr ⟨hlookups, core_entryTerms rest hlater⟩

theorem core_definitionTerms : ∀ (bindings : List (Binding String Expr)) {claimed : List String}
    {bound : Bound}, (definitionTerms claimed bindings tracing).1 = .ok bound →
    ∀ e ∈ bound.own, e.2.Core
  | [], claimed, bound, h => by
    obtain rfl : ⟨[], []⟩ = bound := Except.ok.inj h
    exact fun e he => absurd he List.not_mem_nil
  | .equation name value :: rest, claimed, bound, h => by
    obtain ⟨_, -, h⟩ := Lowering.bind_eq_ok_iff.mp h
    obtain ⟨t, ht, h⟩ := Lowering.bind_eq_ok_iff.mp h
    obtain ⟨later, hlater, h⟩ := Lowering.bind_eq_ok_iff.mp h
    obtain rfl : Bound.mk ((name, t) :: later.own) later.outer = bound := Except.ok.inj h
    exact List.forall_mem_cons.mpr ⟨Expr.core_toTerm value ht, core_definitionTerms rest hlater⟩
  | .inherit none names :: rest, claimed, bound, h => by
    obtain ⟨_, -, h⟩ := Lowering.bind_eq_ok_iff.mp h
    obtain ⟨later, hlater, h⟩ := Lowering.bind_eq_ok_iff.mp h
    obtain rfl : Bound.mk later.own (names ++ later.outer) = bound := Except.ok.inj h
    have hown := core_definitionTerms rest hlater
    exact hown
  | .inherit (some e) names :: rest, claimed, bound, h => by
    obtain ⟨source, hs, h⟩ := Lowering.bind_eq_ok_iff.mp h
    obtain ⟨_, -, h⟩ := Lowering.bind_eq_ok_iff.mp h
    obtain ⟨later, hlater, h⟩ := Lowering.bind_eq_ok_iff.mp h
    obtain rfl : Bound.mk (lookupNames source names ++ later.own) later.outer = bound :=
      Except.ok.inj h
    have hlookups := Term.Core.lookupNames (Expr.core_toTerm e hs) names
    exact List.forall_mem_append.mpr ⟨hlookups, core_definitionTerms rest hlater⟩

theorem core_defaultTerms : ∀ (fields : List (Field Expr)) {defaults : List (String × Term)},
    (defaultTerms fields tracing).1 = .ok defaults → ∀ e ∈ defaults, e.2.Core
  | [], defaults, h => by
    obtain rfl : [] = defaults := Except.ok.inj h
    exact fun e he => absurd he List.not_mem_nil
  | ⟨_, none⟩ :: rest, defaults, h => core_defaultTerms rest h
  | ⟨y, some d⟩ :: rest, defaults, h => by
    obtain ⟨t, ht, h⟩ := Lowering.bind_eq_ok_iff.mp h
    obtain ⟨later, hlater, h⟩ := Lowering.bind_eq_ok_iff.mp h
    obtain rfl : (y.text, t) :: later = defaults := Except.ok.inj h
    exact List.forall_mem_cons.mpr ⟨Expr.core_toTerm d ht, core_defaultTerms rest hlater⟩

end

end LazyConfig
