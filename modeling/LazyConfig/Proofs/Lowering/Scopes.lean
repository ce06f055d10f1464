import LazyConfig.Proofs.Lowering
import Mathlib.Data.List.Basic
set_option autoImplicit false

/-!
# Lowering: scopes

The bindings of a dict and those of a `let` are taken apart alike, except for how a key is
read.  `Amounts` says what they amount to if nothing is refused, `Refused` why they are
refused, both for the two kinds of scope at once.
-/

namespace LazyConfig

/-! ## What a scope binds -/

/-- The text of a key that is known before evaluation. -/
def Expr.staticText? : Expr → Option String
  | .str t => Template.static? (Template.normalize t)
  | _ => none

namespace Binding

variable {κ ε : Type}

/-- The names that a binding binds if its key is read by `key`. -/
def names (key : κ → Option String) : Binding κ ε → List String
  | .equation k _ => (key k).toList
  | .inherit _ names => names

/-- The expression is the value or the source of the binding. -/
inductive Holds : Binding κ ε → ε → Prop
  | value (k : κ) (e : ε) : Holds (.equation k e) e
  | source (e : ε) (names : List String) : Holds (.inherit (some e) names) e

end Binding

/-- The names that bindings bind, in order and with repetitions. -/
def boundNames {κ ε : Type} (key : κ → Option String) (bindings : List (Binding κ ε)) :
    List String :=
  bindings.flatMap (Binding.names key)

/-! ## Claims -/

section

variable {scope : Scope} {taken later names : List String} {name : String} {tracing : Bool}
  {err : LoweringError}

theorem claim_eq_ok_iff :
    (claim scope taken name tracing).1 = .ok later ↔ name ∉ taken ∧ name :: taken = later := by
  unfold claim
  by_cases h : name ∈ taken
  · rw [if_pos (List.contains_iff_mem.mpr h)]
    constructor
    · intro hok
      exact nomatch hok
    · rintro ⟨hnew, -⟩
      exact absurd h hnew
  · rw [if_neg (fun hc => h (List.contains_iff_mem.mp hc))]
    constructor
    · intro hok
      exact ⟨h, Except.ok.inj hok⟩
    · rintro ⟨-, rfl⟩
      rfl

theorem repeated_of_claim (h : (claim scope taken name tracing).1 = .error err) :
    name ∈ taken ∧ err = .repeatedName name scope := by
  unfold claim at h
  by_cases hmem : name ∈ taken
  · rw [if_pos (List.contains_iff_mem.mpr hmem)] at h
    exact ⟨hmem, (Except.error.inj h).symm⟩
  · rw [if_neg (fun hc => hmem (List.contains_iff_mem.mp hc))] at h
    exact nomatch h

theorem claimAll_eq_ok_iff :
    (claimAll scope taken names tracing).1 = .ok later ↔
      names.Nodup ∧ (∀ name ∈ names, name ∉ taken) ∧ names.reverse ++ taken = later := by
  induction names generalizing taken with
  | nil =>
    constructor
    · intro h
      exact ⟨List.nodup_nil, fun _ hname => absurd hname List.not_mem_nil, Except.ok.inj h⟩
    · rintro ⟨-, -, rfl⟩
      rfl
  | cons name rest ih =>
    rw [claimAll, Lowering.bind_eq_ok_iff, List.nodup_cons, List.reverse_cons, List.append_assoc,
      List.singleton_append]
    constructor
    · rintro ⟨more, hmore, h⟩
      obtain ⟨hnew, rfl⟩ := claim_eq_ok_iff.mp hmore
      obtain ⟨hnodup, hfresh, hlater⟩ := ih.mp h
      refine ⟨⟨?_, hnodup⟩, ?_, hlater⟩
      · intro hmem
        exact hfresh name hmem List.mem_cons_self
      · intro x hx
        rcases List.mem_cons.mp hx with rfl | hx
        · exact hnew
        · exact fun htaken => hfresh x hx (List.mem_cons_of_mem _ htaken)
    · rintro ⟨⟨hout, hnodup⟩, hfresh, hlater⟩
      refine ⟨_, claim_eq_ok_iff.mpr ⟨hfresh name List.mem_cons_self, rfl⟩,
        ih.mpr ⟨hnodup, ?_, hlater⟩⟩
      intro x hx htaken
      rcases List.mem_cons.mp htaken with rfl | htaken
      · exact hout hx
      · exact hfresh x (List.mem_cons_of_mem _ hx) htaken

theorem repeated_of_claimAll (h : (claimAll scope taken names tracing).1 = .error err) :
    ∃ name, 2 ≤ (taken ++ names).count name ∧ err = .repeatedName name scope := by
  induction names generalizing taken with
  | nil => exact nomatch h
  | cons name rest ih =>
    rw [claimAll, Lowering.bind_eq_error_iff] at h
    rcases h with h | ⟨more, hmore, h⟩
    · obtain ⟨hmem, rfl⟩ := repeated_of_claim h
      have htaken := List.count_pos_iff.mpr hmem
      refine ⟨name, ?_, rfl⟩
      rw [List.count_append, List.count_cons_self]
      omega
    · obtain ⟨-, rfl⟩ := claim_eq_ok_iff.mp hmore
      obtain ⟨x, hcount, herr⟩ := ih h
      exact ⟨x, List.perm_middle.count_eq x ▸ hcount, herr⟩

end

/-! ## Keys -/

/-- Why a key is refused. -/
inductive Expr.BadKey : Expr → LoweringError → Prop
  /-- It is a string that keeps a hole or a cut when it is normalized. -/
  | antiquoted {t : List (Piece Expr)} (h : Template.static? (Template.normalize t) = none) :
      BadKey (.str t) .antiquotedKey
  /-- It is no string. -/
  | computed {e : Expr} (h : ∀ t, e ≠ .str t) : BadKey e (.computedKey e.kindLabel)

theorem Expr.BadKey.staticText?_eq_none {k : Expr} {err : LoweringError} (h : k.BadKey err) :
    k.staticText? = none := by
  cases h with
  | antiquoted h => exact h
  | computed h =>
    cases k with
    | str t => exact absurd rfl (h t)
    | _ => rfl

section

variable {k : Expr} {tracing : Bool}

theorem staticKey_eq_ok_iff {name : String} :
    (staticKey k tracing).1 = .ok name ↔ k.staticText? = some name := by
  cases k with
  | str t =>
    unfold staticKey Expr.staticText?
    dsimp only
    cases Template.static? (Template.normalize t) with
    | some text =>
      constructor
      · intro h
        exact congrArg some (Except.ok.inj h)
      · intro h
        exact congrArg Except.ok (Option.some.inj h)
    | none => exact ⟨(nomatch ·), (nomatch ·)⟩
  | _ => exact ⟨(nomatch ·), (nomatch ·)⟩

theorem badKey_of_staticKey {err : LoweringError} (h : (staticKey k tracing).1 = .error err) :
    k.BadKey err := by
  cases k with
  | str t =>
    unfold staticKey at h
    dsimp only at h
    cases hstatic : Template.static? (Template.normalize t) with
    | some text =>
      rw [hstatic] at h
      exact nomatch h
    | none =>
      rw [hstatic] at h
      exact Except.error.inj h ▸ .antiquoted hstatic
  | _ => exact Except.error.inj h ▸ .computed (fun _ he => nomatch he)

end

/-! ## Scopes that are not refused -/

/-- What bindings amount to if none of them is refused and the names `taken` are not free. -/
inductive Amounts {κ : Type} (key : κ → Option String) :
    List String → List (Binding κ Expr) → Bound → Prop
  | nil (taken : List String) : Amounts key taken [] ⟨[], []⟩
  | equation {taken : List String} {k : κ} {name : String} {value : Expr} {t : Term}
      {rest : List (Binding κ Expr)} {later : Bound} (hkey : key k = some name)
      (hnew : name ∉ taken) (hvalue : value.lower = .ok t)
      (hrest : Amounts key (name :: taken) rest later) :
      Amounts key taken (.equation k value :: rest) ⟨(name, t) :: later.own, later.outer⟩
  | outer {taken names : List String} {rest : List (Binding κ Expr)} {later : Bound}
      (hnodup : names.Nodup) (hnew : ∀ name ∈ names, name ∉ taken)
      (hrest : Amounts key (names.reverse ++ taken) rest later) :
      Amounts key taken (.inherit none names :: rest) ⟨later.own, names ++ later.outer⟩
  | source {taken names : List String} {e : Expr} {u : Term} {rest : List (Binding κ Expr)}
      {later : Bound} (hsource : e.lower = .ok u) (hnodup : names.Nodup)
      (hnew : ∀ name ∈ names, name ∉ taken)
      (hrest : Amounts key (names.reverse ++ taken) rest later) :
      Amounts key taken (.inherit (some e) names :: rest)
        ⟨lookupNames u names ++ later.own, later.outer⟩

theorem amounts_of_entryTerms {taken : List String} {bindings : List (Binding Expr Expr)}
    {bound : Bound} (h : (entryTerms taken bindings false).1 = .ok bound) :
    Amounts Expr.staticText? taken bindings bound := by
  induction bindings generalizing taken bound with
  | nil => exact Except.ok.inj h ▸ .nil taken
  | cons binding rest ih =>
    cases binding with
    | equation k value =>
      rw [entryTerms, Lowering.bind_eq_ok_iff] at h
      obtain ⟨name, hkey, h⟩ := h
      obtain ⟨more, hmore, h⟩ := Lowering.bind_eq_ok_iff.mp h
      obtain ⟨hnew, rfl⟩ := claim_eq_ok_iff.mp hmore
      obtain ⟨t, hvalue, h⟩ := Lowering.bind_eq_ok_iff.mp h
      obtain ⟨later, hrest, h⟩ := Lowering.bind_eq_ok_iff.mp h
      exact Except.ok.inj h ▸ .equation (staticKey_eq_ok_iff.mp hkey) hnew hvalue (ih hrest)
    | inherit source names =>
      cases source with
      | none =>
        rw [entryTerms, Lowering.bind_eq_ok_iff] at h
        obtain ⟨more, hmore, h⟩ := h
        obtain ⟨hnodup, hnew, rfl⟩ := claimAll_eq_ok_iff.mp hmore
        obtain ⟨later, hrest, h⟩ := Lowering.bind_eq_ok_iff.mp h
        exact Except.ok.inj h ▸ .outer hnodup hnew (ih hrest)
      | some e =>
        rw [entryTerms, Lowering.bind_eq_ok_iff] at h
        obtain ⟨u, hsource, h⟩ := h
        obtain ⟨more, hmore, h⟩ := Lowering.bind_eq_ok_iff.mp h
        obtain ⟨hnodup, hnew, rfl⟩ := claimAll_eq_ok_iff.mp hmore
        obtain ⟨later, hrest, h⟩ := Lowering.bind_eq_ok_iff.mp h
        exact Except.ok.inj h ▸ .source hsource hnodup hnew (ih hrest)

theorem amounts_of_definitionTerms {taken : List String} {bindings : List (Binding String Expr)}
    {bound : Bound} (h : (definitionTerms taken bindings false).1 = .ok bound) :
    Amounts some taken bindings bound := by
  induction bindings generalizing taken bound with
  | nil => exact Except.ok.inj h ▸ .nil taken
  | cons binding rest ih =>
    cases binding with
    | equation name value =>
      rw [definitionTerms, Lowering.bind_eq_ok_iff] at h
      obtain ⟨more, hmore, h⟩ := h
      obtain ⟨hnew, rfl⟩ := claim_eq_ok_iff.mp hmore
      obtain ⟨t, hvalue, h⟩ := Lowering.bind_eq_ok_iff.mp h
      obtain ⟨later, hrest, h⟩ := Lowering.bind_eq_ok_iff.mp h
      exact Except.ok.inj h ▸ .equation rfl hnew hvalue (ih hrest)
    | inherit source names =>
      cases source with
      | none =>
        rw [definitionTerms, Lowering.bind_eq_ok_iff] at h
        obtain ⟨more, hmore, h⟩ := h
        obtain ⟨hnodup, hnew, rfl⟩ := claimAll_eq_ok_iff.mp hmore
        obtain ⟨later, hrest, h⟩ := Lowering.bind_eq_ok_iff.mp h
        exact Except.ok.inj h ▸ .outer hnodup hnew (ih hrest)
      | some e =>
        rw [definitionTerms, Lowering.bind_eq_ok_iff] at h
        obtain ⟨u, hsource, h⟩ := h
        obtain ⟨more, hmore, h⟩ := Lowering.bind_eq_ok_iff.mp h
        obtain ⟨hnodup, hnew, rfl⟩ := claimAll_eq_ok_iff.mp hmore
        obtain ⟨later, hrest, h⟩ := Lowering.bind_eq_ok_iff.mp h
        exact Except.ok.inj h ▸ .source hsource hnodup hnew (ih hrest)

namespace Amounts

variable {κ : Type} {key : κ → Option String} {taken : List String}
  {bindings : List (Binding κ Expr)} {bound : Bound}

/-- The key of each equation is known. -/
theorem key_eq_some (h : Amounts key taken bindings bound) {k : κ} {value : Expr}
    (hmem : .equation k value ∈ bindings) : ∃ name, key k = some name := by
  induction h with
  | nil => exact absurd hmem List.not_mem_nil
  | equation hkey _ _ _ ih =>
    rcases List.mem_cons.mp hmem with heq | hmem
    · cases heq
      exact ⟨_, hkey⟩
    · exact ih hmem
  | outer _ _ _ ih | source _ _ _ _ ih =>
    rcases List.mem_cons.mp hmem with heq | hmem
    · exact nomatch heq
    · exact ih hmem

/-- Each value and each source has its term. -/
theorem lowers_of_holds (h : Amounts key taken bindings bound) {binding : Binding κ Expr}
    (hmem : binding ∈ bindings) {e : Expr} (he : binding.Holds e) : ∃ t, e.lower = .ok t := by
  induction h with
  | nil => exact absurd hmem List.not_mem_nil
  | equation _ _ hvalue _ ih =>
    rcases List.mem_cons.mp hmem with rfl | hmem
    · cases he with
      | value => exact ⟨_, hvalue⟩
    · exact ih hmem
  | outer _ _ _ ih =>
    rcases List.mem_cons.mp hmem with rfl | hmem
    · exact nomatch he
    · exact ih hmem
  | source hsource _ _ _ ih =>
    rcases List.mem_cons.mp hmem with rfl | hmem
    · cases he with
      | source => exact ⟨_, hsource⟩
    · exact ih hmem

/-- No name is bound twice, and none that is taken. -/
theorem nodup_boundNames (h : Amounts key taken bindings bound) :
    (boundNames key bindings).Nodup ∧ ∀ name ∈ boundNames key bindings, name ∉ taken := by
  induction h with
  | nil => exact ⟨List.nodup_nil, fun _ hname => absurd hname List.not_mem_nil⟩
  | @equation taken k name value t rest later hkey hnew hvalue hrest ih =>
    obtain ⟨hnodup, hfresh⟩ := ih
    have hnames : boundNames key (.equation k value :: rest) = name :: boundNames key rest := by
      rw [boundNames, List.flatMap_cons, Binding.names, hkey]
      rfl
    rw [hnames]
    refine ⟨List.nodup_cons.mpr ⟨fun hmem => hfresh name hmem List.mem_cons_self, hnodup⟩, ?_⟩
    intro x hx
    rcases List.mem_cons.mp hx with rfl | hx
    · exact hnew
    · exact fun htaken => hfresh x hx (List.mem_cons_of_mem _ htaken)
  | outer hnames hnew _ ih | source _ hnames hnew _ ih =>
    obtain ⟨hnodup, hfresh⟩ := ih
    constructor
    · refine List.nodup_append.mpr ⟨hnames, hnodup, ?_⟩
      rintro x hx y hy rfl
      exact hfresh x hy (List.mem_append_left _ (List.mem_reverse.mpr hx))
    · intro x hx
      rcases List.mem_append.mp hx with hx | hx
      · exact hnew x hx
      · exact fun htaken => hfresh x hx (List.mem_append_right _ htaken)

end Amounts

/-! ## Scopes that are refused -/

/-- Why bindings are refused if the names `taken` are not free. -/
inductive Refused {κ : Type} (key : κ → Option String) (bad : κ → LoweringError → Prop)
    (scope : Scope) (taken : List String) (bindings : List (Binding κ Expr)) :
    LoweringError → Prop
  | key {k : κ} {value : Expr} {err : LoweringError} (hmem : .equation k value ∈ bindings)
      (hkey : bad k err) : Refused key bad scope taken bindings err
  | part {binding : Binding κ Expr} {e : Expr} {err : LoweringError} (hmem : binding ∈ bindings)
      (he : binding.Holds e) (herr : e.lower = .error err) :
      Refused key bad scope taken bindings err
  | name {name : String} (hcount : 2 ≤ (taken ++ boundNames key bindings).count name) :
      Refused key bad scope taken bindings (.repeatedName name scope)

namespace Refused

variable {κ : Type} {key : κ → Option String} {bad : κ → LoweringError → Prop} {scope : Scope}
  {taken names : List String} {binding : Binding κ Expr} {rest : List (Binding κ Expr)}
  {err : LoweringError}

/-- A refusal behind one binding, whose names are taken from there on. -/
theorem cons (h : Refused key bad scope (names.reverse ++ taken) rest err)
    (hnames : binding.names key = names) : Refused key bad scope taken (binding :: rest) err := by
  cases h with
  | key hmem hkey => exact .key (List.mem_cons_of_mem _ hmem) hkey
  | part hmem he herr => exact .part (List.mem_cons_of_mem _ hmem) he herr
  | name hcount =>
    refine .name ?_
    rw [boundNames, List.flatMap_cons, hnames]
    simp only [List.count_append, List.count_reverse] at hcount ⊢
    unfold boundNames at hcount
    omega

/-- A refusal at the names of the first binding. -/
theorem of_names {name : String} (hcount : 2 ≤ (taken ++ names).count name)
    (hnames : binding.names key = names) :
    Refused key bad scope taken (binding :: rest) (.repeatedName name scope) := by
  refine .name ?_
  rw [boundNames, List.flatMap_cons, hnames, ← List.append_assoc, List.count_append]
  omega

/-- A refusal at the names of the first binding, which are claimed one after the other. -/
theorem of_claimAll {tracing : Bool} (h : (claimAll scope taken names tracing).1 = .error err)
    (hnames : binding.names key = names) : Refused key bad scope taken (binding :: rest) err := by
  obtain ⟨name, hcount, rfl⟩ := repeated_of_claimAll h
  exact of_names hcount hnames

/-- A refusal at the name of the first binding, which is claimed. -/
theorem of_claim {tracing : Bool} {name : String}
    (h : (claim scope taken name tracing).1 = .error err) (hnames : binding.names key = [name]) :
    Refused key bad scope taken (binding :: rest) err := by
  obtain ⟨hmem, rfl⟩ := repeated_of_claim h
  have htaken := List.count_pos_iff.mpr hmem
  refine of_names ?_ hnames
  rw [List.count_append, List.count_singleton_self]
  omega

end Refused

theorem refused_of_entryTerms {taken : List String} {bindings : List (Binding Expr Expr)}
    {err : LoweringError} (h : (entryTerms taken bindings false).1 = .error err) :
    Refused Expr.staticText? Expr.BadKey .dict taken bindings err := by
  induction bindings generalizing taken with
  | nil => exact nomatch h
  | cons binding rest ih =>
    cases binding with
    | equation k value =>
      rw [entryTerms, Lowering.bind_eq_error_iff] at h
      rcases h with h | ⟨name, hkey, h⟩
      · exact .key List.mem_cons_self (badKey_of_staticKey h)
      have hnames : Binding.names Expr.staticText? (.equation k value) = [name] := by
        rw [Binding.names, staticKey_eq_ok_iff.mp hkey]
        rfl
      rcases Lowering.bind_eq_error_iff.mp h with h | ⟨more, hmore, h⟩
      · exact .of_claim h hnames
      rcases Lowering.bind_eq_error_iff.mp h with h | ⟨t, -, h⟩
      · exact .part List.mem_cons_self (.value k value) h
      rw [Lowering.bind_pure_eq_error_iff] at h
      obtain ⟨-, rfl⟩ := claim_eq_ok_iff.mp hmore
      exact (ih h).cons hnames
    | inherit source names =>
      cases source with
      | none =>
        rw [entryTerms, Lowering.bind_eq_error_iff] at h
        rcases h with h | ⟨more, hmore, h⟩
        · exact .of_claimAll h rfl
        rw [Lowering.bind_pure_eq_error_iff] at h
        obtain ⟨-, -, rfl⟩ := claimAll_eq_ok_iff.mp hmore
        exact (ih h).cons rfl
      | some e =>
        rw [entryTerms, Lowering.bind_eq_error_iff] at h
        rcases h with h | ⟨u, -, h⟩
        · exact .part List.mem_cons_self (.source e names) h
        rcases Lowering.bind_eq_error_iff.mp h with h | ⟨more, hmore, h⟩
        · exact .of_claimAll h rfl
        rw [Lowering.bind_pure_eq_error_iff] at h
        obtain ⟨-, -, rfl⟩ := claimAll_eq_ok_iff.mp hmore
        exact (ih h).cons rfl

theorem refused_of_definitionTerms {taken : List String}
    {bindings : List (Binding String Expr)} {err : LoweringError}
    (h : (definitionTerms taken bindings false).1 = .error err) :
    Refused some (fun _ _ => False) .letIn taken bindings err := by
  induction bindings generalizing taken with
  | nil => exact nomatch h
  | cons binding rest ih =>
    cases binding with
    | equation name value =>
      rw [definitionTerms, Lowering.bind_eq_error_iff] at h
      rcases h with h | ⟨more, hmore, h⟩
      · exact .of_claim h rfl
      rcases Lowering.bind_eq_error_iff.mp h with h | ⟨t, -, h⟩
      · exact .part List.mem_cons_self (.value name value) h
      rw [Lowering.bind_pure_eq_error_iff] at h
      obtain ⟨-, rfl⟩ := claim_eq_ok_iff.mp hmore
      exact (ih h).cons rfl
    | inherit source names =>
      cases source with
      | none =>
        rw [definitionTerms, Lowering.bind_eq_error_iff] at h
        rcases h with h | ⟨more, hmore, h⟩
        · exact .of_claimAll h rfl
        rw [Lowering.bind_pure_eq_error_iff] at h
        obtain ⟨-, -, rfl⟩ := claimAll_eq_ok_iff.mp hmore
        exact (ih h).cons rfl
      | some e =>
        rw [definitionTerms, Lowering.bind_eq_error_iff] at h
        rcases h with h | ⟨u, -, h⟩
        · exact .part List.mem_cons_self (.source e names) h
        rcases Lowering.bind_eq_error_iff.mp h with h | ⟨more, hmore, h⟩
        · exact .of_claimAll h rfl
        rw [Lowering.bind_pure_eq_error_iff] at h
        obtain ⟨-, -, rfl⟩ := claimAll_eq_ok_iff.mp hmore
        exact (ih h).cons rfl

end LazyConfig
