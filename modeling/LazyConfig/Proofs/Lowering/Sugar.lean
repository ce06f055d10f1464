import LazyConfig.Proofs.Lowering.Rearrangement
set_option autoImplicit false

/-!
# Lowering: sugar

An `inherit` with a source stands for lookups in the source, one without a source in a plain
dict for variables, and a recursive dict for a `let` around a plain dict of all its names.  Each
has the term of what it stands for.  In a `let` or a recursive dict names without a source stay
what they are: an equation of a name with itself would look the name up in the new scope.
-/

namespace LazyConfig

/-! ## What stands for what -/

/-- The names as equations with what a source has under them. -/
def lookupBindings {κ : Type} (mk : String → κ) (source : Expr) (names : List String) :
    List (Binding κ Expr) :=
  names.map fun name => .equation (mk name) (.dot source (.text name))

/-- The names as equations with the variables of these names. -/
def variableBindings (names : List Name) : List (Binding Expr Expr) :=
  names.map fun x => .equation (.text x.text) (.var x)

/-- A binding of a dict as a binding of a `let`. -/
inductive Binding.Restates : Binding Expr Expr → Binding String Expr → Prop
  | equation {key : Expr} {name : String} (hkey : key.staticText? = some name) (value : Expr) :
      Restates (.equation key value) (.equation name value)
  | inherit (source : Option Expr) (names : List String) :
      Restates (.inherit source names) (.inherit source names)

/-- The first expression is sugar for the second. -/
inductive Expr.Sugar : Expr → Expr → Prop
  /-- Names out of a source, in a dict. -/
  | entries (recursive : Bool) (front back : List (Binding Expr Expr)) (source : Expr)
      {names : List String} (hsome : names ≠ []) :
      Sugar (.dict recursive (front ++ ([.inherit (some source) names] ++ back)))
        (.dict recursive (front ++ (lookupBindings .text source names ++ back)))
  /-- Names out of a source, in a `let`. -/
  | definitions (front back : List (Binding String Expr)) (body source : Expr)
      {names : List String} (hsome : names ≠ []) :
      Sugar (.letIn (front ++ ([.inherit (some source) names] ++ back)) body)
        (.letIn (front ++ (lookupBindings id source names ++ back)) body)
  /-- Names that a plain dict takes over from the scope around. -/
  | scope (front back : List (Binding Expr Expr)) (names : List Name) :
      Sugar (.dict false (front ++ ([.inherit none (names.map Name.text)] ++ back)))
        (.dict false (front ++ (variableBindings names ++ back)))
  /-- A recursive dict, whose names may be listed in any order. -/
  | recursive {bindings : List (Binding Expr Expr)} {definitions : List (Binding String Expr)}
      {names : List String} (h : List.Forall₂ Binding.Restates bindings definitions)
      (hnames : names.Perm (boundNames some definitions)) :
      Sugar (.dict true bindings) (.letIn definitions (.dict false [.inherit none names]))

/-! ## Names out of a source -/

theorem Expr.staticText?_text (name : String) : (Expr.text name).staticText? = some name := rfl

theorem lower_dot_text_iff {source : Expr} {name : String} {t : Term} :
    (Expr.dot source (.text name)).lower = .ok t ↔
      ∃ u, source.lower = .ok u ∧ lookupTerm u (.text name) = t := by
  rw [Expr.lower, Expr.toTerm, Lowering.bind_eq_ok_iff]
  refine exists_congr fun u => and_congr_right' ?_
  exact Iff.of_eq (Except.ok.injEq _ _)

section

variable {κ : Type} {key : κ → Option String} {mk : String → κ}
  (hmk : ∀ name, key (mk name) = some name)

include hmk

theorem gathers_lookupBindings {source : Expr} {u : Term} (h : source.lower = .ok u)
    (names : List String) :
    Gathers key (lookupBindings mk source names) ⟨lookupNames u names, []⟩ := by
  induction names with
  | nil => exact .nil
  | cons name rest ih =>
    exact .cons (.equation (hmk name) (lower_dot_text_iff.mpr ⟨u, h, rfl⟩)) ih

/-- Names out of a source amount to what the lookups in it do. -/
theorem gathers_lookupBindings_iff {source : Expr} {names : List String} (hsome : names ≠ [])
    {b : Bound} : Gathers key (lookupBindings mk source names) b ↔
      Gathers key [.inherit (some source) names] b := by
  rw [Gathers.singleton_iff]
  constructor
  · intro h
    obtain ⟨u, hu⟩ : ∃ u, source.lower = .ok u := by
      obtain ⟨name, rest, rfl⟩ := List.exists_cons_of_ne_nil hsome
      obtain _ | ⟨⟨-, hvalue⟩, -⟩ := h
      obtain ⟨u, hu, -⟩ := lower_dot_text_iff.mp hvalue
      exact ⟨u, hu⟩
    rw [h.unique (gathers_lookupBindings hmk hu names)]
    exact .source hu names
  · rintro (_ | _ | hsource)
    exact gathers_lookupBindings hmk hsource names

theorem gathersInto_lookupBindings {source : Expr} {names : List String} (hsome : names ≠ [])
    (front back : List (Binding κ Expr)) :
    GathersInto key (front ++ ([.inherit (some source) names] ++ back))
        (front ++ (lookupBindings mk source names ++ back)) ∧
      GathersInto key (front ++ (lookupBindings mk source names ++ back))
        (front ++ ([.inherit (some source) names] ++ back)) := by
  constructor
  · refine GathersInto.around (fun b hb => ?_) front back
    exact ⟨b, (gathers_lookupBindings_iff hmk hsome).mpr hb, .refl b⟩
  · refine GathersInto.around (fun b hb => ?_) front back
    exact ⟨b, (gathers_lookupBindings_iff hmk hsome).mp hb, .refl b⟩

end

/-! ## Names of the scope around -/

theorem gathers_variableBindings (names : List Name) :
    Gathers Expr.staticText? (variableBindings names)
      ⟨nameEntries (names.map Name.text), []⟩ := by
  induction names with
  | nil => exact .nil
  | cons x rest ih => exact .cons (.equation (Expr.staticText?_text x.text) rfl) ih

/-- Bindings in the middle can be exchanged for others with the same entries. -/
theorem lower_plainDict_of_middle {front back bindings others : List (Binding Expr Expr)}
    {b c : Bound} (hb : ∀ b', Gathers Expr.staticText? bindings b' → b' = b)
    (hc : Gathers Expr.staticText? others c) (hentries : b.entries = c.entries) {t : Term}
    (ht : (Expr.dict false (front ++ (bindings ++ back))).lower = .ok t) :
    (Expr.dict false (front ++ (others ++ back))).lower = .ok t := by
  refine lower_plainDict_of_entries (fun d hd => ?_) ht
  obtain ⟨x, yz, hx, hyz, rfl⟩ := Gathers.append_iff.mp hd
  obtain ⟨y, z, hy, hz, rfl⟩ := Gathers.append_iff.mp hyz
  obtain rfl := hb y hy
  have hsplit : ∀ y : Bound,
      (x ++ (y ++ z)).entries.Perm (x.entries ++ (y.entries ++ z.entries)) := fun y =>
    (x.entries_append_perm _).trans ((y.entries_append_perm z).append_left _)
  refine ⟨_, hx.append (hc.append hz), (hsplit y).trans ?_⟩
  rw [hentries]
  exact (hsplit c).symm

theorem Expr.lowersLike_variables (front back : List (Binding Expr Expr)) (names : List Name) :
    (dict false (front ++ ([.inherit none (names.map Name.text)] ++ back))).LowersLike
      (dict false (front ++ (variableBindings names ++ back))) := by
  have hscope : ∀ b, Gathers staticText? [.inherit none (names.map Name.text)] b →
      b = ⟨[], names.map Name.text⟩ := by
    intro b hb
    exact (Gathers.singleton_iff.mp hb).unique (.outer _)
  have hentries : Bound.entries ⟨[], names.map Name.text⟩ =
      Bound.entries ⟨nameEntries (names.map Name.text), []⟩ :=
    (List.append_nil _).symm
  refine ⟨fun t => ⟨lower_plainDict_of_middle hscope (gathers_variableBindings names) hentries,
    lower_plainDict_of_middle (fun b hb => hb.unique (gathers_variableBindings names))
      (Gathers.singleton_iff.mpr (.outer _)) hentries.symm⟩, rfl⟩

/-! ## Recursive dicts -/

theorem Binding.Restates.gives_iff {binding : Binding Expr Expr}
    {definition : Binding String Expr} (h : binding.Restates definition) {b : Bound} :
    binding.Gives Expr.staticText? b ↔ definition.Gives some b := by
  cases h with
  | equation hkey value =>
    constructor
    · rintro ⟨hkey', hvalue⟩
      obtain rfl := Option.some.inj (hkey.symm.trans hkey')
      exact .equation rfl hvalue
    · rintro ⟨hkey', hvalue⟩
      obtain rfl := Option.some.inj hkey'
      exact .equation hkey hvalue
  | inherit source names => rw [gives_inherit_iff, gives_inherit_iff]

/-- A dict amounts to what the `let` with its bindings does. -/
theorem gathers_restates_iff {bindings : List (Binding Expr Expr)}
    {definitions : List (Binding String Expr)}
    (h : List.Forall₂ Binding.Restates bindings definitions) {b : Bound} :
    Gathers Expr.staticText? bindings b ↔ Gathers some definitions b := by
  induction h generalizing b with
  | nil =>
    constructor <;>
    · rintro ⟨⟩
      exact .nil
  | cons hbinding _ ih =>
    constructor
    · rintro (_ | ⟨hfirst, hrest⟩)
      exact .cons (hbinding.gives_iff.mp hfirst) (ih.mp hrest)
    · rintro (_ | ⟨hfirst, hrest⟩)
      exact .cons (hbinding.gives_iff.mpr hfirst) (ih.mpr hrest)

/-- A dict that is not refused can be restated as bindings of a `let`. -/
theorem Gathers.exists_restates {bindings : List (Binding Expr Expr)} {b : Bound}
    (h : Gathers Expr.staticText? bindings b) :
    ∃ definitions, List.Forall₂ Binding.Restates bindings definitions := by
  induction h with
  | nil => exact ⟨[], .nil⟩
  | cons hfirst _ ih =>
    obtain ⟨definitions, hrest⟩ := ih
    cases hfirst with
    | equation hkey _ => exact ⟨_, .cons (.equation hkey _) hrest⟩
    | outer names => exact ⟨_, .cons (.inherit none names) hrest⟩
    | source _ names => exact ⟨_, .cons (.inherit _ names) hrest⟩

theorem lower_dict_of_names {names : List String} (hnodup : names.Nodup) :
    (Expr.dict false [.inherit none names]).lower =
      .ok (.ofEntries (nameEntries names)) :=
  lower_plainDict_iff.mpr ⟨_, Gathers.singleton_iff.mpr (.outer names), hnodup, rfl⟩

/-- The body of the `let` has the term of the body of the recursive bindings. -/
theorem Expr.lowersLike_recursive {bindings : List (Binding Expr Expr)}
    {definitions : List (Binding String Expr)} {names : List String}
    (h : List.Forall₂ Binding.Restates bindings definitions)
    (hnames : names.Perm (boundNames some definitions)) :
    (dict true bindings).LowersLike (letIn definitions (dict false [.inherit none names])) := by
  have hbody : ∀ b, Gathers some definitions b → b.names.Nodup →
      (dict false [.inherit none names]).lower =
        .ok (.ofEntries (nameEntries b.names)) := by
    intro b hb hnodup
    have hperm : b.names.Perm names := hb.perm_names.trans hnames.symm
    rw [lower_dict_of_names (hperm.nodup_iff.mp hnodup),
      Term.ofEntries_nameEntries_eq_of_perm hperm hnodup]
  refine ⟨fun t => ?_, rfl⟩
  show (dict true bindings).lower = .ok t ↔ (letIn definitions _).lower = .ok t
  rw [lower_recursiveDict_iff, lower_letIn_iff]
  refine exists_congr fun b => ?_
  rw [gathers_restates_iff h]
  refine and_congr_right fun hb => and_congr_right fun hnodup => ?_
  rw [hbody b hb hnodup]
  constructor
  · intro ht
    exact ⟨_, rfl, ht⟩
  · rintro ⟨u, hu, ht⟩
    rw [Except.ok.inj hu]
    exact ht

/-! ## Sugar anywhere in a program -/

theorem Expr.Sugar.lowersLike {d e : Expr} (h : d.Sugar e) : d.LowersLike e := by
  cases h with
  | entries recursive front back source hsome =>
    obtain ⟨h, h'⟩ := gathersInto_lookupBindings staticText?_text hsome front back
    exact lowersLike_dict recursive h h'
  | definitions front back body source hsome =>
    obtain ⟨h, h'⟩ := gathersInto_lookupBindings (fun _ => rfl) hsome front back
    exact lowersLike_letIn body h h'
  | scope front back names => exact lowersLike_variables front back names
  | recursive h hnames => exact lowersLike_recursive h hnames

/-- Sugar agrees with what it stands for.  Programs that differ in what is written out of it,
anywhere and any number of times, have the same core term, or none of them has one; and every
recursive dict with a term can be written out. -/
theorem lower_eq_ok_iff_of_sugar :
    (∀ d e : Expr, Relation.EqvGen (Expr.Within Expr.Sugar) d e →
      ∀ t, d.lower = .ok t ↔ e.lower = .ok t) ∧
    ∀ (bindings : List (Binding Expr Expr)) (t : Term), (Expr.dict true bindings).lower = .ok t →
      ∃ definitions, List.Forall₂ Binding.Restates bindings definitions ∧
        (Expr.dict true bindings).Sugar
          (.letIn definitions (.dict false [.inherit none (boundNames some definitions)])) := by
  refine ⟨fun d e h t => ?_, fun bindings t h => ?_⟩
  · exact Expr.lower_eq_ok_iff_of_changes (fun _ _ => Expr.Sugar.lowersLike) h t
  · obtain ⟨b, hb, -⟩ := lower_recursiveDict_iff.mp h
    obtain ⟨definitions, hrestates⟩ := hb.exists_restates
    exact ⟨definitions, hrestates, .recursive hrestates (.refl _)⟩

/-- A recursive dict with names that no variable has, written out to lookups. -/
theorem lower_eq_ok_iff_of_sugar_recursive :
    let s : Expr := .var ⟨"s", by decide⟩
    let bindings : List (Binding Expr Expr) :=
      [.equation (.str []) s, .inherit none ["a b"], .inherit (some s) ["'"]]
    let e : Expr := .letIn
      [.equation "" s, .inherit none ["a b"], .equation "'" (.dot s (.text "'"))]
      (.dict false [.inherit none ["a b", "", "'"]])
    let t : Term := .letrec [("", .var "s"), ("'", lookupTerm (.var "s") (.text "'"))]
      (.dict [("", .var ""), ("'", .var "'"), ("a b", .var "a b")])
    Relation.EqvGen (Expr.Within Expr.Sugar) (.dict true bindings) e ∧
      (Expr.dict true bindings).lower = .ok t ∧ e.lower = .ok t ∧
      ∃ definitions, List.Forall₂ Binding.Restates bindings definitions := by
  intro s bindings e t
  have hrestates : List.Forall₂ Binding.Restates bindings
      [.equation "" s, .inherit none ["a b"], .inherit (some s) ["'"]] :=
    .cons (.equation rfl s) (.cons (.inherit none _) (.cons (.inherit (some s) _) .nil))
  have hlet : Expr.Within Expr.Sugar (.dict true bindings) (.letIn
      [.equation "" s, .inherit none ["a b"], .inherit (some s) ["'"]]
      (.dict false [.inherit none ["a b", "", "'"]])) :=
    .here (.recursive hrestates (.swap "" "a b" ["'"]))
  have hlookup : Expr.Within Expr.Sugar (.letIn
      [.equation "" s, .inherit none ["a b"], .inherit (some s) ["'"]]
      (.dict false [.inherit none ["a b", "", "'"]])) e :=
    .here (.definitions [.equation "" s, .inherit none ["a b"]] [] _ s (List.cons_ne_nil _ _))
  have h : Relation.EqvGen (Expr.Within Expr.Sugar) (.dict true bindings) e :=
    .trans _ _ _ (.rel _ _ hlet) (.rel _ _ hlookup)
  obtain ⟨hsame, hexists⟩ := lower_eq_ok_iff_of_sugar
  obtain ⟨definitions, hdefinitions, -⟩ := hexists bindings t rfl
  exact ⟨h, rfl, (hsame _ _ h t).mp rfl, definitions, hdefinitions⟩

end LazyConfig
