import LazyConfig.Name
import LazyConfig.Template
set_option autoImplicit false

/-!
# Expressions

The tree of a program.  Containers that hold expressions (`Binding`, `Field`,
`Pattern`, `Param`) are declared first, over any type of expressions, and the type
`Expr` closes the knot; so every function on trees is a structural recursion with
one helper for each kind of list.

Two rules of the language are kept where they can be:

* variables, parameters and pattern fields are named by a `Name`, so no tree can
  hold one that would need quotes;
* a pattern does not name a field twice.  `Pattern.ofFields` checks this, and it is
  the way patterns are made; `Pattern.Distinct` states it.
-/

namespace LazyConfig

/-! ## Bindings and parameters -/

/-- One binding of a dict or a `let`.  In a dict the key is an expression, in a `let` a
text. -/
inductive Binding (κ ε : Type) where
  /-- A key and its value, `key = value`. -/
  | equation (key : κ) (value : ε)
  /-- Names taken over from the surrounding scope, or from a dict that is the source. -/
  | inherit (source : Option ε) (names : List String)

/-- One key that a pattern takes out of a dict. -/
structure Field (ε : Type) where
  /-- The key, which is also the name that is bound. -/
  name : Name
  /-- What is bound if the dict lacks the key. -/
  default : Option ε

/-- A parameter that takes a dict apart. -/
structure Pattern (ε : Type) where
  /-- The keys it names. -/
  fields : List (Field ε)
  /-- Whether the dict may have further keys. -/
  ellipsis : Bool

/-- What stands in front of the colon of a function. -/
inductive Param (ε : Type) where
  /-- A name for the whole argument. -/
  | name (x : Name)
  /-- A pattern that takes the argument apart. -/
  | pattern (p : Pattern ε)
  /-- A name for the whole argument and a pattern that takes it apart. -/
  | both (x : Name) (p : Pattern ε)

namespace Pattern

variable {ε : Type}

/-- The names of the fields in order. -/
def names (p : Pattern ε) : List String := p.fields.map fun field => field.name.text

/-- No two fields have one name. -/
def Distinct (p : Pattern ε) : Prop := p.names.Nodup

instance (p : Pattern ε) : Decidable p.Distinct :=
  inferInstanceAs (Decidable p.names.Nodup)

end Pattern

/-! ## Patterns with distinct names -/

/-- The first text that stands among those seen or among the texts before it. -/
def firstRepeat? (seen : List String) : List String → Option String
  | [] => none
  | text :: rest => if seen.contains text then some text else firstRepeat? (text :: seen) rest

theorem firstRepeat?_eq_none_iff (seen texts : List String) :
    firstRepeat? seen texts = none ↔ texts.Nodup ∧ ∀ text ∈ texts, text ∉ seen := by
  induction texts generalizing seen with
  | nil => simp [firstRepeat?]
  | cons text rest ih =>
    unfold firstRepeat?
    by_cases h : text ∈ seen
    · simp [h]
    · simp only [List.contains_iff_mem, h, if_false, ih, List.nodup_cons, List.mem_cons]
      constructor
      · rintro ⟨hnd, hout⟩
        refine ⟨⟨fun hm => hout text hm (Or.inl rfl), hnd⟩, ?_⟩
        rintro t (rfl | ht)
        · exact h
        · exact fun hs => hout t ht (Or.inr hs)
      · rintro ⟨⟨hm, hnd⟩, hout⟩
        refine ⟨hnd, ?_⟩
        rintro t ht (rfl | hs)
        · exact hm ht
        · exact hout t (Or.inr ht) hs

/-- A name that a pattern would bind twice. -/
structure RepeatedField where
  /-- The name. -/
  name : String
  deriving DecidableEq, Repr

/-- The refusal in words. -/
def RepeatedField.message (e : RepeatedField) : String :=
  "duplicate name in dict pattern: " ++ e.name

/-- The pattern with the given fields, unless two of them have one name. -/
def Pattern.ofFields {ε : Type} (fields : List (Field ε)) (ellipsis : Bool) :
    Except RepeatedField (Pattern ε) :=
  match firstRepeat? [] (fields.map fun field => field.name.text) with
  | none => .ok ⟨fields, ellipsis⟩
  | some name => .error ⟨name⟩

/-- Every pattern that is made has distinct names. -/
theorem Pattern.distinct_of_ofFields {ε : Type} {fields : List (Field ε)} {ellipsis : Bool}
    {p : Pattern ε} (h : Pattern.ofFields fields ellipsis = .ok p) : p.Distinct := by
  unfold Pattern.ofFields at h
  split at h
  · next hn =>
    injection h with h
    subst h
    exact ((firstRepeat?_eq_none_iff [] _).mp hn).1
  · simp at h

/-! ## Expressions -/

/-- A program. -/
inductive Expr where
  /-- A variable. -/
  | var (name : Name)
  /-- A string, which may have antiquotes. -/
  | str (template : List (Piece Expr))
  /-- A list of items in order. -/
  | list (items : List Expr)
  /-- A dict; in a recursive one the bindings see each other. -/
  | dict (recursive : Bool) (bindings : List (Binding Expr Expr))
  /-- The entry of a dict under a key. -/
  | dot (subject key : Expr)
  /-- A function. -/
  | lambda (param : Param Expr) (body : Expr)
  /-- A function applied to an argument. -/
  | apply (function argument : Expr)
  /-- Bindings that see each other, and the body that sees them. -/
  | letIn (bindings : List (Binding String Expr)) (body : Expr)

namespace Expr

instance : Inhabited Expr := ⟨.list []⟩

/-- A string of one literal. -/
def text (s : String) : Expr := .str [.literal s]

/-- A function applied to arguments one after the other. -/
def applyAll (f : Expr) (arguments : List Expr) : Expr := arguments.foldl .apply f

/-- Keys looked up one after the other. -/
def dotAll (subject : Expr) (keys : List Expr) : Expr := keys.foldl .dot subject

end Expr

end LazyConfig
