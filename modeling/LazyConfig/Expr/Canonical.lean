import LazyConfig.Expr.Basic
set_option autoImplicit false

/-!
# Expressions: canonical trees

A tree is canonical if each of its strings is a canonical template and none of its
patterns names a field twice.  `Pattern.ofFields` makes no other patterns, so the second
condition holds of every tree that is made through it; the first is a condition on how
the literal text of strings is cut, and nothing else about the tree matters.
-/

namespace LazyConfig

mutual

/-- Whether all strings are canonical templates and all patterns have distinct names. -/
def Expr.isCanonical : Expr → Bool
  | .var _ => true
  | .str t => Template.isClean t && canonicalPieces t
  | .list items => canonicalItems items
  | .dict _ bindings => canonicalEntries bindings
  | .dot subject key => subject.isCanonical && key.isCanonical
  | .lambda (.name _) body => body.isCanonical
  | .lambda (.pattern ⟨fields, ellipsis⟩) body =>
      decide (Pattern.Distinct ⟨fields, ellipsis⟩) && canonicalFields fields && body.isCanonical
  | .lambda (.both _ ⟨fields, ellipsis⟩) body =>
      decide (Pattern.Distinct ⟨fields, ellipsis⟩) && canonicalFields fields && body.isCanonical
  | .apply f a => f.isCanonical && a.isCanonical
  | .letIn bindings body => canonicalDefinitions bindings && body.isCanonical

/-- Whether the expressions in a template are canonical. -/
def canonicalPieces : List (Piece Expr) → Bool
  | [] => true
  | .literal _ :: rest => canonicalPieces rest
  | .antiquote e :: rest => e.isCanonical && canonicalPieces rest

/-- Whether the items of a list are canonical. -/
def canonicalItems : List Expr → Bool
  | [] => true
  | e :: rest => e.isCanonical && canonicalItems rest

/-- Whether the expressions in the bindings of a dict are canonical. -/
def canonicalEntries : List (Binding Expr Expr) → Bool
  | [] => true
  | .equation k v :: rest => k.isCanonical && v.isCanonical && canonicalEntries rest
  | .inherit none _ :: rest => canonicalEntries rest
  | .inherit (some e) _ :: rest => e.isCanonical && canonicalEntries rest

/-- Whether the expressions in the bindings of a `let` are canonical. -/
def canonicalDefinitions : List (Binding String Expr) → Bool
  | [] => true
  | .equation _ v :: rest => v.isCanonical && canonicalDefinitions rest
  | .inherit none _ :: rest => canonicalDefinitions rest
  | .inherit (some e) _ :: rest => e.isCanonical && canonicalDefinitions rest

/-- Whether the defaults of the fields of a pattern are canonical. -/
def canonicalFields : List (Field Expr) → Bool
  | [] => true
  | ⟨_, none⟩ :: rest => canonicalFields rest
  | ⟨_, some e⟩ :: rest => e.isCanonical && canonicalFields rest

end

/-- Whether the pattern of a parameter, if there is one, is canonical. -/
def Param.isCanonical : Param Expr → Bool
  | .name _ => true
  | .pattern p => decide p.Distinct && canonicalFields p.fields
  | .both _ p => decide p.Distinct && canonicalFields p.fields

theorem Expr.isCanonical_lambda (p : Param Expr) (body : Expr) :
    (Expr.lambda p body).isCanonical = (p.isCanonical && body.isCanonical) := by
  cases p <;> simp [Expr.isCanonical, Param.isCanonical]

end LazyConfig
